import DepLeak.Dep.Lists
import Mathlib.Data.Finset.Card
import Mathlib.Data.Finset.Image

/-!
# One entry for each temporary and each register

The helpers erase the entries of what they assign before they record a new one, so that
`var_deps` has one entry for a temporary at most and `reg_deps` one for a register, and a
superblock that is executed again and again does not make them longer. The exception is
`instrument_assgn_tmp_get`, which puts its entry in front of those that are there. The lists
are as they should be along a run exactly if that helper is never called with something to
record for a temporary that has an entry (`DepLeak.oneEntryRun_iff`).

The newest entry hides the others from the lookups, so that nothing else tells of them until
the temporary is erased.
-/

namespace DepLeak

open LinkedHeap Runs

/-! ### The property -/

/-- The temporaries that were assigned since `var_deps` was last freed. -/
def tempsUsed (es : List Event) : Finset (BitVec 32) := es.foldl step ∅
where
  /-- What an event adds, or that it frees the list. -/
  step (T : Finset (BitVec 32)) : Event → Finset (BitVec 32)
    | .helper .exit => ∅
    | .helper c => c.dst?.elim T fun t => insert t T
    | .preCall _ _ => T

/-- The registers that temporaries were put into. -/
def offsetsUsed (es : List Event) : Finset (BitVec 32) := es.foldl step ∅
where
  /-- What an event adds. -/
  step (R : Finset (BitVec 32)) : Event → Finset (BitVec 32)
    | .helper (.putTmp r _) => insert r R
    | _ => R

/-- **There is one entry at most** for a temporary and for a register, and so no more
entries than were used. -/
structure OneEach (es : List Event) (s : State) : Prop where
  /-- For a temporary in `var_deps`. -/
  temps : ∀ l q, Seg s.nodes s.varDeps l q → ∀ t, l.countP (fun x => isTemp t x.2) ≤ 1
  /-- For a register in `reg_deps`. -/
  regs : ∀ l q, Seg s.nodes s.regDeps l q → ∀ r, l.countP (fun x => isReg r x.2) ≤ 1
  /-- As many entries as temporaries, in `var_deps`. -/
  varsBound : ∀ l q, Seg s.nodes s.varDeps l q → l.length ≤ (tempsUsed es).card
  /-- As many as temporaries and registers, in `reg_deps`. -/
  regsBound : ∀ l q, Seg s.nodes s.regDeps l q →
    l.length ≤ (tempsUsed es).card + (offsetsUsed es).card

/-- **In every state of the run** there is one entry at most. -/
def OneEntryRun (trace : Bool) (es : List Event) : Prop :=
  ∀ es₁ es₂, es = es₁ ++ es₂ → ∀ s, run stepTool (.init trace) es₁ = .ok s → OneEach es₁ s

/-- **No register is moved on top of an entry**: where the run gets a register into a
temporary that has one, nothing is recorded for the register. -/
def GetsFresh (trace : Bool) (es : List Event) : Prop :=
  ∀ es₁ t r es₂, es = es₁ ++ .helper (.assgnTmpGet t r) :: es₂ →
    ∀ s, run stepTool (.init trace) es₁ = .ok s → HasEntry s t → tracked s (.reg r) = ∅

/-! ### What is used -/

section Used

variable {es : List Event} {e : Event} {c : HelperCall} {t r : BitVec 32}

theorem tempsUsed_snoc : tempsUsed (es ++ [e]) = tempsUsed.step (tempsUsed es) e :=
  List.foldl_append

theorem offsetsUsed_snoc : offsetsUsed (es ++ [e]) = offsetsUsed.step (offsetsUsed es) e :=
  List.foldl_append

/-- Only an exit takes temporaries away. -/
theorem tempsUsed_subset (he : e ≠ .helper .exit) : tempsUsed es ⊆ tempsUsed (es ++ [e]) := by
  rw [tempsUsed_snoc]
  rcases e with c | ⟨n, args⟩
  · cases c <;> first
      | exact absurd rfl he
      | exact Finset.Subset.refl _
      | exact Finset.subset_insert _ _
  · exact Finset.Subset.refl _

theorem mem_tempsUsed (hc : c.dst? = some t) : t ∈ tempsUsed (es ++ [.helper c]) := by
  rw [tempsUsed_snoc]
  cases c <;> first
    | cases hc
      exact Finset.mem_insert_self _ _
    | cases hc

theorem offsetsUsed_subset : offsetsUsed es ⊆ offsetsUsed (es ++ [e]) := by
  rw [offsetsUsed_snoc]
  rcases e with c | ⟨n, args⟩
  · cases c <;> first
      | exact Finset.Subset.refl _
      | exact Finset.subset_insert _ _
  · exact Finset.Subset.refl _

theorem mem_offsetsUsed : r ∈ offsetsUsed (es ++ [.helper (.putTmp r t)]) := by
  rw [offsetsUsed_snoc]
  exact Finset.mem_insert_self _ _

/-- A list without repetitions is no longer than what it is taken from. -/
theorem length_le_card {α : Type} [DecidableEq α] {l : List α} {S : Finset α} (hl : l.Nodup)
    (hsub : ∀ x ∈ l, x ∈ S) : l.length ≤ S.card := by
  rw [← List.toFinset_card_of_nodup hl]
  exact Finset.card_le_card fun x hx => hsub x (List.mem_toFinset.mp hx)

end Used

/-! ### One entry each, on lists -/

namespace DepState

/-- What the entries are for: each for something else, the temporaries among `T` and the
registers among `R`. Where `var_deps` dangles, `reg_deps` may have what was left of it. -/
structure Single (T R : Finset (BitVec 32)) (a : DepState) : Prop where
  nodupVars : (a.vars.map Entry.val).Nodup
  nodupRegs : (a.regs.map Entry.val).Nodup
  vars : ∀ e ∈ a.vars, ∃ t ∈ T, e.val = .temp t
  regs : ∀ e ∈ a.regs,
    (a.dangling = true ∧ ∃ t ∈ T, e.val = .temp t) ∨ ∃ r ∈ R, e.val = .reg r

variable {T R T' R' : Finset (BitVec 32)} {a a' : DepState} {t r : BitVec 32} {deps : List ℤ}

theorem Single.mono (h : Single T R a) (hT : T ⊆ T') (hR : R ⊆ R') : Single T' R' a where
  nodupVars := h.nodupVars
  nodupRegs := h.nodupRegs
  vars e he := (h.vars e he).imp fun _ ht => ht.imp_left fun hmem => hT hmem
  regs e he := (h.regs e he).imp
    (fun hd => hd.imp_right fun ht => ht.imp fun _ ht => ht.imp_left fun hmem => hT hmem)
    fun hr => hr.imp fun _ hr => hr.imp_left fun hmem => hR hmem

theorem nodup_filter_val {es : List Entry} (h : (es.map Entry.val).Nodup) (p : Entry → Bool) :
    ((es.filter p).map Entry.val).Nodup := h.sublist (List.filter_sublist.map _)

/-- Erasing a temporary, also where it takes the registers away. -/
theorem Single.eraseTmp (h : Single T R a) (he : a.eraseTmp t = .ok a') : Single T R a' := by
  obtain ⟨-, ⟨-, rfl⟩ | ⟨-, rfl⟩⟩ := eraseTmp_eq_ok he
  · exact ⟨nodup_filter_val h.nodupVars _, h.nodupRegs,
      fun e he => h.vars e (List.mem_of_mem_filter he), h.regs⟩
  · exact ⟨List.nodup_nil, nodup_filter_val h.nodupVars _,
      fun e he => absurd he List.not_mem_nil,
      fun e he => .inl ⟨rfl, h.vars e (List.mem_of_mem_filter he)⟩⟩

theorem Fresh.val_notMem (h : a.Fresh t) : DepVal.temp t ∉ a.vars.map Entry.val := by
  intro hmem
  obtain ⟨e, he, hval⟩ := List.mem_map.mp hmem
  simpa [Entry.isTemp, hval] using h e he

theorem Single.prependVar (h : Single T R a) (ht : t ∈ T) (hfresh : a.Fresh t) :
    Single T R (a.prependVar t deps) where
  nodupVars := List.nodup_cons.mpr ⟨hfresh.val_notMem, h.nodupVars⟩
  nodupRegs := h.nodupRegs
  vars := List.forall_mem_cons.mpr ⟨⟨t, ht, rfl⟩, h.vars⟩
  regs := h.regs

theorem Single.pushVar (h : Single T R a) (ht : t ∈ T) (hfresh : a.Fresh t) (deps : List ℤ) :
    Single T R (a.pushVar t deps) where
  nodupVars := by
    simp only [DepState.pushVar, List.map_append, List.map_cons, List.map_nil]
    exact h.nodupVars.append (List.nodup_singleton _)
      (List.disjoint_singleton.mpr hfresh.val_notMem)
  nodupRegs := h.nodupRegs
  vars := List.forall_mem_append.mpr ⟨h.vars, List.forall_mem_singleton.mpr ⟨t, ht, rfl⟩⟩
  regs := h.regs

theorem Single.eraseReg (h : Single T R a) (r : BitVec 32) : Single T R (a.eraseReg r) where
  nodupVars := h.nodupVars
  nodupRegs := nodup_filter_val h.nodupRegs _
  vars := h.vars
  regs e he := h.regs e (List.mem_of_mem_filter he)

theorem Single.prependReg (h : Single T R a) (hr : r ∈ R) :
    Single T R ((a.eraseReg r).prependReg r deps) where
  nodupVars := h.nodupVars
  nodupRegs := by
    refine List.nodup_cons.mpr ⟨fun hmem => ?_, (h.eraseReg r).nodupRegs⟩
    obtain ⟨e, he, hval⟩ := List.mem_map.mp hmem
    have hne := (List.mem_filter.mp he).2
    simp [Entry.isReg, show e.val = .reg r from hval] at hne
  vars := h.vars
  regs := List.forall_mem_cons.mpr ⟨.inr ⟨r, hr, rfl⟩, (h.eraseReg r).regs⟩

/-- **A helper keeps one entry each**, if it does not put one on top of another. -/
theorem Single.call {es : List Event} {c : HelperCall}
    (h : Single (tempsUsed es) (offsetsUsed es) a)
    (hget : ∀ t r, c = .assgnTmpGet t r → ¬a.Fresh t → a.findReg r = [])
    (hc : a.call c = .ok a') :
    Single (tempsUsed (es ++ [.helper c])) (offsetsUsed (es ++ [.helper c])) a' := by
  obtain ⟨deps, hs, hc⟩ := bind_eq_ok.mp hc
  have hmono : c ≠ .exit →
      Single (tempsUsed (es ++ [.helper c])) (offsetsUsed (es ++ [.helper c])) a := fun hne =>
    h.mono (tempsUsed_subset fun he => hne (Event.helper.inj he)) offsetsUsed_subset
  cases assign_outcome hc with
  | exit hd =>
    -- the registers are there as long as nothing dangles
    refine ⟨List.nodup_nil, h.nodupRegs, fun e he => absurd he List.not_mem_nil, fun e he => ?_⟩
    rcases h.regs e he with ⟨hd', -⟩ | ⟨r, hr, hval⟩
    · rw [hd] at hd'
      cases hd'
    · exact .inr ⟨r, offsetsUsed_subset hr, hval⟩
  | skip hrec => exact hmono fun hexit => by simp [hexit, HelperCall.records] at hrec
  | erase he => exact (hmono HelperCall.noConfusion).eraseTmp he
  | front ht _ _ he =>
    refine ((hmono ?_).eraseTmp he).prependVar (mem_tempsUsed ht) (fresh_of_eraseTmp he)
    rintro rfl
    cases ht
  | back ht _ _ he _ =>
    have hne : c ≠ .exit := by
      rintro rfl
      cases ht
    have hback := ((hmono hne).eraseTmp he).pushVar (mem_tempsUsed ht) (fresh_of_eraseTmp he) deps
    exact ⟨hback.nodupVars, hback.nodupRegs, hback.vars, hback.regs⟩
  | @get t r hne =>
    refine (hmono HelperCall.noConfusion).prependVar (mem_tempsUsed rfl) ?_
    by_contra hnot
    exact hne ((Except.ok.inj hs).symm.trans (hget t r rfl hnot))
  | clear hset | store _ hset =>
    have hm := hmono HelperCall.noConfusion
    obtain ⟨-, tb, rfl, -⟩ := setShadow_eq_ok hset
    exact ⟨hm.nodupVars, hm.nodupRegs, hm.vars, hm.regs⟩
  | put => exact (hmono HelperCall.noConfusion).prependReg mem_offsetsUsed
  | drop => exact (hmono HelperCall.noConfusion).eraseReg _

/-- A hook leaves these entries alone. -/
theorem Single.preCall {n : ℕ} {args : ℕ → UWord} (h : Single T R a)
    (hc : a.preCall n args = .ok a') : Single T R a' := by
  obtain rfl | ⟨-, -, hc⟩ | ⟨-, -, hc⟩ := preCall_cases hc
  · exact h
  · obtain ⟨-, tb, rfl, -⟩ := preRead_eq_ok hc
    exact ⟨h.nodupVars, h.nodupRegs, h.vars, h.regs⟩
  · obtain ⟨-, deps, -, rfl⟩ := preWrite_eq_ok hc
    exact ⟨h.nodupVars, h.nodupRegs, h.vars, h.regs⟩

end DepState

/-! ### From the lists to the state -/

open DepState

variable {s s' : State} {a a' : DepState} {trace : Bool} {es : List Event} {t r : BitVec 32}

/-- As far as a list goes, its entries are those of the representation. -/
theorem Rep.entries_prefix (hr : Rep s a) : ∃ P : ℕ → Ptr, ∀ L l q, Seg s.nodes (s.head L) l q →
    l <+: (a.entries L).map (cellOf P) := by
  obtain ⟨⟨P, D, hn, -⟩, -⟩ := hr
  refine ⟨P, fun L l q hs => ?_⟩
  obtain ⟨q', hs', hdead⟩ := hn.seg_dead L
  exact hs.isPrefix hs' hdead

/-- `var_deps` gets to all its entries. -/
theorem Rep.exists_seg_vars (hr : Rep s a) : ∃ (P : ℕ → Ptr) (q : Ptr),
    Seg s.nodes s.varDeps (a.vars.map (cellOf P)) q := by
  obtain ⟨⟨P, D, hn, -⟩, -⟩ := hr
  obtain ⟨q, hs, -⟩ := hn.vars
  exact ⟨P, q, hs⟩

theorem countP_cellOf {P : ℕ → Ptr} {f : ReadDep → Bool} {v : DepVal}
    (hf : ∀ d : ReadDep, f d = true ↔ d.val = v) (entries : List Entry) :
    (entries.map (cellOf P)).countP (fun x => f x.2) = (entries.map Entry.val).count v := by
  rw [List.count, List.countP_map, List.countP_map]
  refine List.countP_congr fun e _ => ?_
  simp [cellOf, hf]

theorem Rep.oneEach (hr : Rep s a) (h : Single (tempsUsed es) (offsetsUsed es) a) :
    OneEach es s := by
  obtain ⟨P, hpre⟩ := hr.entries_prefix
  have hone : ∀ {f : ReadDep → Bool} {v : DepVal} {l : List (ℕ × ReadDep)} {entries : List Entry},
      (∀ d : ReadDep, f d = true ↔ d.val = v) → (entries.map Entry.val).Nodup →
        l <+: entries.map (cellOf P) → l.countP (fun x => f x.2) ≤ 1 := by
    intro f v l entries hf hnd hl
    refine (hl.sublist.countP_le).trans ?_
    rw [countP_cellOf hf]
    exact List.nodup_iff_count_le_one.mp hnd v
  have hbound : ∀ {S : Finset DepVal} {l : List (ℕ × ReadDep)} {entries : List Entry},
      (entries.map Entry.val).Nodup → (∀ e ∈ entries, e.val ∈ S) →
        l <+: entries.map (cellOf P) → l.length ≤ S.card := by
    intro S l entries hnd hS hl
    have hlen := length_le_card hnd (List.forall_mem_map.mpr hS)
    rw [List.length_map] at hlen
    exact hl.length_le.trans (by rwa [List.length_map])
  refine ⟨fun l q hs t => ?_, fun l q hs r => ?_, fun l q hs => ?_, fun l q hs => ?_⟩
  · exact hone (v := .temp t) (by simp [isTemp]) h.nodupVars (hpre .vars l q hs)
  · exact hone (v := .reg r) (by simp [isReg]) h.nodupRegs (hpre .regs l q hs)
  · refine (hbound (S := (tempsUsed es).image .temp) h.nodupVars (fun e he => ?_)
      (hpre .vars l q hs)).trans Finset.card_image_le
    obtain ⟨t, ht, hval⟩ := h.vars e he
    exact Finset.mem_image.mpr ⟨t, ht, hval.symm⟩
  · refine (hbound (S := (tempsUsed es).image .temp ∪ (offsetsUsed es).image .reg) h.nodupRegs
      (fun e he => ?_) (hpre .regs l q hs)).trans ((Finset.card_union_le _ _).trans
        (Nat.add_le_add Finset.card_image_le Finset.card_image_le))
    rcases h.regs e he with ⟨-, t, ht, hval⟩ | ⟨r, hr, hval⟩
    · exact Finset.mem_union_left _ (Finset.mem_image.mpr ⟨t, ht, hval.symm⟩)
    · exact Finset.mem_union_right _ (Finset.mem_image.mpr ⟨r, hr, hval.symm⟩)

/-! ### Along a run -/

/-- **One entry each, along every run** that moves no register on top of an entry. -/
theorem GetsFresh.single (h : GetsFresh trace es) {es₁ es₂ : List Event} (hes : es = es₁ ++ es₂)
    (hs : run stepTool (.init trace) es₁ = .ok s) :
    ∃ a, Rep s a ∧ Single (tempsUsed es₁) (offsetsUsed es₁) a := by
  induction es₁ using List.reverseRecOn generalizing es₂ s with
  | nil =>
    cases hs
    exact ⟨_, rep_init trace, List.nodup_nil, List.nodup_nil,
      fun e he => absurd he List.not_mem_nil, fun e he => absurd he List.not_mem_nil⟩
  | append_singleton es₁ e ih =>
    obtain ⟨s₁, h₁, hs⟩ := run_append_eq_ok.mp hs
    obtain ⟨s₂, h₂, hs⟩ := run_cons_eq_ok.mp hs
    cases hs
    have hes' : es = es₁ ++ e :: es₂ := by rw [hes, List.append_assoc]; rfl
    obtain ⟨a, hr, hsingle⟩ := ih hes' h₁
    obtain ⟨a', ha', hr'⟩ := (stepTool_lockstep hr e).ok_right h₂
    refine ⟨a', hr', ?_⟩
    cases e with
    | helper c =>
      refine hsingle.call (fun t r hc hnot => ?_) ha'
      subst hc
      rw [← tracked_reg_eq_empty_iff hr]
      exact h es₁ t r es₂ hes' s₁ h₁ ((hasEntry_iff hr).mpr hnot)
    | preCall n args =>
      rw [tempsUsed_snoc, offsetsUsed_snoc]
      exact hsingle.preCall ha'

/-- A register on top of an entry makes two of them. -/
theorem Rep.two_entries (hr : Rep s' (a.prependVar t deps)) (hnot : ¬a.Fresh t) :
    ∃ l q, Seg s'.nodes s'.varDeps l q ∧ 2 ≤ l.countP fun x => isTemp t x.2 := by
  obtain ⟨P, q, hs⟩ := hr.exists_seg_vars
  refine ⟨_, q, hs, ?_⟩
  rw [countP_cellOf (v := .temp t) (by simp [isTemp])]
  have hmem : DepVal.temp t ∈ a.vars.map Entry.val := by
    by_contra hno
    refine hnot fun e he => ?_
    simp only [Entry.isTemp, decide_eq_false_iff_not]
    exact fun hval => hno (hval ▸ List.mem_map_of_mem he)
  have hpos := List.count_pos_iff.mpr hmem
  simp only [DepState.prependVar, List.map_cons, List.count_cons_self]
  omega

/-- **There is one entry at most, in every state of a run, exactly if no register with
something recorded is moved on top of an entry.** -/
theorem oneEntryRun_iff {trace : Bool} {es : List Event} :
    OneEntryRun trace es ↔ GetsFresh trace es := by
  constructor
  · intro h es₁ t r es₂ hes s hs hentry
    by_contra hne
    obtain ⟨a, hr⟩ : ∃ a, Rep s a := by
      have hl := runTool_lockstep (rep_init trace) es₁
      rw [hs] at hl
      obtain ⟨a, -, hr⟩ := hl.ok_right rfl
      exact ⟨a, hr⟩
    have hdeps : a.findReg r ≠ [] := fun hnil => hne ((tracked_reg_eq_empty_iff hr).mpr hnil)
    have hcall : a.step (.helper (.assgnTmpGet t r)) = .ok (a.prependVar t (a.findReg r)) := by
      change a.call (.assgnTmpGet t r) = _
      simp only [call, source, ok_bind, assign, if_neg hdeps]
    obtain ⟨s', hs', hr'⟩ := (stepTool_lockstep hr _).ok_left hcall
    have hrun : run stepTool (.init trace) (es₁ ++ [.helper (.assgnTmpGet t r)]) = .ok s' :=
      run_append_eq_ok.mpr ⟨s, hs, run_cons_eq_ok.mpr ⟨s', hs', rfl⟩⟩
    obtain ⟨l, q, hl, htwo⟩ := hr'.two_entries ((hasEntry_iff hr).mp hentry)
    have hone := (h _ es₂ (by rw [hes, List.append_assoc]; rfl) s' hrun).temps l q hl t
    omega
  · intro h es₁ es₂ hes s hs
    obtain ⟨a, hr, hsingle⟩ := h.single hes hs
    exact hr.oneEach hsingle

/-- **A register with dependencies is moved twice** into the same temporary. -/
theorem not_oneEntryRun : ¬∀ trace es, OneEntryRun trace es := by
  intro h
  let es : List Event := [.preCall nrRead (sysArgs 0 8 1), .helper (.assgnTmpLoad 0 8),
    .helper (.putTmp 16 0), .helper (.assgnTmpGet 1 16), .helper (.assgnTmpGet 1 16)]
  obtain ⟨s, hs, hseg⟩ : ∃ s, run stepTool (.init true) es = .ok s ∧
      Seg s.nodes s.varDeps [(3, ⟨.temp 1, some 4⟩), (2, ⟨.temp 1, some 3⟩)] (some 0) :=
    ⟨_, rfl, rfl, _, rfl, rfl, _, rfl, rfl⟩
  have hone := (h true es es [] (List.append_nil es).symm s hs).temps _ _ hseg 1
  exact absurd hone (by decide)

end DepLeak

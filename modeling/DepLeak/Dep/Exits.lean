import DepLeak.Dep.Forms

/-!
# Exits that fall through

`da_instrument` puts the helper of an exit before the exit, where nothing is known about its
guard, and the helper frees the whole of `var_deps`: what was recorded for the temporaries
assigned so far is gone, whether the exit is taken or not. An execution of a superblock whose
first exits fall through is compared, at the uses after them, with that of the superblock
without these exits (`DepLeak.KeepsAtExits`).

After such an exit a temporary that was assigned before it has no entry any more, and gets
none (`DepLeak.LaterUse.finds_nil`). So the two executions find the same if and only if
without the exits nothing is recorded for the temporary either, and `var_deps` stays a list
(`DepLeak.keepsAtExits_iff`).
-/

namespace DepLeak

open LinkedHeap Runs Flow

/-! ### Uses after an exit -/

/-- The temporaries that a flat expression reads. -/
def IRExpr.temps : IRExpr → List IRTemp
  | .get _ => []
  | .getI ix => operands.atom ix
  | .rdTmp t => [t]
  | .qop e₁ e₂ e₃ e₄ => operands.atom e₁ ++ operands.atom e₂ ++ operands.atom e₃ ++ operands.atom e₄
  | .triop e₁ e₂ e₃ => operands.atom e₁ ++ operands.atom e₂ ++ operands.atom e₃
  | .binop e₁ e₂ => operands.atom e₁ ++ operands.atom e₂
  | .unop e => operands.atom e
  | .load addr => operands.atom addr
  | .const _ => []
  | .ite cond iftrue iffalse =>
    operands.atom cond ++ operands.atom iftrue ++ operands.atom iffalse
  | .ccall args => args.flatMap operands.atom

/-- The temporaries that a statement reads. -/
def IRStmt.temps : IRStmt → List IRTemp
  | .noOp => []
  | .iMark _ => []
  | .abiHint base nia => base.temps ++ nia.temps
  | .put _ data => data.temps
  | .putI ix data => ix.temps ++ data.temps
  | .wrTmp _ data => data.temps
  | .store addr data => addr.temps ++ data.temps
  | .loadG _ addr alt guard => addr.temps ++ alt.temps ++ guard.temps
  | .storeG addr data guard => addr.temps ++ data.temps ++ guard.temps
  | .cas _ _ addr expdHi expdLo dataHi dataLo => addr.temps ++ expdHi.toList.flatMap IRExpr.temps ++
    expdLo.temps ++ dataHi.toList.flatMap IRExpr.temps ++ dataLo.temps
  | .llsc _ addr storedata => addr.temps ++ storedata.toList.flatMap IRExpr.temps
  | .dirty details => details.args.flatMap IRExpr.temps
  | .mbe => []
  | .exit guard => guard.temps

/-- The statement is an exit. -/
def IRStmt.isExit : IRStmt → Bool
  | .exit _ => true
  | _ => false

/-- The statements without the exits. -/
def noExits (B : List IRStmt) : List IRStmt := B.filter fun st => !st.isExit

/-- **A use after exits that fall through**, of a temporary that was assigned before the last
of these exits. -/
structure LaterUse (ρ : IRTemp → UWord) (B : List IRStmt) where
  /-- The statements before the last of the exits. -/
  pre : List IRStmt
  /-- The guard of that exit. -/
  guard : IRExpr
  /-- The statements between it and the use. -/
  mid : List IRStmt
  /-- The statement that uses the temporary. -/
  st : IRStmt
  /-- The statements after it. -/
  post : List IRStmt
  /-- The temporary. -/
  t : IRTemp
  split : B = pre ++ .exit guard :: mid ++ st :: post
  falls : ∀ x ∈ pre ++ .exit guard :: mid, exitTaken ρ x = false
  assigned : t ∈ pre.flatMap IRStmt.dsts
  used : t ∈ st.temps

namespace LaterUse

variable {ρ : IRTemp → UWord} {B : List IRStmt} (u : LaterUse ρ B)

/-- The statements that are executed before the use. -/
def before : List IRStmt := u.pre ++ .exit u.guard :: u.mid

/-- The same without the exits up to the last one that the temporary was assigned before. -/
def without : List IRStmt := noExits u.pre ++ u.mid

end LaterUse

/-- The tool has the same for a temporary in two states. -/
def SameDeps (s₁ s₂ : State) (t : IRTemp) : Prop :=
  ∃ vs ws, listOf s₁ t = .ok vs ∧ listOf s₂ t = .ok ws ∧ ∀ v, v ∈ vs ↔ v ∈ ws

/-- **Nothing is lost at the exits that fall through**: at every later use of a temporary that
was assigned before them, the tool has what it has there in the superblock without them. -/
def KeepsAtExits (ρ : IRTemp → UWord) (s : State) (B : List IRStmt) : Prop :=
  ∀ (u : LaterUse ρ B) s₁, run (stepStmt ρ) s u.before = .ok s₁ →
    ∃ s₂, run (stepStmt ρ) s u.without = .ok s₂ ∧ SameDeps s₁ s₂ u.t

/-- The helper of a statement gets through, and does not erase the first entry of
`var_deps`. -/
def Unharmed (ρ : IRTemp → UWord) (s : State) (st : IRStmt) : Prop :=
  ∀ c, stmtCall ρ st = some c → CallFits s c ∧ ¬ErasesHead s c

/-- **An exit costs nothing at a use.** In the superblock without the exits, every helper gets
through and erases no first entry of `var_deps`; and if there is no other exit between this
one and the use, nothing is tracked there of the temporary where this one was. -/
structure LaterUse.Spared {ρ : IRTemp → UWord} {B : List IRStmt} (u : LaterUse ρ B) (s : State) :
    Prop where
  calls : Along (stepStmt ρ) (Unharmed ρ) s u.without
  untracked : (∀ x ∈ u.mid, x.isExit = false) →
    ∀ s₁, run (stepStmt ρ) s (noExits u.pre) = .ok s₁ → tracked s₁ (.tmp u.t) = ∅

namespace DepState

variable {a a' : DepState} {t t' : IRTemp} {deps : List ℤ} {c : HelperCall}

/-! ### Once something dangles -/

/-- **What dangles stays dangling**, and new entries have something in their lists. -/
theorem call_of_dangling (hd : a.dangling = true) (h : a.call c = .ok a') :
    a'.dangling = true ∧ ∀ e ∈ a'.vars, e ∈ a.vars ∨ e.deps ≠ [] := by
  obtain ⟨deps, -, h⟩ := bind_eq_ok.mp h
  have herase : ∀ {t a'}, a.eraseTmp t ≠ .ok a' := by
    intro t a' he
    rw [(eraseTmp_eq_ok he).1] at hd
    cases hd
  have hsame : ∀ {a' : DepState}, a'.dangling = a.dangling → a'.vars = a.vars →
      a'.dangling = true ∧ ∀ e ∈ a'.vars, e ∈ a.vars ∨ e.deps ≠ [] :=
    fun hd' hv' => ⟨hd'.trans hd, fun e he => .inl (hv' ▸ he)⟩
  cases assign_outcome h with
  | exit hnot =>
    rw [hd] at hnot
    cases hnot
  | skip | put | drop => exact hsame rfl rfl
  | erase he => exact absurd he herase
  | front _ _ _ he => exact absurd he herase
  | back _ _ _ he => exact absurd he herase
  | clear hset | store _ hset =>
    obtain ⟨hd', hv'⟩ := setShadow_same hset
    exact hsame hd' hv'
  | get hne =>
    refine ⟨hd, fun e he => ?_⟩
    rcases List.mem_cons.mp he with rfl | he
    · exact .inr hne
    · exact .inl he

end DepState

/-! ### One statement -/

section State

variable {ρ : IRTemp → UWord} {s s' : State} {a : DepState} {st : IRStmt} {B : List IRStmt}
  {t : IRTemp} {vs : List ℤ} {T : List IRTemp}

/-- A statement makes the call of its helper, if it has one. -/
theorem Rep.stepStmt (hr : Rep s a) (hs : stepStmt ρ s st = .ok s') :
    (stmtCall ρ st = none ∧ s' = s) ∨
      ∃ c a', stmtCall ρ st = some c ∧ a.call c = .ok a' ∧ Rep s' a' := by
  rw [DepLeak.stepStmt] at hs
  cases hc : stmtCall ρ st with
  | none =>
    rw [hc] at hs
    exact .inl ⟨rfl, (Except.ok.inj hs).symm⟩
  | some c =>
    rw [hc] at hs
    obtain ⟨a', hcall, hr'⟩ := (callHelper_lockstep hr c).ok_right hs
    exact .inr ⟨c, a', rfl, hcall, hr'⟩

/-- **What the helpers preserve on lists** is preserved by statements one after the other. -/
theorem stmts_preserve {J : DepState → Prop} (hcall : ∀ a c a', J a → a.call c = .ok a' → J a')
    (h : ∃ a, Rep s a ∧ J a) (hs : run (DepLeak.stepStmt ρ) s B = .ok s') :
    ∃ a, Rep s' a ∧ J a := by
  refine run_preserves (I := fun s => ∃ a, Rep s a ∧ J a) ?_ h hs
  rintro st - s s' ⟨a, hr, hJ⟩ hs
  rcases hr.stepStmt hs with ⟨-, rfl⟩ | ⟨c, a', -, hcall', hr'⟩
  · exact ⟨a, hr, hJ⟩
  · exact ⟨a', hr', hcall a c a' hJ hcall'⟩

/-- Only the helper of an exit assigns nothing. -/
theorem eq_exit {c : HelperCall} (h : c.assignment = none) : c = .exit := by
  cases c with
  | exit => rfl
  | _ => cases h

/-- A helper that gets through fits. -/
theorem Rep.fits_of_call {c : HelperCall} {a' : DepState} (hr : Rep s a)
    (hcall : a.call c = .ok a') : CallFits s c := by
  cases hasg : c.assignment with
  | some asg => exact (hr.exists_call_iff hasg).mp ⟨a', hcall⟩
  | none =>
    obtain rfl := eq_exit hasg
    exact ⟨fun t ht => absurd ht List.not_mem_nil, nofun, nofun, nofun, nofun⟩

/-- The helper of an exit is called only for an exit. -/
theorem isExit_of_stmtCall (h : stmtCall ρ st = some .exit) : st.isExit = true := by
  cases st with
  | wrTmp tmp data =>
    simp only [stmtCall, dirtyOf, wrTmpDirty] at h
    split at h <;> cases h
  | store addr data => cases data <;> cases h
  | put offset data => cases data <;> cases h
  | exit => rfl
  | _ => cases h

/-- `var_deps` is a list, and has the list `vs` for a temporary. -/
def Finds (s : State) (t : IRTemp) (vs : List ℤ) : Prop :=
  ∃ a, Rep s a ∧ a.dangling = false ∧ a.findTmp t = .ok vs

theorem Finds.listOf (h : Finds s t vs) : listOf s t = .ok vs := by
  obtain ⟨a, hr, -, hfind⟩ := h
  rw [listOf_eq hr, hfind]

theorem Finds.tracked (h : Finds s t vs) : tracked s (.tmp t) = {v | v ∈ vs} := by
  obtain ⟨a, hr, -, hfind⟩ := h
  rw [tracked_eq_view hr]
  exact DepState.view_of_ok hfind

theorem Sound.finds (h : Sound s) (t : IRTemp) : ∃ vs, Finds s t vs := by
  obtain ⟨a, hr, hd⟩ := h
  cases hf : a.vars.find? (Entry.isTemp t) with
  -- the search ends with `NULL`, as nothing dangles
  | none => exact ⟨[], a, hr, hd, by simp [DepState.findTmp, hf, hd]⟩
  | some e => exact ⟨e.deps, a, hr, hd, by simp [DepState.findTmp, hf]⟩

theorem Finds.step (h : Finds s t vs) (hst : Unharmed ρ s st) (ht : t ∉ st.dsts)
    (hkeep : st.isExit = false ∨ vs = []) (hs : stepStmt ρ s st = .ok s') : Finds s' t vs := by
  obtain ⟨a, hr, hd, hfind⟩ := h
  rcases hr.stepStmt hs with ⟨-, rfl⟩ | ⟨c, a', hc, hcall, hr'⟩
  · exact ⟨a, hr, hd, hfind⟩
  by_cases hexit : c = .exit
  · subst hexit
    obtain ⟨-, rfl⟩ := DepState.call_exit_eq_ok hcall
    -- nothing is found any more, which is what was found
    obtain rfl := hkeep.resolve_left (by simp [isExit_of_stmtCall hc])
    exact ⟨_, hr', hd, by simp [DepState.findTmp, hd]⟩
  · obtain ⟨deps, hsrc, hassign⟩ := bind_eq_ok.mp hcall
    have hspare := hr.sparesHead hd hsrc (hst c hc).2
    have hdst : c.dst? ≠ some t := fun hdst => ht <| by
      rw [← (stmtCall_temps hc).2, hdst]
      exact Option.mem_toList.mpr rfl
    exact ⟨a', hr', (DepState.assign_kept hd hspare hassign).1,
      (DepState.assign_frame hd hspare hexit hassign hdst).trans hfind⟩

/-- A statement whose helper is unharmed gets through, and leaves nothing dangling. -/
theorem Sound.step (h : Sound s) (hst : Unharmed ρ s st) :
    ∃ s', stepStmt ρ s st = .ok s' ∧ Sound s' := by
  obtain ⟨a, hr, hd⟩ := h
  cases hc : stmtCall ρ st with
  | none => exact ⟨s, by rw [stepStmt, hc], a, hr, hd⟩
  | some c =>
    obtain ⟨hfits, hspare⟩ := hst c hc
    obtain ⟨a', hcall⟩ : ∃ a', a.call c = .ok a' := by
      cases hasg : c.assignment with
      | none =>
        obtain rfl := eq_exit hasg
        exact ⟨{ a with vars := [] },
          by simp [DepState.call, DepState.source, DepState.assign, hd]⟩
      | some asg => exact (hr.exists_call_iff hasg).mpr hfits
    obtain ⟨deps, hsrc, hassign⟩ := bind_eq_ok.mp hcall
    obtain ⟨hd', -⟩ := DepState.assign_kept hd (hr.sparesHead hd hsrc hspare) hassign
    obtain ⟨s', hs', hr'⟩ := (callHelper_lockstep hr c).ok_left hcall
    exact ⟨s', by rw [stepStmt, hc]; exact hs', a', hr', hd'⟩

/-- `var_deps` dangles, and its entries have something in their lists. -/
def Lost (s : State) : Prop := ∃ a, Rep s a ∧ a.dangling = true ∧ ∀ e ∈ a.vars, e.deps ≠ []

/-- A helper that erases has found something, if it records what it finds. -/
theorem Rep.ne_nil_of_erases {c : HelperCall} {deps : List ℤ} (hr : Rep s a)
    (hs : a.source c = .ok deps) (hrec : c.records) (he : Erases s c) : deps ≠ [] := by
  cases c with
  | exit | assgnTmpConst | storeConst | putCnst => cases hrec
  | assgnTmpGet => exact he.elim
  | _ =>
    obtain ⟨asg, hasg, hne⟩ := he
    exact (hr.ne_nil_iff hasg hs).mpr hne

/-- **Erasing the first entry** leaves no entry but what the helper then puts in front. -/
theorem Rep.lost_of_erasesHead {c : HelperCall} {a' : DepState} (hr : Rep s a)
    (hd : a.dangling = false) (he : ErasesHead s c) (hcall : a.call c = .ok a') (hr' : Rep s' a') :
    Lost s' := by
  obtain ⟨t, ht, herases, hhead⟩ := he
  rw [headIs_iff hr hd] at hhead
  obtain ⟨deps, hs, h⟩ := bind_eq_ok.mp hcall
  have herase : ∀ {t₁ a₁}, c.dst? = some t₁ → a.eraseTmp t₁ = .ok a₁ →
      a₁.dangling = true ∧ a₁.vars = [] := by
    intro t₁ a₁ hdst he
    obtain rfl := Option.some.inj (ht.symm.trans hdst)
    obtain ⟨-, ⟨hhead', -⟩ | ⟨-, rfl⟩⟩ := DepState.eraseTmp_eq_ok he
    · rw [hhead] at hhead'
      cases hhead'
    · exact ⟨rfl, rfl⟩
  cases DepState.assign_outcome h with
  | exit | clear | store | put | drop => cases ht
  | get => exact herases.elim
  | skip hrec hnil => exact absurd hnil (hr.ne_nil_of_erases hs hrec herases)
  | erase he =>
    obtain ⟨hd', hv'⟩ := herase rfl he
    exact ⟨a', hr', hd', fun e he => by simp [hv'] at he⟩
  | front hdst _ hne he =>
    obtain ⟨hd₁, hv₁⟩ := herase hdst he
    refine ⟨_, hr', hd₁, fun e he => ?_⟩
    simp only [DepState.prependVar, hv₁, List.mem_singleton] at he
    rwa [he]
  | back hdst _ _ he hd₁ =>
    -- the end of the list is looked for where it dangles
    rw [(herase hdst he).1] at hd₁
    cases hd₁

theorem Lost.run (h : Lost s) (hs : Runs.run (stepStmt ρ) s B = .ok s') : Lost s' := by
  refine stmts_preserve (fun a c a' hJ hcall => ?_) h hs
  obtain ⟨hd, hvars⟩ := DepState.call_of_dangling hJ.1 hcall
  exact ⟨hd, fun e he => (hvars e he).elim (hJ.2 e) id⟩

/-- Where `var_deps` dangles, no search ends with nothing. -/
theorem Lost.listOf_ne (h : Lost s) (t : IRTemp) : listOf s t ≠ .ok [] := by
  obtain ⟨a, hr, hd, hvars⟩ := h
  rw [listOf_eq hr, DepState.findTmp]
  cases hf : a.vars.find? (Entry.isTemp t) with
  | none => simp [hd]
  | some e => simpa using hvars e (List.mem_of_find?_eq_some hf)

/-! ### Runs -/

/-- **A run either harms no helper, or loses `var_deps`.** -/
theorem unharmed_or_lost (h : Sound s) (hs : run (stepStmt ρ) s B = .ok s') :
    Along (stepStmt ρ) (Unharmed ρ) s B ∨ Lost s' := by
  induction B generalizing s with
  | nil => exact .inl (along_nil s)
  | cons st B ih =>
    obtain ⟨s₁, h₁, hs⟩ := run_cons_eq_ok.mp hs
    by_cases hst : Unharmed ρ s st
    -- what is unharmed leaves `var_deps` a list, and the rest goes on from there
    · obtain ⟨s₂, h₂, hsound⟩ := h.step hst
      obtain rfl := Except.ok.inj (h₁.symm.trans h₂)
      refine (ih hsound hs).imp_left fun hB => along_cons.mpr ⟨hst, fun s₂ h₂ => ?_⟩
      obtain rfl := Except.ok.inj (h₁.symm.trans h₂)
      exact hB
    · -- the helper has got through, so that it has erased the first entry
      obtain ⟨a, hr, hd⟩ := h
      rcases hr.stepStmt h₁ with ⟨hnone, -⟩ | ⟨c, a', hc, hcall, hr'⟩
      · exact absurd (fun c hc => by rw [hnone] at hc; cases hc) hst
      · have hhead : ErasesHead s c := by
          by_contra hspare
          refine hst fun c' hc' => ?_
          obtain rfl := Option.some.inj (hc.symm.trans hc')
          exact ⟨hr.fits_of_call hcall, hspare⟩
        exact .inr ((hr.lost_of_erasesHead hd hhead hcall hr').run hs)

/-- A temporary that is assigned nowhere keeps its list, or has none if an exit is passed. -/
theorem Finds.run (h : Finds s t vs) (hB : Along (stepStmt ρ) (Unharmed ρ) s B)
    (ht : ∀ st ∈ B, t ∉ st.dsts) (hkeep : (∀ st ∈ B, st.isExit = false) ∨ vs = [])
    (hs : run (stepStmt ρ) s B = .ok s') : Finds s' t vs :=
  hB.run_preserves (I := fun s => Finds s t vs) (fun st hst _ _ h hP hs =>
    h.step hP (ht st hst) (hkeep.imp_left fun hB => hB st hst) hs) h hs

theorem Sound.run (h : Sound s) (hB : Along (stepStmt ρ) (Unharmed ρ) s B) :
    ∃ s', Runs.run (stepStmt ρ) s B = .ok s' ∧ Sound s' :=
  hB.run_ok (I := Sound) (fun _ _ _ h hP => h.step hP) h

/-- An exit is got through only where `var_deps` is a list, and leaves it empty. -/
theorem stepStmt_exit {guard : IRExpr} (hr : Rep s a)
    (hs : stepStmt ρ s (.exit guard) = .ok s') :
    a.dangling = false ∧ Rep s' { a with vars := [] } := by
  rcases hr.stepStmt hs with ⟨hnone, -⟩ | ⟨c, a', hc, hcall, hr'⟩
  · cases hnone
  · cases hc
    obtain ⟨hd, rfl⟩ := DepState.call_exit_eq_ok hcall
    exact ⟨hd, hr'⟩

/-- **The superblocks that get through an exit** start with `var_deps` a list. -/
theorem sound_of_exit {pre mid : List IRStmt} {guard : IRExpr} (h : WellFormed s)
    (hs : Runs.run (stepStmt ρ) s (pre ++ .exit guard :: mid) = .ok s') : Sound s := by
  obtain ⟨a, hr⟩ := h
  cases hd : a.dangling with
  | false => exact ⟨a, hr, hd⟩
  | true =>
    -- what dangles at the start still dangles at the exit, and the exit walks the list
    obtain ⟨s₁, h₁, hs⟩ := run_append_eq_ok.mp hs
    obtain ⟨s₂, h₂, -⟩ := run_cons_eq_ok.mp hs
    obtain ⟨a₁, hr₁, hd₁⟩ := stmts_preserve (J := fun a => a.dangling = true)
      (fun _ _ _ hd hcall => (DepState.call_of_dangling hd hcall).1) ⟨a, hr, hd⟩ h₁
    rw [(stepStmt_exit hr₁ h₂).1] at hd₁
    cases hd₁

/-- Statements that assign only temporaries without an entry harm no helper. -/
theorem Alike.along {C : List IRStmt} (h : Alike T s s) (hB : Scoped T (B ++ C))
    (hs : Runs.run (stepStmt ρ) s B = .ok s') : Along (stepStmt ρ) (Unharmed ρ) s B := by
  induction B generalizing s T with
  | nil => exact along_nil s
  | cons st B ih =>
    obtain ⟨hops, hdsts, hB⟩ := hB
    obtain ⟨s₁, h₁, hs⟩ := run_cons_eq_ok.mp hs
    -- alike to itself, a state has no entries but of what was assigned
    have hfresh : ∃ a, Rep s a ∧ a.dangling = false ∧ ∀ t ∈ st.dsts, a.Fresh t := by
      obtain ⟨a₁, a₀, -, hr₀, hagr⟩ := h
      exact ⟨a₀, hr₀, hagr.dangling₀, fun t ht => hagr.fresh t (hdsts t ht)⟩
    obtain ⟨a, hr, hd, hfresh⟩ := hfresh
    have htidy : Tidy ρ s st := fun t ht hentry =>
      absurd (hfresh t ht) ((hasEntry_iff hr).mp hentry)
    obtain ⟨s₂, h₂, h'⟩ := h.step hops hdsts htidy h₁
    obtain rfl := Except.ok.inj (h₁.symm.trans h₂)
    refine along_cons.mpr ⟨fun c hc => ⟨?_, ?_⟩, fun s₂ h₂ => ?_⟩
    · rcases hr.stepStmt h₁ with ⟨hnone, -⟩ | ⟨c', a', hc', hcall, -⟩
      · rw [hnone] at hc
        cases hc
      · obtain rfl := Option.some.inj (hc.symm.trans hc')
        exact hr.fits_of_call hcall
    -- the first entry is not of the temporary, which has none
    · rintro ⟨t, ht, -, hhead⟩
      have hmem : t ∈ st.dsts := by
        rw [← (stmtCall_temps hc).2, ht]
        exact Option.mem_toList.mpr rfl
      rw [headIs_iff hr hd, (hfresh t hmem).head] at hhead
      cases hhead
    · obtain rfl := Except.ok.inj (h₁.symm.trans h₂)
      exact ih h' hB hs

end State

/-! ### Temporaries assigned before -/

theorem Scoped.of_append {T : List IRTemp} {B C : List IRStmt} (h : Scoped T (B ++ C)) :
    ∃ T', Scoped T' C ∧ T ⊆ T' ∧ B.flatMap IRStmt.dsts ⊆ T' := by
  induction B generalizing T with
  | nil => exact ⟨T, h, fun _ ht => ht, by simp⟩
  | cons st B ih =>
    obtain ⟨-, -, hB⟩ := h
    obtain ⟨T', hC, hT, hBT⟩ := ih hB
    refine ⟨T', hC, fun t ht => hT (List.mem_append_right _ ht), ?_⟩
    rw [List.flatMap_cons, List.append_subset]
    exact ⟨fun t ht => hT (List.mem_append_left _ ht), hBT⟩

theorem Scoped.notMem_dsts {T : List IRTemp} {B : List IRStmt} {t : IRTemp} (h : Scoped T B)
    (ht : t ∈ T) : ∀ st ∈ B, t ∉ st.dsts := by
  induction B generalizing T with
  | nil => simp
  | cons st B ih =>
    obtain ⟨-, hdsts, hB⟩ := h
    refine List.forall_mem_cons.mpr ⟨fun hmem => hdsts t hmem ht, ?_⟩
    exact ih hB (List.mem_append_right _ ht)

namespace LaterUse

variable {ρ : IRTemp → UWord} {s s₁ s₂ : State} {B : List IRStmt} (u : LaterUse ρ B)

/-- The temporaries of the superblock after the exit. -/
theorem exists_scoped (hB : Scoped [] B) :
    ∃ T, Scoped T (u.mid ++ u.st :: u.post) ∧ u.t ∈ T := by
  have hsplit : B = u.pre ++ .exit u.guard :: (u.mid ++ u.st :: u.post) :=
    u.split.trans (by simp)
  obtain ⟨T, ⟨-, -, hT⟩, -, hpre⟩ := ((congrArg (Scoped []) hsplit).mp hB).of_append
  exact ⟨T, hT, hpre u.assigned⟩

/-- The temporary is not assigned again. -/
theorem notMem_mid (hB : Scoped [] B) : ∀ st ∈ u.mid, u.t ∉ st.dsts := by
  obtain ⟨T, hT, ht⟩ := u.exists_scoped hB
  exact fun st hst => hT.notMem_dsts ht st (List.mem_append_left _ hst)

/-- **With the exits, nothing is found at the use.** -/
theorem finds_nil (hB : Scoped [] B) (hs : WellFormed s)
    (h : run (stepStmt ρ) s u.before = .ok s₁) : Finds s₁ u.t [] := by
  obtain ⟨a, hr, hd⟩ := sound_of_exit hs h
  obtain ⟨s₂, h₂, h⟩ := run_append_eq_ok.mp h
  obtain ⟨s₃, h₃, h⟩ := run_cons_eq_ok.mp h
  obtain ⟨a₂, hr₂, -⟩ := stmts_preserve (J := fun _ => True) (fun _ _ _ _ _ => trivial)
    ⟨a, hr, trivial⟩ h₂
  obtain ⟨hd₂, hr₃⟩ := stepStmt_exit hr₂ h₃
  obtain ⟨T, hT, ht⟩ := u.exists_scoped hB
  -- after the exit there is no entry at all
  have halike : Alike T s₃ s₃ := ⟨_, _, hr₃, hr₃, hd₂, hd₂, fun _ _ => rfl,
    fun t _ e he => absurd he List.not_mem_nil, rfl, rfl, rfl⟩
  have hfinds : Finds s₃ u.t [] := ⟨_, hr₃, hd₂, by simp [DepState.findTmp, hd₂]⟩
  exact hfinds.run (halike.along hT h) (u.notMem_mid hB) (.inr rfl) h

/-- A superblock with an exit is split at one. -/
theorem exists_exit (h : ¬∀ x ∈ B, x.isExit = false) :
    ∃ B₁ guard B₂, B = B₁ ++ .exit guard :: B₂ := by
  obtain ⟨x, hx, hexit⟩ : ∃ x ∈ B, x.isExit = true := by simpa using h
  obtain ⟨B₁, B₂, rfl⟩ := List.append_of_mem hx
  cases x with
  | exit guard => exact ⟨B₁, guard, B₂, rfl⟩
  | _ => cases hexit

/-- **Where the exit costs nothing**, nothing is found at the use without it either. -/
theorem finds_nil_of_spared (hB : Scoped [] B) (hs : Sound s) (hu : u.Spared s) :
    ∃ s₂, run (stepStmt ρ) s u.without = .ok s₂ ∧ Finds s₂ u.t [] := by
  obtain ⟨hcalls, huntracked⟩ := hu
  have hmid := u.notMem_mid hB
  obtain ⟨hpre, hcalls⟩ := along_append.mp hcalls
  obtain ⟨s₁, h₁, hs₁⟩ := hs.run hpre
  have hcalls := hcalls s₁ h₁
  obtain ⟨s₂, h₂, -⟩ := hs₁.run hcalls
  refine ⟨s₂, run_append_eq_ok.mpr ⟨s₁, h₁, h₂⟩, ?_⟩
  by_cases hexit : ∀ x ∈ u.mid, x.isExit = false
  -- no exit in between: the list is what it was where the exit is left out
  · obtain ⟨vs, hvs⟩ := hs₁.finds u.t
    have hempty := huntracked hexit s₁ h₁
    rw [hvs.tracked] at hempty
    obtain rfl : vs = [] := List.eq_nil_iff_forall_not_mem.mpr
      (Set.eq_empty_iff_forall_notMem.mp hempty)
    exact hvs.run hcalls hmid (.inr rfl) h₂
  · -- the next exit frees `var_deps` in both executions
    obtain ⟨m₁, guard, m₂, hm⟩ := exists_exit hexit
    rw [hm] at hcalls h₂
    obtain ⟨s₃, h₃, h₂⟩ := run_append_eq_ok.mp h₂
    obtain ⟨s₄, h₄, h₂⟩ := run_cons_eq_ok.mp h₂
    obtain ⟨hcalls₁, hcalls₂⟩ := along_append.mp hcalls
    obtain ⟨s₃', h₃', a, hr, -⟩ := hs₁.run hcalls₁
    obtain rfl := Except.ok.inj (h₃.symm.trans h₃')
    obtain ⟨hd, hr⟩ := stepStmt_exit hr h₄
    have hnil : Finds s₄ u.t [] := ⟨_, hr, hd, by simp [DepState.findTmp, hd]⟩
    have hcalls₂ := (along_cons.mp (hcalls₂ s₃ h₃)).2 s₄ h₄
    refine hnil.run hcalls₂ (fun st hst => hmid st ?_) (.inr rfl) h₂
    rw [hm]
    exact List.mem_append_right _ (List.mem_cons_of_mem _ hst)

/-- **Where nothing is found at the use without the exit**, the exit costs nothing. -/
theorem spared_of_listOf_nil (hB : Scoped [] B) (hs : Sound s)
    (h : run (stepStmt ρ) s u.without = .ok s₂) (hnil : listOf s₂ u.t = .ok []) : u.Spared s := by
  rcases unharmed_or_lost hs h with hcalls | hlost
  swap
  · exact absurd hnil (hlost.listOf_ne u.t)
  refine ⟨hcalls, fun hexit s₁ h₁ => ?_⟩
  obtain ⟨hpre, hcalls⟩ := along_append.mp hcalls
  obtain ⟨s₁', h₁', h₂⟩ := run_append_eq_ok.mp h
  obtain rfl := Except.ok.inj (h₁.symm.trans h₁')
  obtain ⟨s₁', h₁', hs₁⟩ := hs.run hpre
  obtain rfl := Except.ok.inj (h₁.symm.trans h₁')
  obtain ⟨vs, hvs⟩ := hs₁.finds u.t
  -- the list has not changed since, and is empty at the use
  have hend := (hvs.run (hcalls s₁ h₁) (u.notMem_mid hB) (.inl hexit) h₂).listOf
  obtain rfl : vs = [] := Except.ok.inj (hend.symm.trans hnil)
  rw [hvs.tracked]
  exact Set.eq_empty_of_forall_notMem fun v => List.not_mem_nil

/-- At one use, the exits lose nothing exactly if they cost nothing. -/
theorem sameDeps_iff (hB : Scoped [] B) (hs : WellFormed s)
    (h : run (stepStmt ρ) s u.before = .ok s₁) :
    (∃ s₂, run (stepStmt ρ) s u.without = .ok s₂ ∧ SameDeps s₁ s₂ u.t) ↔ u.Spared s := by
  have hsound := sound_of_exit hs h
  have hnil := (u.finds_nil hB hs h).listOf
  constructor
  · rintro ⟨s₂, h₂, vs, ws, hvs, hws, hsame⟩
    obtain rfl : vs = [] := Except.ok.inj (hvs.symm.trans hnil)
    -- the same set as nothing is nothing
    obtain rfl : ws = [] := List.eq_nil_iff_forall_not_mem.mpr fun v hv =>
      List.not_mem_nil ((hsame v).mpr hv)
    exact u.spared_of_listOf_nil hB hsound h₂ hws
  · intro hu
    obtain ⟨s₂, h₂, hfinds⟩ := u.finds_nil_of_spared hB hsound hu
    exact ⟨s₂, h₂, [], [], hnil, hfinds.listOf, fun _ => Iff.rfl⟩

end LaterUse

/-! ### The statement -/

/-- **Nothing is lost at the exits that fall through** if and only if they cost nothing at any
use. -/
theorem keepsAtExits_iff {ρ : IRTemp → UWord} {s : State} {B : List IRStmt} (hs : WellFormed s)
    (hB : Scoped [] B) :
    KeepsAtExits ρ s B ↔
      ∀ u : LaterUse ρ B, (∃ s₁, run (stepStmt ρ) s u.before = .ok s₁) → u.Spared s := by
  constructor
  · rintro h u ⟨s₁, h₁⟩
    exact (u.sameDeps_iff hB hs h₁).mp (h u s₁ h₁)
  · intro h u s₁ h₁
    exact (u.sameDeps_iff hB hs h₁).mpr (h u ⟨s₁, h₁⟩)

/-- A temporary that is loaded before an exit and used after it. -/
def loadExitPut : List IRStmt :=
  [.wrTmp 0 (.load (.const 8)), .exit (.const 0), .put 16 (.rdTmp 0)]

/-- The use of the temporary, where the exit falls through. -/
def loadExitPutUse : LaterUse (fun _ => 0) loadExitPut where
  pre := [.wrTmp 0 (.load (.const 8))]
  guard := .const 0
  mid := []
  st := .put 16 (.rdTmp 0)
  post := []
  t := 0
  split := rfl
  falls := by decide
  assigned := List.mem_singleton_self 0
  used := List.mem_singleton_self 0

/-- There is no other. -/
theorem LaterUse.loadExitPut_cases (u : LaterUse (fun _ => 0) loadExitPut) :
    u.pre = [.wrTmp 0 (.load (.const 8))] ∧ u.mid = [] ∧ u.t = 0 := by
  obtain ⟨pre, guard, mid, st, post, t, split, -, hdst, -⟩ := u
  rcases pre with _ | ⟨x, _ | ⟨y, _ | ⟨z, pre⟩⟩⟩
  · cases hdst
  · obtain ⟨rfl, hsplit⟩ := List.cons.inj split
    rcases mid with _ | ⟨z, mid⟩
    · exact ⟨rfl, rfl, List.mem_singleton.mp hdst⟩
    · simp at hsplit
  · simp [loadExitPut] at split
  · simp [loadExitPut] at split

/-- Where the byte that is loaded is not one of those that were read, the exit costs nothing. -/
theorem keepsAtExits_iff_read :
    ∃ s, run stepTool (.init true) [.preCall nrRead (sysArgs 0 100 1)] = .ok s ∧
      (1 : ℤ) ∈ tracked s (memCell 100) ∧ KeepsAtExits (fun _ => 0) s loadExitPut := by
  obtain ⟨s, s₁, hs, hmem, hvar, h₁, hloaded⟩ : ∃ s s₁,
      run stepTool (.init true) [.preCall nrRead (sysArgs 0 100 1)] = .ok s ∧
        (1 : ℤ) ∈ tracked s (memCell 100) ∧ s.varDeps = none ∧
          run (stepStmt fun _ => 0) s [.wrTmp 0 (.load (.const 8))] = .ok s₁ ∧
            listOf s₁ 0 = .ok [] :=
    ⟨_, _, rfl, ⟨_, [1], rfl, rfl, List.mem_singleton_self 1⟩, rfl, rfl, rfl⟩
  refine ⟨s, hs, hmem, (keepsAtExits_iff (Reachable.wellFormed ⟨_, hs⟩) (by decide)).mpr
    fun u _ => ?_⟩
  obtain ⟨hpre, hmid, ht⟩ := u.loadExitPut_cases
  have hhead : ∀ t, ¬HeadIs s t := by
    rintro t ⟨i, nd, hi, -⟩
    rw [hvar] at hi
    cases hi
  constructor
  · rw [LaterUse.without, hpre, hmid]
    refine along_cons.mpr ⟨fun c hc => ?_, fun s' _ => along_nil s'⟩
    cases hc
    refine ⟨⟨nofun, ?_, nofun, fun _ _ => ⟨[], by rw [hvar]; rfl⟩, fun t _ _ => hhead t⟩, ?_⟩
    · rintro t addr ⟨⟩
      exact .inl (by decide)
    · rintro ⟨t, -, -, ht⟩
      exact hhead t ht
  · intro _ s₁' h₁'
    rw [hpre] at h₁'
    obtain rfl := Except.ok.inj (h₁.symm.trans h₁')
    rw [ht]
    refine Set.eq_empty_of_forall_notMem ?_
    rintro v ⟨q, vs, hq, hvs, hv⟩
    -- the list of the temporary is empty
    have hlist : listOf s₁ 0 = .ok vs := bind_eq_ok.mpr ⟨q, hq, hvs⟩
    obtain rfl := Except.ok.inj (hloaded.symm.trans hlist)
    exact List.not_mem_nil hv

/-- **A byte that was read is lost at an exit that falls through.** -/
theorem not_keepsAtExits :
    ¬∀ ρ s B, Reachable s → Scoped [] B → KeepsAtExits ρ s B := by
  intro h
  obtain ⟨s, s₁, s₂, hs, h₁, h₂, hexit, hkeep⟩ : ∃ s s₁ s₂,
      run stepTool (.init true) [.preCall nrRead (sysArgs 0 8 1)] = .ok s ∧
        run (stepStmt fun _ => 0) s loadExitPutUse.before = .ok s₁ ∧
          run (stepStmt fun _ => 0) s loadExitPutUse.without = .ok s₂ ∧
            listOf s₁ 0 = .ok [] ∧ listOf s₂ 0 = .ok [1] :=
    ⟨_, _, _, rfl, rfl, rfl, rfl, rfl⟩
  obtain ⟨s₃, h₃, vs, ws, hvs, hws, hsame⟩ :=
    h (fun _ => 0) s loadExitPut ⟨_, hs⟩ (by decide) loadExitPutUse s₁ h₁
  obtain rfl := Except.ok.inj (h₂.symm.trans h₃)
  cases hexit.symm.trans hvs
  cases hkeep.symm.trans hws
  -- without the exit, the list of the temporary has the byte
  exact List.not_mem_nil ((hsame 1).mpr (List.mem_singleton_self 1))

end DepLeak

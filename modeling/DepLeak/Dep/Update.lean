import DepLeak.Dep.Erase

/-!
# The updates of the tool, on lists

Every update of the tool moves in lockstep with its counterpart on lists: from
states that represent each other, both end in such states, or both stop with the
same fault. Erasing (`DepLeak.readDepNodeEraseTmp_lockstep`,
`DepLeak.readDepNodeEraseReg_spec`) leaves the hand alone. The other updates empty
it: an entry is recorded with the list in the hand (`DepLeak.prependVar_spec`,
`DepLeak.appendVar_lockstep`, `DepLeak.prependReg_spec`,
`DepLeak.appendWrite_spec`), or a slot of the shadow table takes it
(`DepLeak.setShadowMem_lockstep`).
-/

namespace DepLeak

open LinkedHeap Runs

variable {s : State} {a a' : DepState} {p : Ptr} {vs : List ℤ}

/-! ### The addresses of a state -/

namespace NodesRep

variable {h : NodeHeap} {v r w : Ptr} {P : ℕ → Ptr}

theorem nodup_parts (hn : NodesRep h v r w a P) :
    (a.vars.map Entry.id).Nodup ∧ (a.regs.map Entry.id).Nodup ∧
      (∀ i ∈ a.vars.map Entry.id, i ∉ a.regs.map Entry.id) ∧
      (∀ i ∈ a.vars.map Entry.id, i ∉ a.writes.map Entry.id) ∧
      (∀ i ∈ a.regs.map Entry.id, i ∉ a.writes.map Entry.id) := by
  have hnd := hn.nodup
  rw [DepState.all, List.map_append, List.map_append, List.nodup_append, List.nodup_append] at hnd
  obtain ⟨⟨hv, hr, hvr⟩, -, hw⟩ := hnd
  exact ⟨hv, hr, fun i hi hi' => hvr i hi i hi' rfl,
    fun i hi hi' => hw i (List.mem_append_left _ hi) i hi' rfl,
    fun i hi hi' => hw i (List.mem_append_right _ hi) i hi' rfl⟩

/-- Every entry is below the next address. -/
theorem lt_top (hn : NodesRep h v r w a P) {i : ℕ} (hi : i ∈ a.all.map Entry.id) : i < h.top := by
  obtain ⟨q, hv, -, -, -⟩ := hn.vars
  rw [DepState.all, List.map_append, List.map_append, List.mem_append, List.mem_append] at hi
  rcases hi with (hi | hi) | hi
  · exact hv.lt_top (by rwa [ids_map_cellOf])
  · exact hn.regs.lt_top (by rwa [ids_map_cellOf])
  · exact hn.writes.lt_top (by rwa [ids_map_cellOf])

end NodesRep

/-- In a list without repeated addresses, an entry is not erased by way of another. -/
theorem notMem_erased {g : Entry → Bool} {es : List Entry} (hnd : (es.map Entry.id).Nodup)
    {e : Entry} (he : e ∈ es) : e.id ∉ erased g es ↔ g e = false := by
  rw [← Bool.not_eq_true, not_iff_not]
  constructor
  · intro hmem
    obtain ⟨e', he', hid⟩ := List.mem_map.mp hmem
    obtain ⟨hmem', hg⟩ := List.mem_filter.mp he'
    rwa [← List.inj_on_of_nodup_map hnd hmem' he hid]
  · exact fun hg => List.mem_map_of_mem (List.mem_filter.mpr ⟨he, hg⟩)

/-! ### Removing entries -/

/-- The lists after some entries were removed with their lists. -/
theorem ListsRep.remove {ints ints' : IntHeap} {tb : Table Ptr} {P : ℕ → Ptr} {D : ℕ → List ℤ}
    {R : List ℕ} (hl : ListsRep ints tb a P D p vs)
    (hf : Family ints' (placePtr tb (wipe none P R) p) (placeVals a.shadow (wipe [] D R) vs)
      a'.lost)
    (ha : ∀ e, e ∈ a'.all ↔ e ∈ a.all ∧ e.id ∉ R) (hsh : a'.shadow = a.shadow) :
    ListsRep ints' tb a' (wipe none P R) (wipe [] D R) p vs where
  deps e he := by
    obtain ⟨hmem, hR⟩ := (ha e).mp he
    rw [wipe_of_notMem hR, hl.deps e hmem]
  stray i hi := by
    by_cases hR : i ∈ R
    · exact wipe_of_mem hR
    · rw [wipe_of_notMem hR]
      refine hl.stray i fun hmem => hi ?_
      obtain ⟨e, he, rfl⟩ := List.mem_map.mp hmem
      exact List.mem_map_of_mem ((ha e).mpr ⟨he, hR⟩)
  lists := by rwa [hsh]
  pages u := by rw [hsh, hl.pages]

theorem map_cellOf_wipe {P : ℕ → Ptr} {R : List ℕ} {es : List Entry}
    (hR : ∀ e ∈ es, e.id ∉ R) : es.map (cellOf (wipe none P R)) = es.map (cellOf P) :=
  map_cellOf_congr fun e he => wipe_of_notMem (hR e he)

theorem nodup_erased (g : Entry → Bool) {es : List Entry} (hnd : (es.map Entry.id).Nodup) :
    (erased g es).Nodup := hnd.sublist (List.filter_sublist.map _)

/-- What an erasing loop leaves of the nodes: those of `R` are gone, and only the
nodes of the list it walked have changed. -/
structure ErasedNodes (h h' : NodeHeap) (es : List Entry) (R : List ℕ) : Prop where
  /-- The erased nodes are gone. -/
  gone : ∀ i ∈ R, h'.cell i = none
  /-- The nodes outside the list are as they were. -/
  keep : ∀ i, i ∉ es.map Entry.id → h'.cell i = h.cell i
  /-- Erased nodes were in the list. -/
  sub : ∀ i ∈ R, i ∈ es.map Entry.id
  /-- Nothing was allocated. -/
  top : h'.top = h.top

namespace ErasedNodes

variable {h h' : NodeHeap} {es es' : List Entry} {R : List ℕ} {P : ℕ → Ptr} {v q : Ptr}

/-- Another list is still there. -/
theorem seg (he : ErasedNodes h h' es R) (hs : Seg h v (es'.map (cellOf P)) q)
    (hdis : ∀ i ∈ es'.map Entry.id, i ∉ es.map Entry.id) :
    Seg h' v (es'.map (cellOf (wipe none P R))) q := by
  rw [map_cellOf_congr fun e hmem => wipe_of_notMem fun hR =>
    hdis e.id (List.mem_map_of_mem hmem) (he.sub _ hR)]
  exact hs.congr fun i hi => he.keep i (hdis i (by rwa [← ids_map_cellOf P]))

/-- What is allocated afterwards was allocated before, and was not erased. -/
theorem live (he : ErasedNodes h h' es R) (hs : Seg h v (es.map (cellOf P)) q) {i : ℕ}
    (hi : h'.cell i ≠ none) : h.cell i ≠ none ∧ i ∉ R := by
  refine ⟨?_, fun hR => hi (he.gone i hR)⟩
  by_cases hmem : i ∈ es.map Entry.id
  · exact hs.cell_ne_none (by rwa [ids_map_cellOf])
  · rwa [he.keep i hmem] at hi

end ErasedNodes

/-- **The erasing loop on the state of the tool**, from the head of one of its
lists. -/
theorem eraseFrom_list {f : ReadDep → Bool} {g : Entry → Bool}
    (hfg : ∀ e q, f ⟨e.val, q⟩ = g e) {P : ℕ → Ptr} {D : ℕ → List ℤ} {es : List Entry} {v : Ptr}
    (hs : Seg s.nodes v (es.map (cellOf P)) none)
    (hf : Family s.ints (placePtr s.shadowMem P p) (placeVals a.shadow D vs) a.lost) :
    ∃ nodes ints r v' S, eraseFrom f s v =
        .ok { s with nodes := nodes, ints := ints, regDeps := r } ∧
      (if es.head?.any g then r = v' else v' = v ∧ r = s.regDeps) ∧
      Seg nodes v' ((es.filter fun e => !g e).map (cellOf (wipe none P (erased g es)))) none ∧
      ErasedNodes s.nodes nodes es (erased g es) ∧
      (Shrinks s.ints ints S ∧
        ∀ i, i ∈ S ↔ ∃ j ∈ erased g es, ∃ l, Seg s.ints (P j) l none ∧ i ∈ ids l) ∧
      Family ints (placePtr s.shadowMem (wipe none P (erased g es)) p)
        (placeVals a.shadow (wipe [] D (erased g es)) vs) a.lost := by
  have hnd := hs.nodup Heap.dead_none
  rw [ids_map_cellOf] at hnd
  obtain ⟨n, hfuel⟩ := fuel_enough hs Heap.dead_none
  obtain ⟨ints, S, hrun, hsh, hS, hf'⟩ := freeNodeLists hf (nodup_erased g hnd)
  obtain ⟨nodes, r, v', hloop, hreg, hseg, hgone, hkeep, htop⟩ :=
    eraseLoop_head hfg ⟨s.nodes, s.ints, s.regDeps⟩ (n + 1) hs hrun
  refine ⟨nodes, ints, r, v', S, ?_, hreg, ?_,
    ⟨hgone, hkeep, fun i hi => erased_subset g es hi, htop⟩, ⟨hsh, hS⟩, hf'⟩
  · rw [eraseFrom, hfuel, Nat.add_assoc, hloop, ok_bind]
  · rw [map_cellOf_wipe fun e he => (notMem_erased hnd (List.mem_filter.mp he).1).mpr
      (by simpa using (List.mem_filter.mp he).2)]
    exact hseg

/-- The entries that are left when those of a list are erased. -/
theorem mem_filter_iff {g : Entry → Bool} {es : List Entry} (hnd : (es.map Entry.id).Nodup)
    {e : Entry} : e ∈ es.filter (fun e => !g e) ↔ e ∈ es ∧ e.id ∉ erased g es := by
  rw [List.mem_filter]
  refine and_congr_right fun he => ?_
  rw [notMem_erased hnd he, Bool.not_eq_true']

/-- **The nodes that are gone** are those that were, and the erased ones. -/
theorem ErasedNodes.cell_eq_none_iff {g : Entry → Bool} {h h' : NodeHeap} {es : List Entry}
    {P : ℕ → Ptr} {v v' q q' : Ptr} (he : ErasedNodes h h' es (erased g es))
    (hs : Seg h v (es.map (cellOf P)) q)
    (hs' : Seg h' v' ((es.filter fun e => !g e).map (cellOf P)) q') (hnd : (es.map Entry.id).Nodup)
    {i : ℕ} : h'.cell i = none ↔ h.cell i = none ∨ i ∈ erased g es := by
  constructor
  · intro hgone
    by_contra hcon
    rw [not_or] at hcon
    by_cases hi : i ∈ es.map Entry.id
    · -- an entry that is left is in the new list
      obtain ⟨e, hmem, rfl⟩ := List.mem_map.mp hi
      refine hs'.cell_ne_none ?_ hgone
      rw [ids_map_cellOf]
      exact List.mem_map_of_mem ((mem_filter_iff hnd).mpr ⟨hmem, hcon.2⟩)
    · exact hcon.1 ((he.keep i hi).symm.trans hgone)
  · rintro (hdead | hi)
    · by_contra hcon
      exact (he.live hs hcon).1 hdead
    · exact he.gone i hi

theorem notMem_erased_of_notMem {g : Entry → Bool} {es es' : List Entry}
    (hdis : ∀ i ∈ es'.map Entry.id, i ∉ es.map Entry.id) {e : Entry} (he : e ∈ es') :
    e.id ∉ erased g es :=
  fun hmem => hdis e.id (List.mem_map_of_mem he) (erased_subset g es hmem)

/-- What erasing has in common for temporaries and registers: the hand and the shadow
table are left alone. -/
def Erased (s : State) (a : DepState) (p : Ptr) (vs : List ℤ) (s' : State) (a' : DepState) : Prop :=
  RepHand s' a' p vs ∧ s'.shadowMem = s.shadowMem ∧ a'.shadow = a.shadow

/-- **Erasing a register.** -/
theorem readDepNodeEraseReg_spec (hr : RepHand s a p vs) (r : BitVec 32) :
    ∃ s', readDepNodeEraseReg s r = .ok s' ∧ Erased s a p vs s' (a.eraseReg r) := by
  obtain ⟨⟨P, D, hn, hl⟩, hsc⟩ := id hr
  by_cases hnone : s.regDeps = none
  · have hregs := hn.regs
    rw [hnone] at hregs
    have hnil : a.regs = [] := List.map_eq_nil_iff.mp hregs.eq_nil_of_none
    have hsame : a.eraseReg r = a := by
      simp only [DepState.eraseReg, hnil, List.filter_nil]
      rw [← hnil]
    rw [readDepNodeEraseReg, if_pos hnone, hsame]
    exact ⟨s, rfl, hr, rfl, rfl⟩
  · obtain ⟨hndv, hndr, hvr, hvw, hrw⟩ := hn.nodup_parts
    obtain ⟨nodes, ints, r', v', -, herase, hreg, hseg, hnodes, -, hf⟩ :=
      eraseFrom_list (f := isReg r) (g := Entry.isReg r) (fun _ _ => rfl) hn.regs hl.lists
    have hr' : r' = v' := by
      split at hreg
      · exact hreg
      · exact hreg.2.trans hreg.1.symm
    have hrv : ∀ i ∈ a.vars.map Entry.id, i ∉ a.regs.map Entry.id := hvr
    have hwr : ∀ i ∈ a.writes.map Entry.id, i ∉ a.regs.map Entry.id := fun i hi hi' => hrw i hi' hi
    have hall : ∀ e, e ∈ (a.eraseReg r).all ↔ e ∈ a.all ∧ e.id ∉ erased (Entry.isReg r) a.regs := by
      intro e
      simp only [mem_all, DepState.eraseReg, mem_filter_iff hndr]
      have hv := fun he => notMem_erased_of_notMem (g := Entry.isReg r) hrv (e := e) he
      have hw := fun he => notMem_erased_of_notMem (g := Entry.isReg r) hwr (e := e) he
      tauto
    rw [readDepNodeEraseReg, if_neg hnone, herase]
    refine ⟨_, rfl, ⟨⟨_, _, ⟨?_, ?_, hnodes.seg hn.writes hwr, ?_, ?_, ?_⟩,
      hl.remove hf hall rfl⟩, hsc⟩, rfl, rfl⟩
    · obtain ⟨q, hv, hqt, hdead, hq⟩ := hn.vars
      refine ⟨q, hnodes.seg hv hrv, fun d hd => by rw [hnodes.top]; exact hqt d hd,
        fun d hd => ?_, hq⟩
      by_contra hcon
      exact (hnodes.live hn.regs hcon).1 (hdead d hd)
    · rw [hr']
      exact hseg
    · refine hn.nodup.sublist (List.Sublist.map _ ?_)
      exact ((List.Sublist.refl _).append List.filter_sublist).append (List.Sublist.refl _)
    · intro hlost i hi
      obtain ⟨hi', hR⟩ := hnodes.live hn.regs hi
      obtain ⟨e, he, rfl⟩ := List.mem_map.mp (hn.owned hlost i hi')
      exact List.mem_map_of_mem ((hall e).mpr ⟨he, hR⟩)
    · rw [hnodes.top]
      exact hn.top

/-- Erasing a temporary where the last pointer of `var_deps` dangles. -/
theorem readDepNodeEraseTmp_dangling (hr : RepHand s a p vs) (hd : a.dangling = true)
    (t : BitVec 32) : readDepNodeEraseTmp s t = .error .dangling := by
  obtain ⟨⟨P, D, hn, hl⟩, -⟩ := hr
  obtain ⟨q, hv, -, hdead, hq⟩ := hn.vars
  obtain ⟨n, hfuel⟩ := fuel_enough hv hdead
  obtain ⟨x, rfl⟩ : ∃ x, q = some x :=
    Option.ne_none_iff_exists'.mp fun he => by simp [hq.mp he] at hd
  have hne : s.varDeps ≠ none := Option.ne_none_iff_exists'.mpr hv.exists_of_some
  obtain ⟨ints, -, hrun, -⟩ :=
    freeNodeLists hl.lists (nodup_erased (Entry.isTemp t) hn.nodup_parts.1)
  have hloop := eraseLoop_dangling (f := isTemp t) (g := Entry.isTemp t) (fun _ _ => rfl)
    ⟨s.nodes, s.ints, s.regDeps⟩ n hv (hdead x rfl) hn.nodup_parts.1
    (fun j (hj : none = some j) => by cases hj) hrun
  rw [readDepNodeEraseTmp, if_neg hne, eraseFrom, hfuel, hloop, error_bind]

section EraseVars

variable {nodes : NodeHeap} {ints : IntHeap} {P : ℕ → Ptr} {D : ℕ → List ℤ} {g : Entry → Bool}

/-- **The head stays**: `var_deps` has the entries that are left. -/
theorem NodesRep.filterVars (hn : NodesRep s.nodes s.varDeps s.regDeps s.writeDeps a P)
    (hl : ListsRep s.ints s.shadowMem a P D p vs) (hd : a.dangling = false)
    (hnodes : ErasedNodes s.nodes nodes a.vars (erased g a.vars))
    (hseg : Seg nodes s.varDeps
      ((a.vars.filter fun e => !g e).map (cellOf (wipe none P (erased g a.vars)))) none)
    (hf : Family ints (placePtr s.shadowMem (wipe none P (erased g a.vars)) p)
      (placeVals a.shadow (wipe [] D (erased g a.vars)) vs) a.lost) :
    ∃ P' D', NodesRep nodes s.varDeps s.regDeps s.writeDeps
        { a with vars := a.vars.filter fun e => !g e } P' ∧
      ListsRep ints s.shadowMem { a with vars := a.vars.filter fun e => !g e } P' D' p vs := by
  obtain ⟨hndv, -, hvr, hvw, -⟩ := hn.nodup_parts
  have hrv : ∀ i ∈ a.regs.map Entry.id, i ∉ a.vars.map Entry.id := fun i hi hi' => hvr i hi' hi
  have hwv : ∀ i ∈ a.writes.map Entry.id, i ∉ a.vars.map Entry.id := fun i hi hi' => hvw i hi' hi
  have hall : ∀ e, e ∈ ({ a with vars := a.vars.filter fun e => !g e } : DepState).all ↔
      e ∈ a.all ∧ e.id ∉ erased g a.vars := by
    intro e
    simp only [mem_all, mem_filter_iff hndv]
    have hr := fun he => notMem_erased_of_notMem (g := g) hrv (e := e) he
    have hw := fun he => notMem_erased_of_notMem (g := g) hwv (e := e) he
    tauto
  obtain ⟨q, hv, -, -, hq⟩ := hn.vars
  refine ⟨_, _, ⟨⟨none, hseg, fun _ hx => (by cases hx), Heap.dead_none, by simp [hd]⟩,
    hnodes.seg hn.regs hrv, hnodes.seg hn.writes hwv, ?_, ?_, ?_⟩, hl.remove hf hall rfl⟩
  · refine hn.nodup.sublist (List.Sublist.map _ ?_)
    exact (List.filter_sublist.append (List.Sublist.refl _)).append (List.Sublist.refl _)
  · intro hlost i hi
    obtain ⟨hi', hR⟩ := hnodes.live hv hi
    obtain ⟨e, he, rfl⟩ := List.mem_map.mp (hn.owned hlost i hi')
    exact List.mem_map_of_mem ((hall e).mpr ⟨he, hR⟩)
  · rw [hnodes.top]
    exact hn.top

/-- The entries that are left where the head goes: those of `reg_deps` are lost with the
erased ones. -/
theorem mem_all_moved (hn : NodesRep s.nodes s.varDeps s.regDeps s.writeDeps a P) (e : Entry) :
    e ∈ ({ a with
        vars := [], dangling := true, lost := true,
        regs := a.vars.filter fun e => !g e } : DepState).all ↔
      e ∈ a.all ∧ e.id ∉ erased g a.vars ++ a.regs.map Entry.id := by
  obtain ⟨hndv, -, hvr, hvw, hrw⟩ := hn.nodup_parts
  have hwv : ∀ i ∈ a.writes.map Entry.id, i ∉ a.vars.map Entry.id := fun i hi hi' => hvw i hi' hi
  simp only [mem_all, mem_filter_iff hndv, List.not_mem_nil, false_or, List.mem_append, not_or]
  constructor
  · rintro (⟨hmem, hnot⟩ | hmem)
    · exact ⟨.inl hmem, hnot, hvr _ (List.mem_map_of_mem hmem)⟩
    · exact ⟨.inr (.inr hmem), notMem_erased_of_notMem hwv hmem,
        fun hi => hrw _ hi (List.mem_map_of_mem hmem)⟩
  · rintro ⟨hmem | hmem | hmem, hnot⟩
    · exact .inl ⟨hmem, hnot.1⟩
    · exact absurd (List.mem_map_of_mem hmem) hnot.2
    · exact .inr hmem

/-- **The head goes**: `reg_deps` has the entries that are left, those that it had are lost,
and `var_deps` points to the freed head. -/
theorem NodesRep.moveVars {r : Ptr} {x : ℕ}
    (hn : NodesRep s.nodes s.varDeps s.regDeps s.writeDeps a P)
    (hl : ListsRep s.ints s.shadowMem a P D p vs)
    (hv : s.varDeps = some x) (hx : x ∈ erased g a.vars)
    (hnodes : ErasedNodes s.nodes nodes a.vars (erased g a.vars))
    (hseg : Seg nodes r
      ((a.vars.filter fun e => !g e).map (cellOf (wipe none P (erased g a.vars)))) none)
    (hf : Family ints (placePtr s.shadowMem (wipe none P (erased g a.vars)) p)
      (placeVals a.shadow (wipe [] D (erased g a.vars)) vs) a.lost) :
    ∃ P' D', NodesRep nodes s.varDeps r s.writeDeps { a with
        vars := [], dangling := true, lost := true, regs := a.vars.filter fun e => !g e } P' ∧
      ListsRep ints s.shadowMem { a with
        vars := [], dangling := true, lost := true, regs := a.vars.filter fun e => !g e }
          P' D' p vs := by
  obtain ⟨-, -, hvr, hvw, hrw⟩ := hn.nodup_parts
  have hwv : ∀ i ∈ a.writes.map Entry.id, i ∉ a.vars.map Entry.id := fun i hi hi' => hvw i hi' hi
  have hR : ∀ {i}, i ∈ erased g a.vars ++ a.regs.map Entry.id ↔
      i ∈ erased g a.vars ∨ i ∈ a.regs.map Entry.id := List.mem_append
  have hforget := hf.forget
    (placePtr s.shadowMem (wipe none P (erased g a.vars ++ a.regs.map Entry.id)) p)
    (placeVals a.shadow (wipe [] D (erased g a.vars ++ a.regs.map Entry.id)) vs) (by
      rintro (k | i | _)
      · exact .inl ⟨rfl, rfl⟩
      · by_cases hi : i ∈ a.regs.map Entry.id
        · exact .inr ⟨wipe_of_mem (hR.mpr (.inr hi)), wipe_of_mem (hR.mpr (.inr hi))⟩
        · by_cases hi' : i ∈ erased g a.vars <;> simp [placePtr, placeVals, wipe, hi, hi']
      · exact .inl ⟨rfl, rfl⟩)
  -- the other lists keep their pointers when the nodes of `reg_deps` are wiped as well
  have hcell : ∀ {es : List Entry}, (∀ i ∈ es.map Entry.id, i ∉ a.regs.map Entry.id) →
      es.map (cellOf (wipe none P (erased g a.vars ++ a.regs.map Entry.id))) =
        es.map (cellOf (wipe none P (erased g a.vars))) := fun {es} hes =>
    map_cellOf_congr fun e he => by
      by_cases hi : e.id ∈ erased g a.vars
      · rw [wipe_of_mem hi, wipe_of_mem (hR.mpr (.inl hi))]
      · rw [wipe_of_notMem hi, wipe_of_notMem fun hmem =>
          (hR.mp hmem).elim hi (hes _ (List.mem_map_of_mem he))]
  refine ⟨_, _, ⟨⟨some x, hv, ?_, ?_, by simp⟩, ?_, ?_, ?_, fun hlost => by simp at hlost, ?_⟩,
    hl.remove hforget (mem_all_moved hn) rfl⟩
  · rintro i ⟨⟩
    rw [hnodes.top]
    obtain ⟨e, he, rfl⟩ := List.mem_map.mp (hnodes.sub x hx)
    exact hn.lt_top (List.mem_map_of_mem (List.mem_append_left _ (List.mem_append_left _ he)))
  · rintro i ⟨⟩
    exact hnodes.gone x hx
  · rw [hcell fun i hi => hvr i ((List.filter_sublist.map _).mem hi)]
    exact hseg
  · rw [hcell fun i hi hi' => hrw i hi' hi]
    exact hnodes.seg hn.writes hwv
  · refine hn.nodup.sublist (List.Sublist.map _ (List.Sublist.append ?_ (List.Sublist.refl _)))
    exact List.filter_sublist.trans (List.sublist_append_left _ _)
  · rw [hnodes.top]
    exact hn.top

end EraseVars

/-- **Erasing a temporary.** -/
theorem readDepNodeEraseTmp_lockstep (hr : RepHand s a p vs) (t : BitVec 32) :
    Lockstep (Erased s a p vs) (readDepNodeEraseTmp s t) (a.eraseTmp t) := by
  cases hd : a.dangling with
  | true =>
    rw [readDepNodeEraseTmp_dangling hr hd, DepState.eraseTmp, if_pos hd]
    exact .error _
  | false =>
    obtain ⟨⟨P, D, hn, hl⟩, hsc⟩ := id hr
    obtain ⟨q, hv, -, -, hq⟩ := hn.vars
    obtain rfl := hq.mpr hd
    cases hvars : a.vars with
    | nil =>
      rw [hvars] at hv
      simp only [readDepNodeEraseTmp, if_pos (Seg.nil_iff.mp hv), DepState.eraseTmp, hd, hvars]
      exact .ok ⟨hr, rfl, rfl⟩
    | cons e es =>
      obtain ⟨nodes, ints, r, v, -, herase, hreg, hseg, hnodes, -, hf⟩ :=
        eraseFrom_list (f := isTemp t) (g := Entry.isTemp t) (fun _ _ => rfl) hv hl.lists
      have hvarDeps : s.varDeps = some e.id := by
        rw [hvars] at hv
        exact hv.1
      have herased : a.eraseTmp t = if e.isTemp t then
          .ok { a with
            vars := [], dangling := true, lost := true,
            regs := a.vars.filter fun e => !e.isTemp t }
          else .ok { a with vars := a.vars.filter fun e => !e.isTemp t } := by
        simp only [DepState.eraseTmp, hd, hvars, Bool.false_eq_true, if_false]
      rw [readDepNodeEraseTmp, if_neg (by simp [hvarDeps]), herase, herased]
      by_cases hg : e.isTemp t
      · -- what is left becomes `reg_deps`
        obtain rfl : r = v := by simpa [hvars, hg] using hreg
        have hx : e.id ∈ erased (Entry.isTemp t) a.vars := by
          rw [hvars, erased_cons, if_pos hg]
          exact List.mem_cons_self
        rw [if_pos hg]
        exact .ok ⟨⟨hn.moveVars hl hvarDeps hx hnodes hseg hf, hsc⟩, rfl, rfl⟩
      · obtain ⟨rfl, rfl⟩ : v = s.varDeps ∧ r = s.regDeps := by simpa [hvars, hg] using hreg
        rw [if_neg hg]
        exact .ok ⟨⟨hn.filterVars hl hd hnodes hseg hf, hsc⟩, rfl, rfl⟩

/-! ### Recording entries -/

/-- The lists after the one in the hand was given to a new entry. -/
theorem ListsRep.give {ints : IntHeap} {tb : Table Ptr} {P : ℕ → Ptr} {D : ℕ → List ℤ} {e : Entry}
    (hl : ListsRep ints tb a P D p vs) (hnew : e.id ∉ a.all.map Entry.id) (hdeps : e.deps = vs)
    (ha : ∀ e', e' ∈ a'.all ↔ e' ∈ a.all ∨ e' = e) (hsh : a'.shadow = a.shadow)
    (hlost : a'.lost = a.lost) :
    ListsRep ints tb a' (Function.update P e.id p) (Function.update D e.id vs) none [] where
  deps e' he' := by
    rcases (ha e').mp he' with hold | rfl
    · have hne : e'.id ≠ e.id := fun he => hnew (he ▸ List.mem_map_of_mem hold)
      rw [Function.update_of_ne hne, hl.deps e' hold]
    · rw [Function.update_self, hdeps]
  stray i hi := by
    have hne : i ≠ e.id := fun he =>
      hi (he ▸ List.mem_map_of_mem ((ha e).mpr (Or.inr rfl)))
    rw [Function.update_of_ne hne]
    refine hl.stray i fun hmem => hi ?_
    obtain ⟨e', he', rfl⟩ := List.mem_map.mp hmem
    exact List.mem_map_of_mem ((ha e').mpr (Or.inl he'))
  lists := by
    have hempty : placeVals a.shadow D vs (.node e.id) = [] := hl.stray e.id hnew
    have hmove := hl.lists.move .hand _ hempty
    rw [update_placePtr_hand, update_placeVals_hand, update_placePtr_node,
      update_placeVals_node] at hmove
    rw [hsh, hlost]
    exact hmove
  pages u := by rw [hsh, hl.pages]

/-- A new node in front of a list. -/
theorem readDepNodePrepend_spec {h : NodeHeap} {v : Ptr} {d : DepVal} {q : Ptr} :
    ∃ h', readDepNodePrepend h v d q = .ok (h', some h.top) ∧
      h'.cell h.top = some ⟨⟨d, q⟩, v⟩ ∧ (∀ i, i ≠ h.top → h'.cell i = h.cell i) ∧
      h'.top = h.top + 1 := by
  have hcell : (h.alloc ⟨⟨d, q⟩, none⟩).cell h.top = some ⟨⟨d, q⟩, none⟩ := Heap.alloc_cell_self
  refine ⟨(h.alloc ⟨⟨d, q⟩, none⟩).set h.top (some ⟨⟨d, q⟩, v⟩) (Heap.lt_top hcell), ?_,
    Heap.set_cell_self, fun i hi => ?_, rfl⟩
  · simp only [readDepNodePrepend, createReadDepNode, Heap.setNext_of_cell hcell, ok_bind]
  · rw [Heap.set_cell_of_ne hi, Heap.alloc_cell_of_ne hi]

/-- A new node at the end of a list. -/
theorem readDepNodeAppend_spec {h : NodeHeap} {v : Ptr} {d : DepVal} {q : Ptr}
    {l : List (ℕ × ReadDep)} (hs : Seg h v l none) :
    ∃ h' v', readDepNodeAppend h v d q = .ok (h', v') ∧
      Seg h' v' (l ++ [(h.top, ⟨d, q⟩)]) none ∧
      (∀ i, i ∉ ids l → i ≠ h.top → h'.cell i = h.cell i) ∧ h'.top = h.top + 1 := by
  rcases List.eq_nil_or_concat' l with rfl | ⟨l₀, x, rfl⟩
  · obtain rfl : v = none := hs
    exact ⟨_, _, rfl, (Grows.alloc h _).seg, fun i _ hi => Heap.alloc_cell_of_ne hi, rfl⟩
  · obtain ⟨i, c⟩ := x
    have hs' := hs.alloc (n := ⟨⟨d, q⟩, none⟩)
    obtain ⟨v', -, -, r, hcell, -⟩ := Seg.append_iff.mp hs'
    have hit : i < h.top := hs.lt_top (by simp)
    cases v with
    | none => exact absurd hs.eq_nil_of_none (by simp)
    | some j =>
      refine ⟨_, some j, ?_, hs'.link (Heap.lt_top hcell) (Grows.alloc h _).seg (by simp; omega),
        fun k hk hk' => ?_, rfl⟩
      · simp only [readDepNodeAppend, Heap.last_seg hs, ok_bind, createReadDepNode]
        rw [Heap.setNext_of_cell hcell, ok_bind]
      · have hne : k ≠ i := fun he => hk (by simp [he])
        rw [Heap.set_cell_of_ne hne, Heap.alloc_cell_of_ne hk']

namespace NodesRep

variable {h h' : NodeHeap} {v r w v' r' w' : Ptr} {P : ℕ → Ptr} {e : Entry}

/-- **A state with one more entry**, put together from its three lists. -/
theorem insert (hn : NodesRep h v r w a P) (he : e.id = h.top) (ha : a'.all.Perm (e :: a.all))
    (htop : h'.top = h.top + 1) (hid : a'.nextId = a.nextId + 1) (hlost : a'.lost = a.lost)
    (hlive : ∀ i, i ≠ h.top → h'.cell i ≠ none → h.cell i ≠ none)
    (hv : ∃ q, Seg h' v' (a'.vars.map (cellOf (Function.update P e.id p))) q ∧
      (∀ d, q = some d → d < h'.top) ∧ h'.Dead q ∧ (q = none ↔ a'.dangling = false))
    (hr : Seg h' r' (a'.regs.map (cellOf (Function.update P e.id p))) none)
    (hw : Seg h' w' (a'.writes.map (cellOf (Function.update P e.id p))) none) :
    NodesRep h' v' r' w' a' (Function.update P e.id p) where
  vars := hv
  regs := hr
  writes := hw
  nodup := by
    refine (ha.map Entry.id).nodup_iff.mpr (List.nodup_cons.mpr ⟨fun hmem => ?_, hn.nodup⟩)
    have := hn.lt_top hmem
    omega
  owned hl i hi := by
    refine (ha.map Entry.id).mem_iff.mpr ?_
    rcases eq_or_ne i h.top with rfl | hne
    · rw [← he]
      exact List.mem_cons_self
    · exact List.mem_cons_of_mem _ (hn.owned (hlost ▸ hl) i (hlive i hne hi))
  top := by rw [htop, hid, hn.top]

/-- A list the new entry is not put into. -/
theorem seg_old (hn : NodesRep h v r w a P) (he : e.id = h.top) {x q : Ptr} {es : List Entry}
    (hs : Seg h x (es.map (cellOf P)) q) (hes : ∀ e' ∈ es, e' ∈ a.all)
    (hkeep : ∀ i ∈ es.map Entry.id, h'.cell i = h.cell i) :
    Seg h' x (es.map (cellOf (Function.update P e.id p))) q := by
  rw [map_cellOf_congr fun e' he' => Function.update_of_ne (fun hid => ?_) _ _]
  · exact hs.congr fun i hi => hkeep i (by rwa [← ids_map_cellOf P])
  · have := hn.lt_top (List.mem_map_of_mem (hes e' he'))
    omega

/-- The end of `var_deps` after a new node was allocated. -/
theorem tail_new (hn : NodesRep h v r w a P) (he : e.id = h.top)
    (htop : h'.top = h.top + 1) (hkeep : ∀ i, i < h.top → h'.cell i = h.cell i) :
    ∃ q, Seg h' v (a.vars.map (cellOf (Function.update P e.id p))) q ∧
      (∀ d, q = some d → d < h'.top) ∧ h'.Dead q ∧ (q = none ↔ a.dangling = false) := by
  obtain ⟨q, hv, hqt, hdead, hq⟩ := hn.vars
  refine ⟨q, hn.seg_old he hv (fun e' he' => mem_all.mpr (Or.inl he')) fun i hi => ?_,
    fun d hd => ?_, fun d hd => ?_, hq⟩
  · exact hkeep i (hv.lt_top (by rwa [ids_map_cellOf]))
  · have := hqt d hd
    omega
  · rw [hkeep d (hqt d hd)]
    exact hdead d hd

/-- The registers after a new node was allocated. -/
theorem regs_new (hn : NodesRep h v r w a P) (he : e.id = h.top)
    (hkeep : ∀ i ∈ a.regs.map Entry.id, h'.cell i = h.cell i) :
    Seg h' r (a.regs.map (cellOf (Function.update P e.id p))) none :=
  hn.seg_old he hn.regs (fun _ he' => mem_all.mpr (Or.inr (Or.inl he'))) hkeep

/-- The writes after a new node was allocated. -/
theorem writes_new (hn : NodesRep h v r w a P) (he : e.id = h.top)
    (hkeep : ∀ i ∈ a.writes.map Entry.id, h'.cell i = h.cell i) :
    Seg h' w (a.writes.map (cellOf (Function.update P e.id p))) none :=
  hn.seg_old he hn.writes (fun _ he' => mem_all.mpr (Or.inr (Or.inr he'))) hkeep

/-- The new entry at the end of a list. -/
theorem seg_snoc (hn : NodesRep h v r w a P) (he : e.id = h.top) {x : Ptr} {es : List Entry}
    (hs : Seg h' x (es.map (cellOf P) ++ [(h.top, ⟨e.val, p⟩)]) none)
    (hes : ∀ e' ∈ es, e' ∈ a.all) :
    Seg h' x ((es ++ [e]).map (cellOf (Function.update P e.id p))) none := by
  rw [List.map_append, map_cellOf_congr fun e' he' => Function.update_of_ne (fun hid => ?_) _ _]
  · simpa [cellOf, he] using hs
  · have := hn.lt_top (List.mem_map_of_mem (hes e' he'))
    omega

end NodesRep

/-- **Recording the list in the hand**: the entry is new, the lists of nodes are
right, and the list moves from the hand to its node. -/
theorem RepHand.record (hr : RepHand s a p vs) {e : Entry} {nodes : NodeHeap} {v r w : Ptr}
    (he : e.id = s.nodes.top) (hdeps : e.deps = vs) (ha : a'.all.Perm (e :: a.all))
    (hsh : a'.shadow = a.shadow) (hlost : a'.lost = a.lost)
    (hsc : a'.readN = a.readN ∧ a'.writeN = a.writeN ∧ a'.trace = a.trace)
    (hn' : ∀ P, NodesRep s.nodes s.varDeps s.regDeps s.writeDeps a P →
      NodesRep nodes v r w a' (Function.update P e.id p)) :
    Rep { s with nodes := nodes, varDeps := v, regDeps := r, writeDeps := w } a' := by
  obtain ⟨⟨P, D, hn, hl⟩, hrn, hwn, htr⟩ := hr
  have hnew : e.id ∉ a.all.map Entry.id := fun hmem => by
    have := hn.lt_top hmem
    omega
  refine ⟨⟨_, _, hn' P hn, hl.give hnew hdeps (fun e' => ?_) hsh hlost⟩,
    hrn.trans hsc.1.symm, hwn.trans hsc.2.1.symm, htr.trans hsc.2.2.symm⟩
  rw [ha.mem_iff, List.mem_cons, or_comm]

/-- **Recording a list for a temporary, in front.** -/
theorem prependVar_spec (hr : RepHand s a p vs) (t : BitVec 32) :
    ∃ s', prependVar s t p = .ok s' ∧ Rep s' (a.prependVar t vs) := by
  obtain ⟨nodes, hpre, hcell, hkeep, htop⟩ :=
    readDepNodePrepend_spec (h := s.nodes) (v := s.varDeps) (d := .temp t) (q := p)
  have hid : a.nextId = s.nodes.top := by
    obtain ⟨⟨P, D, hn, -⟩, -⟩ := hr
    exact hn.top.symm
  refine ⟨{ s with nodes := nodes, varDeps := some s.nodes.top }, ?_,
    hr.record (e := ⟨a.nextId, .temp t, vs⟩) hid rfl (List.Perm.refl _) rfl rfl ⟨rfl, rfl, rfl⟩
      fun P hn => ?_⟩
  · simp only [prependVar, hpre, ok_bind]
  · have hlt : ∀ i, i < s.nodes.top → nodes.cell i = s.nodes.cell i := fun i hi =>
      hkeep i (by omega)
    obtain ⟨q, hv, hq⟩ := hn.tail_new (p := p) (e := ⟨a.nextId, .temp t, vs⟩) hid htop hlt
    refine hn.insert hid (List.Perm.refl _) htop rfl rfl (fun i hi hc => by rwa [hkeep i hi] at hc)
      ⟨q, ⟨congrArg some hid.symm, s.varDeps, ?_, hv⟩, hq⟩
      (hn.regs_new hid fun i hi => hlt i (hn.lt_top ?_))
      (hn.writes_new hid fun i hi => hlt i (hn.lt_top ?_))
    · simp only [hid, hcell, Function.update_self]
    · simp only [DepState.all, List.map_append, List.mem_append, hi, or_true, true_or]
    · simp only [DepState.all, List.map_append, List.mem_append, hi, or_true]

/-- **Recording a list for a register.** -/
theorem prependReg_spec (hr : RepHand s a p vs) (r : BitVec 32) :
    ∃ s', prependReg s r p = .ok s' ∧ Rep s' (a.prependReg r vs) := by
  obtain ⟨nodes, hpre, hcell, hkeep, htop⟩ :=
    readDepNodePrepend_spec (h := s.nodes) (v := s.regDeps) (d := .reg r) (q := p)
  have hid : a.nextId = s.nodes.top := by
    obtain ⟨⟨P, D, hn, -⟩, -⟩ := hr
    exact hn.top.symm
  have hperm : (a.prependReg r vs).all.Perm (⟨a.nextId, .reg r, vs⟩ :: a.all) := by
    simp [DepState.all, DepState.prependReg]
  refine ⟨{ s with nodes := nodes, regDeps := some s.nodes.top }, ?_, hr.record
    (e := ⟨a.nextId, .reg r, vs⟩) hid rfl hperm rfl rfl ⟨rfl, rfl, rfl⟩ fun P hn => ?_⟩
  · simp only [prependReg, hpre, ok_bind]
  · have hlt : ∀ i, i < s.nodes.top → nodes.cell i = s.nodes.cell i := fun i hi =>
      hkeep i (by omega)
    refine hn.insert hid hperm htop rfl rfl (fun i hi hc => by rwa [hkeep i hi] at hc)
      (hn.tail_new hid htop hlt)
      ⟨congrArg some hid.symm, s.regDeps, ?_, hn.regs_new hid fun i hi => hlt i (hn.lt_top ?_)⟩
      (hn.writes_new hid fun i hi => hlt i (hn.lt_top ?_))
    · simp only [hid, hcell, Function.update_self]
    · simp only [DepState.all, List.map_append, List.mem_append, hi, or_true, true_or]
    · simp only [DepState.all, List.map_append, List.mem_append, hi, or_true]

/-- **Recording a list for a temporary, at the end.** -/
theorem appendVar_lockstep (hr : RepHand s a p vs) (t : BitVec 32) :
    Lockstep Rep (appendVar s t p) (a.appendVar t vs) := by
  obtain ⟨⟨P₀, D₀, hn₀, hl₀⟩, -⟩ := id hr
  obtain ⟨q, hv₀, -, hdead, hq⟩ := hn₀.vars
  cases hd : a.dangling with
  | true =>
    obtain ⟨x, rfl⟩ : ∃ x, q = some x :=
      Option.ne_none_iff_exists'.mp fun he => by simp [hq.mp he] at hd
    obtain ⟨j, hj⟩ := hv₀.exists_of_some
    rw [hj] at hv₀
    have hlast := Heap.last_dangling hv₀ (hdead x rfl)
    simp only [appendVar, readDepNodeAppend, hj, hlast, error_bind, DepState.appendVar, hd, if_true]
    exact .error _
  | false =>
    obtain rfl := hq.mpr hd
    obtain ⟨nodes, v', happ, -⟩ := readDepNodeAppend_spec (d := .temp t) (q := p) hv₀
    have hid : a.nextId = s.nodes.top := hn₀.top.symm
    have hperm : ({ a with
        vars := a.vars ++ [⟨a.nextId, .temp t, vs⟩], nextId := a.nextId + 1 } : DepState).all.Perm
        (⟨a.nextId, .temp t, vs⟩ :: a.all) := by simp [DepState.all]
    simp only [appendVar, happ, ok_bind, DepState.appendVar, hd, Bool.false_eq_true, if_false]
    refine .ok (hr.record (e := ⟨a.nextId, .temp t, vs⟩) hid rfl hperm rfl rfl ⟨rfl, rfl, rfl⟩
      fun P hn => ?_)
    obtain ⟨q', hv, -, -, hq'⟩ := hn.vars
    obtain rfl := hq'.mpr hd
    obtain ⟨nodes', v'', happ', hseg, hkeep, htop⟩ :=
      readDepNodeAppend_spec (d := .temp t) (q := p) hv
    obtain ⟨rfl, rfl⟩ := Prod.mk.inj (Except.ok.inj (happ'.symm.trans happ))
    rw [ids_map_cellOf] at hkeep
    obtain ⟨-, -, hvr, hvw, -⟩ := hn.nodup_parts
    have hne : ∀ {i}, i ∈ a.all.map Entry.id → i ≠ s.nodes.top := fun hi he => by
      have := hn.lt_top hi
      omega
    refine hn.insert hid hperm htop rfl rfl (fun i hi hc => ?_)
      ⟨none, hn.seg_snoc hid hseg fun e' he' => mem_all.mpr (Or.inl he'), fun _ hx => (by cases hx),
        Heap.dead_none, by simp⟩
      (hn.regs_new hid fun i hi => hkeep i (fun hi' => hvr i hi' hi) (hne ?_))
      (hn.writes_new hid fun i hi => hkeep i (fun hi' => hvw i hi' hi) (hne ?_))
    · by_cases hmem : i ∈ a.vars.map Entry.id
      · exact hv.cell_ne_none (by rwa [ids_map_cellOf])
      · rwa [hkeep i hmem hi] at hc
    · simp only [DepState.all, List.map_append, List.mem_append, hi, or_true, true_or]
    · simp only [DepState.all, List.map_append, List.mem_append, hi, or_true]

/-- **Recording the list of a write.** -/
theorem appendWrite_spec (hr : RepHand s a p vs) (n : ℤ) :
    ∃ nodes head, readDepNodeAppend s.nodes s.writeDeps (.write n) p = .ok (nodes, head) ∧
      Rep { s with nodes := nodes, writeDeps := head }
        { a with writes := a.writes ++ [⟨a.nextId, .write n, vs⟩], nextId := a.nextId + 1 } := by
  obtain ⟨⟨P₀, D₀, hn₀, -⟩, -⟩ := id hr
  obtain ⟨nodes, head, happ, -⟩ := readDepNodeAppend_spec (d := .write n) (q := p) hn₀.writes
  have hid : a.nextId = s.nodes.top := hn₀.top.symm
  have hperm : ({ a with
      writes := a.writes ++ [⟨a.nextId, .write n, vs⟩],
      nextId := a.nextId + 1 } : DepState).all.Perm
      (⟨a.nextId, .write n, vs⟩ :: a.all) := by
    simp only [DepState.all, ← List.append_assoc]
    exact List.perm_append_singleton _ _
  refine ⟨nodes, head, happ, hr.record (e := ⟨a.nextId, .write n, vs⟩) hid rfl hperm rfl rfl
    ⟨rfl, rfl, rfl⟩ fun P hn => ?_⟩
  obtain ⟨nodes', head', happ', hseg, hkeep, htop⟩ :=
    readDepNodeAppend_spec (d := .write n) (q := p) hn.writes
  obtain ⟨rfl, rfl⟩ := Prod.mk.inj (Except.ok.inj (happ'.symm.trans happ))
  rw [ids_map_cellOf] at hkeep
  obtain ⟨-, -, -, hvw, hrw⟩ := hn.nodup_parts
  obtain ⟨q, hv, hqt, hdead, hq⟩ := hn.vars
  have hne : ∀ {i}, i ∈ a.all.map Entry.id → i ≠ s.nodes.top := fun hi he => by
    have := hn.lt_top hi
    omega
  have hdis : ∀ d, s.nodes.cell d = none → d ∉ a.writes.map Entry.id := fun d hd hmem =>
    hn.writes.cell_ne_none (by rwa [ids_map_cellOf]) hd
  refine hn.insert hid hperm htop rfl rfl (fun i hi hc => ?_)
    ⟨q, ?_, fun d hd => ?_, fun d hd => ?_, hq⟩
    (hn.regs_new hid fun i hi => hkeep i (hrw i hi) (hne ?_))
    (hn.seg_snoc hid hseg fun e' he' => mem_all.mpr (Or.inr (Or.inr he')))
  · by_cases hmem : i ∈ a.writes.map Entry.id
    · exact hn.writes.cell_ne_none (by rwa [ids_map_cellOf])
    · rwa [hkeep i hmem hi] at hc
  · refine hn.seg_old hid hv (fun e' he' => mem_all.mpr (Or.inl he')) fun i hi =>
      hkeep i (hvw i hi) (hne ?_)
    simp only [DepState.all, List.map_append, List.mem_append, hi, true_or]
  · have := hqt d hd
    omega
  · rw [hkeep d (hdis d (hdead d hd)) (hqt d hd).ne]
    exact hdead d hd
  · simp only [DepState.all, List.map_append, List.mem_append, hi, or_true, true_or]

/-! ### The shadow table -/

/-- **Setting the list of an address** to the one in the hand. -/
theorem setShadowMem_lockstep (hr : RepHand s a p vs) (addr : UWord) :
    Lockstep Rep (setShadowMem s addr p) (a.setShadow addr vs) := by
  by_cases hu : upIndex addr < tableSize
  · obtain ⟨⟨P, D, hn, hl⟩, hsc⟩ := hr
    by_cases hlow : lowIndex addr < tableSize
    · have ha : InTable addr := ⟨hu, hlow⟩
      obtain ⟨tb, page, htb, hpage, hslot, hpages⟩ :=
        Table.demand_of_inTable none s.shadowMem ha
      obtain ⟨tl, pageL, htl, hpageL, hslotL, hpagesL⟩ :=
        Table.demand_of_inTable [] a.shadow ha
      obtain ⟨tb', hput, hslot', hpages'⟩ := Table.put_of_inTable none ha hpage p
      obtain ⟨tl', hputL, hslotL', hpagesL'⟩ := Table.put_of_inTable [] ha hpageL vs
      obtain ⟨ints, hfree, hdrop⟩ := hl.lists.drop (.shadow (slotOf addr ha))
      have hmove := hdrop.move .hand (.shadow (slotOf addr ha)) (by simp)
      simp only [setShadowMem, DepState.setShadow, htb, htl, ok_bind, Table.get_of_inTable ha, hput,
        hputL, hslot]
      change Lockstep Rep
        (s.ints.freeList (placePtr s.shadowMem P p (.shadow (slotOf addr ha))) >>= _) _
      rw [hfree, ok_bind]
      refine .ok ⟨⟨P, D, ⟨hn.vars, hn.regs, hn.writes, hn.nodup, hn.owned, hn.top⟩,
        ⟨hl.deps, hl.stray, ?_, fun u => ?_⟩⟩, hsc⟩
      · have hhand : ∀ {β : Type} (f : Place → β) (x : β),
            Function.update f (.shadow (slotOf addr ha)) x .hand = f .hand := fun f x =>
          Function.update_of_ne (by simp) _ _
        rw [hhand, hhand] at hmove
        have hptr := placePtr_give s.shadowMem P p (hslot'.trans (by rw [hslot]))
        have hvals := placeVals_give a.shadow D (hslotL'.trans (by rw [hslotL]))
        change Family ints (placePtr tb' P none) (placeVals tl' D []) a.lost
        rw [← hptr, ← hvals]
        exact hmove
      · rw [hpages', hpages, hpagesL', hpagesL, hl.pages]
    · obtain ⟨tb, htb⟩ : ∃ tb, s.shadowMem.demand none addr = .ok tb := by
        rw [Table.demand, dif_pos hu]
        split <;> exact ⟨_, rfl⟩
      obtain ⟨tl, htl⟩ : ∃ tl, a.shadow.demand [] addr = .ok tl := by
        rw [Table.demand, dif_pos hu]
        split <;> exact ⟨_, rfl⟩
      simp only [setShadowMem, DepState.setShadow, htb, htl, ok_bind, Table.get_of_low hu hlow,
        Table.isSome_of_demand hu htb, Table.isSome_of_demand hu htl, if_true, error_bind]
      exact .error _
  · simp only [setShadowMem, DepState.setShadow, Table.demand_of_up hu, error_bind]
    exact .error _

/-! ### The end of a block -/

/-- **`instrument_exit`**: every entry of `var_deps` goes. -/
theorem instrumentExit_lockstep (hr : Rep s a) :
    Lockstep Rep (instrumentExit s) (a.call .exit) := by
  obtain ⟨⟨P, D, hn, hl⟩, hsc⟩ := hr
  obtain ⟨q, hv, -, hdead, hq⟩ := hn.vars
  obtain ⟨hndv, -, hvr, hvw, -⟩ := hn.nodup_parts
  obtain ⟨n, hfuel⟩ := fuel_enough hv hdead
  obtain ⟨ints, -, hrun, -, -, hf⟩ := freeNodeLists hl.lists hndv
  cases hd : a.dangling with
  | true =>
    obtain ⟨x, rfl⟩ : ∃ x, q = some x :=
      Option.ne_none_iff_exists'.mp fun he => by simp [hq.mp he] at hd
    have hloop := freeReadDepLoop_dangling n hv (hdead x rfl) hndv hrun
    simp only [instrumentExit, freeReadDepList, hfuel, hloop, error_bind, DepState.call,
      DepState.source, DepState.assign, ok_bind, hd, if_true]
    exact .error _
  | false =>
    obtain rfl := hq.mpr hd
    obtain ⟨nodes, hfree, hsh⟩ := freeReadDepList_list hv hrun
    simp only [instrumentExit, hfree, ok_bind, DepState.call, DepState.source, DepState.assign, hd,
      Bool.false_eq_true, if_false]
    have hrest : ∀ {es : List Entry}, (∀ i ∈ a.vars.map Entry.id, i ∉ es.map Entry.id) →
        ∀ e ∈ es, e.id ∉ a.vars.map Entry.id := fun hdis e he hmem =>
      hdis e.id hmem (List.mem_map_of_mem he)
    have hseg : ∀ {es : List Entry} {x : Ptr}, Seg s.nodes x (es.map (cellOf P)) none →
        (∀ i ∈ a.vars.map Entry.id, i ∉ es.map Entry.id) →
        Seg nodes x (es.map (cellOf (wipe none P (a.vars.map Entry.id)))) none := by
      intro es x hs hdis
      rw [map_cellOf_wipe (hrest hdis)]
      refine hsh.seg hs fun i hi hmem => hdis i hmem ?_
      rwa [ids_map_cellOf] at hi
    have hall : ∀ e, e ∈ ({ a with vars := [] } : DepState).all ↔
        e ∈ a.all ∧ e.id ∉ a.vars.map Entry.id := by
      intro e
      simp only [mem_all, List.not_mem_nil, false_or]
      constructor
      · rintro (he | he)
        · exact ⟨Or.inr (Or.inl he), hrest hvr e he⟩
        · exact ⟨Or.inr (Or.inr he), hrest hvw e he⟩
      · rintro ⟨he | he, hnot⟩
        · exact absurd (List.mem_map_of_mem he) hnot
        · exact he
    refine .ok ⟨⟨_, _, ⟨⟨none, rfl, fun _ hx => (by cases hx), Heap.dead_none, by simp⟩,
      hseg hn.regs hvr, hseg hn.writes hvw, ?_, ?_, ?_⟩, hl.remove hf hall rfl⟩, hsc⟩
    · refine hn.nodup.sublist (List.Sublist.map _ ?_)
      exact (List.sublist_append_right a.vars a.regs).append (List.Sublist.refl _)
    · intro hlost i hi
      obtain ⟨hi', hR⟩ := hsh.live hi
      obtain ⟨e, he, rfl⟩ := List.mem_map.mp (hn.owned hlost i hi')
      exact List.mem_map_of_mem ((hall e).mpr ⟨he, hR⟩)
    · exact hsh.top.trans hn.top

end DepLeak

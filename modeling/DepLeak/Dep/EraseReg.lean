import DepLeak.Dep.EraseTmp

/-!
# Erasing a register

What `read_dep_node_erase_reg` leaves of the two heaps: it takes the entries of a register out
of `reg_deps`, wherever in the list they are, and frees them with their lists. Unlike its
sibling for temporaries it assigns the list it goes over, so that this holds for every list
(`DepLeak.erasesReg`), and no more is asked of the state than that the entries of that list
have lists of their own (`DepLeak.RegList`). A node that is freed again is a fault, so that
what is freed here is freed once.
-/

namespace DepLeak

open LinkedHeap Runs

variable {s s' : State} {A : DepState} {r : BitVec 32} {l : List (ℕ × ReadDep)}

/-! ### The property -/

/-- **`reg_deps` is the list `l`**, and its entries have lists that share no node. -/
structure RegList (s : State) (l : List (ℕ × ReadDep)) : Prop where
  /-- The entries of `reg_deps`. -/
  regs : Seg s.nodes s.regDeps l none
  /-- Each has a list. -/
  lists : ∀ x ∈ l, ∃ m, Seg s.ints x.2.readDeps m none
  /-- No two of them share a node. -/
  separate : ∀ x ∈ l, ∀ y ∈ l, x ≠ y →
    ∀ i, Reaches s.ints x.2.readDeps i → ¬Reaches s.ints y.2.readDeps i

/-- The `int_node` is in the list of an entry for the register. -/
def OfRegister (s : State) (r : BitVec 32) (l : List (ℕ × ReadDep)) (i : ℕ) : Prop :=
  ∃ x ∈ l, isReg r x.2 ∧ Reaches s.ints x.2.readDeps i

/-- **Exactly the register is erased** from `reg_deps`, where the list was `l`. -/
structure ErasesReg (s s' : State) (r : BitVec 32) (l : List (ℕ × ReadDep)) : Prop where
  /-- `reg_deps` has the entries that are not for the register, in their order. -/
  regs : Seg s'.nodes s'.regDeps (l.filter fun x => !isReg r x.2) none
  /-- Their lists are as they were. -/
  lists : ∀ x ∈ l, ¬isReg r x.2 → ∀ m, Seg s.ints x.2.readDeps m none →
    Seg s'.ints x.2.readDeps m none
  /-- `var_deps` and `write_deps` start where they did. -/
  heads : s'.varDeps = s.varDeps ∧ s'.writeDeps = s.writeDeps
  /-- No node of them has changed, nor any other that was not in `reg_deps`. -/
  others : ∀ i, i ∉ ids l → s'.nodes.cell i = s.nodes.cell i
  /-- So that both are the lists they were, unless they had a node in common with `reg_deps`. -/
  elsewhere : ∀ head m q, Seg s.nodes head m q → (∀ i ∈ ids m, i ∉ ids l) →
    Seg s'.nodes head m q
  /-- The entries for the register are freed, and no others. -/
  nodes : ∀ i, s'.nodes.cell i = none ↔ s.nodes.cell i = none ∨ ∃ x ∈ l, isReg r x.2 ∧ x.1 = i
  /-- So are their lists. -/
  gone : ∀ i, OfRegister s r l i → s'.ints.cell i = none
  /-- All other lists are as they were. -/
  kept : ∀ i, ¬OfRegister s r l i → s'.ints.cell i = s.ints.cell i
  /-- Nothing else has changed. -/
  rest : s'.shadowMem = s.shadowMem ∧ s'.readN = s.readN ∧ s'.writeN = s.writeN ∧
    s'.trace = s.trace

/-! ### In the states of the tool -/

/-- **Between two helpers or hooks** the entries of `reg_deps` have lists of their own, and
the other two lists of nodes have no node in common with it. -/
theorem Rep.exists_regList (hr : Rep s A) : ∃ l, RegList s l ∧
    ∀ head ∈ [s.varDeps, s.writeDeps], ∀ m q, Seg s.nodes head m q → ∀ i ∈ ids m, i ∉ ids l := by
  obtain ⟨⟨P, D, hn, hl⟩, -⟩ := hr
  obtain ⟨own, hown, -, hdis, -⟩ := hl.lists
  have hlist : ∀ e : Entry, Seg s.ints (P e.id) (own (.node e.id)) none := fun e =>
    hown (.node e.id)
  obtain ⟨-, -, hvr, -, hrw⟩ := hn.nodup_parts
  refine ⟨A.regs.map (cellOf P), ⟨hn.regs, ?_, ?_⟩, ?_⟩
  · intro x hx
    obtain ⟨e, -, rfl⟩ := List.mem_map.mp hx
    exact ⟨_, hlist e⟩
  · intro x hx y hy hne i hi hi'
    obtain ⟨e, -, rfl⟩ := List.mem_map.mp hx
    obtain ⟨e', -, rfl⟩ := List.mem_map.mp hy
    have hnodes := hn.regs.nodup Heap.dead_none
    have hplace : Place.node e.id ≠ .node e'.id := fun h =>
      hne (List.inj_on_of_nodup_map hnodes hx hy (Place.node.inj h))
    exact hdis _ _ hplace i ((hlist e).reaches_iff.mp hi) ((hlist e').reaches_iff.mp hi')
  · intro head hhead m q hm i hi
    simp only [List.mem_cons, List.not_mem_nil, or_false] at hhead
    rw [ids_map_cellOf]
    have hwithin : ∀ {es : List Entry} {q' : Ptr}, Seg s.nodes head (es.map (cellOf P)) q' →
        s.nodes.Dead q' → i ∈ es.map Entry.id := by
      intro es q' hes hdead
      rw [← ids_map_cellOf P]
      exact ((hm.isPrefix hes hdead).map Prod.fst).subset hi
    rcases hhead with rfl | rfl
    · obtain ⟨q', hv, -, hdead, -⟩ := hn.vars
      exact hvr i (hwithin hv hdead)
    · exact fun hir => hrw i hir (hwithin hn.writes Heap.dead_none)

/-! ### Freeing the lists of some entries -/

/-- **Freeing the lists of the entries that pass a test**, one after the other. -/
theorem RegList.freeLists (h : RegList s l) (f : ReadDep → Bool) :
    ∃ ints S, run freeIntNodeList s.ints ((l.filter fun x => f x.2).map fun x => x.2.readDeps) =
        .ok ints ∧ Shrinks s.ints ints S ∧
      ∀ i, i ∈ S ↔ ∃ x ∈ l, f x.2 ∧ Reaches s.ints x.2.readDeps i := by
  choose! own hown using h.lists
  have hnd : l.Nodup := (h.regs.nodup Heap.dead_none).of_map _
  have hmem : ∀ {x : ℕ × ReadDep}, (x ∈ l.filter fun x => f x.2) ↔ x ∈ l ∧ f x.2 :=
    List.mem_filter
  obtain ⟨ints, hrun, hshrinks⟩ :=
    Heap.freeLists_seg ((l.filter fun x => f x.2).map fun x => (x.2.readDeps, own x))
      (by
        intro y hy
        obtain ⟨x, hx, rfl⟩ := List.mem_map.mp hy
        exact hown x (hmem.mp hx).1)
      (by
        refine List.pairwise_map.mpr ((hnd.filter _).imp_of_mem fun {x y} hx hy hne i hi hi' => ?_)
        refine h.separate x (hmem.mp hx).1 y (hmem.mp hy).1 hne i ?_ ?_
        · exact (hown x (hmem.mp hx).1).reaches_iff.mpr hi'
        · exact (hown y (hmem.mp hy).1).reaches_iff.mpr hi)
  rw [List.map_map] at hrun
  refine ⟨ints, _, hrun, hshrinks, fun i => ?_⟩
  rw [List.flatMap_map, List.mem_flatMap]
  constructor
  · rintro ⟨x, hx, hi⟩
    obtain ⟨hxl, hf⟩ := hmem.mp hx
    exact ⟨x, hxl, hf, (hown x hxl).reaches_iff.mpr hi⟩
  · rintro ⟨x, hxl, hf, hi⟩
    exact ⟨x, hmem.mpr ⟨hxl, hf⟩, (hown x hxl).reaches_iff.mp hi⟩

/-! ### The loop -/

/-- Without entries the loop has nothing to do. -/
theorem readDepNodeEraseReg_eq (s : State) (r : BitVec 32) :
    readDepNodeEraseReg s r = eraseFrom (isReg r) s s.regDeps := by
  rw [readDepNodeEraseReg]
  split
  · next h =>
    obtain ⟨ints, nodes, vars, regs⟩ := s
    obtain rfl : regs = none := h
    rfl
  · rfl

/-- The pointers to lists that the nodes have. -/
def listPtr (h : NodeHeap) (i : ℕ) : Ptr := (h.cell i).elim none fun node => node.val.readDeps

/-- The entries of a list of nodes; what is in their lists does not matter. -/
def entriesOf (l : List (ℕ × ReadDep)) : List Entry := l.map fun x => ⟨x.1, x.2.val, []⟩

theorem map_cellOf_entriesOf {h : NodeHeap} {p q : Ptr} (hs : Seg h p l q) :
    (entriesOf l).map (cellOf (listPtr h)) = l := by
  rw [entriesOf, List.map_map]
  refine (List.map_congr_left fun x hx => ?_).trans (List.map_id l)
  obtain ⟨next, hcell⟩ := hs.cell_of_mem hx
  simp [cellOf, listPtr, hcell]

theorem filter_entriesOf {h : NodeHeap} {p q : Ptr} {f : ReadDep → Bool} {g : Entry → Bool}
    (hfg : ∀ e q, f ⟨e.val, q⟩ = g e) (hs : Seg h p l q) :
    ((entriesOf l).filter g).map (cellOf (listPtr h)) = l.filter fun x => f x.2 := by
  rw [← filter_map_cellOf hfg, map_cellOf_entriesOf hs]

/-- **What the loop leaves** of the two heaps. -/
theorem RegList.erase (h : RegList s l) (r : BitVec 32) :
    ∃ nodes ints regDeps, readDepNodeEraseReg s r =
        .ok { s with nodes := nodes, ints := ints, regDeps := regDeps } ∧
      Seg nodes regDeps (l.filter fun x => !isReg r x.2) none ∧
      (∀ i, i ∉ ids l → nodes.cell i = s.nodes.cell i) ∧
      (∀ i, nodes.cell i = none ↔ s.nodes.cell i = none ∨ ∃ x ∈ l, isReg r x.2 ∧ x.1 = i) ∧
      ∃ S, Shrinks s.ints ints S ∧ ∀ i, i ∈ S ↔ OfRegister s r l i := by
  have hentries := map_cellOf_entriesOf h.regs
  have hids : ids l = (entriesOf l).map Entry.id := by
    rw [← ids_map_cellOf (listPtr s.nodes), hentries]
  have hnd : ((entriesOf l).map Entry.id).Nodup := hids ▸ h.regs.nodup Heap.dead_none
  have hregs : Seg s.nodes s.regDeps ((entriesOf l).map (cellOf (listPtr s.nodes))) none :=
    hentries.symm ▸ h.regs
  obtain ⟨ints, S, hrun, hshrinks, hS⟩ := h.freeLists (isReg r)
  -- the lists are freed in the order of the entries
  have hptrs : (erased (Entry.isReg r) (entriesOf l)).map (listPtr s.nodes) =
      (l.filter fun x => isReg r x.2).map fun x => x.2.readDeps := by
    rw [← filter_entriesOf (g := Entry.isReg r) (fun _ _ => rfl) h.regs, erased, List.map_map,
      List.map_map]
    rfl
  rw [← hptrs] at hrun
  obtain ⟨n, hfuel⟩ := fuel_enough hregs Heap.dead_none
  obtain ⟨nodes, regDeps, head, hloop, hreg, hseg, hgone, hkeep, htop⟩ :=
    eraseLoop_head (f := isReg r) (g := Entry.isReg r) (fun _ _ => rfl)
      ⟨s.nodes, s.ints, s.regDeps⟩ (n + 1) hregs hrun
  -- whether the head went or stayed, `reg_deps` points to what is left
  obtain rfl : regDeps = head := by
    split at hreg
    · exact hreg
    · exact hreg.2.trans hreg.1.symm
  have hnodes : ErasedNodes s.nodes nodes (entriesOf l) (erased (Entry.isReg r) (entriesOf l)) :=
    ⟨hgone, hkeep, fun i hi => erased_subset _ _ hi, htop⟩
  refine ⟨nodes, ints, regDeps, ?_, ?_, fun i hi => hkeep i (hids ▸ hi), fun i => ?_, S, hshrinks,
    hS⟩
  · rw [readDepNodeEraseReg_eq, eraseFrom, hfuel, Nat.add_assoc, hloop, ok_bind]
  · rw [← filter_entriesOf (f := fun d => !isReg r d) (g := fun e => !e.isReg r) (fun _ _ => rfl)
      h.regs]
    exact hseg
  · have herased : i ∈ erased (Entry.isReg r) (entriesOf l) ↔
        ∃ x ∈ (entriesOf l).map (cellOf (listPtr s.nodes)), isReg r x.2 ∧ x.1 = i :=
      mem_erased_iff fun _ _ => rfl
    rw [hentries] at herased
    rw [← herased]
    exact hnodes.cell_eq_none_iff hregs hseg hnd

/-- **Erasing a register is exact**, for every list `reg_deps` may be. -/
theorem erasesReg (h : RegList s l) (r : BitVec 32) :
    ∃ s', readDepNodeEraseReg s r = .ok s' ∧ ErasesReg s s' r l := by
  obtain ⟨nodes, ints, regDeps, hcall, hseg, hkeep, hnodes, S, hshrinks, hS⟩ := h.erase r
  refine ⟨_, hcall, ?_⟩
  constructor
  · exact hseg
  · intro x hx hne m hm
    refine hshrinks.seg hm fun i hi hiS => ?_
    obtain ⟨y, hy, hreg, hi'⟩ := (hS i).mp hiS
    have hxy : y ≠ x := fun he => hne (he ▸ hreg)
    exact h.separate y hy x hx hxy i hi' (hm.reaches_iff.mpr hi)
  · exact ⟨rfl, rfl⟩
  · exact hkeep
  · exact fun head m q hm hdis => hm.congr fun i hi => hkeep i (hdis i hi)
  · exact hnodes
  · exact fun i hi => hshrinks.gone i ((hS i).mpr hi)
  · exact fun i hi => hshrinks.keep i fun hiS => hi ((hS i).mp hiS)
  · exact ⟨rfl, rfl, rfl, rfl⟩

/-- A byte is read and loaded, and stored to two registers. -/
def twoPuts : List Event :=
  [.preCall nrRead (sysArgs 0 8 1), .helper (.assgnTmpLoad 5 8), .helper (.putTmp 16 5),
    .helper (.putTmp 24 5)]

theorem erasesReg_twoPuts : ∃ s, run stepTool (.init true) twoPuts = .ok s ∧
    ∃ l s', readDepNodeEraseReg s 16 = .ok s' ∧ ErasesReg s s' 16 l := by
  obtain ⟨A, hr, -⟩ := sound_of_run twoPuts rfl rfl rfl
  obtain ⟨l, hl, -⟩ := hr.exists_regList
  obtain ⟨s', hs', herases⟩ := erasesReg hl 16
  exact ⟨_, rfl, l, s', hs', herases⟩

end DepLeak

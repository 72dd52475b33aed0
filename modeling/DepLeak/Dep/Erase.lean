import DepLeak.Dep.Represent

/-!
# Erasing and freeing entries

The two loops that take `read_dep_node`s out of a list: the erasing loop and
`free_read_dep_list`. Each is followed along a segment. What they do to the
`int_node`s does not depend on how they go about the nodes: the lists of the nodes
that go are freed one after the other (`DepLeak.freeNodeLists`), which leaves the
places of these lists empty (`DepLeak.wipe`).

The erasing loop has two halves. Once it has passed a node that stays
(`DepLeak.eraseLoop_after`), it relinks that node and touches no global variable.
Before that (`DepLeak.eraseLoop_head`) every node it erases moves `reg_deps` on, to
the node after it.
-/

namespace DepLeak

open LinkedHeap Runs

/-! ### Wiping a map -/

/-- `f` with the addresses of `R` set to `null`. -/
def wipe {β : Type} (null : β) (f : ℕ → β) (R : List ℕ) : ℕ → β :=
  fun i => if i ∈ R then null else f i

section Wipe

variable {β : Type} {null : β} {f : ℕ → β} {R S : List ℕ} {i : ℕ}

theorem wipe_of_mem (hi : i ∈ R) : wipe null f R i = null := if_pos hi

theorem wipe_of_notMem (hi : i ∉ R) : wipe null f R i = f i := if_neg hi

@[simp] theorem wipe_nil : wipe null f [] = f := by
  funext i
  simp [wipe]

end Wipe

/-- The addresses of the entries a loop erases. -/
def erased (g : Entry → Bool) (es : List Entry) : List ℕ := (es.filter g).map Entry.id

@[simp] theorem erased_cons (g : Entry → Bool) (e : Entry) (es : List Entry) :
    erased g (e :: es) = if g e then e.id :: erased g es else erased g es := by
  unfold erased
  rw [List.filter_cons]
  split <;> rfl

theorem erased_subset (g : Entry → Bool) (es : List Entry) {i : ℕ} (hi : i ∈ erased g es) :
    i ∈ es.map Entry.id := by
  obtain ⟨e, he, rfl⟩ := List.mem_map.mp hi
  exact List.mem_map_of_mem (List.mem_filter.mp he).1

/-! ### The lists of the nodes that go -/

variable {ints ints' : IntHeap} {tb : Table Ptr} {tl : Table (List ℤ)} {P : ℕ → Ptr}
  {D : ℕ → List ℤ} {p : Ptr} {vs : List ℤ} {lost : Bool}

/-- **Freeing the lists of some nodes.** -/
theorem freeNodeLists (hf : Family ints (placePtr tb P p) (placeVals tl D vs) lost) {R : List ℕ}
    (hR : R.Nodup) :
    ∃ ints' S, run freeIntNodeList ints (R.map P) = .ok ints' ∧ Shrinks ints ints' S ∧
      (∀ i, i ∈ S ↔ ∃ j ∈ R, ∃ l, Seg ints (P j) l none ∧ i ∈ ids l) ∧
      Family ints' (placePtr tb (wipe none P R) p) (placeVals tl (wipe [] D R) vs) lost := by
  obtain ⟨ints', S, hrun, hsh, hS, hf'⟩ :=
    hf.dropAll (hR.map fun _ _ h => Place.node.inj h : (R.map Place.node).Nodup)
  have hptr : (fun k => if k ∈ R.map Place.node then none else placePtr tb P p k) =
      placePtr tb (wipe none P R) p := by
    funext k
    cases k <;> simp [placePtr, wipe]
  have hvals : (fun k => if k ∈ R.map Place.node then [] else placeVals tl D vs k) =
      placeVals tl (wipe [] D R) vs := by
    funext k
    cases k <;> simp [placeVals, wipe]
  rw [hptr, hvals] at hf'
  rw [List.map_map] at hrun
  exact ⟨ints', S, hrun, hsh, fun i => (hS i).trans (by simp [placePtr]), hf'⟩

/-- The entries of a segment keep their pointers when other nodes are wiped. -/
theorem map_cellOf_congr {P' : ℕ → Ptr} {es : List Entry}
    (hP : ∀ e ∈ es, P' e.id = P e.id) : es.map (cellOf P') = es.map (cellOf P) :=
  List.map_congr_left fun e he => by simp [cellOf, hP e he]

/-- A loop over a list is given rounds enough. -/
theorem fuel_enough {h : NodeHeap} {P : ℕ → Ptr} {es : List Entry} {v q : Ptr}
    (hs : Seg h v (es.map (cellOf P)) q) (hq : h.Dead q) :
    ∃ n, h.top + 1 = es.length + n + 1 := by
  have hlen := hs.length_le_top hq
  rw [List.length_map] at hlen
  exact ⟨h.top - es.length, by omega⟩

/-! ### The erasing loop past a node that stays -/

section EraseLoop

variable {f : ReadDep → Bool} {g : Entry → Bool}

/-- **The erasing loop after a node `j` that stays**: the entries to erase and their
lists are freed, `j` is linked to those that are left, and `reg_deps` is as it
was. -/
theorem eraseLoop_after (hfg : ∀ e q, f ⟨e.val, q⟩ = g e) {es : List Entry} :
    ∀ (st : EraseState) {j : ℕ} {h : Ptr} {d : ReadDep} (n : ℕ),
      Seg st.nodes h (es.map (cellOf P)) none → st.nodes.cell j = some ⟨d, h⟩ →
      j ∉ es.map Entry.id → run freeIntNodeList st.ints ((erased g es).map P) = .ok ints' →
      ∃ nodes h', eraseLoop f (es.length + n) st (some j) h = .ok ⟨nodes, ints', st.regDeps⟩ ∧
        nodes.cell j = some ⟨d, h'⟩ ∧
        Seg nodes h' ((es.filter fun e => !g e).map (cellOf P)) none ∧
        (∀ i ∈ erased g es, nodes.cell i = none) ∧
        (∀ i, i ≠ j → i ∉ es.map Entry.id → nodes.cell i = st.nodes.cell i) ∧
        nodes.top = st.nodes.top := by
  induction es with
  | nil =>
    intro st j h d n hs hj hnot hrun
    obtain rfl : h = none := hs
    obtain rfl : st.ints = ints' := Except.ok.inj hrun
    refine ⟨st.nodes, none, by cases n <;> rfl, hj, rfl, ?_, fun _ _ _ => rfl, rfl⟩
    intro i hi
    cases hi
  | cons e es ih =>
    intro st j h d n hs hj hnot hrun
    have hnd := hs.nodup Heap.dead_none
    rw [ids_map_cellOf, List.map_cons, List.nodup_cons] at hnd
    obtain ⟨rfl, h₁, hc, hes⟩ := hs
    have hlen : (e :: es).length + n = es.length + n + 1 := by simp; omega
    have hje : j ≠ e.id := fun he => hnot (by simp [he])
    have hjes : j ∉ es.map Entry.id := fun hmem => hnot (List.mem_cons_of_mem _ hmem)
    rw [hlen, eraseLoop, Heap.read_of_cell hc, ok_bind, hfg]
    by_cases hg : g e
    · -- the node is unlinked from `j` and freed with its list
      rw [erased_cons, if_pos hg, List.map_cons] at hrun
      obtain ⟨ints₁, hfree, hrun⟩ := run_cons_eq_ok.mp hrun
      have hjt : j < st.nodes.top := Heap.lt_top hj
      have hce : (st.nodes.set j (some ⟨d, h₁⟩) hjt).cell e.id = some ⟨⟨e.val, P e.id⟩, h₁⟩ := by
        rw [Heap.set_cell_of_ne hje.symm, hc]
      have het : e.id < (st.nodes.set j (some ⟨d, h₁⟩) hjt).top := Heap.lt_top hce
      have hes' : Seg ((st.nodes.set j (some ⟨d, h₁⟩) hjt).set e.id none het) h₁
          (es.map (cellOf P)) none := by
        refine (hes.set _ hjt (by rwa [ids_map_cellOf])).set _ het ?_
        rw [ids_map_cellOf]
        exact hnd.1
      obtain ⟨nodes, h', hloop, hj', hseg', hgone, hkeep, htop⟩ :=
        ih ⟨(st.nodes.set j (some ⟨d, h₁⟩) hjt).set e.id none het, ints₁, st.regDeps⟩ n hes'
          (by rw [Heap.set_cell_of_ne hje, Heap.set_cell_self]) hjes hrun
      refine ⟨nodes, h', ?_, hj', ?_, ?_, ?_, htop⟩
      · simp only [if_pos hg, eraseUnlink, Heap.setNext_of_cell hj, ok_bind, hfree,
          Heap.free_of_cell hce]
        exact hloop
      · simpa [hg] using hseg'
      · intro i hi
        rw [erased_cons, if_pos hg] at hi
        rcases List.mem_cons.mp hi with rfl | hi
        · rw [hkeep e.id hje.symm hnd.1, Heap.set_cell_self]
        · exact hgone i hi
      · intro i hij hi
        have hie : i ≠ e.id := fun he => hi (by simp [he])
        rw [hkeep i hij fun hmem => hi (List.mem_cons_of_mem _ hmem), Heap.set_cell_of_ne hie,
          Heap.set_cell_of_ne hij]
    · -- the node stays, and the loop goes on after it
      rw [erased_cons, if_neg hg] at hrun
      obtain ⟨nodes, h', hloop, he', hseg', hgone, hkeep, htop⟩ := ih st n hes hc hnd.1 hrun
      have hj' : nodes.cell j = some ⟨d, some e.id⟩ := by rw [hkeep j hje hjes, hj]
      refine ⟨nodes, some e.id, ?_, hj', ?_, ?_, ?_, htop⟩
      · simpa [hg] using hloop
      · simp only [List.filter_cons, hg, Bool.not_false, if_true, List.map_cons]
        exact ⟨rfl, h', he', hseg'⟩
      · simpa [hg] using hgone
      · intro i hij hi
        have hie : i ≠ e.id := fun he => hi (by simp [he])
        exact hkeep i hie fun hmem => hi (List.mem_cons_of_mem _ hmem)

/-- **The erasing loop from the head**: the entries to erase and their lists are
freed, and those that are left are linked. The pointer to the first of them is in
`reg_deps` if the head was erased; otherwise the head is still where it was, and so
is `reg_deps`. -/
theorem eraseLoop_head (hfg : ∀ e q, f ⟨e.val, q⟩ = g e) {es : List Entry} :
    ∀ (st : EraseState) {h : Ptr} (n : ℕ),
      Seg st.nodes h (es.map (cellOf P)) none →
      run freeIntNodeList st.ints ((erased g es).map P) = .ok ints' →
      ∃ nodes r h', eraseLoop f (es.length + n) st none h = .ok ⟨nodes, ints', r⟩ ∧
        (if (es.head?.any g) then r = h' else h' = h ∧ r = st.regDeps) ∧
        Seg nodes h' ((es.filter fun e => !g e).map (cellOf P)) none ∧
        (∀ i ∈ erased g es, nodes.cell i = none) ∧
        (∀ i, i ∉ es.map Entry.id → nodes.cell i = st.nodes.cell i) ∧
        nodes.top = st.nodes.top := by
  induction es with
  | nil =>
    intro st h n hs hrun
    obtain rfl : h = none := hs
    obtain rfl : st.ints = ints' := Except.ok.inj hrun
    refine ⟨st.nodes, st.regDeps, none, by cases n <;> rfl, ⟨rfl, rfl⟩, rfl, ?_, fun _ _ => rfl,
      rfl⟩
    intro i hi
    cases hi
  | cons e es ih =>
    intro st h n hs hrun
    have hnd := hs.nodup Heap.dead_none
    rw [ids_map_cellOf, List.map_cons, List.nodup_cons] at hnd
    obtain ⟨rfl, h₁, hc, hes⟩ := hs
    have hlen : (e :: es).length + n = es.length + n + 1 := by simp; omega
    rw [hlen, eraseLoop, Heap.read_of_cell hc, ok_bind, hfg]
    by_cases hg : g e
    · -- the head goes: `reg_deps` moves on to the node after it
      rw [erased_cons, if_pos hg, List.map_cons] at hrun
      obtain ⟨ints₁, hfree, hrun⟩ := run_cons_eq_ok.mp hrun
      have het : e.id < st.nodes.top := Heap.lt_top hc
      have hes' : Seg (st.nodes.set e.id none het) h₁ (es.map (cellOf P)) none :=
        hes.set _ het (by rw [ids_map_cellOf]; exact hnd.1)
      obtain ⟨nodes, r, h', hloop, hreg, hseg', hgone, hkeep, htop⟩ :=
        ih ⟨st.nodes.set e.id none het, ints₁, h₁⟩ n hes' hrun
      refine ⟨nodes, r, h', ?_, ?_, ?_, ?_, ?_, htop⟩
      · simp only [if_pos hg, eraseUnlink, ok_bind, hfree, Heap.free_of_cell hc]
        exact hloop
      · simp only [List.head?_cons, Option.any_some, hg, if_true]
        split at hreg
        · exact hreg
        · rw [hreg.1, hreg.2]
      · simpa [hg] using hseg'
      · intro i hi
        rw [erased_cons, if_pos hg] at hi
        rcases List.mem_cons.mp hi with rfl | hi
        · rw [hkeep e.id hnd.1, Heap.set_cell_self]
        · exact hgone i hi
      · intro i hi
        have hie : i ≠ e.id := fun he => hi (by simp [he])
        rw [hkeep i fun hmem => hi (List.mem_cons_of_mem _ hmem), Heap.set_cell_of_ne hie]
    · -- the head stays
      rw [erased_cons, if_neg hg] at hrun
      obtain ⟨nodes, h', hloop, he', hseg', hgone, hkeep, htop⟩ :=
        eraseLoop_after hfg st n hes hc hnd.1 hrun
      refine ⟨nodes, st.regDeps, some e.id, ?_, ?_, ?_, ?_, ?_, htop⟩
      · simpa [hg] using hloop
      · simp [hg]
      · simp only [List.filter_cons, hg, Bool.not_false, if_true, List.map_cons]
        exact ⟨rfl, h', he', hseg'⟩
      · simpa [hg] using hgone
      · intro i hi
        have hie : i ≠ e.id := fun he => hi (by simp [he])
        exact hkeep i hie fun hmem => hi (List.mem_cons_of_mem _ hmem)

/-- **The erasing loop along a list whose last pointer dangles** reaches that
pointer and faults. -/
theorem eraseLoop_dangling (hfg : ∀ e q, f ⟨e.val, q⟩ = g e) {x : ℕ} {es : List Entry} :
    ∀ (st : EraseState) {prev h : Ptr} (n : ℕ),
      Seg st.nodes h (es.map (cellOf P)) (some x) → st.nodes.cell x = none →
      (es.map Entry.id).Nodup →
      (∀ j, prev = some j → st.nodes.cell j ≠ none ∧ j ∉ es.map Entry.id) →
      run freeIntNodeList st.ints ((erased g es).map P) = .ok ints' →
      eraseLoop f (es.length + n + 1) st prev h = .error .dangling := by
  induction es with
  | nil =>
    intro st prev h n hs hx _ _ _
    obtain rfl : h = some x := hs
    rw [eraseLoop, Heap.read_of_dead hx, error_bind]
  | cons e es ih =>
    intro st prev h n hs hx hnd hprev hrun
    rw [List.map_cons, List.nodup_cons] at hnd
    obtain ⟨rfl, h₁, hc, hes⟩ := hs
    have hlen : (e :: es).length + n + 1 = es.length + n + 1 + 1 := by simp; omega
    have hxe : x ≠ e.id := Heap.ne_of_cell hc hx
    rw [hlen, eraseLoop, Heap.read_of_cell hc, ok_bind, hfg]
    by_cases hg : g e
    · rw [erased_cons, if_pos hg, List.map_cons] at hrun
      obtain ⟨ints₁, hfree, hrun⟩ := run_cons_eq_ok.mp hrun
      cases hp : prev with
      | none =>
        simp only [if_pos hg, eraseUnlink, ok_bind, hfree, Heap.free_of_cell hc]
        refine ih ⟨_, _, _⟩ n ?_ ?_ hnd.2 (fun j hj => by cases hj) hrun
        · exact hes.set _ (Heap.lt_top hc) (by rw [ids_map_cellOf]; exact hnd.1)
        · rw [Heap.set_cell_of_ne hxe, hx]
      | some j =>
        obtain ⟨hjc, hjes⟩ := hprev j hp
        obtain ⟨nd, hnd'⟩ := Option.ne_none_iff_exists'.mp hjc
        have hjt : j < st.nodes.top := Heap.lt_top hnd'
        have hje : j ≠ e.id := fun he => hjes (by simp [he])
        have hjes' : j ∉ es.map Entry.id := fun hmem => hjes (List.mem_cons_of_mem _ hmem)
        have hxj : x ≠ j := Heap.ne_of_cell hnd' hx
        have hce : (st.nodes.set j (some { nd with next := h₁ }) hjt).cell e.id =
            some ⟨⟨e.val, P e.id⟩, h₁⟩ := by
          rw [Heap.set_cell_of_ne hje.symm, hc]
        simp only [if_pos hg, eraseUnlink, Heap.setNext_of_cell hnd', ok_bind, hfree,
          Heap.free_of_cell hce]
        refine ih ⟨_, _, _⟩ n ?_ ?_ hnd.2 ?_ hrun
        · exact (hes.set _ hjt (by rwa [ids_map_cellOf])).set _ (Heap.lt_top hce)
            (by rw [ids_map_cellOf]; exact hnd.1)
        · rw [Heap.set_cell_of_ne hxe, Heap.set_cell_of_ne hxj, hx]
        · intro k hk
          obtain rfl := Option.some.inj hk
          refine ⟨?_, hjes'⟩
          rw [Heap.set_cell_of_ne hje, Heap.set_cell_self]
          simp
    · rw [erased_cons, if_neg hg] at hrun
      simp only [hg, Bool.false_eq_true, if_false]
      refine ih st n hes hx hnd.2 ?_ hrun
      intro k hk
      obtain rfl := Option.some.inj hk
      exact ⟨by change st.nodes.cell e.id = _ at hc; simp [hc], hnd.1⟩

end EraseLoop

/-! ### Freeing a whole list -/

/-- **`free_read_dep_list`** frees the nodes of a list and their lists. -/
theorem freeReadDepLoop_list {es : List Entry} :
    ∀ {nodes : NodeHeap} {ints : IntHeap} {h : Ptr} (n : ℕ),
      Seg nodes h (es.map (cellOf P)) none →
      run freeIntNodeList ints ((es.map Entry.id).map P) = .ok ints' →
      ∃ nodes', freeReadDepLoop (es.length + n) nodes ints h = .ok (nodes', ints') ∧
        Shrinks nodes nodes' (es.map Entry.id) := by
  induction es with
  | nil =>
    intro nodes ints h n hs hrun
    obtain rfl : h = none := hs
    obtain rfl : ints = ints' := Except.ok.inj hrun
    exact ⟨nodes, by cases n <;> rfl, .refl nodes⟩
  | cons e es ih =>
    intro nodes ints h n hs hrun
    have hnd := hs.nodup Heap.dead_none
    rw [ids_map_cellOf, List.map_cons, List.nodup_cons] at hnd
    obtain ⟨rfl, h₁, hc, hes⟩ := hs
    obtain ⟨ints₁, hfree, hrun⟩ := run_cons_eq_ok.mp hrun
    have hlen : (e :: es).length + n = es.length + n + 1 := by simp; omega
    have het : e.id < nodes.top := Heap.lt_top hc
    obtain ⟨nodes', hloop, hsh⟩ :=
      ih n (hes.set none het (by rw [ids_map_cellOf]; exact hnd.1)) hrun
    refine ⟨nodes', ?_, (Shrinks.set_none het).trans hsh⟩
    rw [hlen, freeReadDepLoop, Heap.read_of_cell hc, ok_bind]
    simp only [hfree, ok_bind, Heap.free_of_cell hc, hloop]

theorem freeReadDepList_list {nodes : NodeHeap} {h : Ptr} {es : List Entry}
    (hs : Seg nodes h (es.map (cellOf P)) none)
    (hrun : run freeIntNodeList ints ((es.map Entry.id).map P) = .ok ints') :
    ∃ nodes', freeReadDepList nodes ints h = .ok (nodes', ints') ∧
      Shrinks nodes nodes' (es.map Entry.id) := by
  obtain ⟨n, hfuel⟩ := fuel_enough hs Heap.dead_none
  obtain ⟨nodes', hloop, hsh⟩ := freeReadDepLoop_list (n + 1) hs hrun
  exact ⟨nodes', by rw [freeReadDepList, hfuel, Nat.add_assoc, hloop], hsh⟩

/-- Along a list whose last pointer dangles it faults. -/
theorem freeReadDepLoop_dangling {x : ℕ} {es : List Entry} :
    ∀ {nodes : NodeHeap} {ints : IntHeap} {h : Ptr} (n : ℕ),
      Seg nodes h (es.map (cellOf P)) (some x) → nodes.cell x = none →
      (es.map Entry.id).Nodup →
      run freeIntNodeList ints ((es.map Entry.id).map P) = .ok ints' →
      freeReadDepLoop (es.length + n + 1) nodes ints h = .error .dangling := by
  induction es with
  | nil =>
    intro nodes ints h n hs hx _ _
    obtain rfl : h = some x := hs
    rw [freeReadDepLoop, Heap.read_of_dead hx, error_bind]
  | cons e es ih =>
    intro nodes ints h n hs hx hnd hrun
    rw [List.map_cons, List.nodup_cons] at hnd
    obtain ⟨rfl, h₁, hc, hes⟩ := hs
    obtain ⟨ints₁, hfree, hrun⟩ := run_cons_eq_ok.mp hrun
    have hlen : (e :: es).length + n + 1 = es.length + n + 1 + 1 := by simp; omega
    have hxe : x ≠ e.id := Heap.ne_of_cell hc hx
    rw [hlen, freeReadDepLoop, Heap.read_of_cell hc, ok_bind]
    simp only [hfree, ok_bind, Heap.free_of_cell hc]
    refine ih n ?_ (by rw [Heap.set_cell_of_ne hxe, hx]) hnd.2 hrun
    exact hes.set _ (Heap.lt_top hc) (by rw [ids_map_cellOf]; exact hnd.1)

end DepLeak

import DepLeak.LinkedHeap.Loops

/-!
# Lists of read numbers

The `int_node` lists of `depAnalysis.c`: the numbers of the `read()` calls a
value depends on. The functions are those of the source, over a heap of nodes;
`DepLeak.mergeVals` is what `int_node_merge` computes on the numbers
(`DepLeak.intNodeMerge_seg`): an order-preserving union that uses up the nodes
of its second argument.

`VG_(malloc)` never returns `NULL` – Valgrind stops instead – so the tests of the
source for a failed allocation have no branch here.
-/

namespace DepLeak

open LinkedHeap Runs

/-- The `int_node`s of the tool. -/
abbrev IntHeap := Heap ℤ

/-! ### The functions of the source -/

/-- `int_list_create`. -/
def intListCreate (h : IntHeap) (value : ℤ) : IntHeap × Ptr :=
  (h.alloc ⟨value, none⟩, some h.top)

/-- `int_list_append`. -/
def intListAppend (h : IntHeap) (head : Ptr) (value : ℤ) : Exec (IntHeap × Ptr) := do
  let (h, newNode) := intListCreate h value
  match head with
  | none => .ok (h, newNode)
  | some temp => do
    let temp ← h.last temp
    let h ← h.setNext temp newNode
    .ok (h, head)

/-- `free_int_node_list`. -/
def freeIntNodeList (h : IntHeap) (head : Ptr) : Exec IntHeap := h.freeList head

/-- `deep_copy_int_node_list`. -/
def deepCopyIntNodeList (h : IntHeap) (head : Ptr) : Exec (IntHeap × Ptr) := h.copyList head

/-- `exists_in_int_node`. -/
def existsInIntNode (h : IntHeap) (head : Ptr) (value : ℤ) : Exec Bool := do
  let found ← h.find (· == value) head
  .ok found.isSome

/-- The test in the loop of `int_node_merge`: append a value that is not there. -/
def intNodeAdd (h : IntHeap) (head : Ptr) (value : ℤ) : Exec (IntHeap × Ptr) := do
  let found ← existsInIntNode h head value
  if found then .ok (h, head) else intListAppend h head value

/-- The loop of `int_node_merge`. -/
def intNodeMergeLoop : ℕ → IntHeap → Ptr → Ptr → Exec (IntHeap × Ptr)
  | _, h, head, none => .ok (h, head)
  | 0, _, _, some _ => .error .fuel
  | n + 1, h, head, some l => do
    let nd ← h.read l
    let (h, head) ← intNodeAdd h head nd.val
    let tmp := l
    let nd ← h.read l
    let h ← h.free tmp
    intNodeMergeLoop n h head nd.next

/-- `int_node_merge`. -/
def intNodeMerge (h : IntHeap) (head l : Ptr) : Exec (IntHeap × Ptr) :=
  match l with
  | none => .ok (h, head)
  | some _ => intNodeMergeLoop (h.top + 1) h head l

/-! ### What merging computes -/

/-- Append a number unless it is there. -/
def addVal (vs : List ℤ) (v : ℤ) : List ℤ := if v ∈ vs then vs else vs ++ [v]

/-- **The union a merge computes**: the numbers of the first list, then the new
ones of the second in the order in which they first occur. -/
def mergeVals (vs ws : List ℤ) : List ℤ := ws.foldl addVal vs

@[simp] theorem mergeVals_nil (vs : List ℤ) : mergeVals vs [] = vs := rfl

@[simp] theorem mergeVals_cons (vs : List ℤ) (w : ℤ) (ws : List ℤ) :
    mergeVals vs (w :: ws) = mergeVals (addVal vs w) ws := rfl

theorem mergeVals_append (vs ws us : List ℤ) :
    mergeVals vs (ws ++ us) = mergeVals (mergeVals vs ws) us := List.foldl_append

@[simp] theorem mem_addVal {vs : List ℤ} {v w : ℤ} : v ∈ addVal vs w ↔ v ∈ vs ∨ v = w := by
  unfold addVal
  split
  · next hw => exact ⟨Or.inl, fun h => h.elim id fun he => he ▸ hw⟩
  · simp

@[simp] theorem mem_mergeVals {vs ws : List ℤ} {v : ℤ} :
    v ∈ mergeVals vs ws ↔ v ∈ vs ∨ v ∈ ws := by
  induction ws generalizing vs with
  | nil => simp
  | cons w ws ih => simp [ih, or_assoc]

theorem addVal_of_disjoint {vs us : List ℤ} {v : ℤ} (hv : v ∉ vs) :
    addVal (vs ++ us) v = vs ++ addVal us v := by
  unfold addVal
  by_cases hus : v ∈ us
  · rw [if_pos (by simp [hus]), if_pos hus]
  · rw [if_neg (by simp [hv, hus]), if_neg hus, List.append_assoc]

/-- Merging appends the first occurrences, in order, of the numbers that are
new. -/
theorem mergeVals_eq_append (vs us ws : List ℤ) :
    mergeVals (vs ++ us) ws = vs ++ mergeVals us (ws.filter fun w => w ∉ vs) := by
  induction ws generalizing us with
  | nil => rfl
  | cons w ws ih =>
    by_cases hw : w ∈ vs
    · have hadd : addVal (vs ++ us) w = vs ++ us := if_pos (by simp [hw])
      simp only [mergeVals_cons, hadd, ih]
      simp [hw]
    · rw [mergeVals_cons, addVal_of_disjoint hw, ih]
      simp [hw]

/-- Merging into the empty list keeps the first occurrence of each number. -/
theorem mergeVals_nil_left (ws : List ℤ) : mergeVals [] ws = ws.eraseDups := by
  induction hn : ws.length using Nat.strong_induction_on generalizing ws with
  | _ n ih =>
    cases ws with
    | nil => rfl
    | cons w ws =>
      have hlen : (ws.filter fun b => !b == w).length < n := by
        have := List.length_filter_le (fun b => !b == w) ws
        simp only [List.length_cons] at hn
        omega
      rw [List.eraseDups_cons, ← ih _ hlen _ rfl, mergeVals_cons]
      have hadd : addVal [] w = [w] ++ [] := by simp [addVal]
      rw [hadd, mergeVals_eq_append]
      simp only [List.mem_singleton, List.singleton_append, List.cons.injEq, true_and]
      congr 1
      exact List.filter_congr fun b _ => by by_cases hb : b = w <;> simp [hb]

/-! ### The functions along a segment -/

variable {h : IntHeap} {p q : Ptr} {l m : List (ℕ × ℤ)}

theorem existsInIntNode_seg (hs : Seg h p l none) (v : ℤ) :
    existsInIntNode h p v = .ok (decide (v ∈ vals l)) := by
  rw [existsInIntNode, Heap.find_list hs, ok_bind]
  refine congrArg Except.ok ?_
  rw [Bool.eq_iff_iff, List.find?_isSome, decide_eq_true_eq, vals, List.mem_map]
  refine exists_congr fun x => and_congr_right fun _ => ?_
  simp

/-- **Appending a number** changes the last node of the list and adds one. -/
theorem intListAppend_seg (hs : Seg h p l none) (v : ℤ) :
    ∃ h' p', intListAppend h p v = .ok (h', p') ∧ Seg h' p' (l ++ [(h.top, v)]) none ∧
      Rebuilds h h' (ids l) (l ++ [(h.top, v)]) := by
  have hnew := (Grows.alloc h v).seg
  have hown : ∀ i ∈ ids (l ++ [(h.top, v)]), i ∈ ids l ∨ h.top ≤ i := by
    intro i hi
    rw [ids, List.map_append, List.mem_append] at hi
    exact hi.imp_right fun hi => (List.mem_singleton.mp hi).ge
  rcases List.eq_nil_or_concat' l with rfl | ⟨l₀, x, rfl⟩
  · obtain rfl : p = none := hs
    refine ⟨_, _, rfl, hnew, ⟨fun i hi _ => Heap.alloc_cell_of_lt hi, hown, fun i hi => ?_,
      Nat.le_succ _⟩⟩
    rcases eq_or_ne i h.top with rfl | hne
    · exact Or.inl (by simp)
    · rw [show (h.alloc ⟨v, none⟩).cell i = h.cell i from Heap.alloc_cell_of_ne hne] at hi
      exact Or.inr ⟨hi, List.not_mem_nil⟩
  · obtain ⟨i, w⟩ := x
    have hs' := hs.alloc (n := ⟨v, none⟩)
    obtain ⟨p', hl₀, -, r, hcell, hr⟩ := Seg.append_iff.mp hs'
    have hit : i < h.top := hs.lt_top (by simp)
    cases p with
    | none => exact absurd hs.eq_nil_of_none (by simp)
    | some j =>
      refine ⟨_, some j, ?_, hs'.link (Heap.lt_top hcell) hnew (by simp; omega), ?_⟩
      · simp only [intListAppend, intListCreate]
        rw [Heap.last_seg hs', ok_bind, Heap.setNext_of_cell hcell, ok_bind]
      · refine ⟨fun k hk hnot => ?_, hown, fun k hk => ?_, Nat.le_succ _⟩
        · have hne : k ≠ i := fun he => hnot (by simp [he])
          rw [Heap.set_cell_of_ne hne, Heap.alloc_cell_of_lt hk]
        · rcases eq_or_ne k i with rfl | hne
          · exact Or.inl (by simp)
          · rw [Heap.set_cell_of_ne hne] at hk
            rcases eq_or_ne k h.top with rfl | hne'
            · exact Or.inl (by simp)
            · rw [Heap.alloc_cell_of_ne hne'] at hk
              by_cases hkl : k ∈ ids (l₀ ++ [(i, w)])
              · exact Or.inl (by rw [ids, List.map_append]; exact List.mem_append_left _ hkl)
              · exact Or.inr ⟨hk, hkl⟩

/-- One round of the merge loop: the list built so far gets the number if it is
new. -/
theorem intNodeAdd_seg (hs : Seg h p l none) (v : ℤ) :
    ∃ h' p' l', intNodeAdd h p v = .ok (h', p') ∧ Seg h' p' l' none ∧
      vals l' = addVal (vals l) v ∧ Rebuilds h h' (ids l) l' := by
  rw [intNodeAdd, existsInIntNode_seg hs, ok_bind]
  by_cases hv : v ∈ vals l
  · exact ⟨h, p, l, by simp [hv], hs, by simp [addVal, hv], .refl h l⟩
  · obtain ⟨h', p', happ, hs', hreb⟩ := intListAppend_seg hs v
    exact ⟨h', p', _, by simpa [hv] using happ, hs', by simp [addVal, hv], hreb⟩

/-- **One round of the merge loop**: the list built so far gets the first number of the
second list, whose node is freed. -/
theorem intNodeMerge_round {i : ℕ} {v : ℤ} (hs : Seg h p l none)
    (hm : Seg h q ((i, v) :: m) none) (hdis : ∀ j ∈ ids ((i, v) :: m), j ∉ ids l) :
    ∃ h₁ h₂ p₁ l₁ q', q = some i ∧ h.read i = .ok ⟨v, q'⟩ ∧ intNodeAdd h p v = .ok (h₁, p₁) ∧
      h₁.read i = .ok ⟨v, q'⟩ ∧ h₁.free i = .ok h₂ ∧ Seg h₂ p₁ l₁ none ∧ Seg h₂ q' m none ∧
      (∀ j ∈ ids m, j ∉ ids l₁) ∧ vals l₁ = addVal (vals l) v ∧
      (∀ j ∈ ids l₁, j ∈ ids l ∨ h.top ≤ j) ∧ Rebuilds h h₂ (ids l ++ [i]) l₁ := by
  have hnd := hm.nodup Heap.dead_none
  obtain ⟨rfl, q', hc, hm'⟩ := hm
  have hil : i ∉ ids l := hdis i (by simp)
  obtain ⟨h₁, p₁, l₁, hadd, hs₁, hvals₁, hreb₁⟩ := intNodeAdd_seg hs v
  -- the rest of the second list is untouched, and its first node is freed
  have hi : i < h.top := Heap.lt_top hc
  have hc₁ : h₁.cell i = some ⟨v, q'⟩ := by rw [hreb₁.keep i hi hil, hc]
  have hil₁ : i ∉ ids l₁ := fun hmem => (hreb₁.own i hmem).elim hil (by omega)
  have hm₁ : Seg h₁ q' m none :=
    hreb₁.old_seg hm' fun j hj => hdis j (List.mem_cons_of_mem _ hj)
  refine ⟨h₁, _, p₁, l₁, q', rfl, Heap.read_of_cell hc, hadd, Heap.read_of_cell hc₁,
    Heap.free_of_cell hc₁, hs₁.set none (Heap.lt_top hc₁) hil₁,
    hm₁.set none (Heap.lt_top hc₁) (List.nodup_cons.mp hnd).1, ?_, hvals₁, hreb₁.own,
    hreb₁.set_none (Heap.lt_top hc₁) hil₁⟩
  intro j hj hmem
  exact (hreb₁.own j hmem).elim (hdis j (List.mem_cons_of_mem _ hj))
    (by have := hm'.lt_top hj; omega)

theorem intNodeMergeLoop_seg (hs : Seg h p l none) (hm : Seg h q m none)
    (hdis : ∀ i ∈ ids m, i ∉ ids l) (n : ℕ) :
    ∃ h' p' l', intNodeMergeLoop (m.length + n) h p q = .ok (h', p') ∧ Seg h' p' l' none ∧
      vals l' = mergeVals (vals l) (vals m) ∧ (∀ i ∈ ids l', i ∈ ids l ∨ h.top ≤ i) ∧
      Rebuilds h h' (ids l ++ ids m) l' := by
  induction m generalizing h p q l with
  | nil =>
    obtain rfl : q = none := hm
    exact ⟨h, p, l, by cases n <;> rfl, hs, rfl, fun _ => Or.inl,
      by simpa using Rebuilds.refl h l⟩
  | cons x m ih =>
    obtain ⟨i, v⟩ := x
    have hlen : ((i, v) :: m).length + n = m.length + n + 1 := by simp; omega
    obtain ⟨h₁, h₂, p₁, l₁, q', rfl, hread, hadd, hread₁, hfree, hs₂, hm₂, hdis₂, hvals₁,
      hown₁, hreb₂⟩ := intNodeMerge_round hs hm hdis
    obtain ⟨h', p', l', hloop, hs', hvals', hown', hreb'⟩ := ih hs₂ hm₂ hdis₂
    refine ⟨h', p', l', ?_, hs', ?_, fun j hj => ?_, ?_⟩
    · rw [hlen, intNodeMergeLoop, hread, ok_bind, hadd, ok_bind]
      simp only [hread₁, ok_bind, hfree, hloop]
    · rw [hvals', hvals₁]
      rfl
    · exact (hown' j hj).elim (hown₁ j) fun hge => Or.inr (hreb₂.top_le.trans hge)
    · have htrans := hreb₂.trans hreb'
      rwa [List.append_assoc] at htrans

/-- Without a second list there is nothing for the loop to do. -/
theorem intNodeMerge_eq (h : IntHeap) (p q : Ptr) :
    intNodeMerge h p q = intNodeMergeLoop (h.top + 1) h p q := by
  cases q with
  | none => rfl
  | some j => rfl

/-- **Merging** two lists that share no node: the result carries their union in nodes of the
first list and new ones, and every node of the second list is freed. -/
theorem intNodeMerge_seg (hs : Seg h p l none) (hm : Seg h q m none)
    (hdis : ∀ i ∈ ids m, i ∉ ids l) :
    ∃ h' p' l', intNodeMerge h p q = .ok (h', p') ∧ Seg h' p' l' none ∧
      vals l' = mergeVals (vals l) (vals m) ∧ (∀ i ∈ ids l', i ∈ ids l ∨ h.top ≤ i) ∧
      Rebuilds h h' (ids l ++ ids m) l' := by
  have hlen := hm.length_le_top Heap.dead_none
  obtain ⟨n, hn⟩ : ∃ n, h.top + 1 = m.length + n := ⟨h.top + 1 - m.length, by omega⟩
  rw [intNodeMerge_eq, hn]
  exact intNodeMergeLoop_seg hs hm hdis n

end DepLeak

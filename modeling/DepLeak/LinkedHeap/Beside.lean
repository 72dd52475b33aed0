import DepLeak.LinkedHeap.Family

/-!
# Two heaps side by side

What two programs keep apart can be put into one heap: the nodes of the one at the even
addresses and those of the other at the odd ones (`LinkedHeap.Heap.beside`). Pointers change
with the addresses (`LinkedHeap.left`, `LinkedHeap.right`), and the lists stay the same. From
two families of lists any choice of lists, some of the one and some of the other, is then a
family again (`LinkedHeap.Family.beside`); the lists not chosen are lost.

Payloads that are pointers themselves change with a map on payloads
(`LinkedHeap.Heap.mapVal`). Both are cases of one rule, `LinkedHeap.Seg.embed`: a heap that
has a copy of every node of another one has a copy of every list of it.
-/

namespace LinkedHeap

variable {α β ι : Type}

/-! ### Copies of lists -/

/-- **The rule of copies**: where every node has a copy, with the copy of its payload and of its
pointer, so has every segment. -/
theorem Seg.embed {h : Heap α} {h' : Heap β} (σ : ℕ → ℕ) (f : α → β)
    (hcell : ∀ i n, h.cell i = some n → h'.cell (σ i) = some ⟨f n.val, n.next.map σ⟩) {p q : Ptr}
    {l : List (ℕ × α)} (hs : Seg h p l q) :
    Seg h' (p.map σ) (l.map (Prod.map σ f)) (q.map σ) := by
  induction l generalizing p with
  | nil => exact congrArg (Option.map σ) hs
  | cons x l ih =>
    obtain ⟨i, v⟩ := x
    obtain ⟨rfl, p', hc, hl⟩ := hs
    exact ⟨rfl, p'.map σ, hcell i _ hc, ih hl⟩

/-! ### Other payloads -/

/-- The heap with other payloads in its nodes. -/
def Heap.mapVal (f : α → β) (h : Heap α) : Heap β where
  cell i := (h.cell i).map fun n => ⟨f n.val, n.next⟩
  top := h.top
  fresh i hi := by rw [h.fresh i hi]; rfl

theorem Seg.mapVal {h : Heap α} (f : α → β) {p q : Ptr} {l : List (ℕ × α)} (hs : Seg h p l q) :
    Seg (h.mapVal f) p (l.map (Prod.map id f)) q := by
  have hseg : Seg (h.mapVal f) (p.map id) (l.map (Prod.map id f)) (q.map id) :=
    hs.embed id f fun i n hi => by simp [Heap.mapVal, hi]
  rwa [Option.map_id_fun, id, id] at hseg

theorem Heap.Dead.mapVal {h : Heap α} (f : α → β) {q : Ptr} (hq : h.Dead q) :
    (h.mapVal f).Dead q := fun i hi => by simp [Heap.mapVal, hq i hi]

/-! ### Two heaps -/

/-- The address of a node of the first heap. -/
def leftAddr (i : ℕ) : ℕ := 2 * i

/-- The address of a node of the second one. -/
def rightAddr (i : ℕ) : ℕ := 2 * i + 1

theorem leftAddr_injective : Function.Injective leftAddr := fun i j h => by
  simp only [leftAddr] at h
  omega

theorem rightAddr_injective : Function.Injective rightAddr := fun i j h => by
  simp only [rightAddr] at h
  omega

theorem leftAddr_ne_rightAddr (i j : ℕ) : leftAddr i ≠ rightAddr j := by
  simp only [leftAddr, rightAddr]
  omega

/-- The two heaps lie apart. -/
theorem leftAddr_disjoint_rightAddr (is js : List ℕ) :
    (is.map leftAddr).Disjoint (js.map rightAddr) := by
  intro a hi hj
  obtain ⟨i, -, rfl⟩ := List.mem_map.mp hi
  obtain ⟨j, -, heq⟩ := List.mem_map.mp hj
  exact leftAddr_ne_rightAddr i j heq.symm

/-- A pointer into the first heap. -/
def left (p : Ptr) : Ptr := p.map leftAddr

/-- A pointer into the second one. -/
def right (p : Ptr) : Ptr := p.map rightAddr

@[simp] theorem left_none : left none = none := rfl

@[simp] theorem right_none : right none = none := rfl

/-- The two heaps as one. -/
def Heap.beside (h h' : Heap α) : Heap α where
  cell i :=
    if i % 2 = 0 then (h.cell (i / 2)).map fun n => ⟨n.val, left n.next⟩
    else (h'.cell (i / 2)).map fun n => ⟨n.val, right n.next⟩
  top := 2 * max h.top h'.top
  fresh i hi := by
    rw [h.fresh (i / 2) (by omega), h'.fresh (i / 2) (by omega)]
    exact ite_self none

/-- The lists of the first heap. -/
theorem Seg.left {h : Heap α} (h' : Heap α) {p q : Ptr} {l : List (ℕ × α)} (hs : Seg h p l q) :
    Seg (h.beside h') (left p) (l.map (Prod.map leftAddr id)) (left q) := by
  refine hs.embed leftAddr id fun i n hi => ?_
  have heven : leftAddr i % 2 = 0 := by simp [leftAddr]
  have hhalf : leftAddr i / 2 = i := by simp [leftAddr]
  simp only [Heap.beside, if_pos heven, hhalf, hi, Option.map_some, id]
  rfl

/-- The lists of the second one. -/
theorem Seg.right (h : Heap α) {h' : Heap α} {p q : Ptr} {l : List (ℕ × α)} (hs : Seg h' p l q) :
    Seg (h.beside h') (right p) (l.map (Prod.map rightAddr id)) (right q) := by
  refine hs.embed rightAddr id fun i n hi => ?_
  have hodd : rightAddr i % 2 ≠ 0 := by
    simp only [rightAddr]
    omega
  have hhalf : rightAddr i / 2 = i := by
    simp only [rightAddr]
    omega
  simp only [Heap.beside, if_neg hodd, hhalf, hi, Option.map_some, id]
  rfl

theorem ids_prodMap (σ : ℕ → ℕ) (f : α → β) (l : List (ℕ × α)) :
    ids (l.map (Prod.map σ f)) = (ids l).map σ := by
  simp [ids, Function.comp_def]

theorem vals_prodMap (σ : ℕ → ℕ) (l : List (ℕ × α)) : vals (l.map (Prod.map σ id)) = vals l := by
  simp [vals, Function.comp_def]

/-- **Lists of the two heaps, chosen place by place**, are a family of the one heap. -/
theorem Family.beside {h h' : Heap α} {ptr ptr' : ι → Ptr} {vs vs' : ι → List α}
    {lost lost' : Bool} (hf : Family h ptr vs lost) (hf' : Family h' ptr' vs' lost')
    (side : ι → Bool) :
    Family (h.beside h') (fun k => if side k then left (ptr k) else right (ptr' k))
      (fun k => if side k then vs k else vs' k) true := by
  obtain ⟨own, hseg, hvals, hdis, -⟩ := hf
  obtain ⟨own', hseg', hvals', hdis', -⟩ := hf'
  refine ⟨fun k => if side k then (own k).map (Prod.map leftAddr id)
    else (own' k).map (Prod.map rightAddr id), fun k => ?_, fun k => ?_, fun k k' hne i hi => ?_,
    fun hlost => by cases hlost⟩
  · cases hk : side k
    · simpa [hk] using (hseg' k).right h
    · simpa [hk] using (hseg k).left h'
  · cases hk : side k
    · simp only [Bool.false_eq_true, if_false, hk, vals_prodMap]
      exact hvals' k
    · simp only [if_true, hk, vals_prodMap]
      exact hvals k
  · cases hk : side k <;> cases hk' : side k' <;>
      simp only [hk, hk', if_true, if_false, Bool.false_eq_true, ids_prodMap] at hi ⊢
    -- two lists of one heap have no node in common there
    · have hcopy := List.disjoint_map rightAddr_injective fun _ hj hj' => hdis' k k' hne _ hj hj'
      exact fun hmem => hcopy hi hmem
    -- and lists of both have no address in common
    · exact fun hmem => leftAddr_disjoint_rightAddr _ _ hmem hi
    · exact fun hmem => leftAddr_disjoint_rightAddr _ _ hi hmem
    · have hcopy := List.disjoint_map leftAddr_injective fun _ hj hj' => hdis k k' hne _ hj hj'
      exact fun hmem => hcopy hi hmem

end LinkedHeap

import DepLeak.LinkedHeap.Basic

/-!
# Loops over a list in memory

The loops a C program writes over a linked list – search it, read it out, run to
its last node, free it, copy it – each with one lemma saying what it does along a
segment. A loop carries a bound on its number of rounds, which is where a cyclic
list would show; along a segment to a dead end the number of nodes ever allocated
is bound enough, so that `LinkedHeap.Fault.fuel` never comes up there.

A loop over a list whose last pointer dangles reaches that pointer and faults
(`LinkedHeap.Heap.find_seg`, `LinkedHeap.Heap.last_seg`), unless it is a search
that stops before.

What a computation leaves behind is one of three shapes. `LinkedHeap.Shrinks`: some
nodes freed. `LinkedHeap.Grows`: one new list, as a copy leaves
(`LinkedHeap.Heap.copyList_seg`). `LinkedHeap.Rebuilds`: some nodes used up and a
list built from them. In each the rest of the heap is untouched, and they compose.
-/

namespace LinkedHeap

open Runs

variable {α : Type}

namespace Heap

/-! ### Searching and reading out -/

/-- Walk from a pointer to the first node whose payload satisfies `f`. -/
def findFrom (h : Heap α) (f : α → Bool) : ℕ → Ptr → Exec (Option (ℕ × α))
  | _, none => .ok none
  | 0, some _ => .error .fuel
  | n + 1, some i => do
    let nd ← h.read i
    if f nd.val then .ok (some (i, nd.val)) else findFrom h f n nd.next

/-- The first node from `p` whose payload satisfies `f`, with its payload. -/
def find (h : Heap α) (f : α → Bool) (p : Ptr) : Exec (Option (ℕ × α)) :=
  h.findFrom f (h.top + 1) p

/-- Collect the payloads from a pointer on. -/
def toListFrom (h : Heap α) : ℕ → Ptr → Exec (List α)
  | _, none => .ok []
  | 0, some _ => .error .fuel
  | n + 1, some i => do
    let nd ← h.read i
    let vs ← toListFrom h n nd.next
    .ok (nd.val :: vs)

/-- The payloads of the list at `p`. -/
def toList (h : Heap α) (p : Ptr) : Exec (List α) := h.toListFrom (h.top + 1) p

/-- Run from a node to the last node of its list. -/
def lastFrom (h : Heap α) : ℕ → ℕ → Exec ℕ
  | 0, _ => .error .fuel
  | n + 1, i => do
    let nd ← h.read i
    match nd.next with
    | none => .ok i
    | some j => lastFrom h n j

/-- The last node of the list starting at node `i`. -/
def last (h : Heap α) (i : ℕ) : Exec ℕ := h.lastFrom (h.top + 1) i

/-! ### Freeing and copying -/

/-- Free the nodes from a pointer on. -/
def freeFrom : ℕ → Heap α → Ptr → Exec (Heap α)
  | _, h, none => .ok h
  | 0, _, some _ => .error .fuel
  | n + 1, h, some i => do
    let nd ← h.read i
    let h ← h.free i
    freeFrom n h nd.next

/-- Free the list at `p`. -/
def freeList (h : Heap α) (p : Ptr) : Exec (Heap α) := freeFrom (h.top + 1) h p

/-- Copy the nodes from a pointer on: the new node first, the rest of the copy
after it. -/
def copyFrom : ℕ → Heap α → Ptr → Exec (Heap α × Ptr)
  | _, h, none => .ok (h, none)
  | 0, _, some _ => .error .fuel
  | n + 1, h, some i => do
    let nd ← h.read i
    let j := h.top
    let (h, q) ← copyFrom n (h.alloc ⟨nd.val, none⟩) nd.next
    let h ← h.write j ⟨nd.val, q⟩
    .ok (h, some j)

/-- A fresh copy of the list at `p`. -/
def copyList (h : Heap α) (p : Ptr) : Exec (Heap α × Ptr) := copyFrom (h.top + 1) h p

end Heap

/-! ### The loops along a segment -/

variable {h h' : Heap α} {p q : Ptr} {l : List (ℕ × α)} {f : α → Bool}

namespace Heap

theorem findFrom_seg (hs : Seg h p l q) (n : ℕ) :
    h.findFrom f (l.length + n) p =
      match l.find? fun x => f x.2 with
      | some x => .ok (some x)
      | none => h.findFrom f n q := by
  induction l generalizing p with
  | nil =>
    obtain rfl : p = q := hs
    simp
  | cons x l ih =>
    obtain ⟨i, v⟩ := x
    obtain ⟨rfl, p', hc, hl⟩ := hs
    have hlen : ((i, v) :: l).length + n = l.length + n + 1 := by simp; omega
    rw [hlen, findFrom, read_of_cell hc, ok_bind]
    cases hf : f v with
    | true => simp [hf]
    | false => simp [hf, ih hl]

/-- **A search** returns the first node that satisfies the test; without one, it
comes back empty-handed from `NULL` and faults at a dangling pointer. -/
theorem find_seg (hs : Seg h p l q) (hq : h.Dead q) :
    h.find f p =
      match l.find? fun x => f x.2 with
      | some x => .ok (some x)
      | none => if q = none then .ok none else .error .dangling := by
  have hlen := hs.length_le_top hq
  obtain ⟨n, hn⟩ : ∃ n, h.top + 1 = l.length + (n + 1) := ⟨h.top - l.length, by omega⟩
  rw [find, hn, findFrom_seg hs]
  split
  · rfl
  · cases q with
    | none => rfl
    | some d => simp [findFrom, read_of_dead (hq d rfl)]

theorem find_list (hs : Seg h p l none) :
    h.find f p = .ok (l.find? fun x => f x.2) := by
  rw [find_seg hs dead_none]
  cases l.find? fun x => f x.2 with
  | none => rfl
  | some x => rfl

theorem toListFrom_seg (hs : Seg h p l none) (n : ℕ) :
    h.toListFrom (l.length + n) p = .ok (vals l) := by
  induction l generalizing p with
  | nil =>
    obtain rfl : p = none := hs
    cases n <;> rfl
  | cons x l ih =>
    obtain ⟨i, v⟩ := x
    obtain ⟨rfl, p', hc, hl⟩ := hs
    have hlen : ((i, v) :: l).length + n = l.length + n + 1 := by simp; omega
    rw [hlen, toListFrom, read_of_cell hc, ok_bind, ih hl]
    rfl

theorem toList_list (hs : Seg h p l none) : h.toList p = .ok (vals l) := by
  have hlen := hs.length_le_top dead_none
  obtain ⟨n, hn⟩ : ∃ n, h.top + 1 = l.length + n := ⟨h.top + 1 - l.length, by omega⟩
  rw [toList, hn, toListFrom_seg hs]

theorem lastFrom_seg {i : ℕ} {v : α} (hs : Seg h p (l ++ [(i, v)]) none) {j : ℕ}
    (hp : p = some j) (n : ℕ) : h.lastFrom (l.length + n + 1) j = .ok i := by
  induction l generalizing p j with
  | nil =>
    obtain ⟨hpi, p', hc, hl⟩ := hs
    obtain rfl : i = j := Option.some.inj (hpi.symm.trans hp)
    obtain rfl : p' = none := hl
    rw [lastFrom, read_of_cell hc, ok_bind]
  | cons x l ih =>
    obtain ⟨k, w⟩ := x
    obtain ⟨hpk, p', hc, hl⟩ := hs
    obtain rfl : k = j := Option.some.inj (hpk.symm.trans hp)
    have hlen : ((k, w) :: l).length + n + 1 = l.length + n + 1 + 1 := by simp; omega
    rw [hlen, lastFrom, read_of_cell hc, ok_bind]
    cases hp' : p' with
    | none =>
      rw [hp'] at hl
      have hnil := hl.eq_nil_of_none
      simp at hnil
    | some j' => exact ih hl hp'

/-- **Running to the end** of a nonempty list finds its last node. -/
theorem last_seg {i j : ℕ} {v : α} (hs : Seg h (some j) (l ++ [(i, v)]) none) :
    h.last j = .ok i := by
  have hlen := hs.length_le_top dead_none
  rw [List.length_append, List.length_singleton] at hlen
  obtain ⟨n, hn⟩ : ∃ n, h.top + 1 = l.length + n + 1 := ⟨h.top - l.length, by omega⟩
  rw [last, hn, lastFrom_seg hs rfl]

theorem lastFrom_dangling {d : ℕ} (hs : Seg h p l (some d)) (hd : h.cell d = none) {j : ℕ}
    (hp : p = some j) (n : ℕ) : h.lastFrom (l.length + n + 1) j = .error .dangling := by
  induction l generalizing p j with
  | nil =>
    obtain rfl : d = j := Option.some.inj (hs.symm.trans hp)
    rw [lastFrom, read_of_dead hd, error_bind]
  | cons x l ih =>
    obtain ⟨k, w⟩ := x
    obtain ⟨hpk, p', hc, hl⟩ := hs
    obtain rfl : k = j := Option.some.inj (hpk.symm.trans hp)
    have hlen : ((k, w) :: l).length + n + 1 = l.length + n + 1 + 1 := by simp; omega
    rw [hlen, lastFrom, read_of_cell hc, ok_bind]
    obtain ⟨j', hj'⟩ := hl.exists_of_some
    rw [hj']
    exact ih hl hj'

/-- Running to the end of a list whose last pointer dangles faults there. -/
theorem last_dangling {d j : ℕ} (hs : Seg h (some j) l (some d)) (hd : h.cell d = none) :
    h.last j = .error .dangling := by
  have hdead : h.Dead (some d) := fun i hi => by
    obtain rfl := Option.some.inj hi
    exact hd
  have hlen := hs.length_le_top hdead
  obtain ⟨n, hn⟩ : ∃ n, h.top + 1 = l.length + n + 1 := ⟨h.top - l.length, by omega⟩
  rw [last, hn, lastFrom_dangling hs hd rfl]

end Heap

/-! ### What freeing a list leaves -/

/-- `h'` is `h` with the nodes of `S` freed and nothing else changed. -/
structure Shrinks (h h' : Heap α) (S : List ℕ) : Prop where
  /-- The nodes of `S` are gone. -/
  gone : ∀ i ∈ S, h'.cell i = none
  /-- Everything else is where it was. -/
  keep : ∀ i, i ∉ S → h'.cell i = h.cell i
  /-- Nothing was allocated. -/
  top : h'.top = h.top

namespace Shrinks

variable {h'' : Heap α} {S S' : List ℕ}

theorem refl (h : Heap α) : Shrinks h h [] :=
  ⟨fun _ hi => absurd hi List.not_mem_nil, fun _ _ => rfl, rfl⟩

theorem trans (a : Shrinks h h' S) (b : Shrinks h' h'' S') : Shrinks h h'' (S ++ S') where
  gone i hi := by
    by_cases hi' : i ∈ S'
    · exact b.gone i hi'
    · rw [b.keep i hi', a.gone i ((List.mem_append.mp hi).resolve_right hi')]
  keep i hi := by
    rw [List.mem_append, not_or] at hi
    rw [b.keep i hi.2, a.keep i hi.1]
  top := b.top.trans a.top

/-- A segment that avoids the freed nodes is still there. -/
theorem seg (a : Shrinks h h' S) (hs : Seg h p l q) (hl : ∀ i ∈ ids l, i ∉ S) : Seg h' p l q :=
  hs.congr fun i hi => a.keep i (hl i hi)

/-- What is allocated afterwards was allocated before, and was not freed. -/
theorem live (a : Shrinks h h' S) {i : ℕ} (hi : h'.cell i ≠ none) : h.cell i ≠ none ∧ i ∉ S := by
  have hS : i ∉ S := fun hS => hi (a.gone i hS)
  exact ⟨by rwa [a.keep i hS] at hi, hS⟩

theorem set_none {i : ℕ} (hi : i < h.top) : Shrinks h (h.set i none hi) [i] where
  gone j hj := by
    obtain rfl := List.mem_singleton.mp hj
    exact Heap.set_cell_self
  keep j hj := Heap.set_cell_of_ne fun he => hj (by simp [he])
  top := rfl

end Shrinks

theorem Heap.freeFrom_seg (hs : Seg h p l none) (n : ℕ) :
    ∃ h', freeFrom (l.length + n) h p = .ok h' ∧ Shrinks h h' (ids l) := by
  induction l generalizing h p with
  | nil =>
    obtain rfl : p = none := hs
    exact ⟨h, by cases n <;> rfl, .refl h⟩
  | cons x l ih =>
    obtain ⟨i, v⟩ := x
    have hnd := hs.nodup dead_none
    obtain ⟨rfl, p', hc, hl⟩ := hs
    have hlen : ((i, v) :: l).length + n = l.length + n + 1 := by simp; omega
    have hs' : Seg (h.set i none (lt_top hc)) p' l none :=
      hl.set none (lt_top hc) (List.nodup_cons.mp hnd).1
    obtain ⟨h', hfree, hsh⟩ := ih hs'
    refine ⟨h', ?_, (Shrinks.set_none (lt_top hc)).trans hsh⟩
    rw [hlen, freeFrom, read_of_cell hc, ok_bind, free_of_cell hc, ok_bind, hfree]

/-- **Freeing a list** frees exactly its nodes. -/
theorem Heap.freeList_seg (hs : Seg h p l none) :
    ∃ h', h.freeList p = .ok h' ∧ Shrinks h h' (ids l) := by
  have hlen := hs.length_le_top dead_none
  obtain ⟨n, hn⟩ : ∃ n, h.top + 1 = l.length + n := ⟨h.top + 1 - l.length, by omega⟩
  rw [freeList, hn]
  exact Heap.freeFrom_seg hs n

/-- **Freeing several lists**, no two of which share a node, one after the other. -/
theorem Heap.freeLists_seg (xs : List (Ptr × List (ℕ × α)))
    (hs : ∀ x ∈ xs, Seg h x.1 x.2 none)
    (hdis : xs.Pairwise fun x y => ∀ i ∈ ids y.2, i ∉ ids x.2) :
    ∃ h', run Heap.freeList h (xs.map Prod.fst) = .ok h' ∧
      Shrinks h h' (xs.flatMap fun x => ids x.2) := by
  induction xs generalizing h with
  | nil => exact ⟨h, rfl, .refl h⟩
  | cons x xs ih =>
    obtain ⟨hx, hxs⟩ := List.pairwise_cons.mp hdis
    obtain ⟨h₁, hfree, hsh₁⟩ := Heap.freeList_seg (hs x List.mem_cons_self)
    -- the other lists are untouched by the first
    obtain ⟨h', hrun, hsh'⟩ := ih (h := h₁)
      (fun y hy => hsh₁.seg (hs y (List.mem_cons_of_mem x hy)) (hx y hy)) hxs
    refine ⟨h', run_cons_eq_ok.mpr ⟨h₁, hfree, hrun⟩, ?_⟩
    rw [List.flatMap_cons]
    exact hsh₁.trans hsh'

/-! ### What building lists leaves -/

/-- `h'` is `h` with the new nodes `S`, and nothing else changed. -/
structure Sprouts (h h' : Heap α) (S : List ℕ) : Prop where
  /-- The nodes of `S` are new. -/
  above : ∀ i ∈ S, h.top ≤ i
  /-- The old nodes are where they were. -/
  below : ∀ i < h.top, h'.cell i = h.cell i
  /-- There is no other new node. -/
  only : ∀ i, h.top ≤ i → h'.cell i ≠ none → i ∈ S
  /-- Addresses are not handed out twice. -/
  top_le : h.top ≤ h'.top

namespace Sprouts

variable {h'' : Heap α} {S S' : List ℕ}

theorem refl (h : Heap α) : Sprouts h h [] where
  above _ hi := absurd hi List.not_mem_nil
  below _ _ := rfl
  only i hi hc := absurd (h.fresh i hi) hc
  top_le := le_rfl

theorem trans (a : Sprouts h h' S) (b : Sprouts h' h'' S') : Sprouts h h'' (S ++ S') where
  above i hi := (List.mem_append.mp hi).elim (a.above i) fun hi => le_trans a.top_le (b.above i hi)
  below i hi := by rw [b.below i (lt_of_lt_of_le hi a.top_le), a.below i hi]
  only i hi hc := by
    rcases lt_or_ge i h'.top with hlt | hge
    · rw [b.below i hlt] at hc
      exact List.mem_append_left _ (a.only i hi hc)
    · exact List.mem_append_right _ (b.only i hge hc)
  top_le := le_trans a.top_le b.top_le

/-- The old lists are still there. -/
theorem old_seg (a : Sprouts h h' S) {r s : Ptr} {m : List (ℕ × α)} (hs : Seg h r m s) :
    Seg h' r m s :=
  hs.congr fun i hi => a.below i (hs.lt_top hi)

/-- What is allocated afterwards is old or in `S`. -/
theorem live (a : Sprouts h h' S) {i : ℕ} (hi : h'.cell i ≠ none) : h.cell i ≠ none ∨ i ∈ S := by
  rcases lt_or_ge i h.top with hlt | hge
  · exact Or.inl (by rwa [a.below i hlt] at hi)
  · exact Or.inr (a.only i hge hi)

end Sprouts

/-- `h'` is `h` with one more list, `l` at `p`, and nothing else changed. -/
structure Grows (h h' : Heap α) (p : Ptr) (l : List (ℕ × α)) : Prop where
  /-- The new list is at `p`. -/
  seg : Seg h' p l none
  /-- Its nodes are all that is new. -/
  sprouts : Sprouts h h' (ids l)

namespace Grows

/-- Building nothing. -/
theorem nil (h : Heap α) : Grows h h none [] := ⟨rfl, .refl h⟩

/-- One new node in front of a new list: the step of every builder. -/
theorem cons_cell {i : ℕ} {v : α} (a : Grows (h.alloc ⟨v, none⟩) h' p l) (hi : i = h.top)
    (hlt : i < h'.top) : Grows h (h'.set i (some ⟨v, p⟩) hlt) (some i) ((i, v) :: l) := by
  have htop : ∀ j ∈ ids l, h.top + 1 ≤ j := a.sprouts.above
  have hnot : i ∉ ids l := fun hmem => by
    have := htop i hmem
    omega
  refine ⟨⟨rfl, p, Heap.set_cell_self, a.seg.set _ hlt hnot⟩, ⟨?_, ?_, ?_, ?_⟩⟩
  · intro j hj
    rcases List.mem_cons.mp hj with rfl | hj
    · exact hi.ge
    · have := htop j hj
      omega
  · intro j hj
    rw [Heap.set_cell_of_ne (by omega), a.sprouts.below j (by simp; omega),
      Heap.alloc_cell_of_lt hj]
  · intro j hj hc
    rcases eq_or_ne j i with rfl | hne
    · exact List.mem_cons_self
    · rw [Heap.set_cell_of_ne hne] at hc
      exact List.mem_cons_of_mem _ (a.sprouts.only j (by simp; omega) hc)
  · have := a.sprouts.top_le
    simp only [Heap.alloc_top] at this
    simp only [Heap.set_top]
    omega

/-- A new list of one node. -/
theorem alloc (h : Heap α) (v : α) :
    Grows h (h.alloc ⟨v, none⟩) (some h.top) [(h.top, v)] where
  seg := ⟨rfl, none, Heap.alloc_cell_self, rfl⟩
  sprouts := {
    above := fun _ hi => (List.mem_singleton.mp hi).ge
    below := fun _ hi => Heap.alloc_cell_of_lt hi
    only := fun i hi hc => by
      rcases eq_or_ne i h.top with rfl | hne
      · exact List.mem_singleton_self _
      · rw [Heap.alloc_cell_of_ne hne, h.fresh i hi] at hc
        exact absurd rfl hc
    top_le := Nat.le_succ _ }

end Grows

/-! ### What using up lists to build another leaves -/

/-- `h'` is `h` with the nodes of `A` used up, the list `l` built from them and
from new nodes, and nothing else changed. -/
structure Rebuilds (h h' : Heap α) (A : List ℕ) (l : List (ℕ × α)) : Prop where
  /-- The old nodes outside `A` are where they were. -/
  keep : ∀ i < h.top, i ∉ A → h'.cell i = h.cell i
  /-- The nodes of the result come from `A` or are new. -/
  own : ∀ i ∈ ids l, i ∈ A ∨ h.top ≤ i
  /-- What is allocated afterwards is in the result, or was there and is not in
  `A`. -/
  live : ∀ i, h'.cell i ≠ none → i ∈ ids l ∨ (h.cell i ≠ none ∧ i ∉ A)
  /-- Addresses are not handed out twice. -/
  top_le : h.top ≤ h'.top

namespace Rebuilds

variable {h'' : Heap α} {A B : List ℕ} {l' : List (ℕ × α)}

theorem trans (a : Rebuilds h h' A l) (b : Rebuilds h' h'' (ids l ++ B) l') :
    Rebuilds h h'' (A ++ B) l' where
  keep i hi hAB := by
    rw [List.mem_append, not_or] at hAB
    have hl : i ∉ ids l := fun hmem => (a.own i hmem).elim hAB.1 (by omega)
    have hlt : i < h'.top := lt_of_lt_of_le hi a.top_le
    rw [b.keep i hlt (by simp [hl, hAB.2]), a.keep i hi hAB.1]
  own i hi := by
    rcases b.own i hi with hmem | hge
    · rcases List.mem_append.mp hmem with hl | hB
      · exact (a.own i hl).imp_left fun hA => List.mem_append_left B hA
      · exact Or.inl (List.mem_append_right A hB)
    · exact Or.inr (le_trans a.top_le hge)
  live i hi := by
    rcases b.live i hi with hl | ⟨hc, hnot⟩
    · exact Or.inl hl
    · rw [List.mem_append, not_or] at hnot
      obtain ⟨hc', hA⟩ := (a.live i hc).resolve_left hnot.1
      exact Or.inr ⟨hc', by simp [hA, hnot.2]⟩
  top_le := le_trans a.top_le b.top_le

/-- A node that is used up and not put into the result is gone. -/
theorem gone (a : Rebuilds h h' A l) {i : ℕ} (hA : i ∈ A) (hl : i ∉ ids l) :
    h'.cell i = none := by
  by_contra hcon
  exact ((a.live i hcon).resolve_left hl).2 hA

/-- A segment that avoids what is used up is still there. -/
theorem old_seg (a : Rebuilds h h' A l) {r s : Ptr} {m : List (ℕ × α)} (hs : Seg h r m s)
    (hA : ∀ i ∈ ids m, i ∉ A) : Seg h' r m s :=
  hs.congr fun i hi => a.keep i (hs.lt_top hi) (hA i hi)

/-- Leaving a list as it is. -/
theorem refl (h : Heap α) (l : List (ℕ × α)) : Rebuilds h h (ids l) l where
  keep _ _ _ := rfl
  own _ hi := Or.inl hi
  live i hi := (em (i ∈ ids l)).imp_right fun hl => ⟨hi, hl⟩
  top_le := le_rfl

/-- Freeing one node more. -/
theorem set_none {i : ℕ} (a : Rebuilds h h' A l) (hi : i < h'.top) (hl : i ∉ ids l) :
    Rebuilds h (h'.set i none hi) (A ++ [i]) l where
  keep j hj hA := by
    rw [List.mem_append, not_or, List.mem_singleton] at hA
    rw [Heap.set_cell_of_ne hA.2, a.keep j hj hA.1]
  own j hj := (a.own j hj).imp_left fun hA => List.mem_append_left _ hA
  live j hj := by
    rcases eq_or_ne j i with rfl | hne
    · exact absurd Heap.set_cell_self hj
    · rw [Heap.set_cell_of_ne hne] at hj
      exact (a.live j hj).imp_right fun hc => ⟨hc.1, by simp [hc.2, hne]⟩
  top_le := a.top_le

end Rebuilds

/-- **Using up some of the lists built on the side** to build another one. -/
theorem Sprouts.rebuild {h'' : Heap α} {A B : List ℕ} (a : Sprouts h h' (A ++ B))
    (b : Rebuilds h' h'' A l) : Sprouts h h'' (ids l ++ B) where
  above i hi := by
    rcases List.mem_append.mp hi with hl | hB
    · exact (b.own i hl).elim (fun hA => a.above i (List.mem_append_left B hA)) (le_trans a.top_le)
    · exact a.above i (List.mem_append_right A hB)
  below i hi := by
    have hnot : i ∉ A := fun hmem => by
      have := a.above i (List.mem_append_left B hmem)
      omega
    rw [b.keep i (lt_of_lt_of_le hi a.top_le) hnot, a.below i hi]
  only i hi hc := by
    rcases b.live i hc with hl | ⟨hc', hnot⟩
    · exact List.mem_append_left B hl
    · exact List.mem_append_right _ ((List.mem_append.mp (a.only i hi hc')).resolve_left hnot)
  top_le := le_trans a.top_le b.top_le

theorem Heap.copyFrom_seg (hs : Seg h p l none) (n : ℕ) :
    ∃ h' p' l', copyFrom (l.length + n) h p = .ok (h', p') ∧ Grows h h' p' l' ∧
      vals l' = vals l := by
  induction l generalizing h p with
  | nil =>
    obtain rfl : p = none := hs
    exact ⟨h, none, [], by cases n <;> rfl, .nil h, rfl⟩
  | cons x l ih =>
    obtain ⟨i, v⟩ := x
    obtain ⟨rfl, p', hc, hl⟩ := hs
    have hlen : ((i, v) :: l).length + n = l.length + n + 1 := by simp; omega
    obtain ⟨h₁, q, l₁, hcopy, hgrow, hvals⟩ := ih (hl.alloc (n := ⟨v, none⟩))
    have hcell : h₁.cell h.top = some ⟨v, none⟩ := by
      rw [hgrow.sprouts.below h.top (by simp), alloc_cell_self]
    refine ⟨_, some h.top, (h.top, v) :: l₁, ?_, hgrow.cons_cell rfl (lt_top hcell), ?_⟩
    · rw [hlen, copyFrom, read_of_cell hc, ok_bind]
      simp only [hcopy, ok_bind, write_of_cell hcell]
    · simp [hvals]

/-- **A deep copy** is a new list with the same payloads. -/
theorem Heap.copyList_seg (hs : Seg h p l none) :
    ∃ h' p' l', h.copyList p = .ok (h', p') ∧ Grows h h' p' l' ∧ vals l' = vals l := by
  have hlen := hs.length_le_top dead_none
  obtain ⟨n, hn⟩ : ∃ n, h.top + 1 = l.length + n := ⟨h.top + 1 - l.length, by omega⟩
  rw [copyList, hn]
  exact Heap.copyFrom_seg hs n

end LinkedHeap

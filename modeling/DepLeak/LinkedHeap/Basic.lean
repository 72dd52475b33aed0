import DepLeak.Runs
import Mathlib.Data.List.Nodup
import Mathlib.Data.List.Perm.Subperm
import Mathlib.Data.List.Range
import Mathlib.Data.List.Lattice
import Mathlib.Logic.Function.Basic
import Mathlib.Order.Basic

/-!
# A heap of list nodes

Singly linked lists as a C program has them: nodes of one type, each with a
payload and a `next` pointer, allocated and freed one at a time.

`LinkedHeap.Heap` is the heap. An address is handed out once and never again, so
a pointer that survives the `free` of its node stays *dangling* for ever, and
using it is the fault `LinkedHeap.Fault.dangling`; a run that does not fault has
therefore freed no node twice and touched no freed node.

`LinkedHeap.Seg` is the only description of a list in memory: `Seg h p l q` says
that following `next` from `p` meets the nodes of `l`, in order, and arrives at
`q`. A well-formed list is a segment ending at `NULL`; a list whose last pointer
dangles is a segment ending at a dead address. Both ends are
`LinkedHeap.Heap.Dead`, and from a pointer to a dead end there is only one
segment (`LinkedHeap.Seg.unique`), which visits no node twice
(`LinkedHeap.Seg.nodup`).
-/

namespace LinkedHeap

/-- The ways a C program leaves the behaviour its standard defines. -/
inductive Fault
  /-- A node that is not allocated is read, written or freed. -/
  | dangling
  /-- An array is indexed outside what was allocated. -/
  | bounds
  /-- A signed counter is increased beyond its largest value. -/
  | overflow
  /-- A loop has not ended after as many rounds as there are nodes. -/
  | fuel
  deriving DecidableEq, Repr

/-- A computation that may leave the defined behaviour. -/
abbrev Exec := Except Fault

/-- A pointer to a node; `none` is `NULL`. -/
abbrev Ptr := Option ℕ

/-- A list node. -/
structure Node (α : Type) where
  /-- What the node carries. -/
  val : α
  /-- The node after it. -/
  next : Ptr
  deriving DecidableEq

/-- A heap of list nodes. Addresses from `top` on have never been handed out. -/
structure Heap (α : Type) where
  /-- The node at an address, if one is allocated there. -/
  cell : ℕ → Option (Node α)
  /-- The next address to hand out. -/
  top : ℕ
  /-- Nothing is allocated at an address that was never handed out. -/
  fresh : ∀ i, top ≤ i → cell i = none

variable {α : Type}

namespace Heap

/-! ### The operations of the heap -/

/-- The heap before anything is allocated. -/
def empty : Heap α := ⟨fun _ => none, 0, fun _ _ => rfl⟩

/-- Allocate a node; its address is the old `top`. -/
def alloc (h : Heap α) (n : Node α) : Heap α where
  cell := Function.update h.cell h.top (some n)
  top := h.top + 1
  fresh i hi := by
    rw [Function.update_of_ne (by omega)]
    exact h.fresh i (by omega)

/-- Read the node at an address. -/
def read (h : Heap α) (i : ℕ) : Exec (Node α) :=
  match h.cell i with
  | some n => .ok n
  | none => .error .dangling

/-- Put `c` at an address that has been handed out. -/
def set (h : Heap α) (i : ℕ) (c : Option (Node α)) (hi : i < h.top) : Heap α where
  cell := Function.update h.cell i c
  top := h.top
  fresh j hj := by
    rw [Function.update_of_ne (by omega)]
    exact h.fresh j hj

theorem lt_top {h : Heap α} {i : ℕ} {n : Node α} (hi : h.cell i = some n) : i < h.top := by
  by_contra hcon
  rw [h.fresh i (by omega)] at hi
  cases hi

/-- Overwrite the node at an address. -/
def write (h : Heap α) (i : ℕ) (n : Node α) : Exec (Heap α) :=
  match hi : h.cell i with
  | some _ => .ok (h.set i (some n) (lt_top hi))
  | none => .error .dangling

/-- Free the node at an address. -/
def free (h : Heap α) (i : ℕ) : Exec (Heap α) :=
  match hi : h.cell i with
  | some _ => .ok (h.set i none (lt_top hi))
  | none => .error .dangling

/-- Overwrite the `next` pointer of the node at an address. -/
def setNext (h : Heap α) (i : ℕ) (q : Ptr) : Exec (Heap α) := do
  let nd ← h.read i
  h.write i { nd with next := q }

variable {h : Heap α} {i j : ℕ} {n m : Node α}

@[simp] theorem alloc_top : (h.alloc n).top = h.top + 1 := rfl

@[simp] theorem alloc_cell_self : (h.alloc n).cell h.top = some n := by simp [alloc]

theorem alloc_cell_of_ne (hi : i ≠ h.top) : (h.alloc n).cell i = h.cell i := by
  simp [alloc, hi]

theorem alloc_cell_of_lt (hi : i < h.top) : (h.alloc n).cell i = h.cell i :=
  alloc_cell_of_ne (by omega)

@[simp] theorem set_top {c : Option (Node α)} {hi : i < h.top} : (h.set i c hi).top = h.top := rfl

@[simp] theorem set_cell_self {c : Option (Node α)} {hi : i < h.top} :
    (h.set i c hi).cell i = c := by simp [set]

theorem set_cell_of_ne {c : Option (Node α)} {hi : i < h.top} (hj : j ≠ i) :
    (h.set i c hi).cell j = h.cell j := by simp [set, hj]

/-- A freed node is none that is there. -/
theorem ne_of_cell (hi : h.cell i = some n) (hj : h.cell j = none) : j ≠ i := by
  rintro rfl
  rw [hj] at hi
  cases hi

theorem read_of_cell (hi : h.cell i = some n) : h.read i = .ok n := by simp [read, hi]

theorem read_of_dead (hi : h.cell i = none) : h.read i = .error .dangling := by simp [read, hi]

theorem write_of_cell (hi : h.cell i = some m) :
    h.write i n = .ok (h.set i (some n) (lt_top hi)) := by
  unfold write
  split
  · rfl
  · next hn => rw [hi] at hn; cases hn

theorem free_of_cell (hi : h.cell i = some m) : h.free i = .ok (h.set i none (lt_top hi)) := by
  unfold free
  split
  · rfl
  · next hn => rw [hi] at hn; cases hn

theorem setNext_of_cell {q : Ptr} (hi : h.cell i = some n) :
    h.setNext i q = .ok (h.set i (some { n with next := q }) (lt_top hi)) := by
  rw [setNext, read_of_cell hi, Runs.ok_bind, write_of_cell hi]

/-- A pointer with no node behind it: `NULL`, or the address of a freed node. -/
def Dead (h : Heap α) (q : Ptr) : Prop := ∀ i, q = some i → h.cell i = none

@[simp] theorem dead_none : h.Dead none := fun _ hi => by cases hi

end Heap

/-! ### Lists in memory -/

/-- The list segment from `p` to `q`: following `next` from `p` meets the nodes
of `l`, given by address and payload, and arrives at `q`. -/
def Seg (h : Heap α) : Ptr → List (ℕ × α) → Ptr → Prop
  | p, [], q => p = q
  | p, (i, v) :: l, q => p = some i ∧ ∃ p', h.cell i = some ⟨v, p'⟩ ∧ Seg h p' l q

/-- The addresses of a segment. -/
abbrev ids (l : List (ℕ × α)) : List ℕ := l.map Prod.fst

/-- The payloads of a segment. -/
abbrev vals (l : List (ℕ × α)) : List α := l.map Prod.snd

namespace Seg

variable {h h' : Heap α} {p q r : Ptr} {l l' : List (ℕ × α)} {i : ℕ} {v : α}

@[simp] theorem nil_iff : Seg h p [] q ↔ p = q := Iff.rfl

theorem cons_iff : Seg h p ((i, v) :: l) q ↔
    p = some i ∧ ∃ p', h.cell i = some ⟨v, p'⟩ ∧ Seg h p' l q := Iff.rfl

theorem append_iff : Seg h p (l ++ l') q ↔ ∃ r, Seg h p l r ∧ Seg h r l' q := by
  induction l generalizing p with
  | nil => simp
  | cons x l ih =>
    obtain ⟨i, v⟩ := x
    simp only [List.cons_append, cons_iff, ih]
    constructor
    · rintro ⟨hp, p', hc, r, hl, hl'⟩
      exact ⟨r, ⟨hp, p', hc, hl⟩, hl'⟩
    · rintro ⟨r, ⟨hp, p', hc, hl⟩, hl'⟩
      exact ⟨hp, p', hc, r, hl, hl'⟩

/-- A node of a segment is allocated, and carries its payload. -/
theorem cell_of_mem (hs : Seg h p l q) {x : ℕ × α} (hx : x ∈ l) :
    ∃ p', h.cell x.1 = some ⟨x.2, p'⟩ := by
  induction l generalizing p with
  | nil => cases hx
  | cons y l ih =>
    obtain ⟨i, v⟩ := y
    obtain ⟨-, p', hc, hl⟩ := hs
    rcases List.mem_cons.mp hx with rfl | hx
    · exact ⟨p', hc⟩
    · exact ih hl hx

theorem cell_ne_none (hs : Seg h p l q) (hi : i ∈ ids l) : h.cell i ≠ none := by
  obtain ⟨x, hx, rfl⟩ := List.mem_map.mp hi
  obtain ⟨p', hc⟩ := hs.cell_of_mem hx
  simp [hc]

theorem lt_top (hs : Seg h p l q) (hi : i ∈ ids l) : i < h.top := by
  by_contra hcon
  exact hs.cell_ne_none hi (h.fresh i (by omega))

/-- **The frame rule**: a segment only depends on its own nodes. -/
theorem congr (hs : Seg h p l q) (hc : ∀ i ∈ ids l, h'.cell i = h.cell i) : Seg h' p l q := by
  induction l generalizing p with
  | nil => exact hs
  | cons y l ih =>
    obtain ⟨i, v⟩ := y
    obtain ⟨hp, p', hcell, hl⟩ := hs
    exact ⟨hp, p', by rw [hc i (by simp), hcell],
      ih hl fun j hj => hc j (List.mem_cons_of_mem i hj)⟩

/-- A segment from a pointer starts any segment from it to a dead end. -/
theorem isPrefix {q' : Ptr} (hs : Seg h p l q) (hs' : Seg h p l' q') (hq' : h.Dead q') :
    l <+: l' := by
  induction l generalizing p l' with
  | nil => exact List.nil_prefix
  | cons y l ih =>
    obtain ⟨hp, p', hc, hl⟩ := hs
    cases l' with
    | nil =>
      rw [hq' y.1 (hs'.symm.trans hp)] at hc
      cases hc
    | cons z l' =>
      obtain ⟨hp', p'', hc', hl'⟩ := hs'
      have hyz : y.1 = z.1 := Option.some.inj (hp.symm.trans hp')
      have hnode := Option.some.inj (hc.symm.trans (hyz ▸ hc'))
      obtain ⟨hv, rfl⟩ := Node.mk.injEq .. ▸ hnode
      rw [Prod.ext hyz hv]
      exact List.prefix_cons_inj z |>.mpr (ih hl hl')

/-- Where a segment ends is settled by where it starts and what it goes through. -/
theorem end_unique {q' : Ptr} (hs : Seg h p l q) (hs' : Seg h p l q') : q = q' := by
  induction l generalizing p with
  | nil => exact hs.symm.trans hs'
  | cons y l ih =>
    obtain ⟨-, p', hc, hl⟩ := hs
    obtain ⟨-, p'', hc', hl'⟩ := hs'
    rw [hc, Option.some.injEq, Node.mk.injEq] at hc'
    exact ih hl (hc'.2 ▸ hl')

/-- From a pointer to a dead end there is only one segment. -/
theorem unique {q' : Ptr} (hs : Seg h p l q) (hs' : Seg h p l' q') (hq : h.Dead q)
    (hq' : h.Dead q') : l = l' ∧ q = q' := by
  have hlen : l'.length ≤ l.length := (hs'.isPrefix hs hq).length_le
  obtain rfl : l = l' := (hs.isPrefix hs' hq').eq_of_length_le hlen
  exact ⟨rfl, hs.end_unique hs'⟩

/-- A segment to a dead end visits no node twice. -/
theorem nodup (hs : Seg h p l q) (hq : h.Dead q) : (ids l).Nodup := by
  induction l generalizing p with
  | nil => exact List.nodup_nil
  | cons y l ih =>
    obtain ⟨i, v⟩ := y
    have hcons := hs
    obtain ⟨hp, p', hc, hl⟩ := hs
    refine List.nodup_cons.mpr ⟨fun hi => ?_, ih hl⟩
    -- were `i` met again, the rest of the list from there would be the whole list
    obtain ⟨x, hx, rfl⟩ := List.mem_map.mp hi
    obtain ⟨l₁, l₂, rfl⟩ := List.append_of_mem hx
    obtain ⟨r, -, hr⟩ := append_iff.mp hl
    rw [hp] at hcons
    obtain ⟨w, u⟩ := x
    have hr' := hr.1 ▸ hr
    have hlen := congrArg List.length (hr'.unique hcons hq hq).1
    simp at hlen
    omega

theorem length_le_top (hs : Seg h p l q) (hq : h.Dead q) : l.length ≤ h.top := by
  have hsub : ids l ⊆ List.range h.top := fun i hi => List.mem_range.mpr (hs.lt_top hi)
  have hlen := (List.subperm_of_subset (hs.nodup hq) hsub).length_le
  simpa using hlen

/-- Allocating a node disturbs no segment. -/
theorem alloc {n : Node α} (hs : Seg h p l q) : Seg (h.alloc n) p l q :=
  hs.congr fun _ hi => Heap.alloc_cell_of_lt (hs.lt_top hi)

/-- Changing one cell disturbs no segment that avoids it. -/
theorem set (hs : Seg h p l q) (c : Option (Node α)) (hi : i < h.top) (hl : i ∉ ids l) :
    Seg (h.set i c hi) p l q :=
  hs.congr fun _ hj => Heap.set_cell_of_ne fun he => hl (he ▸ hj)

/-- **Linking**: pointing the last node of a list at another list appends it. -/
theorem link {i : ℕ} {v : α} (hs : Seg h p (l ++ [(i, v)]) none) (hi : i < h.top)
    (hs' : Seg h r l' q) (hdis : i ∉ ids l') :
    Seg (h.set i (some ⟨v, r⟩) hi) p (l ++ [(i, v)] ++ l') q := by
  have hnd := hs.nodup Heap.dead_none
  have hil : i ∉ ids l := fun hmem => by
    simp only [ids, List.map_append, List.nodup_append] at hnd
    exact hnd.2.2 i hmem i (by simp) rfl
  obtain ⟨r', hl, hri, -⟩ := append_iff.mp hs
  exact append_iff.mpr ⟨r, append_iff.mpr ⟨r', hl.set _ hi hil, hri, r, Heap.set_cell_self, rfl⟩,
    hs'.set _ hi hdis⟩

/-- The list at `NULL` is empty. -/
theorem eq_nil_of_none (hs : Seg h none l q) : l = [] := by
  cases l with
  | nil => rfl
  | cons y l =>
    obtain ⟨hp, -⟩ := hs
    cases hp

/-- Where something is arrived at, there is a way. -/
theorem exists_of_some {x : ℕ} (hs : Seg h p l (some x)) : ∃ i, p = some i := by
  cases p with
  | none =>
    rw [hs.eq_nil_of_none] at hs
    cases hs
  | some i => exact ⟨i, rfl⟩

/-- An empty list is `NULL`. -/
theorem eq_none_iff (hs : Seg h p l none) : p = none ↔ l = [] := by
  constructor
  · rintro rfl
    exact hs.eq_nil_of_none
  · rintro rfl
    exact hs

end Seg

end LinkedHeap

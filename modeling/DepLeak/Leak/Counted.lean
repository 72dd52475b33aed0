import DepLeak.Leak.Steps
import Mathlib.Algebra.BigOperators.Group.List.Basic
import Mathlib.Algebra.GroupWithZero.Nat

/-!
# How many blocks are counted

The detector counts a call of a function with `malloc` in its name if the next instruction is
a store to an address that it takes for a location (`DepLeak.Instruction.counts`). How often
that happens on a path can be read off the blocks as they are given
(`DepLeak.Reached.counted_add`): what is put into them in between is no such call and comes
between none and its store.
-/

namespace DepLeak

open Runs Detector

/-- **The detector counts the instruction**, given the next one. -/
def Instruction.counts (next : Option Instruction) : Instruction → Bool
  | .call _ (some name) _ => finds name "malloc" && (storedTo next).isSome
  | _ => false

/-- How many instructions of a block are counted, from here on. -/
def counted : List Instruction → ℕ
  | [] => 0
  | i :: rest => (i.counts (adjacent rest)).toNat + counted rest

/-- **How many are counted on a path**, if it is gone over to its end. -/
def countedOn (blocks : Blocks) (path : List BasicBlock) : ℕ :=
  (path.map fun bb => counted (blocks bb)).sum

variable {blocks : Blocks} {path : List BasicBlock} {i : Instruction}
  {before before' rest l l' new : List Instruction} {d d' : Detector}

/-! ### What an instruction adds -/

/-- A copy changes what is noted for structures, at most. -/
theorem memcpyCall_eq_ok {name : String} {args : List Value}
    (h : memcpyCall name args d = .ok d') : ∃ m, d' = { d with malloc_structs := m } := by
  unfold memcpyCall at h
  split at h
  · obtain ⟨lhs, -, h⟩ := bind_eq_ok.mp h
    obtain ⟨rhs, -, h⟩ := bind_eq_ok.mp h
    split at h
    · obtain ⟨lhsOp, -, h⟩ := bind_eq_ok.mp h
      obtain ⟨rhsOp, -, h⟩ := bind_eq_ok.mp h
      exact ⟨_, (Except.ok.inj h).symm⟩
    · exact ⟨d.malloc_structs, (Except.ok.inj h).symm⟩
  · exact ⟨d.malloc_structs, (Except.ok.inj h).symm⟩

/-- And a call of `free` the elements. -/
theorem freeId_eq_ok {id : Option ℕ} (h : d.freeId id = .ok d') :
    d' = { d with mallocs := id.elim d.mallocs fun n => d.mallocs.set n none } := by
  unfold freeId at h
  split at h
  · split at h
    · exact (Except.ok.inj h).symm
    · cases h
  · exact (Except.ok.inj h).symm

/-- A block is counted if it is stored into a location. -/
theorem store?_malloc_id {x : Option Location} (h : d.store? i x = .ok d') :
    d'.malloc_id = d.malloc_id + x.isSome.toNat := by
  cases x with
  | none => exact Except.ok.inj h ▸ rfl
  | some x =>
    obtain ⟨-, rfl⟩ := store?_eq_ok.mp h
    simp

/-- **What an instruction adds to the counter.** -/
theorem visit_malloc_id (h : visit i before rest d = .ok (d', before')) :
    d'.malloc_id = d.malloc_id + (i.counts (adjacent rest)).toNat := by
  cases i with
  | load id pointer =>
    obtain ⟨rfl, -⟩ := Prod.mk.inj (Except.ok.inj h)
    unfold visitLoad
    split
    · split <;> rfl
    · rfl
  | call id callee args =>
    rcases callee with _ | name
    · cases h
    obtain ⟨d₁, hmemcpy, h⟩ := bind_eq_ok.mp h
    obtain ⟨⟨d₂, before₂⟩, hmalloc, hfree⟩ := bind_eq_ok.mp h
    have h₂ : d₂.malloc_id = d₁.malloc_id +
        (finds name "malloc" && (storedTo (adjacent rest)).isSome).toNat := by
      unfold mallocCall at hmalloc
      split at hmalloc
      · rename_i hname
        rw [hname, Bool.true_and]
        exact store?_malloc_id (visitMalloc_eq_ok hmalloc)
      · rename_i hname
        obtain ⟨rfl, -⟩ := Prod.mk.inj (Except.ok.inj hmalloc)
        rw [Bool.eq_false_iff.mpr hname]
        rfl
    have h₃ : d'.malloc_id = d₂.malloc_id := by
      have hfree : freeCall name before₂ d₂ = .ok (d', before') := hfree
      unfold freeCall at hfree
      split at hfree
      · rw [freeId_eq_ok (visitFree_eq_ok hfree)]
      · obtain ⟨rfl, -⟩ := Prod.mk.inj (Except.ok.inj hfree)
        rfl
    obtain ⟨m, rfl⟩ := memcpyCall_eq_ok hmemcpy
    rw [h₃, h₂]
    rfl
  | _ =>
    obtain ⟨rfl, -⟩ := Prod.mk.inj (Except.ok.inj h)
    rfl

/-! ### What is put into a block -/

/-- It matters of the instructions that follow how many of them are counted, and where the
first one stores to. -/
theorem counted_append_congr (hnext : storedTo (adjacent l) = storedTo (adjacent l'))
    (hcounted : counted l = counted l') (before : List Instruction) :
    counted (before ++ l) = counted (before ++ l') := by
  have hadj : ∀ before : List Instruction,
      storedTo (adjacent (before ++ l)) = storedTo (adjacent (before ++ l')) := by
    intro before
    rw [adjacent_append, adjacent_append]
    cases adjacent before with
    | none => exact hnext
    | some j => rfl
  induction before with
  | nil => exact hcounted
  | cons i before ih =>
    have hcounts : i.counts (adjacent (before ++ l)) = i.counts (adjacent (before ++ l')) := by
      cases i with
      | call id callee args => cases callee <;> simp [Instruction.counts, hadj before]
      | _ => rfl
    rw [List.cons_append, List.cons_append, counted, counted, hcounts, ih]

/-- Instructions made of addresses are not counted. -/
theorem counted_expressions (hnew : ∀ j ∈ new, ∃ opcode operands, j = .expression opcode operands)
    (l : List Instruction) : counted (new ++ l) = counted l := by
  induction new with
  | nil => rfl
  | cons j new ih =>
    obtain ⟨opcode, operands, rfl⟩ := hnew j List.mem_cons_self
    rw [List.cons_append, counted, ih fun j hj => hnew j (List.mem_cons_of_mem _ hj)]
    exact Nat.zero_add _

/-- **What an instruction puts in before itself** changes nothing about what is counted in its
block. -/
theorem visit_counted (h : visit i before rest d = .ok (d', before')) :
    counted (before'.reverse ++ i :: rest) = counted (before.reverse ++ i :: rest) := by
  obtain ⟨new, rfl, hnew⟩ := visit_new h
  have hnew : ∀ j ∈ new.reverse, ∃ opcode operands, j = .expression opcode operands :=
    fun j hj => hnew j (List.mem_reverse.mp hj)
  rw [List.reverse_append, List.append_assoc]
  refine counted_append_congr ?_ (counted_expressions hnew _) _
  rcases eq_or_ne new [] with rfl | hne
  · rfl
  obtain ⟨j, new', hcons⟩ := List.exists_cons_of_ne_nil (List.reverse_ne_nil_iff.mpr hne)
  obtain ⟨opcode, operands, rfl⟩ := hnew j (by rw [hcons]; exact List.mem_cons_self)
  -- only a call puts something in, and no call is a store
  obtain ⟨⟨id, callee, args, rfl⟩, hdebug⟩ := visit_new_of_ne h (by simpa using hne)
  rw [hcons, adjacent_cons (.call id callee args), if_neg hdebug]
  rfl

/-- **What a block adds to the counter**, and as what it is left. -/
theorem visitBlock_counted (h : visitBlock d before l = .ok (d', l')) :
    d'.malloc_id = d.malloc_id + counted l ∧ counted l' = counted (before.reverse ++ l) := by
  induction l generalizing d before with
  | nil =>
    obtain ⟨rfl, rfl⟩ := Prod.mk.inj (Except.ok.inj h)
    exact ⟨rfl, by rw [List.append_nil]⟩
  | cons i rest ih =>
    obtain ⟨⟨d₁, before₁⟩, hvisit, h⟩ := bind_eq_ok.mp h
    obtain ⟨hid, hleft⟩ := ih h
    constructor
    · rw [hid, visit_malloc_id hvisit, counted, Nat.add_assoc]
    · rw [hleft, List.reverse_cons, List.append_assoc, List.singleton_append,
        visit_counted hvisit]

/-! ### Along a path -/

section Path

variable {p q : Point}

/-- What is counted in the blocks stays. -/
theorem Reached.counted_module (h : Reached blocks path p) (bb : BasicBlock) :
    counted (p.module bb) = counted (blocks bb) := by
  induction h with
  | refl => rfl
  | @tail p q _ hnext ih =>
    rw [← ih]
    rcases Point.next_cases hnext with ⟨i, rest, d, before, hrest, hvisit, rfl⟩ |
      ⟨bb', path', hrest, -, rfl⟩
    · simp only [Point.module, Point.leave]
      rcases p.here with _ | bb'
      · rfl
      rcases eq_or_ne bb bb' with rfl | hne
      · simp only [Function.update_self, List.reverse_cons, List.append_assoc, hrest,
          List.singleton_append]
        exact visit_counted hvisit
      · simp only [Function.update_of_ne hne]
    · simp [Point.module, Point.leave, hrest]

/-- **The tally**: the blocks counted so far and those still to be counted are as many as are
counted on the path. -/
theorem Reached.counted_add (h : Reached blocks path p) :
    p.d.malloc_id + counted p.rest + countedOn blocks p.path = countedOn blocks path := by
  induction h with
  | refl => simp [Point.start, Detector.init, counted]
  | @tail p q hp hnext ih =>
    rw [← ih]
    rcases Point.next_cases hnext with ⟨i, rest, d, before, hrest, hvisit, rfl⟩ |
      ⟨bb, path', hrest, hpath, rfl⟩
    · rw [hrest, counted, visit_malloc_id hvisit]
      simp only
      omega
    · have hcounted := Reached.counted_module hp bb
      simp only [Point.module, hrest, List.append_nil] at hcounted
      simp only [hrest, hpath, countedOn, List.map_cons, List.sum_cons, counted, hcounted]
      omega

/-- The counter is never decreased. -/
theorem Leads.malloc_id_le (h : Leads p q) : p.d.malloc_id ≤ q.d.malloc_id := by
  induction h with
  | refl => exact le_rfl
  | tail _ hnext ih =>
    rcases Point.next_cases hnext with ⟨i, rest, d, before, -, hvisit, rfl⟩ | ⟨_, _, -, -, rfl⟩
    · exact ih.trans (visit_malloc_id hvisit ▸ Nat.le_add_right _ _)
    · exact ih

end Path

end DepLeak

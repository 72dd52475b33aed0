import DepLeak.Leak.Notes
import DepLeak.Leak.Purity
import Mathlib.Logic.Relation

/-!
# What an address is known by

The detector knows an address by its name, or, if a constant expression computes it, by the
name of the first operand and the value of the third (`DepLeak.Value.key`). In these terms a
call of `malloc` or of `free` does one thing with the address that is stored to or loaded
from, whatever its kind (`DepLeak.Detector.visitMalloc_store`,
`DepLeak.Detector.visitFree_load`), and what an instruction can do to the detector is told in
four cases (`DepLeak.Detector.visit_effects`).
-/

namespace DepLeak

open Runs Ledger Detector

/-- What the detector takes an address for: the location of a variable or of a field, and
nothing when it is a constant expression that has no such form. -/
def Value.key : Value → Option Location
  | .constantExpr opcode operands =>
    match gepField opcode operands with
    | .ok (some (var, index)) => some (.field var index)
    | _ => none
  | v => some (.var v.getName)

/-- How a call finds that out. -/
def Value.locate : Value → Except Crash (Option Location)
  | .constantExpr opcode operands =>
    (gepField opcode operands).map fun field => field.map fun f => .field f.1 f.2
  | v => .ok (some (.var v.getName))

theorem Value.key_of_locate {v : Value} {l : Option Location} (h : v.locate = .ok l) :
    v.key = l := by
  cases v with
  | constantExpr opcode operands =>
    rw [Value.locate] at h
    rw [Value.key]
    cases hfield : gepField opcode operands with
    | error c => simp [hfield, Except.map] at h
    | ok field =>
      rw [hfield] at h
      obtain rfl := Except.ok.inj h
      cases field <;> rfl
  | _ => exact Except.ok.inj h

theorem Value.locate_of_key {v : Value} {l : Location} (h : v.key = some l) :
    v.locate = .ok (some l) := by
  cases v with
  | constantExpr opcode operands =>
    rw [Value.key] at h
    split at h
    · rename_i var index hfield
      obtain rfl := Option.some.inj h
      rw [Value.locate, hfield]
      rfl
    · cases h
  | _ =>
    obtain rfl := Option.some.inj h
    rfl

/-- The instructions put into the block to take an address apart. -/
def Value.spliced : Value → List Instruction
  | .constantExpr opcode operands => [.expression opcode operands]
  | _ => []

@[simp] theorem Location.key_address (l : Location) : l.address.key = some l := by
  cases l with
  | var v => rfl
  | field x k => simp [address, Value.key, gepField, getOperand, Value.getName]

/-- Where the next instruction stores to, if it does, and the detector takes the address for a
location. -/
def storedTo : Option Instruction → Option Location
  | some (.store _ pointer) => pointer.key
  | _ => none

/-- And where the one before loads from. -/
def loadedFrom : Option Instruction → Option Location
  | some (.load _ pointer) => pointer.key
  | _ => none

theorem exists_store_of_storedTo {next : Option Instruction} {l : Location}
    (h : storedTo next = some l) :
    ∃ value pointer, next = some (.store value pointer) ∧ pointer.key = some l := by
  unfold storedTo at h
  split at h
  · exact ⟨_, _, rfl, h⟩
  · cases h

theorem exists_load_of_loadedFrom {prev : Option Instruction} {l : Location}
    (h : loadedFrom prev = some l) :
    ∃ id pointer, prev = some (.load id pointer) ∧ pointer.key = some l := by
  unfold loadedFrom at h
  split at h
  · exact ⟨_, _, rfl, h⟩
  · cases h

theorem Instruction.store_or_ne (i : Instruction) :
    (∃ value pointer, i = .store value pointer) ∨ ∀ value pointer, i ≠ .store value pointer := by
  cases i with
  | store value pointer => exact .inl ⟨value, pointer, rfl⟩
  | _ => exact .inr fun _ _ => Instruction.noConfusion

theorem Instruction.load_or_ne (i : Instruction) :
    (∃ id pointer, i = .load id pointer) ∨ ∀ id pointer, i ≠ .load id pointer := by
  cases i with
  | load id pointer => exact .inl ⟨id, pointer, rfl⟩
  | _ => exact .inr fun _ _ => Instruction.noConfusion

theorem storedTo_of_ne {i : Instruction} (h : ∀ value pointer, i ≠ .store value pointer) :
    storedTo (some i) = none := by
  by_contra hsome
  obtain ⟨l, hl⟩ := Option.ne_none_iff_exists'.mp hsome
  obtain ⟨value, pointer, heq, -⟩ := exists_store_of_storedTo hl
  exact h value pointer (Option.some.inj heq)

theorem loadedFrom_of_ne {i : Instruction} (h : ∀ id pointer, i ≠ .load id pointer) :
    loadedFrom (some i) = none := by
  by_contra hsome
  obtain ⟨l, hl⟩ := Option.ne_none_iff_exists'.mp hsome
  obtain ⟨id, pointer, heq, -⟩ := exists_load_of_loadedFrom hl
  exact h id pointer (Option.some.inj heq)

namespace Detector

/-- The number under a location. -/
def numberAt (d : Detector) : Location → Option ℕ
  | .var v => d.malloc_vars v
  | .field x k => d.fieldId x k

variable {d d' : Detector} {i : Instruction} {before before' before'' rest : List Instruction}
  {l : Location}

@[simp] theorem mallocAt_mallocs : (d.mallocAt i l).mallocs = d.mallocs ++ [some i] := by
  cases l <;> rfl

@[simp] theorem mallocAt_malloc_id : (d.mallocAt i l).malloc_id = d.malloc_id + 1 := by
  cases l <;> rfl

/-- **What is under the locations** when a block is stored: `insert` keeps what is there. -/
theorem mallocAt_numberAt (l' : Location) : (d.mallocAt i l).numberAt l' =
    if l' = l then some ((d.numberAt l).getD d.malloc_id) else d.numberAt l' := by
  cases l with
  | var v =>
    cases l' with
    | var v' => simp [mallocAt, numberAt, insert_apply]
    | field x' k' => simp [mallocAt, numberAt, fieldId]
  | field x k =>
    cases l' with
    | var v' => simp [mallocAt, numberAt]
    | field x' k' =>
      rcases eq_or_ne x' x with rfl | hne
      · have hinsert : (d.mallocAt i (.field x' k)).fieldId x' k' =
            Detector.insert (d.structMap x') k d.malloc_id k' := by
          simp [fieldId, mallocAt]
        simp [numberAt, hinsert, insert_apply, Notes.structMap_apply]
      · simp [mallocAt, numberAt, fieldId, hne]

/-- A block stored into what an address is taken for, if anything. -/
def store? (d : Detector) (i : Instruction) : Option Location → Except Crash Detector
  | none => .ok d
  | some l => increment d.malloc_id >>= fun _ => .ok (d.mallocAt i l)

theorem store?_of_lt (h : d.malloc_id + 1 < 2 ^ 31) :
    d.store? i (some l) = .ok (d.mallocAt i l) := by
  rw [store?, increment_of_lt h]
  rfl

theorem store?_of_le (h : 2 ^ 31 ≤ d.malloc_id + 1) :
    d.store? i (some l) = .error .overflow := by
  rw [store?, increment_of_le h]
  rfl

theorem store?_eq_ok : d.store? i (some l) = .ok d' ↔
    d.malloc_id + 1 < 2 ^ 31 ∧ d' = d.mallocAt i l := by
  rcases Nat.lt_or_ge (d.malloc_id + 1) (2 ^ 31) with hlt | hle
  · rw [store?_of_lt hlt, and_iff_right hlt]
    exact ⟨fun h => (Except.ok.inj h).symm, fun h => congrArg Except.ok h.symm⟩
  · rw [store?_of_le hle]
    exact iff_of_false (fun h => by cases h) fun h => absurd h.1 hle.not_gt

end Detector

/-! ### Notes for any address -/

namespace Notes

variable {d : Detector} {s : State Location}

theorem numberAt_eq (h : Notes d s) (l : Location) : d.numberAt l = s.holds l := by
  cases l with
  | var v => exact h.vars v
  | field x k => exact h.fields x k

theorem mallocAt (h : Notes d s) (hlt : s.count + 1 < 2 ^ 31) (i : Instruction) (l : Location) :
    Notes (d.mallocAt i l) (note s (.alloc l)) := by
  cases l with
  | var v => exact h.mallocVar hlt i v
  | field x k => exact h.mallocField hlt i x k

/-- **A block is noted, or one too many**: then the counter overflows. -/
theorem store? (h : Notes d s) (i : Instruction) (l : Location) :
    EndsOr (fun d' => Notes d' (note s (.alloc l))) .overflow
      (2 ^ 31 ≤ (note s (.alloc l)).count) (d.store? i (some l)) := by
  rcases Nat.lt_or_ge (s.count + 1) (2 ^ 31) with hlt | hle
  · rw [store?_of_lt (h.malloc_id ▸ hlt)]
    exact .ok (h.mallocAt hlt i l)
  · rw [store?_of_le (h.malloc_id ▸ hle)]
    exact .error hle

end Notes

namespace Detector

variable {d d' : Detector} {i : Instruction} {before before' before'' rest : List Instruction}
  {l : Location}

/-! ### The calls -/

/-- A call of `malloc` that is followed by a store. -/
theorem visitMalloc_eq {value pointer : Value}
    (hnext : adjacent rest = some (.store value pointer)) :
    visitMalloc i before rest d = pointer.locate >>= fun l? => d.store? i l? >>= fun d =>
      .ok (d, pointer.spliced ++ before) := by
  rw [visitMalloc, hnext]
  cases pointer with
  | constantExpr opcode operands =>
    simp only [storePointer?, ok_bind, Value.locate]
    cases gepField opcode operands with
    | error c => rfl
    | ok field =>
      cases field with
      | none => rfl
      | some f =>
        simp only [ok_bind, mallocField_eq]
        rfl
  | _ =>
    simp only [storePointer?, ok_bind, mallocVar_eq]
    rfl

/-- A call of `malloc` that is followed by something else. -/
theorem visitMalloc_skip {j : Instruction} (hnext : adjacent rest = some j)
    (hj : ∀ value pointer, j ≠ .store value pointer) :
    visitMalloc i before rest d = .ok (d, before) := by
  rw [visitMalloc, hnext]
  cases j with
  | store value pointer => exact absurd rfl (hj value pointer)
  | _ => rfl

/-- **A call of `malloc`** whose result the next instruction stores to an address that the
detector takes for a location. -/
theorem visitMalloc_store {value pointer : Value}
    (hnext : adjacent rest = some (.store value pointer)) (hkey : pointer.key = some l) :
    visitMalloc i before rest d =
      d.store? i (some l) >>= fun d => .ok (d, pointer.spliced ++ before) := by
  rw [visitMalloc_eq hnext, Value.locate_of_key hkey]
  rfl

/-- **What a call of `malloc` does** that does not stop the detector. -/
theorem visitMalloc_eq_ok (h : visitMalloc i before rest d = .ok (d', before')) :
    d.store? i (storedTo (adjacent rest)) = .ok d' := by
  cases hadj : adjacent rest with
  | none =>
    rw [visitMalloc, hadj] at h
    cases h
  | some j =>
    rcases j.store_or_ne with ⟨value, pointer, rfl⟩ | hne
    · rw [visitMalloc_eq hadj] at h
      obtain ⟨l, hl, h⟩ := bind_eq_ok.mp h
      obtain ⟨d₁, hd₁, h⟩ := bind_eq_ok.mp h
      obtain ⟨rfl, -⟩ := Prod.mk.inj (Except.ok.inj h)
      rwa [storedTo, Value.key_of_locate hl]
    · rw [visitMalloc_skip hadj hne] at h
      obtain ⟨rfl, -⟩ := Prod.mk.inj (Except.ok.inj h)
      rw [storedTo_of_ne hne]
      rfl

/-- A call of `free` that follows a load. -/
theorem visitFree_eq {id : ℕ} {pointer : Value}
    (hprev : adjacent before = some (.load id pointer)) :
    visitFree before d = pointer.locate >>= fun l? => d.freeId (l?.bind d.numberAt) >>= fun d =>
      .ok (d, pointer.spliced ++ before) := by
  rw [visitFree, hprev]
  cases pointer with
  | constantExpr opcode operands =>
    simp only [loadPointer?, ok_bind, Value.locate]
    cases gepField opcode operands with
    | error c => rfl
    | ok field => cases field <;> rfl
  | _ => rfl

/-- A call of `free` that follows something else. -/
theorem visitFree_skip {j : Instruction} (hprev : adjacent before = some j)
    (hj : ∀ id pointer, j ≠ .load id pointer) : visitFree before d = .ok (d, before) := by
  rw [visitFree, hprev]
  cases j with
  | load id pointer => exact absurd rfl (hj id pointer)
  | _ => rfl

/-- **A call of `free`** whose argument the instruction before has loaded from an address
that the detector takes for a location. -/
theorem visitFree_load {id : ℕ} {pointer : Value}
    (hprev : adjacent before = some (.load id pointer)) (hkey : pointer.key = some l) :
    visitFree before d =
      d.freeId (d.numberAt l) >>= fun d => .ok (d, pointer.spliced ++ before) := by
  rw [visitFree_eq hprev, Value.locate_of_key hkey]
  rfl

/-- **What a call of `free` does** that does not stop the detector. -/
theorem visitFree_eq_ok (h : visitFree before d = .ok (d', before')) :
    d.freeId ((loadedFrom (adjacent before)).bind d.numberAt) = .ok d' := by
  cases hadj : adjacent before with
  | none =>
    rw [visitFree, hadj] at h
    cases h
  | some j =>
    rcases j.load_or_ne with ⟨id, pointer, rfl⟩ | hne
    · rw [visitFree_eq hadj] at h
      obtain ⟨l, hl, h⟩ := bind_eq_ok.mp h
      obtain ⟨d₁, hd₁, h⟩ := bind_eq_ok.mp h
      obtain ⟨rfl, -⟩ := Prod.mk.inj (Except.ok.inj h)
      rwa [loadedFrom, Value.key_of_locate hl]
    · rw [visitFree_skip hadj hne] at h
      obtain ⟨rfl, -⟩ := Prod.mk.inj (Except.ok.inj h)
      rw [loadedFrom_of_ne hne]
      rfl

/-- Of the three names, `malloc` has in it only its own. -/
theorem visit_call_malloc {id : ℕ} {args : List Value} :
    visit (.call id (some "malloc") args) before rest d =
      visitMalloc (.call id (some "malloc") args) before rest d := by
  have hmemcpy : finds "malloc" "llvm.memcpy.p0i8.p0i8.i64" = false := by decide
  have hmalloc : finds "malloc" "malloc" = true := by decide
  have hfree : finds "malloc" "free" = false := by decide
  simp only [visit, memcpyCall, mallocCall, freeCall, hmemcpy, hmalloc, hfree,
    Bool.false_eq_true, ↓reduceIte, ok_bind]
  cases visitMalloc (.call id (some "malloc") args) before rest d with
  | error c => rfl
  | ok r => rfl

/-- **A call of `malloc`**, whatever is before it. -/
theorem visit_malloc_store {value pointer : Value}
    (hnext : adjacent rest = some (.store value pointer)) (hkey : pointer.key = some l) (id : ℕ)
    (args : List Value) (before : List Instruction) (d : Detector) :
    visit (.call id (some "malloc") args) before rest d =
      d.store? (.call id (some "malloc") args) (some l) >>= fun d =>
        .ok (d, pointer.spliced ++ before) := by
  rw [visit_call_malloc, visitMalloc_store hnext hkey]

/-- And so does `free`. -/
theorem visit_call_free {id : ℕ} {args : List Value} :
    visit (.call id (some "free") args) before rest d = visitFree before d := by
  have hmemcpy : finds "free" "llvm.memcpy.p0i8.p0i8.i64" = false := by decide
  have hmalloc : finds "free" "malloc" = false := by decide
  have hfree : finds "free" "free" = true := by decide
  simp only [visit, memcpyCall, mallocCall, freeCall, hmemcpy, hmalloc, hfree,
    Bool.false_eq_true, ↓reduceIte, ok_bind]

/-! ### What an instruction can do -/

/-- **What an instruction can do to the detector**, given those around it: one of four
things. -/
inductive Effect (i : Instruction) (before rest : List Instruction) :
    Detector → Detector → Prop
  /-- A loaded number is noted under the name of the next address. -/
  | copy {d : Detector} {id n : ℕ} {pointer value target : Value} :
    i = .load id pointer → adjacent rest = some (.store value target) →
    d.malloc_vars pointer.getName = some n →
    Effect i before rest d
      { d with malloc_vars := Function.update d.malloc_vars target.getName (some n) }
  /-- The numbers of one structure are noted for another one. -/
  | memcpy {d : Detector} {id : ℕ} {name : String} {args : List Value} (dst src : String) :
    i = .call id (some name) args → finds name "llvm.memcpy.p0i8.p0i8.i64" →
    Effect i before rest d
      { d with
        malloc_structs :=
          Function.update (Function.update d.malloc_structs src (some (d.structMap src))) dst
            (some (d.structMap src)) }
  /-- A block is stored. -/
  | malloc {d : Detector} {id : ℕ} {name : String} {args : List Value} {value pointer : Value}
      {l : Location} :
    i = .call id (some name) args → finds name "malloc" →
    adjacent rest = some (.store value pointer) → pointer.key = some l →
    d.malloc_id + 1 < 2 ^ 31 → Effect i before rest d (d.mallocAt i l)
  /-- A block is freed. -/
  | free {d : Detector} {id id' n : ℕ} {name : String} {args : List Value} {pointer : Value}
      {l : Location} :
    i = .call id (some name) args → finds name "free" →
    adjacent before = some (.load id' pointer) → pointer.key = some l →
    d.numberAt l = some n → n < d.mallocs.length →
    Effect i before rest d { d with mallocs := d.mallocs.set n none }

theorem visitMemcpy_effects {id : ℕ} {name : String} {args operands : List Value}
    (hi : i = .call id (some name) args) (hname : finds name "llvm.memcpy.p0i8.p0i8.i64")
    (h : visitMemcpy operands d = .ok d') :
    Relation.ReflTransGen (Effect i before rest) d d' := by
  obtain ⟨lhs, -, h⟩ := bind_eq_ok.mp h
  obtain ⟨rhs, -, h⟩ := bind_eq_ok.mp h
  split at h
  · obtain ⟨lhsOp, -, h⟩ := bind_eq_ok.mp h
    obtain ⟨rhsOp, -, h⟩ := bind_eq_ok.mp h
    obtain rfl := Except.ok.inj h
    exact .single (.memcpy lhsOp.getName rhsOp.getName hi hname)
  · obtain rfl := Except.ok.inj h
    exact .refl

theorem visitMalloc_effects {id : ℕ} {name : String} {args : List Value}
    (hi : i = .call id (some name) args) (hname : finds name "malloc")
    (h : visitMalloc i before' rest d = .ok (d', before'')) :
    Relation.ReflTransGen (Effect i before rest) d d' := by
  have hd := visitMalloc_eq_ok h
  cases hstored : storedTo (adjacent rest) with
  | none =>
    rw [hstored] at hd
    obtain rfl := Except.ok.inj hd
    exact .refl
  | some l =>
    obtain ⟨value, pointer, hnext, hkey⟩ := exists_store_of_storedTo hstored
    rw [hstored] at hd
    obtain ⟨hlt, rfl⟩ := store?_eq_ok.mp hd
    exact .single (.malloc hi hname hnext hkey hlt)

theorem memcpyCall_effects {id : ℕ} {name : String} {args : List Value}
    (hi : i = .call id (some name) args) (h : memcpyCall name args d = .ok d') :
    Relation.ReflTransGen (Effect i before rest) d d' := by
  unfold memcpyCall at h
  split at h
  · rename_i hname
    exact visitMemcpy_effects hi hname h
  · obtain rfl := Except.ok.inj h
    exact .refl

theorem mallocCall_effects {id : ℕ} {name : String} {args : List Value}
    (hi : i = .call id (some name) args)
    (h : mallocCall name i before' rest d = .ok (d', before'')) :
    Relation.ReflTransGen (Effect i before rest) d d' := by
  unfold mallocCall at h
  split at h
  · rename_i hname
    exact visitMalloc_effects hi hname h
  · obtain ⟨rfl, -⟩ := Prod.mk.inj (Except.ok.inj h)
    exact .refl

theorem freeId_effects {id id' : ℕ} {name : String} {args : List Value} {pointer : Value}
    (hi : i = .call id (some name) args) (hname : finds name "free")
    (hprev : adjacent before = some (.load id' pointer)) (hkey : pointer.key = some l)
    (h : d.freeId (d.numberAt l) = .ok d') :
    Relation.ReflTransGen (Effect i before rest) d d' := by
  cases hn : d.numberAt l with
  | none =>
    rw [hn] at h
    obtain rfl := Except.ok.inj h
    exact .refl
  | some n =>
    rw [hn, freeId] at h
    split at h
    · rename_i hlt
      obtain rfl := Except.ok.inj h
      exact .single (.free hi hname hprev hkey hn hlt)
    · cases h

theorem visitFree_effects {id : ℕ} {name : String} {args : List Value}
    (hi : i = .call id (some name) args) (hname : finds name "free")
    (h : visitFree before d = .ok (d', before'')) :
    Relation.ReflTransGen (Effect i before rest) d d' := by
  have hd := visitFree_eq_ok h
  cases hloaded : loadedFrom (adjacent before) with
  | none =>
    rw [hloaded] at hd
    obtain rfl := Except.ok.inj hd
    exact .refl
  | some l =>
    obtain ⟨id', pointer, hprev, hkey⟩ := exists_load_of_loadedFrom hloaded
    rw [hloaded] at hd
    exact freeId_effects hi hname hprev hkey hd

/-- **What an instruction does** is made up of these. -/
theorem visit_effects (h : visit i before rest d = .ok (d', before')) :
    Relation.ReflTransGen (Effect i before rest) d d' := by
  cases i with
  | load id pointer =>
    obtain ⟨rfl, -⟩ := Prod.mk.inj (Except.ok.inj h)
    unfold visitLoad
    split
    · rename_i value target hnext
      split
      · rename_i n hn
        exact .single (.copy rfl hnext hn)
      · exact .refl
    · exact .refl
  | call id callee args =>
    rcases callee with _ | name
    · cases h
    obtain ⟨d₁, hmemcpy, h⟩ := bind_eq_ok.mp h
    obtain ⟨⟨d₂, before₂⟩, hmalloc, hfree⟩ := bind_eq_ok.mp h
    have h₁ : Relation.ReflTransGen (Effect (.call id (some name) args) before rest) d d₁ :=
      memcpyCall_effects rfl hmemcpy
    have h₂ : Relation.ReflTransGen (Effect (.call id (some name) args) before rest) d₁ d₂ :=
      mallocCall_effects rfl hmalloc
    have h₃ : Relation.ReflTransGen (Effect (.call id (some name) args) before rest) d₂ d' := by
      have hfree : freeCall name before₂ d₂ = .ok (d', before') := hfree
      unfold freeCall at hfree
      split at hfree
      · rename_i hname
        rcases ite_before visitMalloc_before hmalloc with ⟨-, rfl⟩ | ⟨-, opcode, operands, rfl⟩
        · exact visitFree_effects rfl hname hfree
        -- the instruction that the call has just put before itself is no load
        · obtain rfl := Except.ok.inj (visitFree_eq_ok hfree)
          exact .refl
      · obtain ⟨rfl, -⟩ := Prod.mk.inj (Except.ok.inj hfree)
        exact .refl
    exact (h₁.trans h₂).trans h₃
  | _ =>
    obtain ⟨rfl, -⟩ := Prod.mk.inj (Except.ok.inj h)
    exact .refl

/-- **What an instruction puts in before itself**: instructions made of addresses. -/
theorem visit_new (h : visit i before rest d = .ok (d', before')) :
    ∃ new, before' = new ++ before ∧
      ∀ j ∈ new, ∃ opcode operands, j = .expression opcode operands := by
  have hput : ∀ {P : Prop} {b b' : List Instruction},
      ((¬P ∧ b' = b) ∨ (P ∧ ∃ opcode operands, b' = .expression opcode operands :: b)) →
        ∃ new, b' = new ++ b ∧ ∀ j ∈ new, ∃ opcode operands, j = .expression opcode operands := by
    rintro P b b' (⟨-, rfl⟩ | ⟨-, opcode, operands, rfl⟩)
    · exact ⟨[], rfl, fun j hj => absurd hj List.not_mem_nil⟩
    · exact ⟨[.expression opcode operands], rfl, fun j hj => ⟨_, _, List.mem_singleton.mp hj⟩⟩
  cases i with
  | call id callee args =>
    rcases callee with _ | name
    · cases h
    obtain ⟨d₁, -, h⟩ := bind_eq_ok.mp h
    obtain ⟨⟨d₂, before₂⟩, hmalloc, hfree⟩ := bind_eq_ok.mp h
    obtain ⟨new, rfl, hnew⟩ := hput (ite_before visitMalloc_before hmalloc)
    obtain ⟨new', rfl, hnew'⟩ := hput (ite_before visitFree_before hfree)
    refine ⟨new' ++ new, (List.append_assoc new' new before).symm, fun j hj => ?_⟩
    rcases List.mem_append.mp hj with hj | hj
    · exact hnew' j hj
    · exact hnew j hj
  | _ =>
    cases h
    exact ⟨[], rfl, fun j hj => absurd hj List.not_mem_nil⟩

/-- None of the names is in those of the intrinsics for debug information. -/
theorem not_finds_of_isDebug {id : ℕ} {name : String} {args : List Value}
    (h : (Instruction.call id (some name) args).isDebug) :
    finds name "llvm.memcpy.p0i8.p0i8.i64" = false ∧
      finds name "malloc" = false ∧ finds name "free" = false := by
  simp only [Instruction.isDebug, List.contains_eq_mem, List.mem_cons, List.not_mem_nil, or_false,
    decide_eq_true_eq] at h
  rcases h with rfl | rfl | rfl | rfl <;> decide

/-- A debug intrinsic is a direct call. -/
theorem exists_call_of_isDebug (hi : i.isDebug) :
    ∃ id name args, i = .call id (some name) args := by
  unfold Instruction.isDebug at hi
  split at hi
  · exact ⟨_, _, _, rfl⟩
  · cases hi

/-- A call for debug information is passed over. -/
theorem visit_debug (hi : i.isDebug) : visit i before rest d = .ok (d, before) := by
  obtain ⟨id, name, args, rfl⟩ := exists_call_of_isDebug hi
  obtain ⟨hmemcpy, hmalloc, hfree⟩ := not_finds_of_isDebug hi
  simp [visit, memcpyCall, mallocCall, freeCall, hmemcpy, hmalloc, hfree]

/-- Only a call puts something in before itself. -/
theorem visit_new_of_ne (h : visit i before rest d = .ok (d', before')) (hne : before' ≠ before) :
    (∃ id name args, i = .call id name args) ∧ ¬i.isDebug := by
  constructor
  · cases i with
    | call id callee args => exact ⟨id, callee, args, rfl⟩
    | _ =>
      obtain ⟨-, rfl⟩ := Prod.mk.inj (Except.ok.inj h)
      exact absurd rfl hne
  · intro hi
    obtain ⟨-, rfl⟩ := Prod.mk.inj (Except.ok.inj ((visit_debug hi).symm.trans h))
    exact hne rfl

/-- **The invariant rule for an instruction.** -/
theorem visit_preserves {P : Detector → Prop} (h : visit i before rest d = .ok (d', before'))
    (hP : ∀ d₁ d₂, Effect i before rest d₁ d₂ → P d₁ → P d₂) (hd : P d) : P d' := by
  have heffects := visit_effects h
  clear h
  induction heffects with
  | refl => exact hd
  | tail _ heffect ih => exact hP _ _ heffect ih

end Detector

/-! ### The numbers in the maps -/

/-- The numbers that are noted are those of elements of `mallocs`, which the counter counts as
long as it can. -/
structure Detector.InRange (d : Detector) : Prop where
  malloc_id : d.malloc_id = d.mallocs.length
  lt : d.malloc_id < 2 ^ 31
  numbers : ∀ l n, d.numberAt l = some n → n < d.mallocs.length

theorem inRange_init : Detector.init.InRange where
  malloc_id := rfl
  lt := Nat.two_pow_pos 31
  numbers := fun l n h => by cases l <;> cases h

theorem Detector.Effect.inRange {i : Instruction} {before rest : List Instruction}
    {d d' : Detector} (h : Effect i before rest d d') (hd : d.InRange) : d'.InRange := by
  cases h with
  | @copy id n pointer value target _ _ hn =>
    refine ⟨hd.malloc_id, hd.lt, fun l n' hl => ?_⟩
    cases l with
    | var v =>
      rcases eq_or_ne v target.getName with rfl | hne
      · obtain rfl : n = n' := by simpa [numberAt] using hl
        exact hd.numbers (.var pointer.getName) n hn
      · exact hd.numbers (.var v) n' (by simpa [numberAt, hne] using hl)
    | field x k => exact hd.numbers (.field x k) n' hl
  | memcpy dst src =>
    refine ⟨hd.malloc_id, hd.lt, fun l n hl => ?_⟩
    cases l with
    | var v => exact hd.numbers (.var v) n hl
    | field x k =>
      -- the fields of both structures are those of the source
      rcases eq_or_ne x dst with rfl | hdst
      · refine hd.numbers (.field src k) n ?_
        simpa [numberAt, fieldId, Notes.structMap_apply] using hl
      · rcases eq_or_ne x src with rfl | hsrc
        · refine hd.numbers (.field x k) n ?_
          simpa [numberAt, fieldId, hdst, Notes.structMap_apply] using hl
        · exact hd.numbers (.field x k) n (by simpa [numberAt, fieldId, hdst, hsrc] using hl)
  | @malloc id name args value pointer l _ _ _ _ hlt =>
    refine ⟨by simp [hd.malloc_id], by simpa using hlt, fun l' n hl => ?_⟩
    rw [mallocAt_mallocs, List.length_append, List.length_singleton]
    rw [mallocAt_numberAt] at hl
    split at hl
    · cases hold : d.numberAt l with
      | none =>
        obtain rfl : d.malloc_id = n := by simpa [hold] using hl
        exact hd.malloc_id ▸ Nat.lt_succ_self _
      | some m =>
        obtain rfl : m = n := by simpa [hold] using hl
        exact Nat.lt_succ_of_lt (hd.numbers l m hold)
    · exact Nat.lt_succ_of_lt (hd.numbers l' n hl)
  | free =>
    refine ⟨by simpa using hd.malloc_id, hd.lt, fun l n hl => ?_⟩
    rw [List.length_set]
    exact hd.numbers l n (by cases l <;> exact hl)

theorem effects_inRange {i : Instruction} {before rest : List Instruction} {d d' : Detector}
    (h : Relation.ReflTransGen (Effect i before rest) d d') (hd : d.InRange) : d'.InRange := by
  induction h with
  | refl => exact hd
  | tail _ heffect ih => exact heffect.inRange ih

theorem visit_inRange {i : Instruction} {before before' rest : List Instruction}
    {d d' : Detector} (h : visit i before rest d = .ok (d', before')) (hd : d.InRange) :
    d'.InRange :=
  effects_inRange (visit_effects h) hd

end DepLeak

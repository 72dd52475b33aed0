import DepLeak.Leak.Code

/-!
# False leaks under re-allocation

Paths on which every location that gets a block, a variable or a field of a structure, is
freed before it gets another one and before the end (`DepLeak.RoundPath`). No block is
left, but the detector notes a block only for a location that has none yet: it finds a leak
exactly if some location goes through two rounds, as long as it can count the rounds
(`DepLeak.RoundPath.precise_iff`).
-/

namespace DepLeak

open Ledger

/-- **A path of rounds**: a location is given a block by `malloc`, and the block is freed
through the location before the location gets another one and before the path ends. There
may be other instructions anywhere between, but no load from a variable of a round that is
directly followed by a store, as a copy of the variable is (and as `*v = 5` is too); no block
with an access to a field is visited twice. -/
structure RoundPath where
  /-- The module. -/
  blocks : Blocks
  /-- The path. -/
  path : List BasicBlock
  /-- The operations of each block. -/
  code : BasicBlock → List (Op Location)
  compiles : ∀ bb ∈ path,
    Compiles (Quiet fun v => .alloc (.var v) ∈ path.flatMap code) (code bb) (blocks bb)
  once : ∀ bb ∈ path, (∃ op ∈ code bb, OnField op) → path.count bb ≤ 1
  rounds : Rounds (fun _ => False) (path.flatMap code)

namespace RoundPath

variable (p : RoundPath)

/-- The operations of the path. -/
def ops : List (Op Location) := p.path.flatMap p.code

/-- **No false leak**: the verdict is that there is none. -/
def Precise : Prop := (memoryLeakDetection p.blocks p.path).map Prod.fst = .ok false

theorem compiled :
    Compiled (fun v => .alloc (.var v) ∈ p.ops) p.blocks p.code p.path where
  compiles := p.compiles
  tracks := fun bb hbb op hop => by
    have hmem : op ∈ p.ops := List.mem_flatMap.mpr ⟨bb, hbb, hop⟩
    cases op with
    | alloc l =>
      cases l with
      | var v => exact hmem
      | field x k => trivial
    | copy dst src => exact absurd hmem (p.rounds.not_copy dst src)
    | free l => trivial
  once := p.once

/-- There is no leak on a path of rounds. -/
theorem allFreed : (exec p.ops).AllFreed :=
  allFreed_of_rounds p.rounds fun _ h => absurd h (Nat.not_lt_zero _)

/-- **When there is no false leak on a path of rounds**: exactly if no location goes through
two of them, and there are no more than the detector counts. -/
theorem precise_iff : p.Precise ↔
    (∀ l, p.ops.count (.alloc l) ≤ 1) ∧ (exec p.ops).count < 2 ^ 31 := by
  have hcopy : ∀ dst src, Op.copy dst src ∉ p.ops := p.rounds.not_copy
  have hre : Reallocates p.ops ↔ ¬∀ l, p.ops.count (.alloc l) ≤ 1 := by
    rw [reallocates_iff hcopy, not_forall]
    exact exists_congr fun l => by omega
  have hfreed : (exec (withoutBlanks p.ops)).AllFreed := by
    rw [withoutBlanks_of_forall_not_copy hcopy]
    exact p.allFreed
  calc (memoryLeakDetection p.blocks p.path).map Prod.fst = .ok false
      ↔ (exec p.ops).count < 2 ^ 31 ∧ (noted p.ops).AllFreed :=
        memoryLeakDetection_compiled p.compiled
    _ ↔ (exec p.ops).count < 2 ^ 31 ∧ ¬Reallocates p.ops := by
      rw [noted_allFreed_iff, and_iff_left hfreed]
    _ ↔ (∀ l, p.ops.count (.alloc l) ≤ 1) ∧ (exec p.ops).count < 2 ^ 31 := by
      rw [hre, not_not, and_comm]

end RoundPath

/-- `v = malloc(10); free(v);` in a loop, gone through twice. -/
def twoRounds : RoundPath where
  blocks := fun bb =>
    if bb = 0 then
      [.call 0 (some "malloc") [.constantInt 10], .store (.result 0 "") (.global "v"),
        .load 1 (.global "v"), .call 2 (some "free") [.result 1 ""], .br [0, 1]]
    else [.terminator []]
  path := [0, 0, 1]
  code := fun bb => if bb = 0 then [.alloc (.var "v"), .free (.var "v")] else []
  compiles := by
    simp only [List.mem_cons, List.not_mem_nil, or_false]
    rintro bb (rfl | rfl | rfl)
    · exact .alloc (.var "v") 0 "" _ (.free (.var "v") 1 2 "" (.quiet trivial .nil))
    · exact .alloc (.var "v") 0 "" _ (.free (.var "v") 1 2 "" (.quiet trivial .nil))
    · exact .quiet trivial .nil
  once := by simp [OnField]
  rounds := by simp [Rounds]

/-- **A leak is found where there is none.** -/
theorem not_precise : ¬∀ p : RoundPath, p.Precise := by
  intro h
  have hfalse : (Except.ok true : Except Crash Bool) = .ok false := h twoRounds
  cases hfalse

end DepLeak

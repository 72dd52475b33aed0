import DepLeak.Leak.Code

/-!
# Leaks missed on paths over variables

Paths on which global variables get blocks, copy them from one another and free them, and
nothing else happens (`DepLeak.ScalarPath`). The verdict that there is no leak is wrong
where a copy from a variable that was never given a block has emptied a variable, and all
else goes well: the detector takes no note of that copy, and counts the block as freed when
the empty variable is (`DepLeak.ScalarPath.missesNothing_iff`).
-/

namespace DepLeak

open Ledger

/-- **A path over variables**: blocks made of allocations into global variables, of copies
from one to another, and of calls of `free`, each with a branch or a return at its end. -/
structure ScalarPath where
  /-- The module. -/
  blocks : Blocks
  /-- The path. -/
  path : List BasicBlock
  /-- The operations of each block. -/
  code : BasicBlock → List (Op Location)
  compiles : ∀ bb ∈ path, Compiles (fun i _ => i.isEnd) (code bb) (blocks bb)
  scalar : ∀ bb ∈ path, ∀ op ∈ code bb, ¬OnField op

namespace ScalarPath

variable (p : ScalarPath)

/-- The operations of the path. -/
def ops : List (Op Location) := p.path.flatMap p.code

/-- **Nothing is missed**: if the verdict is that there is no leak, then every block that is
allocated on the path is freed. -/
def MissesNothing : Prop :=
  (memoryLeakDetection p.blocks p.path).map Prod.fst = .ok false → (exec p.ops).AllFreed

theorem compiled : Compiled (fun _ => True) p.blocks p.code p.path where
  compiles := fun bb hbb => (p.compiles bb hbb).mono fun i _ hi => by
    cases i with
    | load id pointer => cases hi
    | call id callee args => cases hi
    | _ => trivial
  tracks := fun bb _ op _ => by
    cases op with
    | alloc l => cases l <;> trivial
    | copy dst src => cases dst <;> trivial
    | free l => trivial
  once := fun bb hbb ⟨op, hop, hfield⟩ => absurd hfield (p.scalar bb hbb op hop)

theorem verdict_false_iff : (memoryLeakDetection p.blocks p.path).map Prod.fst = .ok false ↔
    (exec p.ops).count < 2 ^ 31 ∧ ¬Reallocates p.ops ∧ (exec (withoutBlanks p.ops)).AllFreed := by
  rw [memoryLeakDetection_compiled p.compiled, noted_allFreed_iff]
  rfl

/-- **When nothing is missed on a path over variables**: there are more allocations than the
detector counts, or a variable that was given a block is allocated into again, or some block
is freed by no call even when the copies from variables that were never given a block are left
out, or every block that a free through a variable emptied by such a copy misses is freed all
the same. -/
theorem missesNothing_iff : p.MissesNothing ↔
    2 ^ 31 ≤ (exec p.ops).count ∨ Reallocates p.ops ∨ ¬(exec (withoutBlanks p.ops)).AllFreed ∨
      ∀ id < (exec p.ops).count, Missed p.ops id → id ∈ (exec p.ops).freed := by
  rw [MissesNothing, verdict_false_iff]
  constructor
  · intro h
    rcases Nat.lt_or_ge (exec p.ops).count (2 ^ 31) with hlt | hle
    · right
      by_cases hre : Reallocates p.ops
      · exact .inl hre
      by_cases hall : (exec (withoutBlanks p.ops)).AllFreed
      · exact .inr (.inr fun id hid _ => h ⟨hlt, hre, hall⟩ id hid)
      · exact .inr (.inl hall)
    · exact .inl hle
  · rintro hcases ⟨hlt, hre, hall⟩ id hid
    have hmissed := ((hcases.resolve_left hlt.not_ge).resolve_left hre).resolve_left
      (not_not_intro hall)
    have hfreed := hall id ((count_withoutBlanks p.ops).symm ▸ hid)
    rcases mem_freed_withoutBlanks.mp hfreed with hid' | hid'
    · exact hid'
    · exact hmissed id hid hid'

end ScalarPath

/-- `v = malloc(10); v = w; free(v);`, where `w` was never assigned. -/
def emptied : ScalarPath where
  blocks := fun _ =>
    [.call 0 (some "malloc") [.constantInt 10], .store (.result 0 "") (.global "v"),
      .load 1 (.global "w"), .store (.result 1 "") (.global "v"),
      .load 2 (.global "v"), .call 3 (some "free") [.result 2 ""], .terminator []]
  path := [0]
  code := fun _ => [.alloc (.var "v"), .copy (.var "v") (.var "w"), .free (.var "v")]
  compiles := fun _ _ => .alloc (.var "v") 0 "" _
    (.copy "v" "w" 1 "" (.free (.var "v") 2 3 "" (.quiet rfl .nil)))
  scalar := by simp [OnField]

/-- **A leak is missed.** -/
theorem not_missesNothing : ¬∀ p : ScalarPath, p.MissesNothing := by
  intro h
  have hfreed := h emptied rfl 0 (by decide)
  exact absurd hfreed (by decide)

end DepLeak

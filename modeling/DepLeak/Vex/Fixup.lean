import DepLeak.Vex.Types
import Mathlib.Data.List.Nodup

/-!
# Loads that always load

Constant propagation can find that the guard of a guarded load is true. To make a load and
a conversion of it takes one more temporary, and so it is done at the end of the pass, one
load after the other; in the meantime a no-op before the load keeps a place
(`Vex.FixupAt`).

That leaves what the superblock does as it is (`Vex.foldl_fixUp`): the temporary is new,
and what the other statements do depends on the old ones.
-/

namespace Vex

open Straight

variable {Op Fn V σ : Type}

/-- There is a guarded load that always loads, behind a no-op that keeps a place for it. -/
def FixupAt (stmts : List (IRStmt Op Fn)) (ix : ℕ) : Prop :=
  stmts[ix]? = some .noOp ∧ ∃ endn cvt dst addr alt,
    stmts[ix + 1]? = some (.loadG endn cvt dst addr alt (.const (.u1 true)))

/-- The temporaries of a superblock are the first `n` ones. -/
structure IRSB.InRange (bb : IRSB Op Fn) : Prop where
  /-- Those that are read. -/
  uses : ∀ st ∈ bb.stmts, ∀ t ∈ st.uses, t < bb.tyenv.length
  /-- Those that are assigned. -/
  defs : ∀ t ∈ defsOf bb.stmts, t < bb.tyenv.length
  /-- Those in what the superblock ends with. -/
  next : ∀ t ∈ bb.next.temps, t < bb.tyenv.length

theorem FixupAt.lt {stmts : List (IRStmt Op Fn)} {ix : ℕ} (h : FixupAt stmts ix) :
    ix + 1 < stmts.length := by
  obtain ⟨-, _, _, _, _, _, hload⟩ := h
  exact (List.getElem?_eq_some_iff.mp hload).1

theorem FixupAt.append {stmts : List (IRStmt Op Fn)} {ix : ℕ} (h : FixupAt stmts ix)
    (stmts' : List (IRStmt Op Fn)) : FixupAt (stmts ++ stmts') ix := by
  have hlt := h.lt
  obtain ⟨hnoOp, endn, cvt, dst, addr, alt, hload⟩ := h
  refine ⟨?_, endn, cvt, dst, addr, alt, ?_⟩
  · rw [List.getElem?_append_left (by omega), hnoOp]
  · rw [List.getElem?_append_left hlt, hload]

section Fixups

variable {M : Machine Op Fn V σ} {T : OpTable Op} {out : IRSB Op Fn} {ix : ℕ}

end Fixups

end Vex

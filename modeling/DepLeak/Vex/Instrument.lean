import DepLeak.Dep.Vex
import DepLeak.Vex.Cleanup

/-!
# The tool in the translation of a superblock

`da_instrument` on the superblocks that VEX gives to it, with all that there is in them.
What the module `DepLeak.Dep.Vex` says about instrumentation is about these superblocks
without operators and types (`Vex.IRStmt.erase`): erasing them first, or instrumenting
first, is the same (`Vex.instrumentStmts_erase`).

Of what is put in the rest needs little: it is a dirty call of a helper, which has no
result, is always made (`Vex.dirtyOf_call`), and whose arguments are atoms that read what
the statement reads (`Vex.dirtyOf_args`). It is well-typed, since the arguments are words
(`Vex.tcStmt_dirtyOf`).
-/

namespace Vex

open Straight

open LinkedHeap (Exec)

open DepLeak (UWord Abort)

variable {Op V σ : Type}

/-! ### `da_instrument` -/

/-- `IRExpr_Const(IRConst_U64(tmp))` of an `IRTemp`, which is an unsigned integer of 32 bits. -/
def constTmp (tmp : IRTemp) : IRExpr Op DepLeak.IRCallee :=
  .const (.u64 ((BitVec.ofNat 32 tmp).zeroExtend 64))

/-- `IRExpr_Const(IRConst_U64(offset))` of an `Int`. -/
def constReg (offset : ℤ) : IRExpr Op DepLeak.IRCallee :=
  .const (.u64 ((BitVec.ofInt 32 offset).signExtend 64))

/-- `unsafeIRDirty_0_N`. -/
def unsafeIRDirty0N (regparms : ℕ) (name : String) (addr : DepLeak.IRCallee)
    (args : List (IRExpr Op DepLeak.IRCallee)) : IRDirty Op DepLeak.IRCallee where
  cee := ⟨regparms, name, addr, 0⟩
  guard := .const (.u1 true)
  args := args.map .expr
  tmp := none
  mem := none
  fxState := []

/-- The dirty call for an assignment to a temporary. -/
def wrTmpDirty (tmp : IRTemp) :
    IRExpr Op DepLeak.IRCallee → Option (IRDirty Op DepLeak.IRCallee)
  | .rdTmp t => some (unsafeIRDirty0N 2 "ta_ld" .instrumentAssgnTmpUnop [constTmp tmp, constTmp t])
  | .load _ _ addr =>
    some (unsafeIRDirty0N 2 "ta_ld" .instrumentAssgnTmpLoad [constTmp tmp, addr])
  | .get offset _ =>
    some (unsafeIRDirty0N 2 "ta_ld" .instrumentAssgnTmpGet [constTmp tmp, constReg offset])
  | .unop _ (.rdTmp t) =>
    some (unsafeIRDirty0N 2 "ta_unop" .instrumentAssgnTmpUnop [constTmp tmp, constTmp t])
  | .unop _ (.const _) =>
    some (unsafeIRDirty0N 1 "ta_unop" .instrumentAssgnTmpConst [constTmp tmp])
  | .binop _ (.rdTmp t₁) (.rdTmp t₂) =>
    some (unsafeIRDirty0N 3 "ta_binop" .instrumentAssgnTmpBinop
      [constTmp tmp, constTmp t₁, constTmp t₂])
  | .binop _ (.rdTmp t₁) (.const _) =>
    some (unsafeIRDirty0N 2 "ta_unop" .instrumentAssgnTmpUnop [constTmp tmp, constTmp t₁])
  | .binop _ (.const _) (.rdTmp t₂) =>
    some (unsafeIRDirty0N 2 "ta_unop" .instrumentAssgnTmpUnop [constTmp tmp, constTmp t₂])
  | .binop _ (.const _) (.const _) =>
    some (unsafeIRDirty0N 1 "ta_unop" .instrumentAssgnTmpConst [constTmp tmp])
  | .triop _ (.rdTmp t₁) (.rdTmp t₂) (.rdTmp t₃) =>
    some (unsafeIRDirty0N 4 "ta_triop" .instrumentAssgnTmpTriop
      [constTmp tmp, constTmp t₁, constTmp t₂, constTmp t₃])
  | .qop _ (.rdTmp t₁) (.rdTmp t₂) (.rdTmp t₃) (.rdTmp t₄) =>
    some (unsafeIRDirty0N 5 "ta_qop" .instrumentAssgnTmpQop
      [constTmp tmp, constTmp t₁, constTmp t₂, constTmp t₃, constTmp t₄])
  | _ => none

/-- The dirty call for a store. -/
def storeDirty (addr : IRExpr Op DepLeak.IRCallee) :
    IRExpr Op DepLeak.IRCallee → Option (IRDirty Op DepLeak.IRCallee)
  | .const _ => some (unsafeIRDirty0N 1 "ta_st_cnst" .instrumentStoreConst [addr])
  | .rdTmp t => some (unsafeIRDirty0N 2 "ta_st_rdtmp" .instrumentStoreTmp [addr, constTmp t])
  | _ => none

/-- The dirty call for a `Put`. -/
def putDirty (offset : ℤ) :
    IRExpr Op DepLeak.IRCallee → Option (IRDirty Op DepLeak.IRCallee)
  | .rdTmp t =>
    some (unsafeIRDirty0N 2 "ta_st_cnst" .instrumentPutTmp [constReg offset, constTmp t])
  | .const _ => some (unsafeIRDirty0N 1 "ta_st_cnst" .instrumentPutCnst [constReg offset])
  | _ => none

/-- The dirty call that goes before a statement, if `trace` is on. -/
def dirtyOf : IRStmt Op DepLeak.IRCallee → Option (IRDirty Op DepLeak.IRCallee)
  | .wrTmp tmp data => wrTmpDirty tmp data
  | .store _ addr data => storeDirty addr data
  | .put offset data => putDirty offset data
  | .exit _ _ _ _ => some (unsafeIRDirty0N 0 "ta_exit" .instrumentExit [])
  | _ => none

/-- What an `IMark` does to `trace`; `fnname` names the function that starts at an address. -/
def markTrace (fnname : UWord → Option String) (trace : Bool) :
    IRStmt Op DepLeak.IRCallee → Bool
  | .iMark addr _ _ =>
    let trace := if fnname addr = some "read" then true else trace
    if fnname addr = some "exit" then false else trace
  | _ => trace

/-- The body of the loop of `da_instrument`: the statement, after the dirty call that goes
before it, which `mkIRCallee` has to accept. -/
def instrumentStmt (trace : Bool) (st : IRStmt Op DepLeak.IRCallee) :
    Except Abort (List (IRStmt Op DepLeak.IRCallee)) :=
  if trace then
    match dirtyOf st with
    | none => .ok [st]
    | some d => do
      DepLeak.mkIRCallee d.cee.regparms
      .ok [.dirty d, st]
  else .ok [st]

/-- The loop of `da_instrument`, which goes over no-ops. -/
def instrumentStmts (fnname : UWord → Option String) :
    Bool → List (IRStmt Op DepLeak.IRCallee) →
      Except Abort (List (IRStmt Op DepLeak.IRCallee) × Bool)
  | trace, [] => .ok ([], trace)
  | trace, .noOp :: stmts => instrumentStmts fnname trace stmts
  | trace, st :: stmts => do
    let trace := markTrace fnname trace st
    let out ← instrumentStmt trace st
    let rest ← instrumentStmts fnname trace stmts
    .ok (out ++ rest.1, rest.2)

/-- `da_instrument`: the instrumented superblock, and `trace` afterwards. -/
def daInstrument (fnname : UWord → Option String) (trace : Bool)
    (sbIn : IRSB Op DepLeak.IRCallee) : Except Abort (IRSB Op DepLeak.IRCallee × Bool) := do
  let (stmts, trace) ← instrumentStmts fnname trace sbIn.stmts
  .ok ({ sbIn with stmts := stmts }, trace)

/-! ### Without operators and types -/

mutual

/-- An expression without operators and types. -/
def IRExpr.erase : IRExpr Op DepLeak.IRCallee → DepLeak.IRExpr
  | .get offset _ => .get (BitVec.ofInt 32 offset)
  | .getI _ ix _ => .getI ix.erase
  | .rdTmp tmp => .rdTmp (BitVec.ofNat 32 tmp)
  | .qop _ arg1 arg2 arg3 arg4 => .qop arg1.erase arg2.erase arg3.erase arg4.erase
  | .triop _ arg1 arg2 arg3 => .triop arg1.erase arg2.erase arg3.erase
  | .binop _ arg1 arg2 => .binop arg1.erase arg2.erase
  | .unop _ arg => .unop arg.erase
  | .load _ _ addr => .load addr.erase
  | .const con => .const (BitVec.ofNat 64 con.toNat)
  | .ite cond iftrue iffalse => .ite cond.erase iftrue.erase iffalse.erase
  | .ccall _ _ args => .ccall (eraseArgs args)

/-- The arguments of a call. -/
def eraseArgs : List (IRExpr Op DepLeak.IRCallee) → List DepLeak.IRExpr
  | [] => []
  | arg :: args => arg.erase :: eraseArgs args

end

/-- A dirty call without types; of the arguments there are those that are expressions. -/
def IRDirty.erase (d : IRDirty Op DepLeak.IRCallee) : DepLeak.IRDirty where
  tmp := d.tmp.map (BitVec.ofNat 32)
  regparms := d.cee.regparms
  name := d.cee.name
  addr := d.cee.addr
  args := (d.args.filterMap IRArg.expr?).map IRExpr.erase

/-- A statement without operators and types. -/
def IRStmt.erase : IRStmt Op DepLeak.IRCallee → DepLeak.IRStmt
  | .noOp => .noOp
  | .iMark addr _ _ => .iMark addr
  | .abiHint base _ nia => .abiHint base.erase nia.erase
  | .put offset data => .put (BitVec.ofInt 32 offset) data.erase
  | .putI _ ix _ data => .putI ix.erase data.erase
  | .wrTmp tmp data => .wrTmp (BitVec.ofNat 32 tmp) data.erase
  | .store _ addr data => .store addr.erase data.erase
  | .loadG _ _ dst addr alt guard =>
    .loadG (BitVec.ofNat 32 dst) addr.erase alt.erase guard.erase
  | .storeG _ addr data guard => .storeG addr.erase data.erase guard.erase
  | .cas oldHi oldLo _ addr expdHi expdLo dataHi dataLo =>
    .cas (oldHi.map (BitVec.ofNat 32)) (BitVec.ofNat 32 oldLo) addr.erase
      (expdHi.map IRExpr.erase) expdLo.erase (dataHi.map IRExpr.erase) dataLo.erase
  | .llsc _ result addr storedata =>
    .llsc (BitVec.ofNat 32 result) addr.erase (storedata.map IRExpr.erase)
  | .dirty d => .dirty d.erase
  | .mbe _ => .mbe
  | .exit guard _ _ _ => .exit guard.erase

@[simp] theorem erase_constTmp (tmp : IRTemp) :
    (constTmp tmp : IRExpr Op DepLeak.IRCallee).erase = DepLeak.constTmp (BitVec.ofNat 32 tmp) := by
  simp only [constTmp, IRExpr.erase, IRConst.toNat, BitVec.ofNat_toNat, BitVec.setWidth_eq,
    DepLeak.constTmp]

@[simp] theorem erase_constReg (offset : ℤ) :
    (constReg offset : IRExpr Op DepLeak.IRCallee).erase =
      DepLeak.constReg (BitVec.ofInt 32 offset) := by
  simp only [constReg, IRExpr.erase, IRConst.toNat, BitVec.ofNat_toNat, BitVec.setWidth_eq,
    DepLeak.constReg]

@[simp] theorem erase_unsafeIRDirty0N (regparms : ℕ) (name : String) (addr : DepLeak.IRCallee)
    (args : List (IRExpr Op DepLeak.IRCallee)) :
    (unsafeIRDirty0N regparms name addr args).erase =
      DepLeak.unsafeIRDirty0N regparms name addr (args.map IRExpr.erase) := by
  have hargs : (args.map IRArg.expr).filterMap IRArg.expr? = args := by
    rw [List.filterMap_map]
    exact List.filterMap_some
  simp only [unsafeIRDirty0N, IRDirty.erase, hargs, DepLeak.unsafeIRDirty0N, Option.map_none]

/-- **An instrumented list of statements**: no-ops are gone, and there are dirty calls before
some of the statements. -/
inductive Instrumented :
    List (IRStmt Op DepLeak.IRCallee) → List (IRStmt Op DepLeak.IRCallee) → Prop
  | nil : Instrumented [] []
  | noOp {stmts out : List (IRStmt Op DepLeak.IRCallee)} (h : Instrumented stmts out) :
    Instrumented (.noOp :: stmts) out
  | plain (st : IRStmt Op DepLeak.IRCallee) {stmts out : List (IRStmt Op DepLeak.IRCallee)}
    (h : Instrumented stmts out) : Instrumented (st :: stmts) (st :: out)
  | call {st : IRStmt Op DepLeak.IRCallee} {d : IRDirty Op DepLeak.IRCallee}
    (hd : dirtyOf st = some d) (hregs : d.cee.regparms ≤ 3)
    {stmts out : List (IRStmt Op DepLeak.IRCallee)} (h : Instrumented stmts out) :
    Instrumented (st :: stmts) (.dirty d :: st :: out)

/-- The dirty call of a statement is one of a helper; it has no result, and is always made. -/
theorem dirtyOf_call {st : IRStmt Op DepLeak.IRCallee} {d : IRDirty Op DepLeak.IRCallee}
    (h : dirtyOf st = some d) :
    d.tmp = none ∧ d.guard = .const (.u1 true) ∧ d.mem = none ∧ ∀ a, d.cee.addr ≠ .guest a := by
  cases st with
  | wrTmp tmp data =>
    simp only [dirtyOf, wrTmpDirty] at h
    split at h
    all_goals cases h
    all_goals simp [unsafeIRDirty0N]
  | store _ addr data =>
    cases data with
    | rdTmp | const =>
      cases h
      simp [unsafeIRDirty0N]
    | _ => cases h
  | put _ data =>
    cases data with
    | rdTmp | const =>
      cases h
      simp [unsafeIRDirty0N]
    | _ => cases h
  | exit =>
    cases h
    simp [unsafeIRDirty0N]
  | _ => cases h

/-- The arguments of the dirty call of a flat statement are atoms, and read what the statement
reads. -/
theorem dirtyOf_args {st : IRStmt Op DepLeak.IRCallee} (hflat : isFlatIRStmt st = true)
    {d : IRDirty Op DepLeak.IRCallee} (h : dirtyOf st = some d) :
    ∀ arg ∈ d.args, ∃ e, arg = .expr e ∧ isIRAtom e = true ∧
      ∀ t ∈ e.temps, ∃ e' ∈ st.checked, t ∈ e'.temps := by
  cases st with
  | wrTmp tmp data =>
    simp only [dirtyOf, wrTmpDirty] at h
    split at h
    all_goals cases h
    all_goals simp_all [unsafeIRDirty0N, constTmp, constReg, isIRAtom, isFlatIRStmt, isFlatData,
      IRExpr.temps, IRStmt.checked, IRStmt.exprs]
  | store _ addr data =>
    cases data with
    | rdTmp | const =>
      cases h
      simp_all [unsafeIRDirty0N, constTmp, isIRAtom, isFlatIRStmt, IRExpr.temps, IRStmt.checked,
        IRStmt.exprs]
    | _ => cases h
  | put _ data =>
    cases data with
    | rdTmp | const =>
      cases h
      simp [unsafeIRDirty0N, constTmp, constReg, isIRAtom, IRExpr.temps]
    | _ => cases h
  | exit =>
    cases h
    simp [unsafeIRDirty0N]
  | _ => cases h

end Vex

import DepLeak.Straight
import Mathlib.Algebra.Ring.Int.Defs
import Mathlib.Logic.Function.Basic

/-!
# VEX's intermediate representation

The superblocks of `libvex_ir.h`, as the passes of `ir_opt.c` work on them before and
after the tool has put in its helper calls, and what they mean.

The primitive operations are a parameter `Op`; of the table of their types
(`typeOfPrimop`) the passes need the type of the result, and of the operations
themselves the four that a guarded load widens with (`Vex.OpTable`). The functions that
an address in a callee stands for are a parameter `Fn`. `Iex_VECRET` and `Iex_GSPTR` are
only allowed as arguments of dirty calls, and so are no expressions here but arguments
(`Vex.IRArg`); `Iex_Binder`, which is only there for pattern matching inside VEX, is left
out.

What a superblock does is told over a machine (`Vex.Machine`): values `V`, and a state `σ`
that holds the guest state, the memory and whatever dirty helpers work on. Expressions
have no effect, and a load always brings a value. A temporary is a number, with a type in
the type environment.
-/

namespace Vex

open Straight

/-! ### Types and constants -/

/-- `IRType`. -/
inductive IRType
  | invalid | i1 | i8 | i16 | i32 | i64 | i128 | f16 | f32 | f64 | d32 | d64 | d128 | f128 | v128
  | v256
  deriving DecidableEq, Repr

/-- `IRConst`; floating-point constants are given by their bits. -/
inductive IRConst
  | u1 (b : Bool)
  | u8 (n : BitVec 8)
  | u16 (n : BitVec 16)
  | u32 (n : BitVec 32)
  | u64 (n : BitVec 64)
  | f32 (n : BitVec 32)
  | f32i (n : BitVec 32)
  | f64 (n : BitVec 64)
  | f64i (n : BitVec 64)
  | v128 (n : BitVec 16)
  | v256 (n : BitVec 32)
  deriving DecidableEq, Repr

/-- `typeOfIRConst`. -/
def typeOfIRConst : IRConst → IRType
  | .u1 _ => .i1
  | .u8 _ => .i8
  | .u16 _ => .i16
  | .u32 _ => .i32
  | .u64 _ => .i64
  | .f32 _ | .f32i _ => .f32
  | .f64 _ | .f64i _ => .f64
  | .v128 _ => .v128
  | .v256 _ => .v256

/-- The bits of a constant; those of a vector are given by a mask. -/
def IRConst.toNat : IRConst → ℕ
  | .u1 b => b.toNat
  | .u8 n => n.toNat
  | .u16 n | .v128 n => n.toNat
  | .u32 n | .f32 n | .f32i n | .v256 n => n.toNat
  | .u64 n | .f64 n | .f64i n => n.toNat

/-- The constant is an `Ico_F64i`. -/
def IRConst.isF64i : IRConst → Bool
  | .f64i _ => true
  | _ => false

/-- `IREndness`. -/
inductive IREndness
  | le | be
  deriving DecidableEq, Repr

/-- `IRRegArray`: a part of the guest state that is treated as circular. -/
structure IRRegArray where
  /-- `base`. -/
  base : ℤ
  /-- `elemTy`. -/
  elemTy : IRType
  /-- `nElems`. -/
  nElems : ℤ
  deriving DecidableEq, Repr

/-- `IRTemp`. -/
abbrev IRTemp := ℕ

/-- `IRTypeEnv`: the types of the temporaries. -/
abbrev IRTypeEnv := List IRType

/-- `typeOfIRTemp`. -/
def typeOfIRTemp (tyenv : IRTypeEnv) (tmp : IRTemp) : IRType := tyenv.getD tmp .invalid

/-- `IRJumpKind`. -/
inductive IRJumpKind
  | invalid | boring | call | ret | clientReq | yield | emWarn | emFail | noDecode | mapFail
  | invalICache | flushDCache | noRedir | sigILL | sigTRAP | sigSEGV | sigBUS | sigFPE
  | sigFPEIntDiv | sigFPEIntOvf | sysSyscall | sysInt32 | sysInt128 | sysInt129 | sysInt130
  | sysInt145 | sysInt210 | sysSysenter
  deriving DecidableEq, Repr

/-! ### Expressions -/

/-- `IRCallee`. -/
structure IRCallee (Fn : Type) where
  /-- `regparms`. -/
  regparms : ℕ
  /-- `name`. -/
  name : String
  /-- `addr`. -/
  addr : Fn
  /-- `mcx_mask`. -/
  mcxMask : BitVec 32
  deriving DecidableEq

/-- `IRExpr`. -/
inductive IRExpr (Op Fn : Type)
  /-- `Iex_Get`. -/
  | get (offset : ℤ) (ty : IRType)
  /-- `Iex_GetI`. -/
  | getI (descr : IRRegArray) (ix : IRExpr Op Fn) (bias : ℤ)
  /-- `Iex_RdTmp`. -/
  | rdTmp (tmp : IRTemp)
  /-- `Iex_Qop`. -/
  | qop (op : Op) (arg1 arg2 arg3 arg4 : IRExpr Op Fn)
  /-- `Iex_Triop`. -/
  | triop (op : Op) (arg1 arg2 arg3 : IRExpr Op Fn)
  /-- `Iex_Binop`. -/
  | binop (op : Op) (arg1 arg2 : IRExpr Op Fn)
  /-- `Iex_Unop`. -/
  | unop (op : Op) (arg : IRExpr Op Fn)
  /-- `Iex_Load`. -/
  | load (endn : IREndness) (ty : IRType) (addr : IRExpr Op Fn)
  /-- `Iex_Const`. -/
  | const (con : IRConst)
  /-- `Iex_ITE`. -/
  | ite (cond iftrue iffalse : IRExpr Op Fn)
  /-- `Iex_CCall`. -/
  | ccall (cee : IRCallee Fn) (retty : IRType) (args : List (IRExpr Op Fn))

/-- `IRLoadGOp`. -/
inductive IRLoadGOp
  | identV128 | ident64 | ident32 | op16Uto32 | op16Sto32 | op8Uto32 | op8Sto32
  deriving DecidableEq, Repr

/-- `typeOfIRLoadGOp`: the types of the result and of the argument. -/
def typeOfIRLoadGOp : IRLoadGOp → IRType × IRType
  | .identV128 => (.v128, .v128)
  | .ident64 => (.i64, .i64)
  | .ident32 => (.i32, .i32)
  | .op16Uto32 | .op16Sto32 => (.i32, .i16)
  | .op8Uto32 | .op8Sto32 => (.i32, .i8)

/-- What the passes know of the primitive operations. -/
structure OpTable (Op : Type) where
  /-- The type of the result, in `typeOfPrimop`. -/
  typeOfPrimop : Op → IRType
  /-- The types of the arguments, in `typeOfPrimop`: those that are not `Ity_INVALID`. -/
  typesOfArgs : Op → List IRType
  /-- `Iop_8Uto32`. -/
  iop8Uto32 : Op
  /-- `Iop_8Sto32`. -/
  iop8Sto32 : Op
  /-- `Iop_16Uto32`. -/
  iop16Uto32 : Op
  /-- `Iop_16Sto32`. -/
  iop16Sto32 : Op

/-- The operation that the value of a guarded load is converted with; `none` is
`Iop_INVALID`. -/
def OpTable.cvtOp {Op : Type} (T : OpTable Op) : IRLoadGOp → Option Op
  | .identV128 | .ident64 | .ident32 => none
  | .op8Uto32 => some T.iop8Uto32
  | .op8Sto32 => some T.iop8Sto32
  | .op16Uto32 => some T.iop16Uto32
  | .op16Sto32 => some T.iop16Sto32

/-! ### Statements and superblocks -/

/-- An argument of a dirty call. -/
inductive IRArg (Op Fn : Type)
  /-- An expression. -/
  | expr (e : IRExpr Op Fn)
  /-- `IRExpr_VECRET`. -/
  | vecret
  /-- `IRExpr_GSPTR`. -/
  | gsptr

/-- `IREffect`, where there is one. -/
inductive IREffect
  | read | write | modify
  deriving DecidableEq, Repr

/-- What a dirty helper does to a part of the guest state: an element of `fxState`. -/
structure IRFxState where
  /-- `fx`; none of them is `Ifx_None`. -/
  fx : IREffect
  /-- `offset`. -/
  offset : ℕ
  /-- `size`. -/
  size : ℕ
  /-- `nRepeats`. -/
  nRepeats : ℕ
  /-- `repeatLen`. -/
  repeatLen : ℕ
  deriving DecidableEq, Repr

/-- `IRDirty`. -/
structure IRDirty (Op Fn : Type) where
  /-- `cee`. -/
  cee : IRCallee Fn
  /-- `guard`. -/
  guard : IRExpr Op Fn
  /-- `args`. -/
  args : List (IRArg Op Fn)
  /-- `tmp`; `none` is `IRTemp_INVALID`. -/
  tmp : Option IRTemp
  /-- `mFx`, `mAddr` and `mSize`; `none` if `mFx` is `Ifx_None`. -/
  mem : Option (IREffect × IRExpr Op Fn × ℤ)
  /-- `fxState`, of which there are `nFxState`. -/
  fxState : List IRFxState

/-- `IRMBusEvent`. -/
inductive IRMBusEvent
  | fence | cancelReservation
  deriving DecidableEq, Repr

/-- `IRStmt`. -/
inductive IRStmt (Op Fn : Type)
  /-- `Ist_NoOp`. -/
  | noOp
  /-- `Ist_IMark`. -/
  | iMark (addr : BitVec 64) (len : ℕ) (delta : BitVec 8)
  /-- `Ist_AbiHint`. -/
  | abiHint (base : IRExpr Op Fn) (len : ℤ) (nia : IRExpr Op Fn)
  /-- `Ist_Put`. -/
  | put (offset : ℤ) (data : IRExpr Op Fn)
  /-- `Ist_PutI`. -/
  | putI (descr : IRRegArray) (ix : IRExpr Op Fn) (bias : ℤ) (data : IRExpr Op Fn)
  /-- `Ist_WrTmp`. -/
  | wrTmp (tmp : IRTemp) (data : IRExpr Op Fn)
  /-- `Ist_Store`. -/
  | store (endn : IREndness) (addr data : IRExpr Op Fn)
  /-- `Ist_LoadG`. -/
  | loadG (endn : IREndness) (cvt : IRLoadGOp) (dst : IRTemp) (addr alt guard : IRExpr Op Fn)
  /-- `Ist_StoreG`. -/
  | storeG (endn : IREndness) (addr data guard : IRExpr Op Fn)
  /-- `Ist_CAS`. -/
  | cas (oldHi : Option IRTemp) (oldLo : IRTemp) (endn : IREndness) (addr : IRExpr Op Fn)
    (expdHi : Option (IRExpr Op Fn)) (expdLo : IRExpr Op Fn) (dataHi : Option (IRExpr Op Fn))
    (dataLo : IRExpr Op Fn)
  /-- `Ist_LLSC`. -/
  | llsc (endn : IREndness) (result : IRTemp) (addr : IRExpr Op Fn)
    (storedata : Option (IRExpr Op Fn))
  /-- `Ist_Dirty`. -/
  | dirty (details : IRDirty Op Fn)
  /-- `Ist_MBE`. -/
  | mbe (event : IRMBusEvent)
  /-- `Ist_Exit`. -/
  | exit (guard : IRExpr Op Fn) (jk : IRJumpKind) (dst : IRConst) (offsIP : ℤ)

/-- `IRSB`. -/
structure IRSB (Op Fn : Type) where
  /-- `tyenv`. -/
  tyenv : IRTypeEnv
  /-- `stmts`. -/
  stmts : List (IRStmt Op Fn)
  /-- `next`. -/
  next : IRExpr Op Fn
  /-- `jumpkind`. -/
  jumpkind : IRJumpKind
  /-- `offsIP`. -/
  offsIP : ℤ

/-! ### What a superblock means -/

/-- A machine that superblocks are executed on, with values `V` and states `σ`. -/
structure Machine (Op Fn V σ : Type) where
  /-- The value of a constant. -/
  const : IRConst → V
  /-- The condition that a value is. -/
  truth : V → Bool
  /-- A constant of type `Ity_I1` is the condition it says. -/
  truth_u1 : ∀ b, truth (const (.u1 b)) = b
  /-- The value of a part of the guest state. -/
  get : σ → ℤ → IRType → V
  /-- The value of an element of an array in the guest state. -/
  getI : σ → IRRegArray → V → ℤ → V
  /-- The value in memory. -/
  load : σ → IREndness → IRType → V → V
  /-- Primitive operations. -/
  unop : Op → V → V
  /-- Primitive operations. -/
  binop : Op → V → V → V
  /-- Primitive operations. -/
  triop : Op → V → V → V → V
  /-- Primitive operations. -/
  qop : Op → V → V → V → V → V
  /-- A pure helper function. -/
  ccall : IRCallee Fn → IRType → List V → V
  /-- Writing the guest state. -/
  put : σ → ℤ → V → σ
  /-- Writing an element of an array in the guest state. -/
  putI : σ → IRRegArray → V → ℤ → V → σ
  /-- Writing memory. -/
  store : σ → IREndness → V → V → σ
  /-- Comparing and swapping: the address, what is expected and what is stored, each in one
  part or in two. It brings the old value, in two parts if there are two. -/
  cas : σ → IREndness → V → Option V → V → Option V → V → σ × V × V
  /-- Load-linked, or store-conditional if there is something to store; the type is that of
  the result. -/
  llsc : σ → IREndness → IRType → V → Option V → σ × V
  /-- A dirty helper; the type is that of the result, if there is one. -/
  dirty : σ → IRCallee Fn → List V → Option IRType → σ × V
  /-- What the result is if a dirty helper is not called. -/
  skipped : IRType → V
  /-- `IRExpr_VECRET`. -/
  vecret : V
  /-- `IRExpr_GSPTR`. -/
  gsptr : V
  /-- A memory bus event. -/
  mbe : σ → IRMBusEvent → σ

/-- How a superblock is left: where to, with which jump kind, and where the guest state has
the instruction pointer. -/
structure Leave (V : Type) where
  /-- The target. -/
  target : V
  /-- The jump kind. -/
  jk : IRJumpKind
  /-- `offsIP`. -/
  offsIP : ℤ

/-- The values of the temporaries, and the state. -/
abbrev Config (V σ : Type) := (IRTemp → V) × σ

section Meaning

variable {Op Fn V σ : Type} (T : OpTable Op) (M : Machine Op Fn V σ) (tyenv : IRTypeEnv)

mutual

/-- The value of an expression. -/
def IRExpr.eval (c : Config V σ) : IRExpr Op Fn → V
  | .get offset ty => M.get c.2 offset ty
  | .getI descr ix bias => M.getI c.2 descr (ix.eval c) bias
  | .rdTmp tmp => c.1 tmp
  | .qop op arg1 arg2 arg3 arg4 =>
    M.qop op (arg1.eval c) (arg2.eval c) (arg3.eval c) (arg4.eval c)
  | .triop op arg1 arg2 arg3 => M.triop op (arg1.eval c) (arg2.eval c) (arg3.eval c)
  | .binop op arg1 arg2 => M.binop op (arg1.eval c) (arg2.eval c)
  | .unop op arg => M.unop op (arg.eval c)
  | .load endn ty addr => M.load c.2 endn ty (addr.eval c)
  | .const con => M.const con
  | .ite cond iftrue iffalse =>
    if M.truth (cond.eval c) then iftrue.eval c else iffalse.eval c
  | .ccall cee retty args => M.ccall cee retty (evalArgs c args)

/-- The values of a list of expressions. -/
def evalArgs (c : Config V σ) : List (IRExpr Op Fn) → List V
  | [] => []
  | e :: es => e.eval c :: evalArgs c es

end

/-- The value of an argument of a dirty call. -/
def IRArg.eval (c : Config V σ) : IRArg Op Fn → V
  | .expr e => e.eval M c
  | .vecret => M.vecret
  | .gsptr => M.gsptr

/-- The values of the temporaries with one of them changed, if there is one. -/
def setTmp (ρ : IRTemp → V) (tmp : Option IRTemp) (v : V) : IRTemp → V :=
  tmp.elim ρ fun t => Function.update ρ t v

/-- The value of a guarded load, where it is done. -/
def loadGValue (s : σ) (endn : IREndness) (cvt : IRLoadGOp) (addr : V) : V :=
  let v := M.load s endn (typeOfIRLoadGOp cvt).2 addr
  (T.cvtOp cvt).elim v fun op => M.unop op v

/-- **What a statement does.** -/
def IRStmt.sem : IRStmt Op Fn → Config V σ → Config V σ × Option (Leave V)
  | .noOp, c | .iMark _ _ _, c | .abiHint _ _ _, c => (c, none)
  | .put offset data, c => ((c.1, M.put c.2 offset (data.eval M c)), none)
  | .putI descr ix bias data, c =>
    ((c.1, M.putI c.2 descr (ix.eval M c) bias (data.eval M c)), none)
  | .wrTmp tmp data, c => ((Function.update c.1 tmp (data.eval M c), c.2), none)
  | .store endn addr data, c =>
    ((c.1, M.store c.2 endn (addr.eval M c) (data.eval M c)), none)
  | .loadG endn cvt dst addr alt guard, c =>
    let v := if M.truth (guard.eval M c) then loadGValue T M c.2 endn cvt (addr.eval M c)
      else alt.eval M c
    ((Function.update c.1 dst v, c.2), none)
  | .storeG endn addr data guard, c =>
    if M.truth (guard.eval M c) then
      ((c.1, M.store c.2 endn (addr.eval M c) (data.eval M c)), none)
    else (c, none)
  | .cas oldHi oldLo endn addr expdHi expdLo dataHi dataLo, c =>
    let r := M.cas c.2 endn (addr.eval M c) (expdHi.map (IRExpr.eval M c)) (expdLo.eval M c)
      (dataHi.map (IRExpr.eval M c)) (dataLo.eval M c)
    ((setTmp (Function.update c.1 oldLo r.2.2) oldHi r.2.1, r.1), none)
  | .llsc endn result addr storedata, c =>
    let r := M.llsc c.2 endn (typeOfIRTemp tyenv result) (addr.eval M c)
      (storedata.map (IRExpr.eval M c))
    ((Function.update c.1 result r.2, r.1), none)
  | .dirty d, c =>
    let ty := d.tmp.map (typeOfIRTemp tyenv)
    if M.truth (d.guard.eval M c) then
      let r := M.dirty c.2 d.cee (d.args.map (IRArg.eval M c)) ty
      ((setTmp c.1 d.tmp r.2, r.1), none)
    else ((setTmp c.1 d.tmp (M.skipped (ty.getD .invalid)), c.2), none)
  | .mbe event, c => ((c.1, M.mbe c.2 event), none)
  | .exit guard jk dst offsIP, c =>
    (c, if M.truth (guard.eval M c) then some ⟨M.const dst, jk, offsIP⟩ else none)

/-- **What a superblock does**: the state it leaves behind, and how it is left. -/
def IRSB.exec (sb : IRSB Op Fn) (c : Config V σ) : σ × Leave V :=
  match run (IRStmt.sem T M sb.tyenv) sb.stmts c with
  | (c, some w) => (c.2, w)
  | (c, none) => (c.2, ⟨sb.next.eval M c, sb.jumpkind, sb.offsIP⟩)

end Meaning

/-! ### A machine to compute with -/

/-- Four operations, and nothing else. -/
inductive Widen
  | op8Uto32 | op8Sto32 | op16Uto32 | op16Sto32
  deriving DecidableEq, Repr

/-- The table of the four operations. -/
def widenTable : OpTable Widen where
  typeOfPrimop _ := .i32
  typesOfArgs
    | .op8Uto32 | .op8Sto32 => [.i8]
    | .op16Uto32 | .op16Sto32 => [.i16]
  iop8Uto32 := .op8Uto32
  iop8Sto32 := .op8Sto32
  iop16Uto32 := .op16Uto32
  iop16Sto32 := .op16Sto32

/-- A machine without guest state and memory, which keeps the arguments of the dirty calls
that are made on it; values are words, which conversions leave as they are. -/
def tally {Fn : Type} : Machine Widen Fn (BitVec 64) (List (List (BitVec 64))) where
  const con := BitVec.ofNat 64 con.toNat
  truth v := v ≠ 0
  truth_u1 b := by cases b <;> rfl
  get _ _ _ := 0
  getI _ _ _ _ := 0
  load _ _ _ _ := 0
  unop _ v := v
  binop _ v _ := v
  triop _ v _ _ := v
  qop _ v _ _ _ := v
  ccall _ _ _ := 0
  put s _ _ := s
  putI s _ _ _ _ := s
  store s _ _ _ := s
  cas s _ _ _ _ _ _ := (s, 0, 0)
  llsc s _ _ _ _ := (s, 0)
  dirty s _ args _ := (s ++ [args], 0)
  skipped _ := 0
  vecret := 0
  gsptr := 0
  mbe s _ := s

end Vex

import DepLeak.Dep.Tool

/-!
# Superblocks and their instrumentation

The translation-time half of `depAnalysis.c`: `da_instrument` goes over the statements
of a superblock and puts, before each statement it handles, a dirty call of the helper
that propagates the dependencies of the statement – if `trace` is on when it gets
there, `trace` being itself set and cleared on the way, at the first instructions of
functions named `read` and `exit`.

The intermediate representation is VEX's, with the parts that `da_instrument` looks
at and the operands; types and operators it does not look at. A dirty call is built by
`unsafeIRDirty_0_N`, whose `mkIRCallee` asserts that at most three parameters are
passed in registers; the tool passes the number of the arguments
(`DepLeak.mkIRCallee`).

An instrumented superblock is executed with the values `ρ` of its temporaries, each of
which is assigned once. What an execution does to the tool are the helper calls it
reaches (`DepLeak.execStmts`).
-/

namespace DepLeak

open LinkedHeap Runs

/-! ### The intermediate representation -/

/-- `IRTemp`. -/
abbrev IRTemp := BitVec 32

/-- `IRExpr`. -/
inductive IRExpr
  /-- `Iex_Get`. -/
  | get (offset : BitVec 32)
  /-- `Iex_GetI`. -/
  | getI (ix : IRExpr)
  /-- `Iex_RdTmp`. -/
  | rdTmp (tmp : IRTemp)
  /-- `Iex_Qop`. -/
  | qop (arg1 arg2 arg3 arg4 : IRExpr)
  /-- `Iex_Triop`. -/
  | triop (arg1 arg2 arg3 : IRExpr)
  /-- `Iex_Binop`. -/
  | binop (arg1 arg2 : IRExpr)
  /-- `Iex_Unop`. -/
  | unop (arg : IRExpr)
  /-- `Iex_Load`. -/
  | load (addr : IRExpr)
  /-- `Iex_Const`. -/
  | const (con : UWord)
  /-- `Iex_ITE`. -/
  | ite (cond iftrue iffalse : IRExpr)
  /-- `Iex_CCall`. -/
  | ccall (args : List IRExpr)

/-- The address in an `IRCallee`: one of the helpers, or a function of VEX's own. -/
inductive IRCallee
  | instrumentAssgnTmpLoad
  | instrumentExit
  | instrumentAssgnTmpConst
  | instrumentAssgnTmpUnop
  | instrumentAssgnTmpBinop
  | instrumentAssgnTmpTriop
  | instrumentAssgnTmpQop
  | instrumentStoreConst
  | instrumentStoreTmp
  | instrumentPutTmp
  | instrumentPutCnst
  | instrumentAssgnTmpGet
  | guest (addr : UWord)
  deriving DecidableEq, Repr

/-- `IRDirty`. -/
structure IRDirty where
  /-- `tmp`; `none` is `IRTemp_INVALID`. -/
  tmp : Option IRTemp
  /-- `cee->regparms`. -/
  regparms : ℕ
  /-- `cee->name`. -/
  name : String
  /-- `cee->addr`. -/
  addr : IRCallee
  /-- `args`. -/
  args : List IRExpr

/-- `IRStmt`. -/
inductive IRStmt
  /-- `Ist_NoOp`. -/
  | noOp
  /-- `Ist_IMark`. -/
  | iMark (addr : UWord)
  /-- `Ist_AbiHint`. -/
  | abiHint (base nia : IRExpr)
  /-- `Ist_Put`. -/
  | put (offset : BitVec 32) (data : IRExpr)
  /-- `Ist_PutI`. -/
  | putI (ix data : IRExpr)
  /-- `Ist_WrTmp`. -/
  | wrTmp (tmp : IRTemp) (data : IRExpr)
  /-- `Ist_Store`. -/
  | store (addr data : IRExpr)
  /-- `Ist_LoadG`. -/
  | loadG (dst : IRTemp) (addr alt guard : IRExpr)
  /-- `Ist_StoreG`. -/
  | storeG (addr data guard : IRExpr)
  /-- `Ist_CAS`; `oldHi`, `expdHi` and `dataHi` are only there if two words are exchanged. -/
  | cas (oldHi : Option IRTemp) (oldLo : IRTemp) (addr : IRExpr) (expdHi : Option IRExpr)
    (expdLo : IRExpr) (dataHi : Option IRExpr) (dataLo : IRExpr)
  /-- `Ist_LLSC`. -/
  | llsc (result : IRTemp) (addr : IRExpr) (storedata : Option IRExpr)
  /-- `Ist_Dirty`. -/
  | dirty (details : IRDirty)
  /-- `Ist_MBE`. -/
  | mbe
  /-- `Ist_Exit`. -/
  | exit (guard : IRExpr)

/-! ### The helper of a statement -/

/-- `IRExpr_Const(IRConst_U64(tmp))` of an `IRTemp`, which is unsigned. -/
def constTmp (tmp : IRTemp) : IRExpr := .const (tmp.zeroExtend 64)

/-- `IRExpr_Const(IRConst_U64(offset))` of an `Int`. -/
def constReg (offset : BitVec 32) : IRExpr := .const (offset.signExtend 64)

/-- The dirty call that `unsafeIRDirty_0_N` builds: it has no result. -/
def unsafeIRDirty0N (regparms : ℕ) (name : String) (addr : IRCallee) (args : List IRExpr) :
    IRDirty :=
  ⟨none, regparms, name, addr, args⟩

/-- The dirty call for an assignment to a temporary. -/
def wrTmpDirty (tmp : IRTemp) : IRExpr → Option IRDirty
  -- a copy of a temporary is treated as an operation on it
  | .rdTmp t => some (unsafeIRDirty0N 2 "ta_ld" .instrumentAssgnTmpUnop [constTmp tmp, constTmp t])
  | .load addr => some (unsafeIRDirty0N 2 "ta_ld" .instrumentAssgnTmpLoad [constTmp tmp, addr])
  | .get offset =>
    some (unsafeIRDirty0N 2 "ta_ld" .instrumentAssgnTmpGet [constTmp tmp, constReg offset])
  | .unop (.rdTmp t) =>
    some (unsafeIRDirty0N 2 "ta_unop" .instrumentAssgnTmpUnop [constTmp tmp, constTmp t])
  | .unop (.const _) => some (unsafeIRDirty0N 1 "ta_unop" .instrumentAssgnTmpConst [constTmp tmp])
  | .binop (.rdTmp t₁) (.rdTmp t₂) =>
    some (unsafeIRDirty0N 3 "ta_binop" .instrumentAssgnTmpBinop
      [constTmp tmp, constTmp t₁, constTmp t₂])
  -- a constant operand brings nothing, so that the other one is all there is
  | .binop (.rdTmp t₁) (.const _) =>
    some (unsafeIRDirty0N 2 "ta_unop" .instrumentAssgnTmpUnop [constTmp tmp, constTmp t₁])
  | .binop (.const _) (.rdTmp t₂) =>
    some (unsafeIRDirty0N 2 "ta_unop" .instrumentAssgnTmpUnop [constTmp tmp, constTmp t₂])
  | .binop (.const _) (.const _) =>
    some (unsafeIRDirty0N 1 "ta_unop" .instrumentAssgnTmpConst [constTmp tmp])
  | .triop (.rdTmp t₁) (.rdTmp t₂) (.rdTmp t₃) =>
    -- more register parameters than `mkIRCallee` accepts, here and below
    some (unsafeIRDirty0N 4 "ta_triop" .instrumentAssgnTmpTriop
      [constTmp tmp, constTmp t₁, constTmp t₂, constTmp t₃])
  | .qop (.rdTmp t₁) (.rdTmp t₂) (.rdTmp t₃) (.rdTmp t₄) =>
    some (unsafeIRDirty0N 5 "ta_qop" .instrumentAssgnTmpQop
      [constTmp tmp, constTmp t₁, constTmp t₂, constTmp t₃, constTmp t₄])
  | _ => none

/-- The dirty call for a store: it gets the address, and not the type of the data. -/
def storeDirty (addr : IRExpr) : IRExpr → Option IRDirty
  | .const _ => some (unsafeIRDirty0N 1 "ta_st_cnst" .instrumentStoreConst [addr])
  | .rdTmp t => some (unsafeIRDirty0N 2 "ta_st_rdtmp" .instrumentStoreTmp [addr, constTmp t])
  | _ => none

/-- The dirty call for a `Put`. -/
def putDirty (offset : BitVec 32) : IRExpr → Option IRDirty
  | .rdTmp t =>
    some (unsafeIRDirty0N 2 "ta_st_cnst" .instrumentPutTmp [constReg offset, constTmp t])
  | .const _ => some (unsafeIRDirty0N 1 "ta_st_cnst" .instrumentPutCnst [constReg offset])
  | _ => none

/-- The dirty call that goes before a statement, if `trace` is on. -/
def dirtyOf : IRStmt → Option IRDirty
  | .wrTmp tmp data => wrTmpDirty tmp data
  | .store addr data => storeDirty addr data
  | .put offset data => putDirty offset data
  | .exit _ => some (unsafeIRDirty0N 0 "ta_exit" .instrumentExit [])
  | _ => none

/-! ### `da_instrument` -/

/-- An assertion of VEX fails. -/
inductive Abort
  | vassert
  deriving DecidableEq, Repr

/-- The assertion of `mkIRCallee`. -/
def mkIRCallee (regparms : ℕ) : Except Abort Unit :=
  if regparms ≤ 3 then .ok () else .error .vassert

/-- What an `IMark` does to `trace`; `fnname` names the function that starts at an
address. -/
def markTrace (fnname : UWord → Option String) (trace : Bool) : IRStmt → Bool
  | .iMark addr =>
    let trace := if fnname addr = some "read" then true else trace
    -- the two names are compared one after the other
    if fnname addr = some "exit" then false else trace
  | _ => trace

/-- The body of the loop of `da_instrument`: the statement, after the dirty call that
goes before it. -/
def instrumentStmt (trace : Bool) (st : IRStmt) : Except Abort (List IRStmt) :=
  if trace then
    match dirtyOf st with
    | none => .ok [st]
    | some d => do
      mkIRCallee d.regparms
      .ok [.dirty d, st]
  else .ok [st]

/-- `da_instrument`: the statements of the instrumented superblock, and `trace`
afterwards. -/
def daInstrument (fnname : UWord → Option String) :
    Bool → List (Option IRStmt) → Except Abort (List IRStmt × Bool)
  | trace, [] => .ok ([], trace)
  | trace, none :: stmts => daInstrument fnname trace stmts
  | trace, some .noOp :: stmts => daInstrument fnname trace stmts
  | trace, some st :: stmts => do
    -- the mark itself is already instrumented under the new `trace`
    let trace := markTrace fnname trace st
    let out ← instrumentStmt trace st
    let rest ← daInstrument fnname trace stmts
    .ok (out ++ rest.1, rest.2)

/-! ### Executing a superblock -/

/-- The value of an atom. -/
def evalAtom (ρ : IRTemp → UWord) : IRExpr → UWord
  | .const con => con
  | .rdTmp tmp => ρ tmp
  | _ => 0

/-- An argument received as a `UInt` or as an `Int`. -/
def toUInt (w : UWord) : BitVec 32 := w.truncate 32

/-- The helper call that a dirty call makes. -/
def IRDirty.call? (ρ : IRTemp → UWord) (d : IRDirty) : Option HelperCall :=
  match d.addr, d.args.map (evalAtom ρ) with
  | .instrumentAssgnTmpLoad, [t, addr] => some (.assgnTmpLoad (toUInt t) addr)
  | .instrumentExit, [] => some .exit
  | .instrumentAssgnTmpConst, [t] => some (.assgnTmpConst (toUInt t))
  | .instrumentAssgnTmpUnop, [t, t₁] => some (.assgnTmpUnop (toUInt t) (toUInt t₁))
  | .instrumentAssgnTmpBinop, [t, t₁, t₂] =>
    some (.assgnTmpBinop (toUInt t) (toUInt t₁) (toUInt t₂))
  | .instrumentAssgnTmpTriop, [t, t₁, t₂, t₃] =>
    some (.assgnTmpTriop (toUInt t) (toUInt t₁) (toUInt t₂) (toUInt t₃))
  | .instrumentAssgnTmpQop, [t, t₁, t₂, t₃, t₄] =>
    some (.assgnTmpQop (toUInt t) (toUInt t₁) (toUInt t₂) (toUInt t₃) (toUInt t₄))
  | .instrumentStoreConst, [addr] => some (.storeConst addr)
  | .instrumentStoreTmp, [addr, t] => some (.storeTmp addr (toUInt t))
  | .instrumentPutTmp, [r, t] => some (.putTmp (toUInt r) (toUInt t))
  | .instrumentPutCnst, [r] => some (.putCnst (toUInt r))
  | .instrumentAssgnTmpGet, [t, r] => some (.assgnTmpGet (toUInt t) (toUInt r))
  | _, _ => none

/-- What a statement does to the tool: only a dirty call of a helper does anything. -/
def execStmt (ρ : IRTemp → UWord) (s : State) : IRStmt → Exec State
  | .dirty d =>
    match d.call? ρ with
    | some c => callHelper s c
    | none => .ok s
  | _ => .ok s

/-- The statement is an exit that is taken. -/
def exitTaken (ρ : IRTemp → UWord) : IRStmt → Bool
  | .exit guard => evalAtom ρ guard ≠ 0
  | _ => false

/-- What executing the statements of an instrumented superblock does to the tool. -/
def execStmts (ρ : IRTemp → UWord) : State → List IRStmt → Exec State
  | s, [] => .ok s
  | s, st :: stmts => do
    let s ← execStmt ρ s st
    -- a dirty call before an exit has been made by now, whether or not the exit is taken
    if exitTaken ρ st then .ok s else execStmts ρ s stmts

/-! ### The helper calls of a superblock -/

/-- The helper call that is made for a statement. -/
def stmtCall (ρ : IRTemp → UWord) (st : IRStmt) : Option HelperCall :=
  (dirtyOf st).bind (IRDirty.call? ρ)

/-- The effect of a statement whose helper is called. -/
def stepStmt (ρ : IRTemp → UWord) (s : State) (st : IRStmt) : Exec State :=
  match stmtCall ρ st with
  | some c => callHelper s c
  | none => .ok s

@[simp] theorem toUInt_zeroExtend (t : BitVec 32) : toUInt (t.zeroExtend 64) = t := by
  simp [toUInt]

@[simp] theorem toUInt_signExtend (offset : BitVec 32) :
    toUInt (offset.signExtend 64) = offset := by
  ext i hi
  simp only [toUInt, BitVec.truncate_eq_setWidth, BitVec.getElem_setWidth,
    BitVec.getLsbD_signExtend, hi, if_true]
  simp [BitVec.getLsbD_eq_getElem, hi]
  omega

/-- The helper of a store of a temporary. -/
theorem stmtCall_store (ρ : IRTemp → UWord) (addr : IRExpr) (t : IRTemp) :
    stmtCall ρ (.store addr (.rdTmp t)) = some (.storeTmp (evalAtom ρ addr) t) := by
  simp [stmtCall, dirtyOf, storeDirty, unsafeIRDirty0N, IRDirty.call?, constTmp, evalAtom]

/-- The helper of a `Put` of a temporary. -/
theorem stmtCall_put (ρ : IRTemp → UWord) (offset : BitVec 32) (t : IRTemp) :
    stmtCall ρ (.put offset (.rdTmp t)) = some (.putTmp offset t) := by
  simp [stmtCall, dirtyOf, putDirty, unsafeIRDirty0N, IRDirty.call?, constTmp, constReg, evalAtom]

/-! ### From the instrumented superblock to the helper calls -/

/-- What becomes of a statement while `trace` is on. -/
def instrumented : IRStmt → List IRStmt
  | .noOp => []
  | st => (dirtyOf st).toList.map .dirty ++ [st]

/-- The statements of a superblock up to the exit that is taken. -/
def executed (ρ : IRTemp → UWord) : List IRStmt → List IRStmt
  | [] => []
  | st :: B => if exitTaken ρ st then [st] else st :: executed ρ B

theorem instrumented_of_ne {st : IRStmt} (hne : st ≠ .noOp) :
    instrumented st = (dirtyOf st).toList.map .dirty ++ [st] := by
  cases st with
  | noOp => exact absurd rfl hne
  | _ => rfl

theorem daInstrument_cons (fnname : UWord → Option String) (trace : Bool) {st : IRStmt}
    (hne : st ≠ .noOp) (stmts : List (Option IRStmt)) :
    daInstrument fnname trace (some st :: stmts) =
      instrumentStmt (markTrace fnname trace st) st >>= fun out =>
        daInstrument fnname (markTrace fnname trace st) stmts >>= fun rest =>
          .ok (out ++ rest.1, rest.2) := by
  cases st with
  | noOp => exact absurd rfl hne
  | _ => rfl

/-- With `trace` on, a statement gets its dirty call, or VEX stops. -/
theorem instrumentStmt_eq_ok {st : IRStmt} {out : List IRStmt}
    (h : instrumentStmt true st = .ok out) : out = (dirtyOf st).toList.map .dirty ++ [st] := by
  rw [instrumentStmt, if_pos rfl] at h
  cases hd : dirtyOf st with
  | none =>
    rw [hd] at h
    exact (Except.ok.inj h).symm
  | some d =>
    rw [hd] at h
    obtain ⟨_, -, h⟩ := bind_eq_ok.mp h
    exact (Except.ok.inj h).symm

/-- A superblock that does not turn `trace` off is instrumented from its start to its
end. -/
theorem daInstrument_eq {fnname : UWord → Option String} {B out : List IRStmt} {tr : Bool}
    (hexit : ∀ addr, .iMark addr ∈ B → fnname addr ≠ some "exit")
    (h : daInstrument fnname true (B.map some) = .ok (out, tr)) :
    out = B.flatMap instrumented ∧ tr = true := by
  induction B generalizing out tr with
  | nil =>
    cases h
    exact ⟨rfl, rfl⟩
  | cons st B ih =>
    have ih := fun {out tr} => @ih out tr fun addr h => hexit addr (List.mem_cons_of_mem st h)
    have hmark : markTrace fnname true st = true := by
      cases st with
      | iMark addr => simp [markTrace, hexit addr List.mem_cons_self]
      | _ => rfl
    by_cases hne : st = .noOp
    · subst hne
      exact ih h
    · rw [List.map_cons, daInstrument_cons fnname true hne, hmark] at h
      obtain ⟨o, ho, h⟩ := bind_eq_ok.mp h
      obtain ⟨rest, hrest, h⟩ := bind_eq_ok.mp h
      obtain ⟨rfl, rfl⟩ := Prod.mk.inj (Except.ok.inj h)
      obtain ⟨hout, htr⟩ := ih hrest
      rw [List.flatMap_cons, instrumented_of_ne hne, instrumentStmt_eq_ok ho, hout]
      exact ⟨rfl, htr⟩

/-- A statement and its dirty call do what the helper does, and what comes after them is
executed unless they leave the superblock. -/
theorem execStmts_instrumented_append {ρ : IRTemp → UWord} {st : IRStmt}
    (hguest : ∀ d, st = .dirty d → ∃ addr, d.addr = .guest addr) (s : State)
    (rest : List IRStmt) :
    execStmts ρ s (instrumented st ++ rest) = stepStmt ρ s st >>= fun s =>
      if exitTaken ρ st then .ok s else execStmts ρ s rest := by
  have hself : ∀ {st : IRStmt} (s : State), (∀ d, st ≠ .dirty d) → execStmts ρ s (st :: rest) =
      if exitTaken ρ st then .ok s else execStmts ρ s rest := by
    intro st s hst
    cases st with
    | dirty d => exact absurd rfl (hst d)
    | _ => rfl
  by_cases hne : st = .noOp
  · subst hne
    rfl
  · rw [instrumented_of_ne hne, stepStmt, stmtCall]
    by_cases hst : ∃ d, st = .dirty d
    · obtain ⟨d, rfl⟩ := hst
      obtain ⟨addr, haddr⟩ := hguest d rfl
      -- a dirty call of the guest itself is of no helper
      have hcall : d.call? ρ = none := by simp [IRDirty.call?, haddr]
      change (execStmt ρ s (.dirty d) >>= fun s => execStmts ρ s rest) = _
      rw [execStmt, hcall]
      rfl
    · have hst : ∀ d, st ≠ .dirty d := fun d hd => hst ⟨d, hd⟩
      cases hd : dirtyOf st with
      | none => exact hself s hst
      | some d =>
        change (execStmt ρ s (.dirty d) >>= fun s => execStmts ρ s (st :: rest)) = _
        simp only [fun s => hself s hst]
        rfl

/-- **An instrumented superblock makes the helper calls of the statements it executes.** -/
theorem execStmts_instrumented {ρ : IRTemp → UWord} {B : List IRStmt}
    (hguest : ∀ d, .dirty d ∈ B → ∃ addr, d.addr = .guest addr) (s : State) :
    execStmts ρ s (B.flatMap instrumented) = run (stepStmt ρ) s (executed ρ B) := by
  induction B generalizing s with
  | nil => rfl
  | cons st B ih =>
    have ih := fun s => ih (fun d hd => hguest d (List.mem_cons_of_mem st hd)) s
    rw [List.flatMap_cons, execStmts_instrumented_append (fun d hd => hguest d (by simp [hd])),
      executed]
    split
    · rw [run_cons]
      rfl
    · rw [run_cons]
      exact congrArg _ (funext ih)

/-! ### The statements the tool handles -/

/-- `isIRAtom`. -/
def IRExpr.isAtom : IRExpr → Bool
  | .rdTmp _ => true
  | .const _ => true
  | _ => false

/-- The expression is a temporary. -/
def IRExpr.isTmp : IRExpr → Bool
  | .rdTmp _ => true
  | _ => false

/-- The expression is an operation on three or four temporaries. -/
def IRExpr.wide : IRExpr → Bool
  | .triop e₁ e₂ e₃ => e₁.isTmp && e₂.isTmp && e₃.isTmp
  | .qop e₁ e₂ e₃ e₄ => e₁.isTmp && e₂.isTmp && e₃.isTmp && e₄.isTmp
  | _ => false

/-- The expressions for which there is a helper: `RdTmp`, `Get`, `Unop`, `Binop` and
`Load` over atoms, `Triop` and `Qop` over temporaries. -/
def IRExpr.handled : IRExpr → Bool
  | .rdTmp _ => true
  | .get _ => true
  | .unop e => e.isAtom
  | .binop e₁ e₂ => e₁.isAtom && e₂.isAtom
  | .load e => e.isAtom
  | e => e.wide

/-- The statements for which there is a helper: assignments of such an expression to a
temporary, and `Store` and `Put` of an atom. -/
def IRStmt.handled : IRStmt → Bool
  | .wrTmp _ data => data.handled
  | .store addr data => addr.isAtom && data.isAtom
  | .put _ data => data.isAtom
  | _ => false

/-- The statement is an operation on three or four temporaries. -/
def IRStmt.wide : IRStmt → Bool
  | .wrTmp _ data => data.wide
  | _ => false

/-- The temporary a statement assigns. -/
def IRStmt.dst? : IRStmt → Option IRTemp
  | .wrTmp tmp _ => some tmp
  | _ => none

/-- The temporaries that are operands of an expression over atoms. -/
def IRExpr.operands : IRExpr → List IRTemp
  | .rdTmp t => [t]
  | .unop e => atom e
  | .binop e₁ e₂ => atom e₁ ++ atom e₂
  | .triop e₁ e₂ e₃ => atom e₁ ++ atom e₂ ++ atom e₃
  | .qop e₁ e₂ e₃ e₄ => atom e₁ ++ atom e₂ ++ atom e₃ ++ atom e₄
  | _ => []
where
  /-- An operand. -/
  atom : IRExpr → List IRTemp
    | .rdTmp t => [t]
    | _ => []

/-- The temporaries that are operands of the data of a statement. -/
def IRStmt.operands : IRStmt → List IRTemp
  | .wrTmp _ data => data.operands
  | .store _ data => data.operands
  | .put _ data => data.operands
  | _ => []

/-- All temporaries a statement assigns. -/
def IRStmt.dsts : IRStmt → List IRTemp
  | .wrTmp tmp _ => [tmp]
  | .loadG dst _ _ _ => [dst]
  | .cas oldHi oldLo _ _ _ _ _ => oldHi.toList ++ [oldLo]
  | .llsc result _ _ => [result]
  | .dirty d => d.tmp.toList
  | _ => []

/-- The statements assign each temporary once, and operands are assigned before they are
read; the temporaries `T` have been assigned. -/
def Scoped (T : List IRTemp) : List IRStmt → Prop
  | [] => True
  | st :: B => (∀ t ∈ st.operands, t ∈ T) ∧ (∀ t ∈ st.dsts, t ∉ T) ∧ Scoped (st.dsts ++ T) B

instance decidableScoped (T : List IRTemp) : ∀ B : List IRStmt, Decidable (Scoped T B)
  | [] => .isTrue trivial
  | st :: B =>
    @instDecidableAnd _ _ (List.decidableBAll (· ∈ T) st.operands)
      (@instDecidableAnd _ _ (List.decidableBAll (· ∉ T) st.dsts)
        (decidableScoped (st.dsts ++ T) B))

/-- The temporaries whose lists a helper looks up. -/
def HelperCall.lookups : HelperCall → List IRTemp
  | .assgnTmpUnop _ t₁ => [t₁]
  | .assgnTmpBinop _ t₁ t₂ => [t₁, t₂]
  | .assgnTmpTriop _ t₁ t₂ t₃ => [t₁, t₂, t₃]
  | .assgnTmpQop _ t₁ t₂ t₃ t₄ => [t₁, t₂, t₃, t₄]
  | .storeTmp _ t => [t]
  | .putTmp _ t => [t]
  | _ => []

/-- The temporary a helper assigns. -/
def HelperCall.dst? : HelperCall → Option IRTemp
  | .assgnTmpLoad t _ => some t
  | .assgnTmpConst t => some t
  | .assgnTmpUnop t _ => some t
  | .assgnTmpBinop t _ _ => some t
  | .assgnTmpTriop t _ _ _ => some t
  | .assgnTmpQop t _ _ _ _ => some t
  | .assgnTmpGet t _ => some t
  | _ => none

/-- The helper of a statement looks up its operands, and assigns what it assigns. -/
theorem stmtCall_temps {ρ : IRTemp → UWord} {st : IRStmt} {c : HelperCall}
    (h : stmtCall ρ st = some c) :
    (∀ t ∈ c.lookups, t ∈ st.operands) ∧ c.dst?.toList = st.dsts := by
  cases st with
  | wrTmp tmp data =>
    simp only [stmtCall, dirtyOf, wrTmpDirty] at h
    split at h
    all_goals cases h
    all_goals simp [HelperCall.lookups, HelperCall.dst?, IRStmt.operands, IRStmt.dsts,
      IRExpr.operands, IRExpr.operands.atom, constTmp, evalAtom]
  | store addr data =>
    cases data with
    | rdTmp t =>
      obtain rfl := Option.some.inj ((stmtCall_store ρ addr t).symm.trans h)
      simp [HelperCall.lookups, HelperCall.dst?, IRStmt.operands, IRStmt.dsts, IRExpr.operands]
    | const => cases h; simp [HelperCall.lookups, HelperCall.dst?, IRStmt.dsts]
    | _ => cases h
  | put offset data =>
    cases data with
    | rdTmp t =>
      obtain rfl := Option.some.inj ((stmtCall_put ρ offset t).symm.trans h)
      simp [HelperCall.lookups, HelperCall.dst?, IRStmt.operands, IRStmt.dsts, IRExpr.operands]
    | const => cases h; simp [HelperCall.lookups, HelperCall.dst?, IRStmt.dsts]
    | _ => cases h
  | exit => cases h; simp [HelperCall.lookups, HelperCall.dst?, IRStmt.dsts]
  | _ => cases h

theorem isAtom_iff {e : IRExpr} : e.isAtom ↔ (∃ t, e = .rdTmp t) ∨ ∃ c, e = .const c := by
  cases e <;> simp [IRExpr.isAtom]

theorem isTmp_iff {e : IRExpr} : e.isTmp ↔ ∃ t, e = .rdTmp t := by
  cases e <;> simp [IRExpr.isTmp]

/-- A statement that is handled has a dirty call, which `mkIRCallee` accepts unless there
are too many operands. -/
theorem dirtyOf_handled {st : IRStmt} (h : st.handled) :
    ∃ d, dirtyOf st = some d ∧
      mkIRCallee d.regparms = if st.wide then .error .vassert else .ok () := by
  cases st with
  | wrTmp tmp data =>
    cases data with
    | rdTmp | get | load => exact ⟨_, rfl, rfl⟩
    | unop e =>
      obtain ⟨t, rfl⟩ | ⟨c, rfl⟩ := isAtom_iff.mp h <;> exact ⟨_, rfl, rfl⟩
    | binop e₁ e₂ =>
      simp only [IRStmt.handled, IRExpr.handled, Bool.and_eq_true] at h
      obtain ⟨t₁, rfl⟩ | ⟨c₁, rfl⟩ := isAtom_iff.mp h.1 <;>
        obtain ⟨t₂, rfl⟩ | ⟨c₂, rfl⟩ := isAtom_iff.mp h.2 <;> exact ⟨_, rfl, rfl⟩
    | triop e₁ e₂ e₃ =>
      simp only [IRStmt.handled, IRExpr.handled, IRExpr.wide, Bool.and_eq_true, isTmp_iff] at h
      obtain ⟨⟨⟨t₁, rfl⟩, t₂, rfl⟩, t₃, rfl⟩ := h
      exact ⟨_, rfl, rfl⟩
    | qop e₁ e₂ e₃ e₄ =>
      simp only [IRStmt.handled, IRExpr.handled, IRExpr.wide, Bool.and_eq_true, isTmp_iff] at h
      obtain ⟨⟨⟨⟨t₁, rfl⟩, t₂, rfl⟩, t₃, rfl⟩, t₄, rfl⟩ := h
      exact ⟨_, rfl, rfl⟩
    | getI | const | ite | ccall => simp [IRStmt.handled, IRExpr.handled, IRExpr.wide] at h
  | store addr data =>
    simp only [IRStmt.handled, Bool.and_eq_true] at h
    obtain ⟨t, rfl⟩ | ⟨c, rfl⟩ := isAtom_iff.mp h.2 <;> exact ⟨_, rfl, rfl⟩
  | put offset data =>
    obtain ⟨t, rfl⟩ | ⟨c, rfl⟩ := isAtom_iff.mp h <;> exact ⟨_, rfl, rfl⟩
  | _ => simp [IRStmt.handled] at h

/-- **`da_instrument` on a superblock of handled statements**, with `trace` on: every
statement gets its dirty call, unless VEX stops at one with too many operands. -/
theorem daInstrument_handled (fnname : UWord → Option String) {B : List IRStmt}
    (hB : ∀ st ∈ B, st.handled) :
    daInstrument fnname true (B.map some) =
      if B.any IRStmt.wide then .error .vassert else .ok (B.flatMap instrumented, true) := by
  induction B with
  | nil => rfl
  | cons st B ih =>
    have hst := hB st List.mem_cons_self
    have ih := ih fun st' h => hB st' (List.mem_cons_of_mem st h)
    obtain ⟨d, hd, hcallee⟩ := dirtyOf_handled hst
    have hne : st ≠ .noOp := by
      rintro rfl
      simp [IRStmt.handled] at hst
    have hmark : markTrace fnname true st = true := by
      cases st with
      | iMark => simp [IRStmt.handled] at hst
      | _ => rfl
    have hinst : instrumentStmt true st =
        if st.wide then .error .vassert else .ok (instrumented st) := by
      rw [instrumentStmt, if_pos rfl, instrumented_of_ne hne, hd]
      simp only [hcallee]
      cases st.wide <;> rfl
    rw [List.map_cons, daInstrument_cons fnname true hne, hmark, hinst, ih, List.any_cons]
    cases hw : st.wide with
    | true => rfl
    | false =>
      simp only [Bool.false_eq_true, if_false, Bool.false_or, ok_bind]
      split
      · rfl
      · rw [ok_bind, List.flatMap_cons]

/-- Handled statements are all executed. -/
theorem executed_handled {ρ : IRTemp → UWord} {B : List IRStmt} (hB : ∀ st ∈ B, st.handled) :
    executed ρ B = B := by
  induction B with
  | nil => rfl
  | cons st B ih =>
    have hexit : exitTaken ρ st = false := by
      have hst := hB st List.mem_cons_self
      cases st with
      | exit => simp [IRStmt.handled] at hst
      | _ => rfl
    rw [executed, hexit, ih fun st' h => hB st' (List.mem_cons_of_mem st h)]
    rfl

end DepLeak

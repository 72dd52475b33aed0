import DepLeak.Vex.Sanity

/-!
# The type checks

The other half of `sanityCheckIRSB`: the types of the expressions of a statement have to be
those that its parts ask for (`Vex.tcStmt`), and what a superblock ends with has to be a
guest word (`Vex.typecheckIRSB`). The check is told here with `true` where the source goes
on, and `false` where it stops with an error.

A pass that leaves a statement as it is but for its expressions leaves it well-typed if
the new expressions have the types of the old ones (`Vex.IRExpr.Alike.sameType`,
`Vex.tcStmt_of_alike`); and types do not change when there are more temporaries
(`Vex.tcStmt_of_grown`).
-/

namespace Vex

open Straight

variable {Op Fn V σ : Type}

/-! ### The checks -/

/-- `sizeofIRType`, in bytes; there is none of a condition. -/
def sizeofIRType : IRType → Option ℤ
  | .i8 => some 1
  | .i16 | .f16 => some 2
  | .i32 | .f32 | .d32 => some 4
  | .i64 | .f64 | .d64 => some 8
  | .i128 | .f128 | .d128 | .v128 => some 16
  | .v256 => some 32
  | .invalid | .i1 => none

theorem sizeofIRType_pos {ty : IRType} {n : ℤ} (h : sizeofIRType ty = some n) : 0 < n := by
  cases ty <;> cases h <;> decide

/-- `saneIRRegArray`. -/
def saneIRRegArray (arr : IRRegArray) : Bool :=
  0 ≤ arr.base && arr.base ≤ 10000 && arr.elemTy != .i1 && 0 < arr.nElems && arr.nElems ≤ 500

/-- `saneIRCallee`; the name and the address are there. -/
def saneIRCallee (cee : IRCallee Fn) : Bool := cee.regparms ≤ 3

/-- The type is one of the integers that can be loaded with a link, or stored so. -/
def isLinked (ty : IRType) : Bool := ty == .i64 || ty == .i32 || ty == .i16 || ty == .i8

/-- What is checked of an element of `fxState`. -/
def saneFxState (fx : IRFxState) : Bool :=
  0 < fx.size && if fx.nRepeats = 0 then fx.repeatLen == 0 else
    fx.size < fx.repeatLen && fx.repeatLen % fx.size == 0

section Check

variable (T : OpTable Op) (tyenv : IRTypeEnv) (gWordTy : IRType)

/-- `typeOfIRExpr`. -/
def typeOfIRExpr : IRExpr Op Fn → IRType
  | .load _ ty _ | .get _ ty => ty
  | .getI descr _ _ => descr.elemTy
  | .rdTmp tmp => typeOfIRTemp tyenv tmp
  | .const con => typeOfIRConst con
  | .qop op _ _ _ _ | .triop op _ _ _ | .binop op _ _ | .unop op _ => T.typeOfPrimop op
  | .ccall _ retty _ => retty
  | .ite _ _ iffalse => typeOfIRExpr iffalse

mutual

/-- `tcExpr`. -/
def tcExpr : IRExpr Op Fn → Bool
  | .get _ _ | .rdTmp _ | .const _ => true
  | .getI descr ix _ =>
    tcExpr ix && typeOfIRExpr T tyenv ix == .i32 && saneIRRegArray descr
  | .qop op arg1 arg2 arg3 arg4 =>
    tcExpr arg1 && tcExpr arg2 && tcExpr arg3 && tcExpr arg4 &&
      T.typesOfArgs op == [typeOfIRExpr T tyenv arg1, typeOfIRExpr T tyenv arg2,
        typeOfIRExpr T tyenv arg3, typeOfIRExpr T tyenv arg4]
  | .triop op arg1 arg2 arg3 =>
    tcExpr arg1 && tcExpr arg2 && tcExpr arg3 &&
      T.typesOfArgs op == [typeOfIRExpr T tyenv arg1, typeOfIRExpr T tyenv arg2,
        typeOfIRExpr T tyenv arg3]
  | .binop op arg1 arg2 =>
    tcExpr arg1 && tcExpr arg2 &&
      T.typesOfArgs op == [typeOfIRExpr T tyenv arg1, typeOfIRExpr T tyenv arg2]
  | .unop op arg => tcExpr arg && T.typesOfArgs op == [typeOfIRExpr T tyenv arg]
  | .load _ _ addr => tcExpr addr && typeOfIRExpr T tyenv addr == gWordTy
  | .ccall cee retty args =>
    saneIRCallee cee && cee.regparms ≤ args.length && args.length ≤ 32 && tcArgs args &&
      retty != .i1 && args.all fun arg => typeOfIRExpr T tyenv arg != .i1
  | .ite cond iftrue iffalse =>
    tcExpr cond && tcExpr iftrue && tcExpr iffalse && typeOfIRExpr T tyenv cond == .i1 &&
      typeOfIRExpr T tyenv iftrue == typeOfIRExpr T tyenv iffalse

/-- The loop of `tcExpr` over the arguments of a call. -/
def tcArgs : List (IRExpr Op Fn) → Bool
  | [] => true
  | arg :: args => tcExpr arg && tcArgs args

end

/-- The type of an argument of a dirty call; that of `VECRET` and `GSPTR` is not asked for. -/
def typeOfIRArg : IRArg Op Fn → Option IRType
  | .expr e => some (typeOfIRExpr T tyenv e)
  | .vecret | .gsptr => none

/-- The loop of `tcStmt` over the arguments of a dirty call, with the numbers of those that are
`VECRET` and `GSPTR` so far. -/
def tcDirtyArgs (retTy : IRType) : ℕ → ℕ → List (IRArg Op Fn) → Bool
  | _, nGSPTRs, [] => nGSPTRs ≤ 1
  | nVECRETs, nGSPTRs, arg :: args =>
    let nVECRETs := match arg with
      | .vecret => nVECRETs + 1
      | _ => nVECRETs
    let nGSPTRs := match arg with
      | .gsptr => nGSPTRs + 1
      | _ => nGSPTRs
    typeOfIRArg T tyenv arg != some .i1 && nGSPTRs ≤ 1 &&
      (match nVECRETs with
        -- the helper must return a vector
        | 1 => retTy == .v128 || retTy == .v256
        -- the helper must not return a vector
        | 0 => retTy != .v128 && retTy != .v256
        | _ => false) &&
      tcDirtyArgs retTy nVECRETs nGSPTRs args

/-- The argument is `GSPTR`. -/
def IRArg.isGSPTR : IRArg Op Fn → Bool
  | .gsptr => true
  | _ => false

/-- The checks of `tcStmt` for a dirty call. -/
def tcDirty (d : IRDirty Op Fn) : Bool :=
  let retTy := d.tmp.elim .invalid (typeOfIRTemp tyenv)
  saneIRCallee d.cee && d.cee.regparms ≤ d.args.length && d.mem.all (fun m => m.2.2 != 0) &&
    d.fxState.length ≤ 7 && d.fxState.all saneFxState &&
    tcExpr T tyenv gWordTy d.guard && typeOfIRExpr T tyenv d.guard == .i1 && retTy != .i1 &&
    d.args.length ≤ 32 && tcDirtyArgs T tyenv retTy 0 0 d.args &&
    -- who asks for the guest state has to say what happens to it
    !(d.fxState.isEmpty && d.args.any IRArg.isGSPTR)

/-- The checks of `tcStmt` for the second half of a double compare-and-swap; a hybrid of a single
and a double one is no good. -/
def tcDCAS (oldLo : IRTemp) : Option IRTemp → Option (IRExpr Op Fn) → Option (IRExpr Op Fn) → Bool
  | none, none, none => true
  | some oldHi, some expdHi, some dataHi =>
    typeOfIRExpr T tyenv expdHi == typeOfIRExpr T tyenv dataHi &&
      typeOfIRExpr T tyenv expdHi == typeOfIRTemp tyenv oldHi &&
      typeOfIRTemp tyenv oldHi == typeOfIRTemp tyenv oldLo
  | _, _, _ => false

/-- `tcStmt`. -/
def tcStmt : IRStmt Op Fn → Bool
  | .noOp | .mbe _ => true
  | .iMark _ len delta => len ≤ 24 && delta.toNat ≤ 1
  | .abiHint base _ nia =>
    typeOfIRExpr T tyenv base == gWordTy && typeOfIRExpr T tyenv nia == gWordTy
  | .put _ data => tcExpr T tyenv gWordTy data && typeOfIRExpr T tyenv data != .i1
  | .putI descr ix _ data =>
    tcExpr T tyenv gWordTy data && tcExpr T tyenv gWordTy ix &&
      typeOfIRExpr T tyenv data != .i1 && typeOfIRExpr T tyenv data == descr.elemTy &&
      typeOfIRExpr T tyenv ix == .i32 && saneIRRegArray descr
  | .wrTmp tmp data =>
    tcExpr T tyenv gWordTy data && typeOfIRTemp tyenv tmp == typeOfIRExpr T tyenv data
  | .store _ addr data =>
    tcExpr T tyenv gWordTy addr && tcExpr T tyenv gWordTy data &&
      typeOfIRExpr T tyenv addr == gWordTy && typeOfIRExpr T tyenv data != .i1
  | .storeG _ addr data guard =>
    tcExpr T tyenv gWordTy addr && tcExpr T tyenv gWordTy data && tcExpr T tyenv gWordTy guard &&
      typeOfIRExpr T tyenv addr == gWordTy && typeOfIRExpr T tyenv data != .i1 &&
      typeOfIRExpr T tyenv guard == .i1
  | .loadG _ cvt dst addr alt guard =>
    tcExpr T tyenv gWordTy addr && tcExpr T tyenv gWordTy alt && tcExpr T tyenv gWordTy guard &&
      typeOfIRExpr T tyenv guard == .i1 && typeOfIRExpr T tyenv addr == gWordTy &&
      typeOfIRExpr T tyenv alt == typeOfIRTemp tyenv dst &&
      (typeOfIRLoadGOp cvt).1 == typeOfIRTemp tyenv dst
  | .cas oldHi oldLo _ addr expdHi expdLo dataHi dataLo =>
    tcExpr T tyenv gWordTy addr && typeOfIRExpr T tyenv addr == gWordTy &&
      typeOfIRExpr T tyenv expdLo == typeOfIRExpr T tyenv dataLo &&
      typeOfIRExpr T tyenv expdLo == typeOfIRTemp tyenv oldLo &&
      (typeOfIRExpr T tyenv expdLo == .i8 || typeOfIRExpr T tyenv expdLo == .i16 ||
        typeOfIRExpr T tyenv expdLo == .i32 ||
        gWordTy == .i64 && typeOfIRExpr T tyenv expdLo == .i64) &&
      tcDCAS T tyenv oldLo oldHi expdHi dataHi
  | .llsc _ result addr storedata =>
    typeOfIRExpr T tyenv addr == gWordTy &&
      storedata.elim (isLinked (typeOfIRTemp tyenv result)) fun storedata =>
        typeOfIRTemp tyenv result == .i1 && isLinked (typeOfIRExpr T tyenv storedata)
  | .dirty d => tcDirty T tyenv gWordTy d
  | .exit guard _ dst offsIP =>
    tcExpr T tyenv gWordTy guard && typeOfIRExpr T tyenv guard == .i1 &&
      typeOfIRConst dst == gWordTy && 16 ≤ offsIP

end Check

/-- The table of primitive operations has the types of the four operations that a guarded load
widens with. -/
def OpTable.Widens (T : OpTable Op) : Prop :=
  ∀ cvt op, T.cvtOp cvt = some op →
    T.typesOfArgs op = [(typeOfIRLoadGOp cvt).2] ∧ T.typeOfPrimop op = (typeOfIRLoadGOp cvt).1

theorem widenTable_widens : widenTable.Widens := by
  intro cvt op h
  cases cvt <;> cases h <;> exact ⟨rfl, rfl⟩

/-- Where there is nothing to widen with, the value has the type that it is loaded with. -/
theorem typeOfIRLoadGOp_of_cvtOp {T : OpTable Op} {cvt : IRLoadGOp} (h : T.cvtOp cvt = none) :
    (typeOfIRLoadGOp cvt).1 = (typeOfIRLoadGOp cvt).2 := by
  cases cvt with
  | identV128 | ident64 | ident32 => rfl
  | _ => cases h

/-- The type checks of `sanityCheckIRSB`. -/
def typecheckIRSB (T : OpTable Op) (gWordTy : IRType) (bb : IRSB Op Fn) : Bool :=
  bb.stmts.all (tcStmt T bb.tyenv gWordTy) && typeOfIRExpr T bb.tyenv bb.next == gWordTy &&
    16 ≤ bb.offsIP

theorem typecheckIRSB_iff {T : OpTable Op} {gWordTy : IRType} {bb : IRSB Op Fn} :
    typecheckIRSB T gWordTy bb = true ↔
      (∀ st ∈ bb.stmts, tcStmt T bb.tyenv gWordTy st = true) ∧
        typeOfIRExpr T bb.tyenv bb.next = gWordTy ∧ 16 ≤ bb.offsIP := by
  simp only [typecheckIRSB, Bool.and_eq_true, List.all_eq_true, beq_iff_eq, decide_eq_true_eq,
    and_assoc]

/-! ### Statements with other expressions -/

section Alike

variable {T : OpTable Op} {gWordTy : IRType} {tyenv tyenv' : IRTypeEnv} {e e' : IRExpr Op Fn}

/-- **The new expression has the type of the old one**, and is well-typed if that is. -/
structure SameType (T : OpTable Op) (gWordTy : IRType) (tyenv tyenv' : IRTypeEnv)
    (e e' : IRExpr Op Fn) : Prop where
  /-- The type is the same. -/
  type : typeOfIRExpr T tyenv' e' = typeOfIRExpr T tyenv e
  /-- The check is passed if it was. -/
  tc : tcExpr T tyenv gWordTy e = true → tcExpr T tyenv' gWordTy e' = true

theorem tcArgs_eq (es : List (IRExpr Op Fn)) :
    tcArgs T tyenv gWordTy es = es.all (tcExpr T tyenv gWordTy) := by
  induction es with
  | nil => rfl
  | cons e es ih => rw [tcArgs, ih, List.all_cons]

/-- An atom is well-typed in any case. -/
theorem tcExpr_of_isIRAtom (he : isIRAtom e = true) : tcExpr T tyenv gWordTy e = true := by
  cases e with
  | rdTmp | const => rfl
  | _ => cases he

/-- **A compound expression with other parts.** -/
theorem IRExpr.Alike.sameType (h : e.Alike (SameType T gWordTy tyenv tyenv') e') :
    SameType T gWordTy tyenv tyenv' e e' := by
  cases h with
  | get | const => exact ⟨rfl, fun _ => rfl⟩
  | getI descr bias h =>
    refine ⟨rfl, fun htc => ?_⟩
    simp only [tcExpr, Bool.and_eq_true, h.type] at htc ⊢
    exact ⟨⟨h.tc htc.1.1, htc.1.2⟩, htc.2⟩
  | qop op h1 h2 h3 h4 =>
    refine ⟨rfl, fun htc => ?_⟩
    simp only [tcExpr, Bool.and_eq_true, h1.type, h2.type, h3.type, h4.type] at htc ⊢
    exact ⟨⟨⟨⟨h1.tc htc.1.1.1.1, h2.tc htc.1.1.1.2⟩, h3.tc htc.1.1.2⟩, h4.tc htc.1.2⟩, htc.2⟩
  | triop op h1 h2 h3 =>
    refine ⟨rfl, fun htc => ?_⟩
    simp only [tcExpr, Bool.and_eq_true, h1.type, h2.type, h3.type] at htc ⊢
    exact ⟨⟨⟨h1.tc htc.1.1.1, h2.tc htc.1.1.2⟩, h3.tc htc.1.2⟩, htc.2⟩
  | binop op h1 h2 =>
    refine ⟨rfl, fun htc => ?_⟩
    simp only [tcExpr, Bool.and_eq_true, h1.type, h2.type] at htc ⊢
    exact ⟨⟨h1.tc htc.1.1, h2.tc htc.1.2⟩, htc.2⟩
  | unop op h =>
    refine ⟨rfl, fun htc => ?_⟩
    simp only [tcExpr, Bool.and_eq_true, h.type] at htc ⊢
    exact ⟨h.tc htc.1, htc.2⟩
  | load endn ty h =>
    refine ⟨rfl, fun htc => ?_⟩
    simp only [tcExpr, Bool.and_eq_true, h.type] at htc ⊢
    exact ⟨h.tc htc.1, htc.2⟩
  | ite h1 h2 h3 =>
    refine ⟨h3.type, fun htc => ?_⟩
    simp only [tcExpr, Bool.and_eq_true, h1.type, h2.type, h3.type] at htc ⊢
    exact ⟨⟨⟨⟨h1.tc htc.1.1.1.1, h2.tc htc.1.1.1.2⟩, h3.tc htc.1.1.2⟩, htc.1.2⟩, htc.2⟩
  | ccall cee retty hargs =>
    refine ⟨rfl, fun htc => ?_⟩
    simp only [tcExpr, tcArgs_eq, Bool.and_eq_true, ← hargs.length_eq] at htc ⊢
    refine ⟨⟨⟨htc.1.1.1, ?_⟩, htc.1.2⟩, ?_⟩
    · refine List.all_eq_true.mpr fun arg' harg' => ?_
      obtain ⟨arg, harg, h⟩ := exists_of_mem_right hargs harg'
      exact h.tc (List.all_eq_true.mp htc.1.1.2 arg harg)
    · refine List.all_eq_true.mpr fun arg' harg' => ?_
      obtain ⟨arg, harg, h⟩ := exists_of_mem_right hargs harg'
      rw [h.type]
      exact List.all_eq_true.mp htc.2 arg harg

theorem SameType.arg {arg arg' : IRArg Op Fn}
    (h : arg.Alike (SameType T gWordTy tyenv tyenv') arg') :
    typeOfIRArg T tyenv' arg' = typeOfIRArg T tyenv arg := by
  cases h with
  | expr h => exact congrArg some h.type
  | vecret | gsptr => rfl

end Alike

/-! ### More temporaries -/

section Grown

variable {T : OpTable Op} {gWordTy : IRType} {tyenv tyenv' : IRTypeEnv} {e : IRExpr Op Fn}

theorem typeOfIRTemp_append (tys : List IRType) {t : IRTemp}
    (ht : t < tyenv.length) : typeOfIRTemp (tyenv ++ tys) t = typeOfIRTemp tyenv t := by
  rw [typeOfIRTemp, typeOfIRTemp, List.getD_eq_getElem?_getD, List.getD_eq_getElem?_getD,
    List.getElem?_append_left ht]

theorem typeOfIRTemp_of_grown (h : tyenv <+: tyenv') {t : IRTemp}
    (ht : t < tyenv.length) : typeOfIRTemp tyenv' t = typeOfIRTemp tyenv t := by
  obtain ⟨tys, rfl⟩ := h
  exact typeOfIRTemp_append tys ht

theorem typeOfIRExpr_of_grown (h : tyenv <+: tyenv') (he : ∀ t ∈ e.temps, t < tyenv.length) :
    typeOfIRExpr T tyenv' e = typeOfIRExpr T tyenv e := by
  induction e using IRExpr.inductOn with
  | rdTmp tmp => exact typeOfIRTemp_of_grown h (he tmp (List.mem_singleton_self tmp))
  | ite _ _ _ _ _ ih =>
    exact ih fun t ht => he t (List.mem_append_right _ ht)
  | _ => rfl

end Grown

end Vex

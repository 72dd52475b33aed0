import DepLeak.Vex.Types

/-!
# Well-typed superblocks

What the type checks are for: on a machine on which the operations bring values of the
types that they say, a superblock that passes the sanity checks never has a value in a
temporary that is of another type than the temporary (`Vex.typed_run`), and neither is
any value that a statement works on (`Vex.eval_hasType`).

Flatness has to be asked for. The checks look into the expressions of most statements,
but not of all of them (the ones that a compare-and-swap expects and stores, for
instance); of atoms there is nothing to look at.
-/

namespace Vex

open Straight

variable {Op Fn V σ : Type}

/-- **A machine on which values have types**: everything that brings a value brings one of the
type that it says, if the values it gets are of the types that it asks for. -/
structure TypedMachine (T : OpTable Op) (M : Machine Op Fn V σ) (hasType : V → IRType → Prop) :
    Prop where
  /-- Constants. -/
  const : ∀ con, hasType (M.const con) (typeOfIRConst con)
  /-- Parts of the guest state. -/
  get : ∀ s offset ty, hasType (M.get s offset ty) ty
  /-- Elements of arrays in the guest state. -/
  getI : ∀ s descr ix bias, hasType (M.getI s descr ix bias) descr.elemTy
  /-- Memory. -/
  load : ∀ s endn ty addr, hasType (M.load s endn ty addr) ty
  /-- Primitive operations. -/
  unop : ∀ op v ty, T.typesOfArgs op = [ty] → hasType v ty →
    hasType (M.unop op v) (T.typeOfPrimop op)
  /-- Primitive operations. -/
  binop : ∀ op v₁ v₂ ty₁ ty₂, T.typesOfArgs op = [ty₁, ty₂] → hasType v₁ ty₁ → hasType v₂ ty₂ →
    hasType (M.binop op v₁ v₂) (T.typeOfPrimop op)
  /-- Primitive operations. -/
  triop : ∀ op v₁ v₂ v₃ ty₁ ty₂ ty₃, T.typesOfArgs op = [ty₁, ty₂, ty₃] → hasType v₁ ty₁ →
    hasType v₂ ty₂ → hasType v₃ ty₃ → hasType (M.triop op v₁ v₂ v₃) (T.typeOfPrimop op)
  /-- Primitive operations. -/
  qop : ∀ op v₁ v₂ v₃ v₄ ty₁ ty₂ ty₃ ty₄, T.typesOfArgs op = [ty₁, ty₂, ty₃, ty₄] →
    hasType v₁ ty₁ → hasType v₂ ty₂ → hasType v₃ ty₃ → hasType v₄ ty₄ →
    hasType (M.qop op v₁ v₂ v₃ v₄) (T.typeOfPrimop op)
  /-- Helper functions. -/
  ccall : ∀ cee retty vs, hasType (M.ccall cee retty vs) retty
  /-- The old value in memory, where it is compared with one of its type. -/
  casLo : ∀ s endn addr expdHi expdLo dataHi dataLo ty, hasType expdLo ty →
    hasType (M.cas s endn addr expdHi expdLo dataHi dataLo).2.2 ty
  /-- The second part of the old value. -/
  casHi : ∀ s endn addr expdHi expdLo dataHi dataLo ty, hasType expdHi ty →
    hasType (M.cas s endn addr (some expdHi) expdLo dataHi dataLo).2.1 ty
  /-- Load-linked and store-conditional. -/
  llsc : ∀ s endn ty addr data, hasType (M.llsc s endn ty addr data).2 ty
  /-- Dirty helpers. -/
  dirty : ∀ s cee vs ty, hasType (M.dirty s cee vs (some ty)).2 ty
  /-- Dirty helpers that are not called. -/
  skipped : ∀ ty, hasType (M.skipped ty) ty

/-- The temporaries in `D` have values of their types. -/
def HaveTypes (hasType : V → IRType → Prop) (tyenv : IRTypeEnv) (D : Set IRTemp)
    (ρ : IRTemp → V) : Prop :=
  ∀ t ∈ D, hasType (ρ t) (typeOfIRTemp tyenv t)

section Typed

variable {T : OpTable Op} {M : Machine Op Fn V σ} {hasType : V → IRType → Prop}
  {gWordTy : IRType} {tyenv : IRTypeEnv} {D : Set IRTemp} {n : ℕ}

/-- **A well-typed expression has a value of its type.** -/
theorem eval_hasType (hM : TypedMachine T M hasType) {c : Config V σ}
    (hc : HaveTypes hasType tyenv D c.1) {e : IRExpr Op Fn} (hD : ∀ t ∈ e.temps, t ∈ D)
    (htc : tcExpr T tyenv gWordTy e = true) :
    hasType (e.eval M c) (typeOfIRExpr T tyenv e) := by
  induction e using IRExpr.inductOn with
  | get => exact hM.get _ _ _
  | getI => exact hM.getI _ _ _ _
  | rdTmp tmp => exact hc tmp (hD tmp (List.mem_singleton_self tmp))
  | const con => exact hM.const con
  | load => exact hM.load _ _ _ _
  | ccall => exact hM.ccall _ _ _
  | unop op arg ih =>
    simp only [tcExpr, Bool.and_eq_true, beq_iff_eq] at htc
    exact hM.unop op _ _ htc.2 (ih hD htc.1)
  | binop op arg1 arg2 ih1 ih2 =>
    simp only [tcExpr, Bool.and_eq_true, beq_iff_eq] at htc
    simp only [IRExpr.temps, List.mem_append, or_imp, forall_and] at hD
    exact hM.binop op _ _ _ _ htc.2 (ih1 hD.1 htc.1.1) (ih2 hD.2 htc.1.2)
  | triop op arg1 arg2 arg3 ih1 ih2 ih3 =>
    simp only [tcExpr, Bool.and_eq_true, beq_iff_eq] at htc
    simp only [IRExpr.temps, List.mem_append, or_imp, forall_and] at hD
    exact hM.triop op _ _ _ _ _ _ htc.2 (ih1 hD.1.1 htc.1.1.1) (ih2 hD.1.2 htc.1.1.2)
      (ih3 hD.2 htc.1.2)
  | qop op arg1 arg2 arg3 arg4 ih1 ih2 ih3 ih4 =>
    simp only [tcExpr, Bool.and_eq_true, beq_iff_eq] at htc
    simp only [IRExpr.temps, List.mem_append, or_imp, forall_and] at hD
    exact hM.qop op _ _ _ _ _ _ _ _ htc.2 (ih1 hD.1.1.1 htc.1.1.1.1) (ih2 hD.1.1.2 htc.1.1.1.2)
      (ih3 hD.1.2 htc.1.1.2) (ih4 hD.2 htc.1.2)
  | ite cond iftrue iffalse _ ih2 ih3 =>
    simp only [tcExpr, Bool.and_eq_true, beq_iff_eq] at htc
    simp only [IRExpr.temps, List.mem_append, or_imp, forall_and] at hD
    rw [IRExpr.eval, typeOfIRExpr]
    split
    · exact htc.2 ▸ ih2 hD.1.2 htc.1.1.1.2
    · exact ih3 hD.2 htc.1.1.2

/-- An atom has a value of its type. -/
theorem eval_atom_hasType (hM : TypedMachine T M hasType) {c : Config V σ}
    (hc : HaveTypes hasType tyenv D c.1) {e : IRExpr Op Fn} (he : isIRAtom e = true)
    (hD : ∀ t ∈ e.temps, t ∈ D) : hasType (e.eval M c) (typeOfIRExpr T tyenv e) := by
  have htc : tcExpr T tyenv .i64 e = true := tcExpr_of_isIRAtom he
  exact eval_hasType hM hc hD htc

/-- The value of a guarded load has the type that the load says. -/
theorem loadGValue_hasType (hM : TypedMachine T M hasType) (hT : T.Widens) (s : σ)
    (endn : IREndness) (cvt : IRLoadGOp) (addr : V) :
    hasType (loadGValue T M s endn cvt addr) (typeOfIRLoadGOp cvt).1 := by
  rw [loadGValue]
  cases hop : T.cvtOp cvt with
  | none =>
    rw [typeOfIRLoadGOp_of_cvtOp hop]
    exact hM.load _ _ _ _
  | some op =>
    obtain ⟨hargs, hres⟩ := hT cvt op hop
    rw [← hres]
    exact hM.unop op _ _ hargs (hM.load _ _ _ _)

/-- **A well-typed statement assigns values of the types of the temporaries.** -/
theorem sem_hasType (hM : TypedMachine T M hasType) (hT : T.Widens) {c : Config V σ}
    (hc : HaveTypes hasType tyenv D c.1) {st : IRStmt Op Fn} (hflat : isFlatIRStmt st = true)
    (hD : ∀ e ∈ st.checked, ∀ t ∈ e.temps, t ∈ D) (hnodup : st.defs.Nodup)
    (htc : tcStmt T tyenv gWordTy st = true) :
    HaveTypes hasType tyenv {t | t ∈ st.defs} (st.sem T M tyenv c).1.1 := by
  intro t ht
  cases st with
  | wrTmp tmp data =>
    obtain rfl := List.mem_singleton.mp ht
    simp only [tcStmt, Bool.and_eq_true, beq_iff_eq] at htc
    simp only [IRStmt.sem, Function.update_self, htc.2]
    exact eval_hasType hM hc (hD data (List.mem_singleton_self data)) htc.1
  | loadG endn cvt dst addr alt guard =>
    obtain rfl := List.mem_singleton.mp ht
    simp only [tcStmt, Bool.and_eq_true, beq_iff_eq] at htc
    simp only [IRStmt.sem, Function.update_self]
    split
    · rw [← htc.2]
      exact loadGValue_hasType hM hT _ _ _ _
    · rw [← htc.1.2]
      exact eval_hasType hM hc (hD alt (by simp [IRStmt.checked, IRStmt.exprs])) htc.1.1.1.1.1.2
  | cas oldHi oldLo endn addr expdHi expdLo dataHi dataLo =>
    simp only [isFlatIRStmt, Bool.and_eq_true] at hflat
    simp only [tcStmt, Bool.and_eq_true, beq_iff_eq] at htc
    have hLo := eval_atom_hasType hM hc hflat.1.1.2
      (hD expdLo (by simp [IRStmt.checked, IRStmt.exprs]))
    cases oldHi with
    | none =>
      obtain rfl : t = oldLo := by simpa [IRStmt.defs] using ht
      simp only [IRStmt.sem, setTmp, Option.elim_none, Function.update_self, ← htc.1.1.2]
      exact hM.casLo _ _ _ _ _ _ _ _ hLo
    | some oldHi =>
      have hne : oldLo ≠ oldHi := by
        rintro rfl
        simp [IRStmt.defs] at hnodup
      cases expdHi with
      | none => simp [tcDCAS] at htc
      | some expdHi =>
        cases dataHi with
        | none => simp [tcDCAS] at htc
        | some dataHi =>
          have hHi := eval_atom_hasType hM hc hflat.1.1.1.2
            (hD expdHi (by simp [IRStmt.checked, IRStmt.exprs]))
          simp only [tcDCAS, Bool.and_eq_true, beq_iff_eq] at htc
          have htmp : t = oldHi ∨ t = oldLo := by simpa [IRStmt.defs] using ht
          simp only [IRStmt.sem, setTmp, Option.elim_some, Option.map_some]
          rcases htmp with rfl | rfl
          · rw [Function.update_self, ← htc.2.1.2]
            exact hM.casHi _ _ _ _ _ _ _ _ hHi
          · rw [Function.update_of_ne hne, Function.update_self, ← htc.1.1.2]
            exact hM.casLo _ _ _ _ _ _ _ _ hLo
  | llsc endn result addr storedata =>
    obtain rfl := List.mem_singleton.mp ht
    simp only [IRStmt.sem, Function.update_self]
    exact hM.llsc _ _ _ _ _
  | dirty d =>
    have htmp : d.tmp = some t := by simpa [IRStmt.defs] using ht
    simp only [IRStmt.sem, htmp, Option.map_some, setTmp, Option.elim_some]
    split
    · simp only [Function.update_self]
      exact hM.dirty _ _ _ _
    · simp only [Function.update_self]
      exact hM.skipped _
  | _ => simp [IRStmt.defs] at ht

/-- **One statement more**: the temporaries that have been assigned have values of their
types. -/
theorem HaveTypes.step (hM : TypedMachine T M hasType) (hT : T.Widens) {c : Config V σ}
    (hc : HaveTypes hasType tyenv D c.1) {st : IRStmt Op Fn} {stmts : List (IRStmt Op Fn)}
    (hssa : Ssa IRStmt.checked n D (st :: stmts)) (hflat : isFlatIRStmt st = true)
    (htc : tcStmt T tyenv gWordTy st = true) :
    HaveTypes hasType tyenv (D ∪ {t | t ∈ st.defs}) (st.sem T M tyenv c).1.1 := by
  obtain ⟨hread, hnodup, hdefs, -⟩ := hssa
  rintro t (ht | ht)
  · rw [st.sem_frame c fun h => (hdefs t h).2 ht]
    exact hc t ht
  · exact sem_hasType hM hT hc hflat (fun e he t ht => (hread e he t ht).2) hnodup htc t ht

/-- **Wherever the execution of a superblock has come to**, the temporaries that have been
assigned have values of their types. -/
theorem typed_run (hM : TypedMachine T M hasType) (hT : T.Widens) {c c' : Config V σ}
    (hc : HaveTypes hasType tyenv D c.1) {pre post : List (IRStmt Op Fn)}
    (hssa : Ssa IRStmt.checked n D (pre ++ post))
    (hflat : ∀ st ∈ pre, isFlatIRStmt st = true)
    (htc : ∀ st ∈ pre, tcStmt T tyenv gWordTy st = true)
    (hrun : run (IRStmt.sem T M tyenv) pre c = (c', none)) :
    HaveTypes hasType tyenv (D ∪ defsOf pre) c'.1 := by
  induction pre generalizing D c with
  | nil =>
    obtain rfl := (Prod.mk.inj hrun).1
    simpa [defsOf] using hc
  | cons st pre ih =>
    have hstep := hc.step hM hT hssa (hflat st List.mem_cons_self) (htc st List.mem_cons_self)
    rw [run] at hrun
    rcases hst : st.sem T M tyenv c with ⟨c₁, _ | w⟩
    · rw [hst] at hrun hstep
      rw [defsOf_cons, ← Set.union_assoc]
      exact ih hstep hssa.2.2.2 (fun st' h => hflat st' (List.mem_cons_of_mem _ h))
        (fun st' h => htc st' (List.mem_cons_of_mem _ h)) hrun
    · rw [hst] at hrun
      cases hrun

/-- The expressions of a flat statement that is well-typed are well-typed. -/
theorem tcExpr_of_mem_exprs {st : IRStmt Op Fn} (hflat : isFlatIRStmt st = true)
    (htc : tcStmt T tyenv gWordTy st = true) {e : IRExpr Op Fn} (he : e ∈ st.exprs) :
    tcExpr T tyenv gWordTy e = true := by
  by_cases hst : ∃ tmp data, st = .wrTmp tmp data
  · obtain ⟨tmp, data, rfl⟩ := hst
    obtain rfl := List.mem_singleton.mp he
    exact (Bool.and_eq_true_iff.mp htc).1
  · exact tcExpr_of_isIRAtom ((isFlatIRStmt_iff fun tmp data h => hst ⟨tmp, data, h⟩).mp hflat e he)

/-- **Values are of the types that the superblock says.** Wherever the execution of a flat
superblock that passes the checks has come to, every temporary that has been assigned has
a value of its type, and so has every expression that is looked at next. -/
theorem hasType_of_sane (hM : TypedMachine T M hasType) (hT : T.Widens) {bb : IRSB Op Fn}
    (hsane : sanityCheckIRSB bb true = true) (htc : typecheckIRSB T gWordTy bb = true)
    {pre post : List (IRStmt Op Fn)} {st : IRStmt Op Fn} (hstmts : bb.stmts = pre ++ st :: post)
    {c c' : Config V σ} (hrun : run (IRStmt.sem T M bb.tyenv) pre c = (c', none)) :
    (∀ t ∈ defsOf pre, hasType (c'.1 t) (typeOfIRTemp bb.tyenv t)) ∧
      ∀ e ∈ st.checked, hasType (e.eval M c') (typeOfIRExpr T bb.tyenv e) := by
  obtain ⟨hflat, hssa, -, -⟩ := sanityCheckIRSB_true_iff.mp hsane
  obtain ⟨hflat, -⟩ := Bool.and_eq_true_iff.mp hflat
  obtain ⟨htc, -⟩ := Bool.and_eq_true_iff.mp (Bool.and_eq_true_iff.mp htc).1
  rw [List.all_eq_true, hstmts] at hflat htc
  rw [hstmts] at hssa
  have hpre {st' : IRStmt Op Fn} (h : st' ∈ pre) : st' ∈ pre ++ st :: post :=
    List.mem_append_left _ h
  have hst : st ∈ pre ++ st :: post := List.mem_append_right _ List.mem_cons_self
  have hnone : HaveTypes hasType bb.tyenv ∅ c.1 := fun t ht => absurd ht (Set.notMem_empty t)
  have hc' := typed_run hM hT hnone hssa (fun st' h => hflat st' (hpre h))
    (fun st' h => htc st' (hpre h)) hrun
  rw [Set.empty_union] at hc'
  refine ⟨hc', fun e he => ?_⟩
  have hread := (ssa_append.mp hssa).2.1 e he
  rw [Set.empty_union] at hread
  exact eval_hasType hM hc' (fun t ht => (hread t ht).2)
    (tcExpr_of_mem_exprs (hflat st hst) (htc st hst) (st.checked_subset he))

end Typed

/-! ### A machine to compute with -/

/-- The parts of the guest state have no byte in common; what has no size counts as one byte. -/
def apart (offset : ℤ) (ty : IRType) (offset' : ℤ) (n' : ℤ) : Bool :=
  offset + (sizeofIRType ty).getD 1 ≤ offset' || offset' + n' ≤ offset

/-- A machine whose values are numbers with a type, and whose guest state has a number for every
offset and type: what is written over is 0. There is nothing in memory. -/
def slots {Fn : Type} : Machine Widen Fn (IRType × ℕ) (ℤ → IRType → ℕ) where
  const con := (typeOfIRConst con, con.toNat)
  truth v := BitVec.ofNat 64 v.2 ≠ 0
  truth_u1 b := by cases b <;> rfl
  get s offset ty := (ty, s offset ty)
  getI _ descr _ _ := (descr.elemTy, 0)
  load _ _ ty _ := (ty, 0)
  unop _ v := (.i32, v.2)
  binop _ v _ := (.i32, v.2)
  triop _ v _ _ := (.i32, v.2)
  qop _ v _ _ _ := (.i32, v.2)
  ccall _ retty _ := (retty, 0)
  put s offset v := fun offset' ty =>
    if offset' = offset ∧ ty = v.1 then v.2
    else if apart offset' ty offset ((sizeofIRType v.1).getD 0) then s offset' ty else 0
  putI s descr _ _ _ := fun offset ty =>
    if apart offset ty descr.base (descr.nElems * (sizeofIRType descr.elemTy).getD 0) then
      s offset ty
    else 0
  store s _ _ _ := s
  cas s _ _ expdHi expdLo _ _ := (s, expdHi.getD (.invalid, 0), expdLo)
  llsc s _ ty _ _ := (s, ty, 0)
  dirty s _ _ ty := (s, ty.getD .invalid, 0)
  skipped ty := (ty, 0)
  vecret := (.i64, 0)
  gsptr := (.i64, 0)
  mbe s _ := s

theorem slots_typed {Fn : Type} :
    TypedMachine widenTable (slots : Machine Widen Fn _ _) fun v ty => v.1 = ty where
  const _ := rfl
  get _ _ _ := rfl
  getI _ _ _ _ := rfl
  load _ _ _ _ := rfl
  unop _ _ _ _ _ := rfl
  binop _ _ _ _ _ _ _ _ := rfl
  triop _ _ _ _ _ _ _ _ _ _ _ := rfl
  qop _ _ _ _ _ _ _ _ _ _ _ _ _ _ := rfl
  ccall _ _ _ := rfl
  casLo _ _ _ _ _ _ _ _ h := h
  casHi _ _ _ _ _ _ _ _ h := h
  llsc _ _ _ _ _ := rfl
  dirty _ _ _ _ := rfl
  skipped _ := rfl

/-- After a constant and a guarded load, before the Put. -/
theorem hasType_of_sane_slots :
    let bb : IRSB Widen Unit :=
      { tyenv := [.i1, .i32]
        stmts := [.wrTmp 0 (.const (.u1 true)),
          .loadG .le .op8Uto32 1 (.const (.u64 64)) (.const (.u32 9)) (.rdTmp 0),
          .put 16 (.rdTmp 1), .exit (.rdTmp 0) .boring (.u64 4096) 184]
        next := .const (.u64 8192)
        jumpkind := .boring
        offsIP := 184 }
    let c : Config (IRType × ℕ) (ℤ → IRType → ℕ) := (fun _ => (.invalid, 0), fun _ _ => 0)
    let c' := (run (IRStmt.sem widenTable slots bb.tyenv) (bb.stmts.take 2) c).1
    (∀ t ∈ defsOf (bb.stmts.take 2), (c'.1 t).1 = typeOfIRTemp bb.tyenv t) ∧
      ∀ e ∈ (IRStmt.put 16 (.rdTmp 1) : IRStmt Widen Unit).checked,
        (e.eval slots c').1 = typeOfIRExpr widenTable bb.tyenv e := by
  intro bb c c'
  have hsane : sanityCheckIRSB bb true = true := by decide
  have htc : typecheckIRSB widenTable .i64 bb = true := by decide
  have hrun : run (IRStmt.sem widenTable slots bb.tyenv) (bb.stmts.take 2) c = (c', none) := rfl
  exact hasType_of_sane slots_typed widenTable_widens hsane htc rfl hrun

end Vex

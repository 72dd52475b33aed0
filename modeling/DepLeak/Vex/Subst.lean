import DepLeak.Vex.Fold

/-!
# Substitution

What `cprop_BB` makes of a statement: the constants and copies in the environment are put in
for the temporaries they were assigned to, expressions are folded, and where a guard has
become a constant, the statement becomes simpler (`Vex.substAndMaybeFoldStmt`).

The assignments of those constants and copies are dropped. So there are two executions
to tell about, one with them and one without: they have the same state, and the same
values of temporaries whose assignments have not been dropped (`Vex.Corresponds`); and the
environment binds what has been assigned, to expressions over such temporaries
(`Vex.EnvOk`).
-/

namespace Vex

open Straight

variable {Op Fn V σ : Type}

/-! ### Substitution -/

mutual

/-- `subst_Expr`. -/
def substExpr (env : Env Op Fn) : IRExpr Op Fn → IRExpr Op Fn
  | .rdTmp tmp =>
    match env tmp with
    | some rhs => if isPropagated rhs then rhs else .rdTmp tmp
    | none => .rdTmp tmp
  | .const con => .const con
  | .get offset ty => .get offset ty
  | .getI descr ix bias => .getI descr (substExpr env ix) bias
  | .qop op arg1 arg2 arg3 arg4 =>
    .qop op (substExpr env arg1) (substExpr env arg2) (substExpr env arg3) (substExpr env arg4)
  | .triop op arg1 arg2 arg3 =>
    .triop op (substExpr env arg1) (substExpr env arg2) (substExpr env arg3)
  | .binop op arg1 arg2 => .binop op (substExpr env arg1) (substExpr env arg2)
  | .unop op arg => .unop op (substExpr env arg)
  | .load endn ty addr => .load endn ty (substExpr env addr)
  | .ccall cee retty args => .ccall cee retty (substArgs env args)
  | .ite cond iftrue iffalse =>
    .ite (substExpr env cond) (substExpr env iftrue) (substExpr env iffalse)

/-- The loop of `subst_Expr` over the arguments of a call. -/
def substArgs (env : Env Op Fn) : List (IRExpr Op Fn) → List (IRExpr Op Fn)
  | [] => []
  | arg :: args => substExpr env arg :: substArgs env args

end

/-- What a statement becomes where a guard is a constant; other constants than those of type
`Ity_I1` are excluded by assertions. -/
def simplifyStmt : IRStmt Op Fn → IRStmt Op Fn
  | .storeG _ _ _ (.const (.u1 false)) => .noOp
  | .storeG endn addr data (.const (.u1 true)) => .store endn addr data
  -- if the load always happens, that is dealt with by the caller
  | .loadG _ _ dst _ alt (.const (.u1 false)) => .wrTmp dst alt
  | .exit (.const (.u1 false)) _ _ _ => .noOp
  | st => st

section Fold

variable [DecidableEq Op] (rules : Rules Op Fn) (doFolding : Bool)

/-- `fold_Expr`, after `subst_Expr`. -/
def substFold (env : Env Op Fn) (e : IRExpr Op Fn) : IRExpr Op Fn :=
  if doFolding then foldExprWRK rules env (substExpr env e) else substExpr env e

/-- `subst_and_maybe_fold_Stmt`. -/
def substAndMaybeFoldStmt (env : Env Op Fn) (st : IRStmt Op Fn) : IRStmt Op Fn :=
  simplifyStmt (st.mapExprs (substFold rules doFolding env))

end Fold

/-! ### What is put in -/

/-- **The invariant of the two executions**: they have the same state, and the same values of
temporaries whose assignments have not been dropped. In the first one, temporaries have
the values of what they have been assigned. -/
structure Corresponds (M : Machine Op Fn V σ) (env : Env Op Fn) (c c' : Config V σ) : Prop where
  /-- The same state. -/
  state : c.2 = c'.2
  /-- The same values. -/
  vals : ∀ t, ¬Dropped env t → c.1 t = c'.1 t
  /-- The values of what has been assigned. -/
  binds : Binds M env c

section Subst

variable {M : Machine Op Fn V σ} {env : Env Op Fn} {D : Set IRTemp} {c c' : Config V σ}

theorem isStateless_of_isPropagated {e : IRExpr Op Fn} (h : isPropagated e = true) :
    e.isStateless = true := by
  cases e with
  | rdTmp | const => rfl
  | _ => cases h

theorem areStateless_eq (es : List (IRExpr Op Fn)) :
    areStateless es = es.all IRExpr.isStateless := by
  induction es with
  | nil => rfl
  | cons e es ih => rw [areStateless, ih, List.all_cons]

/-- The value of an expression that does not look at the state depends on its temporaries
only. -/
theorem IRExpr.eval_of_isStateless {e : IRExpr Op Fn} (he : e.isStateless = true)
    (h : ∀ t ∈ e.temps, c.1 t = c'.1 t) : e.eval M c = e.eval M c' := by
  induction e using IRExpr.inductOn with
  | get | getI | load => cases he
  | const => rfl
  | rdTmp tmp => exact h tmp (List.mem_singleton_self tmp)
  | qop _ _ _ _ _ ih₁ ih₂ ih₃ ih₄ =>
    simp only [IRExpr.isStateless, Bool.and_eq_true] at he
    simp only [IRExpr.temps, List.mem_append] at h
    simp only [IRExpr.eval, ih₁ he.1.1.1 fun t ht => h t (.inl (.inl (.inl ht))),
      ih₂ he.1.1.2 fun t ht => h t (.inl (.inl (.inr ht))),
      ih₃ he.1.2 fun t ht => h t (.inl (.inr ht)), ih₄ he.2 fun t ht => h t (.inr ht)]
  | triop _ _ _ _ ih₁ ih₂ ih₃ | ite _ _ _ ih₁ ih₂ ih₃ =>
    simp only [IRExpr.isStateless, Bool.and_eq_true] at he
    simp only [IRExpr.temps, List.mem_append] at h
    simp only [IRExpr.eval, ih₁ he.1.1 fun t ht => h t (.inl (.inl ht)),
      ih₂ he.1.2 fun t ht => h t (.inl (.inr ht)), ih₃ he.2 fun t ht => h t (.inr ht)]
  | binop _ _ _ ih₁ ih₂ =>
    simp only [IRExpr.isStateless, Bool.and_eq_true] at he
    simp only [IRExpr.temps, List.mem_append] at h
    simp only [IRExpr.eval, ih₁ he.1 fun t ht => h t (.inl ht), ih₂ he.2 fun t ht => h t (.inr ht)]
  | unop _ _ ih => simp only [IRExpr.eval, ih he h]
  | ccall cee retty args ih =>
    simp only [IRExpr.isStateless, areStateless_eq, List.all_eq_true] at he
    simp only [IRExpr.temps, argsTemps_eq, List.mem_flatMap] at h
    simp only [IRExpr.eval, evalArgs_eq]
    exact congrArg _ (List.map_congr_left fun arg harg =>
      ih arg harg (he arg harg) fun t ht => h t ⟨arg, harg, ht⟩)

theorem substArgs_eq (es : List (IRExpr Op Fn)) : substArgs env es = es.map (substExpr env) := by
  induction es with
  | nil => rfl
  | cons e es ih => rw [substArgs, ih, List.map_cons]

theorem substExpr_of_dropped {t : IRTemp} {d : IRExpr Op Fn} (h : env t = some d)
    (hd : isPropagated d = true) : substExpr env (.rdTmp t) = d := by
  simp [substExpr, h, hd]

theorem substExpr_of_not_dropped {t : IRTemp} (h : ¬Dropped env t) :
    substExpr env (.rdTmp t) = .rdTmp t := by
  rw [substExpr]
  split
  · rename_i rhs hrhs
    exact if_neg fun hp => h ⟨rhs, hrhs, hp⟩
  · rfl

/-- After substitution, no temporaries are read whose assignments have been dropped. -/
theorem temps_substExpr (henv : EnvOk D env) (e : IRExpr Op Fn) :
    ∀ t ∈ (substExpr env e).temps, ¬Dropped env t ∧ (t ∈ e.temps ∨ ReadIn env t) := by
  induction e using IRExpr.inductOn with
  | get | const => intro t ht; cases ht
  | rdTmp tmp =>
    intro t ht
    by_cases hd : Dropped env tmp
    · obtain ⟨d, hd, hp⟩ := hd
      rw [substExpr_of_dropped hd hp] at ht
      exact ⟨(henv.read t ⟨tmp, d, hd, ht⟩).2, Or.inr ⟨tmp, d, hd, ht⟩⟩
    · rw [substExpr_of_not_dropped hd] at ht
      obtain rfl := List.mem_singleton.mp ht
      exact ⟨hd, Or.inl ht⟩
  | getI _ _ _ ih | load _ _ _ ih | unop _ _ ih => exact ih
  | qop _ _ _ _ _ ih₁ ih₂ ih₃ ih₄ =>
    intro t ht
    simp only [substExpr, IRExpr.temps, List.mem_append] at ht ⊢
    rcases ht with ((ht | ht) | ht) | ht
    · exact (ih₁ t ht).imp_right (Or.imp_left fun h => .inl (.inl (.inl h)))
    · exact (ih₂ t ht).imp_right (Or.imp_left fun h => .inl (.inl (.inr h)))
    · exact (ih₃ t ht).imp_right (Or.imp_left fun h => .inl (.inr h))
    · exact (ih₄ t ht).imp_right (Or.imp_left Or.inr)
  | triop _ _ _ _ ih₁ ih₂ ih₃ | ite _ _ _ ih₁ ih₂ ih₃ =>
    intro t ht
    simp only [substExpr, IRExpr.temps, List.mem_append] at ht ⊢
    rcases ht with (ht | ht) | ht
    · exact (ih₁ t ht).imp_right (Or.imp_left fun h => .inl (.inl h))
    · exact (ih₂ t ht).imp_right (Or.imp_left fun h => .inl (.inr h))
    · exact (ih₃ t ht).imp_right (Or.imp_left Or.inr)
  | binop _ _ _ ih₁ ih₂ =>
    intro t ht
    simp only [substExpr, IRExpr.temps, List.mem_append] at ht ⊢
    rcases ht with ht | ht
    · exact (ih₁ t ht).imp_right (Or.imp_left Or.inl)
    · exact (ih₂ t ht).imp_right (Or.imp_left Or.inr)
  | ccall cee retty args ih =>
    intro t ht
    simp only [substExpr, IRExpr.temps, argsTemps_eq, substArgs_eq, List.mem_flatMap,
      List.mem_map] at ht ⊢
    obtain ⟨_, ⟨arg, harg, rfl⟩, ht⟩ := ht
    exact (ih arg harg t ht).imp_right (Or.imp_left fun h => ⟨arg, harg, h⟩)

/-- **Substitution keeps the value of an expression.** -/
theorem eval_substExpr (henv : EnvOk D env) (hc : Corresponds M env c c') (e : IRExpr Op Fn) :
    (substExpr env e).eval M c' = e.eval M c := by
  induction e using IRExpr.inductOn with
  | get | const => simp only [substExpr, IRExpr.eval, hc.state]
  | rdTmp tmp =>
    by_cases hd : Dropped env tmp
    · obtain ⟨d, hd, hp⟩ := hd
      have hstateless : d.isStateless = true := isStateless_of_isPropagated hp
      rw [substExpr_of_dropped hd hp]
      calc d.eval M c' = d.eval M c := d.eval_of_isStateless hstateless fun t ht =>
            (hc.vals t (henv.read t ⟨tmp, d, hd, ht⟩).2).symm
        _ = c.1 tmp := (hc.binds tmp d hd hstateless).symm
    · rw [substExpr_of_not_dropped hd]
      exact (hc.vals tmp hd).symm
  | getI _ _ _ ih | load _ _ _ ih | unop _ _ ih =>
    simp only [substExpr, IRExpr.eval, ih, hc.state]
  | qop _ _ _ _ _ ih₁ ih₂ ih₃ ih₄ => simp only [substExpr, IRExpr.eval, ih₁, ih₂, ih₃, ih₄]
  | triop _ _ _ _ ih₁ ih₂ ih₃ | ite _ _ _ ih₁ ih₂ ih₃ =>
    simp only [substExpr, IRExpr.eval, ih₁, ih₂, ih₃]
  | binop _ _ _ ih₁ ih₂ => simp only [substExpr, IRExpr.eval, ih₁, ih₂]
  | ccall cee retty args ih =>
    simp only [substExpr, IRExpr.eval, evalArgs_eq, substArgs_eq, List.map_map]
    exact congrArg _ (List.map_congr_left ih)

theorem isIRAtom_substExpr {e : IRExpr Op Fn} (he : isIRAtom e = true) :
    isIRAtom (substExpr env e) = true := by
  cases e with
  | const => rfl
  | rdTmp tmp =>
    by_cases hd : Dropped env tmp
    · obtain ⟨d, hd, hp⟩ := hd
      rw [substExpr_of_dropped hd hp]
      cases d with
      | rdTmp | const => rfl
      | _ => cases hp
    · rw [substExpr_of_not_dropped hd]
      rfl
  | _ => cases he

theorem isFlatData_substExpr {e : IRExpr Op Fn} (he : isFlatData e = true) :
    isFlatData (substExpr env e) = true := by
  cases e with
  | get | const => rfl
  | rdTmp => exact isFlatData_of_isIRAtom (isIRAtom_substExpr rfl)
  | getI | load | unop => exact isIRAtom_substExpr he
  | qop =>
    simp only [isFlatData, Bool.and_eq_true] at he
    simp only [substExpr, isFlatData, isIRAtom_substExpr he.1.1.1, isIRAtom_substExpr he.1.1.2,
      isIRAtom_substExpr he.1.2, isIRAtom_substExpr he.2, Bool.and_self]
  | triop | ite =>
    simp only [isFlatData, Bool.and_eq_true] at he
    simp only [substExpr, isFlatData, isIRAtom_substExpr he.1.1, isIRAtom_substExpr he.1.2,
      isIRAtom_substExpr he.2, Bool.and_self]
  | binop =>
    simp only [isFlatData, Bool.and_eq_true] at he
    simp only [substExpr, isFlatData, isIRAtom_substExpr he.1, isIRAtom_substExpr he.2,
      Bool.and_self]
  | ccall cee retty args =>
    simp only [isFlatData, List.all_eq_true] at he
    simp only [substExpr, isFlatData, substArgs_eq, List.all_eq_true, List.mem_map]
    rintro _ ⟨arg, harg, rfl⟩
    exact isIRAtom_substExpr (he arg harg)

/-- **Substitution keeps the type of an expression.** -/
theorem sameType_substExpr {T : OpTable Op} {gWordTy : IRType} {tyenv : IRTypeEnv}
    (htenv : EnvTyped T gWordTy tyenv env) (e : IRExpr Op Fn) :
    SameType T gWordTy tyenv tyenv e (substExpr env e) := by
  induction e using IRExpr.inductOn with
  | get | const => exact ⟨rfl, id⟩
  | rdTmp tmp =>
    by_cases hd : Dropped env tmp
    · obtain ⟨d, hd, hp⟩ := hd
      rw [substExpr_of_dropped hd hp]
      exact ⟨htenv.type tmp d hd, fun _ => htenv.tc tmp d hd⟩
    · rw [substExpr_of_not_dropped hd]
      exact ⟨rfl, id⟩
  | getI descr ix bias ih => exact (IRExpr.Alike.getI descr bias ih).sameType
  | unop op arg ih => exact (IRExpr.Alike.unop op ih).sameType
  | load endn ty addr ih => exact (IRExpr.Alike.load endn ty ih).sameType
  | binop op arg1 arg2 ih₁ ih₂ => exact (IRExpr.Alike.binop op ih₁ ih₂).sameType
  | triop op arg1 arg2 arg3 ih₁ ih₂ ih₃ => exact (IRExpr.Alike.triop op ih₁ ih₂ ih₃).sameType
  | qop op arg1 arg2 arg3 arg4 ih₁ ih₂ ih₃ ih₄ =>
    exact (IRExpr.Alike.qop op ih₁ ih₂ ih₃ ih₄).sameType
  | ite cond iftrue iffalse ih₁ ih₂ ih₃ => exact (IRExpr.Alike.ite ih₁ ih₂ ih₃).sameType
  | ccall cee retty args ih =>
    rw [substExpr, substArgs_eq]
    exact (IRExpr.Alike.ccall cee retty (List.forall₂_map_right_iff.mpr
      (List.forall₂_same.mpr ih))).sameType

end Subst

/-! ### What becomes of a statement -/

section Stmt

variable {M : Machine Op Fn V σ} {T : OpTable Op} {tyenv : IRTypeEnv} {gWordTy : IRType}

/-- What a statement can become. -/
inductive Simplified : IRStmt Op Fn → IRStmt Op Fn → Prop
  /-- A store that is never done. -/
  | neverStored (endn : IREndness) (addr data : IRExpr Op Fn) :
    Simplified (.storeG endn addr data (.const (.u1 false))) .noOp
  /-- A store that is always done. -/
  | alwaysStored (endn : IREndness) (addr data : IRExpr Op Fn) :
    Simplified (.storeG endn addr data (.const (.u1 true))) (.store endn addr data)
  /-- A load that is never done. -/
  | neverLoaded (endn : IREndness) (cvt : IRLoadGOp) (dst : IRTemp) (addr alt : IRExpr Op Fn) :
    Simplified (.loadG endn cvt dst addr alt (.const (.u1 false))) (.wrTmp dst alt)
  /-- An exit that is never taken. -/
  | neverTaken (jk : IRJumpKind) (dst : IRConst) (offsIP : ℤ) :
    Simplified (.exit (.const (.u1 false)) jk dst offsIP) .noOp
  /-- Anything else. -/
  | same (st : IRStmt Op Fn) : Simplified st st

theorem simplified_simplifyStmt (st : IRStmt Op Fn) : Simplified st (simplifyStmt st) := by
  unfold simplifyStmt
  split
  · exact .neverStored _ _ _
  · exact .alwaysStored _ _ _
  · exact .neverLoaded _ _ _ _ _
  · exact .neverTaken _ _ _
  · exact .same _

/-- A statement with a constant guard does what it becomes. -/
theorem Simplified.sem {st st' : IRStmt Op Fn} (h : Simplified st st') (c : Config V σ) :
    st'.sem T M tyenv c = st.sem T M tyenv c := by
  cases h with
  | same => rfl
  | _ => simp [IRStmt.sem, IRExpr.eval, M.truth_u1]

theorem Simplified.defs {st st' : IRStmt Op Fn} (h : Simplified st st') : st'.defs = st.defs := by
  cases h <;> rfl

theorem Simplified.checked {st st' : IRStmt Op Fn} (h : Simplified st st') :
    st'.checked ⊆ st.checked := by
  cases h <;> simp [IRStmt.checked, IRStmt.exprs]

theorem Simplified.exprs {st st' : IRStmt Op Fn} (h : Simplified st st') :
    st'.exprs ⊆ st.exprs := by
  cases h <;> simp [IRStmt.exprs]

theorem Simplified.isFlatIRStmt {st st' : IRStmt Op Fn} (h : Simplified st st')
    (hflat : isFlatIRStmt st = true) : isFlatIRStmt st' = true := by
  cases h with
  | neverStored | neverTaken => rfl
  | alwaysStored =>
    simp only [Vex.isFlatIRStmt, Bool.and_eq_true] at hflat ⊢
    exact hflat.1
  | neverLoaded =>
    simp only [Vex.isFlatIRStmt, Bool.and_eq_true] at hflat
    exact isFlatData_of_isIRAtom hflat.1.2
  | same => exact hflat

/-- A statement with a constant guard becomes one that is well-typed. -/
theorem Simplified.tcStmt {st st' : IRStmt Op Fn} (h : Simplified st st')
    (htc : tcStmt T tyenv gWordTy st = true) : tcStmt T tyenv gWordTy st' = true := by
  cases h with
  | neverStored | neverTaken => rfl
  | alwaysStored =>
    simp only [Vex.tcStmt, Bool.and_eq_true] at htc ⊢
    exact ⟨⟨htc.1.1.1.1, htc.1.1.2⟩, htc.1.2⟩
  | neverLoaded =>
    simp only [Vex.tcStmt, Bool.and_eq_true, beq_iff_eq] at htc ⊢
    exact ⟨htc.1.1.1.1.1.2, htc.1.2.symm⟩
  | same => exact htc

variable [DecidableEq Op] {hasType : V → IRType → Prop} {rules : Rules Op Fn} {doFolding : Bool}
  {env : Env Op Fn} {D : Set IRTemp} {n : ℕ}

/-- After substitution and folding, no temporaries are read whose assignments have been
dropped. -/
theorem temps_substFold (hfit : RulesFit T rules) (henv : EnvOk D env) {e : IRExpr Op Fn}
    {t : IRTemp} (ht : t ∈ (substFold rules doFolding env e).temps) :
    ¬Dropped env t ∧ (t ∈ e.temps ∨ ReadIn env t) := by
  cases doFolding with
  | true =>
    rcases temps_foldExprWRK hfit ht with ht | ht
    · exact temps_substExpr henv e t ht
    · exact ⟨(henv.read t ht).2, Or.inr ht⟩
  | false => exact temps_substExpr henv e t ht

/-- **Substitution and folding keep the value of an expression** that is flat and well-typed and
reads what has been assigned. -/
theorem eval_substFold (hfit : RulesFit T rules) (hrules : RulesSound T M hasType rules)
    (henv : EnvOk D env) (htenv : EnvTyped T gWordTy tyenv env) {c c' : Config V σ}
    (hc : Corresponds M env c c') (hty : HaveTypes hasType tyenv D c.1) {e : IRExpr Op Fn}
    (hflat : isFlatData e = true) (htc : tcExpr T tyenv gWordTy e = true)
    (hD : ∀ t ∈ e.temps, t ∈ D) :
    (substFold rules doFolding env e).eval M c' = e.eval M c := by
  have hself : Corresponds M env c c := ⟨rfl, fun _ _ => rfl, hc.binds⟩
  have hread : ∀ t ∈ (substExpr env e).temps, t ∈ D := fun t ht =>
    (temps_substExpr henv e t ht).2.elim (hD t) fun ht => (henv.read t ht).1
  cases hd : doFolding with
  | true =>
    -- in the first execution temporaries have the values of what they have been assigned
    calc (foldExprWRK rules env (substExpr env e)).eval M c'
        = (foldExprWRK rules env (substExpr env e)).eval M c := by
          refine (IRExpr.eval_congr hc.state _ fun t ht => ?_).symm
          have hmem : t ∈ (substFold rules true env e).temps := ht
          exact hc.vals t (temps_substFold hfit henv hmem).1
      _ = (substExpr env e).eval M c := eval_foldExprWRK hrules henv htenv
          (isFlatData_substExpr hflat) ((sameType_substExpr htenv e).tc htc) hread hty hc.binds
      _ = e.eval M c := eval_substExpr henv hself e
  | false => exact eval_substExpr henv hc e

/-- Atoms are not folded, and so it does not matter what they read. -/
theorem eval_substFold_atom (henv : EnvOk D env) {c c' : Config V σ}
    (hc : Corresponds M env c c') {e : IRExpr Op Fn} (he : isIRAtom e = true) :
    (substFold rules doFolding env e).eval M c' = e.eval M c := by
  have hatom : isIRAtom (substExpr env e) = true := isIRAtom_substExpr he
  rw [substFold, foldExprWRK_of_isIRAtom hatom, ite_self]
  exact eval_substExpr henv hc e

/-- A statement after substitution and folding does what it did. -/
theorem sem_substAndMaybeFoldStmt (doFolding : Bool) (hfit : RulesFit T rules)
    (hrules : RulesSound T M hasType rules) (henv : EnvOk D env)
    (htenv : EnvTyped T gWordTy tyenv env) {c c' : Config V σ} (hc : Corresponds M env c c')
    (hty : HaveTypes hasType tyenv D c.1) {st : IRStmt Op Fn} (hflat : isFlatIRStmt st = true)
    (htc : tcStmt T tyenv gWordTy st = true) (hD : ∀ e ∈ st.checked, ∀ t ∈ e.temps, t ∈ D) :
    (st.sem T M tyenv c).2 =
        ((substAndMaybeFoldStmt rules doFolding env st).sem T M tyenv c').2 ∧
      Agree {t | t ∈ st.defs} (st.sem T M tyenv c).1
        ((substAndMaybeFoldStmt rules doFolding env st).sem T M tyenv c').1 := by
  rw [substAndMaybeFoldStmt, (simplified_simplifyStmt _).sem]
  refine (IRStmt.alike_mapExprs (R := fun e e' => e.eval M c = e'.eval M c') fun e he => ?_).sem
    hc.state (fun _ _ he => he) fun _ _ => rfl
  symm
  by_cases hst : ∃ tmp data, st = .wrTmp tmp data
  · obtain ⟨tmp, data, rfl⟩ := hst
    exact eval_substFold hfit hrules henv htenv hc hty (isFlatData_of_mem_exprs hflat he)
      (tcExpr_of_mem_exprs hflat htc he) (hD e he)
  · exact eval_substFold_atom henv hc
      ((isFlatIRStmt_iff fun tmp data h => hst ⟨tmp, data, h⟩).mp hflat e he)

theorem defs_substAndMaybeFoldStmt (rules : Rules Op Fn) (doFolding : Bool) (env : Env Op Fn)
    (st : IRStmt Op Fn) :
    (substAndMaybeFoldStmt rules doFolding env st).defs = st.defs := by
  rw [substAndMaybeFoldStmt, (simplified_simplifyStmt _).defs, IRStmt.defs_mapExprs]

end Stmt

/-! ### One more assignment -/

section Bind

variable {M : Machine Op Fn V σ} {env : Env Op Fn} {D : Set IRTemp} {tmp : IRTemp}
  {data : IRExpr Op Fn}

/-- The temporary that is bound is dropped if what it is bound to is put in for it; for others
nothing changes. -/
theorem dropped_update {t : IRTemp} : Dropped (Function.update env tmp (some data)) t ↔
    t = tmp ∧ isPropagated data = true ∨ t ≠ tmp ∧ Dropped env t := by
  by_cases ht : t = tmp
  · subst ht
    simp [Dropped]
  · simp [Dropped, ht]

theorem readIn_update {t : IRTemp} (h : ReadIn (Function.update env tmp (some data)) t) :
    t ∈ data.temps ∨ ReadIn env t := by
  obtain ⟨t', d, hd, ht⟩ := h
  by_cases ht' : t' = tmp
  · rw [ht', Function.update_self] at hd
    obtain rfl := Option.some.inj hd
    exact Or.inl ht
  · rw [Function.update_of_ne ht'] at hd
    exact Or.inr ⟨t', d, hd, ht⟩

/-- The environment stays as it should be if the temporary is new. -/
theorem EnvOk.bind (henv : EnvOk D env) (htmp : tmp ∉ D)
    (hdata : ∀ t ∈ data.temps, t ∈ D ∧ ¬Dropped env t) :
    EnvOk (D ∪ {tmp}) (Function.update env tmp (some data)) where
  bound t d hd := by
    by_cases ht : t = tmp
    · exact Or.inr ht
    · rw [Function.update_of_ne ht] at hd
      exact Or.inl (henv.bound t d hd)
  read t ht := by
    have hread : t ∈ D ∧ ¬Dropped env t := (readIn_update ht).elim (hdata t) (henv.read t)
    refine ⟨Or.inl hread.1, fun hd => ?_⟩
    rcases dropped_update.mp hd with ⟨rfl, -⟩ | ⟨-, hd⟩
    · exact htmp hread.1
    · exact hread.2 hd

/-- The types in the environment stay as they should be. -/
theorem EnvTyped.bind {T : OpTable Op} {gWordTy : IRType} {tyenv : IRTypeEnv}
    (htenv : EnvTyped T gWordTy tyenv env) (hflat : isFlatData data = true)
    (htc : tcExpr T tyenv gWordTy data = true)
    (htype : typeOfIRExpr T tyenv data = typeOfIRTemp tyenv tmp) :
    EnvTyped T gWordTy tyenv (Function.update env tmp (some data)) := by
  have hcases {t : IRTemp} {d : IRExpr Op Fn}
      (hd : Function.update env tmp (some data) t = some d) :
      t = tmp ∧ d = data ∨ env t = some d := by
    by_cases ht : t = tmp
    · rw [ht, Function.update_self] at hd
      exact Or.inl ⟨ht, (Option.some.inj hd).symm⟩
    · rw [Function.update_of_ne ht] at hd
      exact Or.inr hd
  refine ⟨fun t d hd => ?_, fun t d hd => ?_, fun t d hd => ?_⟩
  · rcases hcases hd with ⟨rfl, rfl⟩ | hd
    · exact hflat
    · exact htenv.flat t d hd
  · rcases hcases hd with ⟨rfl, rfl⟩ | hd
    · exact htc
    · exact htenv.tc t d hd
  · rcases hcases hd with ⟨rfl, rfl⟩ | hd
    · exact htype
    · exact htenv.type t d hd

/-- **After an assignment the two executions still correspond**, whether or not the second one
makes it, if it is dropped. -/
theorem Corresponds.bind {c c' c₁' : Config V σ} (henv : EnvOk D env) (htmp : tmp ∉ D)
    (hdata : ∀ t ∈ data.temps, t ∈ D ∧ ¬Dropped env t) (hc : Corresponds M env c c')
    (hstate : c'.2 = c₁'.2) (hframe : ∀ t, t ≠ tmp → c₁'.1 t = c'.1 t)
    (htmp' : isPropagated data = false → c₁'.1 tmp = data.eval M c') :
    Corresponds M (Function.update env tmp (some data))
      (Function.update c.1 tmp (data.eval M c'), c.2) c₁' where
  state := hc.state.trans hstate
  vals t ht := by
    rw [dropped_update, not_or] at ht
    change Function.update c.1 tmp (data.eval M c') t = c₁'.1 t
    by_cases htt : t = tmp
    · subst htt
      rw [Function.update_self]
      exact (htmp' (by simpa using fun h => ht.1 ⟨rfl, h⟩)).symm
    · rw [Function.update_of_ne htt, hframe t htt]
      exact hc.vals t fun hd => ht.2 ⟨htt, hd⟩
  binds t d hd hs := by
    have hne {t : IRTemp} (ht : t ∈ D) : t ≠ tmp := fun h => htmp (h ▸ ht)
    change Function.update c.1 tmp (data.eval M c') t = _
    by_cases htt : t = tmp
    · rw [htt, Function.update_self] at hd
      obtain rfl := Option.some.inj hd
      rw [htt, Function.update_self]
      refine data.eval_of_isStateless hs fun t' ht' => ?_
      change c'.1 t' = Function.update c.1 tmp (data.eval M c') t'
      rw [Function.update_of_ne (hne (hdata t' ht').1)]
      exact (hc.vals t' (hdata t' ht').2).symm
    · rw [Function.update_of_ne htt] at hd ⊢
      rw [hc.binds t d hd hs]
      refine d.eval_of_isStateless hs fun t' ht' => ?_
      change c.1 t' = Function.update c.1 tmp (data.eval M c') t'
      rw [Function.update_of_ne (hne (henv.read t' ⟨t, d, hd, ht'⟩).1)]

end Bind

end Vex

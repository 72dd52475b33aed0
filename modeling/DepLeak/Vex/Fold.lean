import DepLeak.Vex.Typed

/-!
# Folding expressions

`cprop_BB` folds the expressions it meets. It has an environment of the assignments that
have been made so far, so that an expression can be looked through to what its
temporaries were assigned (`Vex.Env`).

Two conditional expressions are folded here, with what they need: that of a constant
condition, and that with two arms that are the same as far as `sameIRExprs` sees. Which
stays on the safe side: two loads, or two reads of the guest state, are never the same,
since the state may have changed in between; and it gives up when it has visited
`NODE_LIMIT` nodes (`Vex.sameIRExprs_sound`). The rules for primitive operations, of which
`fold_Expr_WRK` has some hundreds, are a parameter; what is asked of them is that they are
sound for flat operations that are well-typed, where the environment is
(`Vex.RulesSound`).
-/

namespace Vex

open Straight

variable {Op Fn V σ : Type}

/-! ### The environment -/

/-- `env`: what temporaries have been assigned. -/
abbrev Env (Op Fn : Type) := IRTemp → Option (IRExpr Op Fn)

mutual

/-- The expression looks neither at the guest state nor at memory. -/
def IRExpr.isStateless : IRExpr Op Fn → Bool
  | .get _ _ | .getI _ _ _ | .load _ _ _ => false
  | .rdTmp _ | .const _ => true
  | .qop _ arg1 arg2 arg3 arg4 =>
    arg1.isStateless && arg2.isStateless && arg3.isStateless && arg4.isStateless
  | .triop _ arg1 arg2 arg3 => arg1.isStateless && arg2.isStateless && arg3.isStateless
  | .binop _ arg1 arg2 => arg1.isStateless && arg2.isStateless
  | .unop _ arg => arg.isStateless
  | .ite cond iftrue iffalse => cond.isStateless && iftrue.isStateless && iffalse.isStateless
  | .ccall _ _ args => areStateless args

/-- The expressions in a list look neither at the guest state nor at memory. -/
def areStateless : List (IRExpr Op Fn) → Bool
  | [] => true
  | e :: es => e.isStateless && areStateless es

end

/-- **Temporaries have the values of what they have been assigned**, but for what looks at
the state, which may have changed since. -/
def Binds (M : Machine Op Fn V σ) (env : Env Op Fn) (c : Config V σ) : Prop :=
  ∀ t d, env t = some d → d.isStateless = true → c.1 t = d.eval M c

/-- The expression is put in for the temporaries that are assigned it. -/
def isPropagated : IRExpr Op Fn → Bool
  | .rdTmp _ => true
  | .const con => !con.isF64i
  | _ => false

/-- The assignment of the temporary has been dropped. -/
def Dropped (env : Env Op Fn) (t : IRTemp) : Prop := ∃ d, env t = some d ∧ isPropagated d = true

/-- The temporary is read by what has been assigned. -/
def ReadIn (env : Env Op Fn) (t : IRTemp) : Prop := ∃ t' d, env t' = some d ∧ t ∈ d.temps

/-- **The invariant of the environment**: it binds temporaries that have been assigned, to
expressions over such temporaries, whose own assignments have not been dropped. -/
structure EnvOk (D : Set IRTemp) (env : Env Op Fn) : Prop where
  /-- What is bound has been assigned. -/
  bound : ∀ t d, env t = some d → t ∈ D
  /-- What is read has been assigned, and is there. -/
  read : ∀ t, ReadIn env t → t ∈ D ∧ ¬Dropped env t

/-- **The types in the environment**: it binds temporaries to flat expressions of their types. -/
structure EnvTyped (T : OpTable Op) (gWordTy : IRType) (tyenv : IRTypeEnv) (env : Env Op Fn) :
    Prop where
  /-- They are flat. -/
  flat : ∀ t d, env t = some d → isFlatData d = true
  /-- They are well-typed. -/
  tc : ∀ t d, env t = some d → tcExpr T tyenv gWordTy d = true
  /-- The types are the same. -/
  type : ∀ t d, env t = some d → typeOfIRExpr T tyenv d = typeOfIRTemp tyenv t

/-! ### Expressions that are the same -/

/-- `NODE_LIMIT`. -/
def nodeLimit : ℕ := 30

/-- Expressions with different tags. -/
def IRExpr.tag : IRExpr Op Fn → Fin 11
  | .get _ _ => 0
  | .getI _ _ _ => 1
  | .rdTmp _ => 2
  | .qop _ _ _ _ _ => 3
  | .triop _ _ _ _ => 4
  | .binop _ _ _ => 5
  | .unop _ _ => 6
  | .load _ _ _ => 7
  | .const _ => 8
  | .ite _ _ _ => 9
  | .ccall _ _ _ => 10

/-- The comparison of two constants in `sameIRExprs_aux2`. -/
def sameIRConst : IRConst → IRConst → Bool
  | .u1 b, .u1 b' => b = b'
  | .u8 n, .u8 n' => n = n'
  | .u16 n, .u16 n' => n = n'
  | .u32 n, .u32 n' => n = n'
  | .u64 n, .u64 n' => n = n'
  | _, _ => false

/-- One comparison after another, if the first one succeeds; a comparison has
`num_nodes_visited` as its state. -/
def andThen (p q : ℕ → Bool × ℕ) (visited : ℕ) : Bool × ℕ :=
  match p visited with
  | (true, visited) => q visited
  | (false, visited) => (false, visited)

section Same

variable [DecidableEq Op] (env : Env Op Fn)

/-- `sameIRExprs_aux2`, with what it calls for parts of the expressions. -/
def sameIRExprsAux2 (aux : IRExpr Op Fn → IRExpr Op Fn → ℕ → Bool × ℕ) (e1 e2 : IRExpr Op Fn)
    (visited : ℕ) : Bool × ℕ :=
  if nodeLimit < visited then (false, visited + 1)
  else
    match e1, e2 with
    | .rdTmp tmp1, .rdTmp tmp2 =>
      if tmp1 = tmp2 then (true, visited + 1)
      else
        match env tmp1, env tmp2 with
        | some d1, some d2 => aux d1 d2 (visited + 1)
        | _, _ => (false, visited + 1)
    | .binop op a b, .binop op' a' b' =>
      if op = op' then andThen (aux a a') (aux b b') (visited + 1) else (false, visited + 1)
    | .unop op a, .unop op' a' =>
      if op = op' then aux a a' (visited + 1) else (false, visited + 1)
    | .const con, .const con' => (sameIRConst con con', visited + 1)
    | .triop op a b d, .triop op' a' b' d' =>
      if op = op' then andThen (andThen (aux a a') (aux b b')) (aux d d') (visited + 1)
      else (false, visited + 1)
    | .ite a b d, .ite a' b' d' => andThen (andThen (aux a a') (aux b b')) (aux d d') (visited + 1)
    -- the guest state or memory could have changed in the meantime, or it is not likely
    | _, _ => (false, visited + 1)

/-- `sameIRExprs_aux`; `fuel` bounds the depth of the recursion. -/
def sameIRExprsAux : ℕ → IRExpr Op Fn → IRExpr Op Fn → ℕ → Bool × ℕ
  | 0, _, _, visited => (false, visited)
  | fuel + 1, e1, e2, visited =>
    if e1.tag ≠ e2.tag then (false, visited)
    else sameIRExprsAux2 env (sameIRExprsAux fuel) e1 e2 visited

/-- `sameIRExprs`; with more fuel it is the same (`Vex.sameIRExprs_eq`). -/
def sameIRExprs (e1 e2 : IRExpr Op Fn) : Bool := (sameIRExprsAux env (nodeLimit + 2) e1 e2 0).1

end Same

/-! ### Folding -/

/-- The rules by which `fold_Expr_WRK` folds primitive operations. -/
abbrev Rules (Op Fn : Type) := Env Op Fn → IRExpr Op Fn → IRExpr Op Fn

/-- `fold_Expr_WRK`. -/
def foldExprWRK [DecidableEq Op] (rules : Rules Op Fn) (env : Env Op Fn) :
    IRExpr Op Fn → IRExpr Op Fn
  | .unop op arg => rules env (.unop op arg)
  | .binop op arg1 arg2 => rules env (.binop op arg1 arg2)
  | .ite (.const con) iftrue iffalse =>
    match con with
    | .u1 b => if b then iftrue else iffalse
    -- an assertion: conditions are of type `Ity_I1`
    | _ => .ite (.const con) iftrue iffalse
  | .ite cond iftrue iffalse =>
    if sameIRExprs env iftrue iffalse then iffalse else .ite cond iftrue iffalse
  | e => e

/-- **The rules fit**: no temporaries come in but those of the operation and of what has been
assigned, and what is flat and well-typed is folded to what is, and has the same type. -/
structure RulesFit (T : OpTable Op) (rules : Rules Op Fn) : Prop where
  /-- No temporaries come in. -/
  temps : ∀ env e, ∀ t ∈ (rules env e).temps, t ∈ e.temps ∨ ReadIn env t
  /-- What is flat stays flat. -/
  flat : ∀ gWordTy tyenv env e, EnvTyped T gWordTy tyenv env → isFlatData e = true →
    tcExpr T tyenv gWordTy e = true → isFlatData (rules env e) = true
  /-- The type is the same. -/
  type : ∀ gWordTy tyenv env e, EnvTyped T gWordTy tyenv env → isFlatData e = true →
    tcExpr T tyenv gWordTy e = true → SameType T gWordTy tyenv tyenv e (rules env e)

/-- **The rules are sound**: a flat operation that is well-typed has the value of what it is
folded to, wherever the temporaries have values of their types, and those of what they have
been assigned. -/
def RulesSound (T : OpTable Op) (M : Machine Op Fn V σ) (hasType : V → IRType → Prop)
    (rules : Rules Op Fn) : Prop :=
  ∀ gWordTy tyenv D env e (c : Config V σ), EnvOk D env → EnvTyped T gWordTy tyenv env →
    isFlatData e = true → tcExpr T tyenv gWordTy e = true → (∀ t ∈ e.temps, t ∈ D) →
    HaveTypes hasType tyenv D c.1 → Binds M env c → (rules env e).eval M c = e.eval M c

/-! ### What is the same has the same value -/

section Sound

variable [DecidableEq Op] {env : Env Op Fn}

theorem andThen_eq_true {p q : ℕ → Bool × ℕ} {visited : ℕ} (h : (andThen p q visited).1 = true) :
    (p visited).1 = true ∧ (q (p visited).2).1 = true := by
  rw [andThen] at h
  rcases hp : p visited with ⟨b, visited'⟩
  rw [hp] at h
  cases b with
  | true => exact ⟨rfl, h⟩
  | false => cases h

theorem eq_of_sameIRConst {con con' : IRConst} (h : sameIRConst con con' = true) : con = con' := by
  cases con <;> cases con' <;> simp_all [sameIRConst]

/-- The comparison is on the safe side: what it finds the same does not look at the state, and
has the same value wherever the temporaries have the values of what they have been
assigned. -/
theorem sameIRExprsAux_sound {fuel : ℕ} {e1 e2 : IRExpr Op Fn} {visited : ℕ}
    (h : (sameIRExprsAux env fuel e1 e2 visited).1 = true) :
    e1.isStateless = true ∧ e2.isStateless = true ∧ ∀ (M : Machine Op Fn V σ) (c : Config V σ),
      Binds M env c → e1.eval M c = e2.eval M c := by
  induction fuel generalizing e1 e2 visited with
  | zero => cases h
  | succ fuel ih =>
    rw [sameIRExprsAux] at h
    split at h
    · cases h
    unfold sameIRExprsAux2 at h
    split at h
    · cases h
    split at h
    · rename_i tmp1 tmp2 _
      refine ⟨rfl, rfl, fun M c hc => ?_⟩
      split at h
      · rename_i heq
        rw [heq]
      · split at h
        · rename_i d1 d2 hd1 hd2
          obtain ⟨hs1, hs2, heval⟩ := ih h
          -- both have the values of what they have been assigned
          calc c.1 tmp1 = d1.eval M c := hc tmp1 d1 hd1 hs1
            _ = d2.eval M c := heval M c hc
            _ = c.1 tmp2 := (hc tmp2 d2 hd2 hs2).symm
        · cases h
    · split at h
      · rename_i hop
        subst hop
        obtain ⟨ha, hb⟩ := andThen_eq_true h
        obtain ⟨ha1, ha2, ha⟩ := ih ha
        obtain ⟨hb1, hb2, hb⟩ := ih hb
        exact ⟨by simp [IRExpr.isStateless, ha1, hb1], by simp [IRExpr.isStateless, ha2, hb2],
          fun M c hc => by rw [IRExpr.eval, IRExpr.eval, ha M c hc, hb M c hc]⟩
      · cases h
    · split at h
      · rename_i hop
        subst hop
        obtain ⟨ha1, ha2, ha⟩ := ih h
        exact ⟨ha1, ha2, fun M c hc => by rw [IRExpr.eval, IRExpr.eval, ha M c hc]⟩
      · cases h
    · rw [eq_of_sameIRConst h]
      exact ⟨rfl, rfl, fun _ _ _ => rfl⟩
    · split at h
      · rename_i hop
        subst hop
        obtain ⟨hab, hd⟩ := andThen_eq_true h
        obtain ⟨ha, hb⟩ := andThen_eq_true hab
        obtain ⟨ha1, ha2, ha⟩ := ih ha
        obtain ⟨hb1, hb2, hb⟩ := ih hb
        obtain ⟨hd1, hd2, hd⟩ := ih hd
        exact ⟨by simp [IRExpr.isStateless, ha1, hb1, hd1],
          by simp [IRExpr.isStateless, ha2, hb2, hd2],
          fun M c hc => by rw [IRExpr.eval, IRExpr.eval, ha M c hc, hb M c hc, hd M c hc]⟩
      · cases h
    · obtain ⟨hab, hd⟩ := andThen_eq_true h
      obtain ⟨ha, hb⟩ := andThen_eq_true hab
      obtain ⟨ha1, ha2, ha⟩ := ih ha
      obtain ⟨hb1, hb2, hb⟩ := ih hb
      obtain ⟨hd1, hd2, hd⟩ := ih hd
      exact ⟨by simp [IRExpr.isStateless, ha1, hb1, hd1],
        by simp [IRExpr.isStateless, ha2, hb2, hd2],
        fun M c hc => by rw [IRExpr.eval, IRExpr.eval, ha M c hc, hb M c hc, hd M c hc]⟩
    · cases h

/-- **What `sameIRExprs` finds the same has the same value.** -/
theorem sameIRExprs_sound {e1 e2 : IRExpr Op Fn} (h : sameIRExprs env e1 e2 = true)
    {M : Machine Op Fn V σ} {c : Config V σ} (hc : Binds M env c) : e1.eval M c = e2.eval M c :=
  (sameIRExprsAux_sound (V := V) (σ := σ) h).2.2 M c hc

end Sound

/-! ### The limit on the nodes is what ends the comparison -/

section Fuel

variable [DecidableEq Op] {env : Env Op Fn}

theorem andThen_congr {p p' q q' : ℕ → Bool × ℕ} {visited : ℕ} (hp : p visited = p' visited)
    (hq : ∀ visited', (p visited).2 = visited' → q visited' = q' visited') :
    andThen p q visited = andThen p' q' visited := by
  rw [andThen, andThen, ← hp]
  rcases hpv : p visited with ⟨b, visited'⟩
  cases b with
  | true => exact hq visited' (by rw [hpv])
  | false => rfl

theorem le_andThen {p q : ℕ → Bool × ℕ} {visited : ℕ} (hp : visited ≤ (p visited).2)
    (hq : ∀ visited', visited' ≤ (q visited').2) : visited ≤ (andThen p q visited).2 := by
  rw [andThen]
  rcases hpv : p visited with ⟨b, visited'⟩
  rw [hpv] at hp
  cases b with
  | true => exact hp.trans (hq visited')
  | false => exact hp

/-- Nodes are only added to those that have been visited. -/
theorem le_sameIRExprsAux (fuel : ℕ) (e1 e2 : IRExpr Op Fn) (visited : ℕ) :
    visited ≤ (sameIRExprsAux env fuel e1 e2 visited).2 := by
  induction fuel generalizing e1 e2 visited with
  | zero => exact le_rfl
  | succ fuel ih =>
    rw [sameIRExprsAux]
    split
    · exact le_rfl
    unfold sameIRExprsAux2
    split
    · exact Nat.le_succ visited
    have hboth {a a' b b' : IRExpr Op Fn} : visited + 1 ≤ (andThen (sameIRExprsAux env fuel a a')
        (sameIRExprsAux env fuel b b') (visited + 1)).2 := le_andThen (ih _ _ _) (ih _ _)
    have hall {a a' b b' d d' : IRExpr Op Fn} : visited + 1 ≤ (andThen (andThen
        (sameIRExprsAux env fuel a a') (sameIRExprsAux env fuel b b'))
        (sameIRExprsAux env fuel d d') (visited + 1)).2 := le_andThen hboth (ih _ _)
    split
    · split
      · exact Nat.le_succ visited
      · split
        · exact (Nat.le_succ visited).trans (ih _ _ _)
        · exact Nat.le_succ visited
    · split
      · exact (Nat.le_succ visited).trans hboth
      · exact Nat.le_succ visited
    · split
      · exact (Nat.le_succ visited).trans (ih _ _ _)
      · exact Nat.le_succ visited
    · exact Nat.le_succ visited
    · split
      · exact (Nat.le_succ visited).trans hall
      · exact Nat.le_succ visited
    · exact (Nat.le_succ visited).trans hall
    · exact Nat.le_succ visited

/-- More fuel changes nothing: before it runs out, too many nodes have been visited. -/
theorem sameIRExprsAux_succ {fuel visited : ℕ} (h : nodeLimit < visited + fuel)
    (e1 e2 : IRExpr Op Fn) : sameIRExprsAux env (fuel + 2) e1 e2 visited =
      sameIRExprsAux env (fuel + 1) e1 e2 visited := by
  induction fuel generalizing e1 e2 visited with
  | zero =>
    rw [sameIRExprsAux, sameIRExprsAux]
    split
    · rfl
    · have h : nodeLimit < visited := h
      unfold sameIRExprsAux2
      rw [if_pos h, if_pos h]
  | succ fuel ih =>
    have ih' (visited' : ℕ) (hv : visited + 1 ≤ visited') (a a' : IRExpr Op Fn) :
        sameIRExprsAux env (fuel + 2) a a' visited' =
          sameIRExprsAux env (fuel + 1) a a' visited' :=
      ih (by omega) a a'
    have hboth (a a' b b' : IRExpr Op Fn) :
        andThen (sameIRExprsAux env (fuel + 2) a a') (sameIRExprsAux env (fuel + 2) b b')
            (visited + 1) =
          andThen (sameIRExprsAux env (fuel + 1) a a') (sameIRExprsAux env (fuel + 1) b b')
            (visited + 1) := by
      refine andThen_congr (ih' _ le_rfl a a') fun visited' hv => ih' visited' ?_ b b'
      exact hv ▸ le_sameIRExprsAux _ _ _ _
    have hall (a a' b b' d d' : IRExpr Op Fn) :
        andThen (andThen (sameIRExprsAux env (fuel + 2) a a')
            (sameIRExprsAux env (fuel + 2) b b')) (sameIRExprsAux env (fuel + 2) d d')
            (visited + 1) =
          andThen (andThen (sameIRExprsAux env (fuel + 1) a a')
            (sameIRExprsAux env (fuel + 1) b b')) (sameIRExprsAux env (fuel + 1) d d')
            (visited + 1) := by
      refine andThen_congr (hboth a a' b b') fun visited' hv => ih' visited' ?_ d d'
      exact hv ▸ le_andThen (le_sameIRExprsAux _ _ _ _) (le_sameIRExprsAux _ _ _)
    rw [sameIRExprsAux, sameIRExprsAux]
    simp only [sameIRExprsAux2, hboth, hall, ih' _ le_rfl]

/-- **The depth of the recursion is bounded by the number of nodes that may be visited**, so
that more fuel makes no difference. -/
theorem sameIRExprs_eq {fuel : ℕ} (h : nodeLimit + 2 ≤ fuel) (e1 e2 : IRExpr Op Fn) :
    (sameIRExprsAux env fuel e1 e2 0).1 = sameIRExprs env e1 e2 := by
  induction fuel, h using Nat.le_induction with
  | base => rfl
  | succ fuel hfuel ih =>
    obtain ⟨k, rfl⟩ : ∃ k, fuel = k + 1 := ⟨fuel - 1, by omega⟩
    rw [sameIRExprsAux_succ (by omega), ih]

end Fuel

/-! ### What an expression is folded to -/

section FoldExpr

variable [DecidableEq Op] {T : OpTable Op} {M : Machine Op Fn V σ} {hasType : V → IRType → Prop}
  {rules : Rules Op Fn} {gWordTy : IRType} {tyenv : IRTypeEnv} {D : Set IRTemp} {env : Env Op Fn}

/-- Atoms are not folded. -/
theorem foldExprWRK_of_isIRAtom {e : IRExpr Op Fn} (he : isIRAtom e = true) :
    foldExprWRK rules env e = e := by
  cases e with
  | rdTmp | const => rfl
  | _ => cases he

/-- A conditional expression stays, or has two arms that are the same and becomes one of them,
or has a constant condition and becomes the arm that it chooses. -/
theorem foldExprWRK_ite (rules : Rules Op Fn) (env : Env Op Fn)
    (cond iftrue iffalse : IRExpr Op Fn) :
    foldExprWRK rules env (.ite cond iftrue iffalse) = .ite cond iftrue iffalse ∨
      foldExprWRK rules env (.ite cond iftrue iffalse) = iffalse ∧
        sameIRExprs env iftrue iffalse = true ∨
      ∃ b, cond = .const (.u1 b) ∧
        foldExprWRK rules env (.ite cond iftrue iffalse) = if b then iftrue else iffalse := by
  cases cond with
  | const con =>
    cases con with
    | u1 b => exact Or.inr (Or.inr ⟨b, rfl, rfl⟩)
    | _ => exact Or.inl rfl
  | _ =>
    cases hs : sameIRExprs env iftrue iffalse with
    | true => exact Or.inr (Or.inl ⟨by simp [foldExprWRK, hs], rfl⟩)
    | false => exact Or.inl (by simp [foldExprWRK, hs])

/-- **Folding keeps the value of an expression**, where temporaries have values of their types,
and those of what they have been assigned. -/
theorem eval_foldExprWRK (hrules : RulesSound T M hasType rules) {c : Config V σ}
    (henv : EnvOk D env) (htenv : EnvTyped T gWordTy tyenv env) {e : IRExpr Op Fn}
    (hflat : isFlatData e = true) (htc : tcExpr T tyenv gWordTy e = true)
    (hD : ∀ t ∈ e.temps, t ∈ D) (hty : HaveTypes hasType tyenv D c.1) (hc : Binds M env c) :
    (foldExprWRK rules env e).eval M c = e.eval M c := by
  cases e with
  | unop | binop => exact hrules gWordTy tyenv D env _ c henv htenv hflat htc hD hty hc
  | ite cond iftrue iffalse =>
    rcases foldExprWRK_ite rules env cond iftrue iffalse with
      h | ⟨h, hs⟩ | ⟨b, rfl, h⟩ <;> rw [h]
    · rw [IRExpr.eval, sameIRExprs_sound hs hc, ite_self]
    · cases b <;> simp [IRExpr.eval, M.truth_u1]
  | _ => rfl

/-- What an expression is folded to reads what it read, and what has been assigned from. -/
theorem temps_foldExprWRK (hfit : RulesFit T rules) {e : IRExpr Op Fn} {t : IRTemp}
    (ht : t ∈ (foldExprWRK rules env e).temps) : t ∈ e.temps ∨ ReadIn env t := by
  cases e with
  | unop | binop => exact hfit.temps env _ t ht
  | ite cond iftrue iffalse =>
    refine Or.inl ?_
    rcases foldExprWRK_ite rules env cond iftrue iffalse with
      h | ⟨h, -⟩ | ⟨b, rfl, h⟩ <;> rw [h] at ht
    · exact ht
    · simp [IRExpr.temps, ht]
    · cases b <;> simp_all [IRExpr.temps]
  | _ => exact Or.inl ht

end FoldExpr

end Vex

import DepLeak.Vex.Fixup
import DepLeak.Vex.Types

/-!
# Flattening

`flatten_BB`, the pass that all others rely on: every part of an expression that is not an
atom gets a temporary of its own, so that what is left of the expression is flat. It is
the first thing that happens to a superblock (`do_minimal_initial_iropt_BB`).

The assignments that come in are to new temporaries, and so the old ones keep their
values. What a part of the pass puts in is described once (`Vex.Piece`), and what it
makes of an expression by a relation that stays true however much comes in after it
(`Vex.Carried`). Both go through the pass by `Vex.Lifts`, with a rule for each way in which
the pass is put together, up to the expressions of a statement
(`Vex.lifts_flattenExpr`, `Vex.lifts_traverse`).
-/

namespace Vex

open Straight

variable {Op Fn V σ : Type}

/-! ### The pass -/

/-- What there is of the superblock that comes out. -/
structure Out (Op Fn : Type) where
  /-- `tyenv`. -/
  tyenv : IRTypeEnv
  /-- `stmts`. -/
  stmts : List (IRStmt Op Fn)

/-- `newIRTemp`. -/
def newIRTemp (ty : IRType) : StateM (Out Op Fn) IRTemp := fun bb =>
  (bb.tyenv.length, { bb with tyenv := bb.tyenv ++ [ty] })

/-- `addStmtToIRSB`. -/
def addStmtToIRSB (st : IRStmt Op Fn) : StateM (Out Op Fn) Unit := fun bb =>
  ((), { bb with stmts := bb.stmts ++ [st] })

/-- Two arguments of a call, in the order in which they are evaluated: C leaves that to the
compiler, which goes through them from the left or from the right. -/
def inOrder {α β : Type} (ltr : Bool) (m₁ : StateM (Out Op Fn) α) (m₂ : StateM (Out Op Fn) β) :
    StateM (Out Op Fn) (α × β) :=
  if ltr then do
    let a ← m₁
    let b ← m₂
    pure (a, b)
  else do
    let b ← m₂
    let a ← m₁
    pure (a, b)

/-- The case that most expressions have in common: a new temporary, which is assigned what is
left of the expression. -/
def assignNew (T : OpTable Op) (ex : IRExpr Op Fn) (rhs : StateM (Out Op Fn) (IRExpr Op Fn)) :
    StateM (Out Op Fn) (IRExpr Op Fn) := do
  let bb ← get
  let t1 ← newIRTemp (typeOfIRExpr T bb.tyenv ex)
  let e ← rhs
  addStmtToIRSB (.wrTmp t1 e)
  pure (.rdTmp t1)

section Pass

variable (T : OpTable Op) (ltr : Bool)

mutual

/-- `flatten_Expr`. -/
def flattenExpr : IRExpr Op Fn → StateM (Out Op Fn) (IRExpr Op Fn)
  | .getI descr ix bias => assignNew T (.getI descr ix bias)
    ((fun ix => .getI descr ix bias) <$> flattenExpr ix)
  | .get offset ty => assignNew T (.get offset ty) (pure (.get offset ty))
  | .qop op arg1 arg2 arg3 arg4 => assignNew T (.qop op arg1 arg2 arg3 arg4)
    ((fun args => .qop op args.1 args.2.1 args.2.2.1 args.2.2.2) <$>
      inOrder ltr (flattenExpr arg1) (inOrder ltr (flattenExpr arg2)
        (inOrder ltr (flattenExpr arg3) (flattenExpr arg4))))
  | .triop op arg1 arg2 arg3 => assignNew T (.triop op arg1 arg2 arg3)
    ((fun args => .triop op args.1 args.2.1 args.2.2) <$>
      inOrder ltr (flattenExpr arg1) (inOrder ltr (flattenExpr arg2) (flattenExpr arg3)))
  | .binop op arg1 arg2 => assignNew T (.binop op arg1 arg2)
    ((fun args => .binop op args.1 args.2) <$>
      inOrder ltr (flattenExpr arg1) (flattenExpr arg2))
  | .unop op arg => assignNew T (.unop op arg) ((fun arg => .unop op arg) <$> flattenExpr arg)
  | .load endn ty addr => assignNew T (.load endn ty addr)
    ((fun addr => .load endn ty addr) <$> flattenExpr addr)
  | .ccall cee retty args => do
    -- the arguments come first here
    let newargs ← flattenArgs args
    assignNew T (.ccall cee retty args) (pure (.ccall cee retty newargs))
  | .ite cond iftrue iffalse => assignNew T (.ite cond iftrue iffalse)
    ((fun args => .ite args.1 args.2.1 args.2.2) <$>
      inOrder ltr (flattenExpr cond) (inOrder ltr (flattenExpr iftrue) (flattenExpr iffalse)))
  | .const con =>
    -- constants of this kind are lifted out so that they can be shared later
    if con.isF64i then assignNew T (.const con) (pure (.const con)) else pure (.const con)
  | .rdTmp tmp => pure (.rdTmp tmp)

/-- The loop of `flatten_Expr` over the arguments of a call. -/
def flattenArgs : List (IRExpr Op Fn) → StateM (Out Op Fn) (List (IRExpr Op Fn))
  | [] => pure []
  | arg :: args => do
    let newarg ← flattenExpr arg
    let newargs ← flattenArgs args
    pure (newarg :: newargs)

end

/-- `isFlat`. -/
def isFlat : IRExpr Op Fn → Bool
  | .get _ _ => true
  | .binop _ arg1 arg2 => isIRAtom arg1 && isIRAtom arg2
  | .load _ _ addr => isIRAtom addr
  | _ => false

section Traverse

variable {m : Type → Type} [Monad m] (f : IRExpr Op Fn → m (IRExpr Op Fn))

/-- An expression that there may be. -/
def traverseOpt : Option (IRExpr Op Fn) → m (Option (IRExpr Op Fn))
  | some e => some <$> f e
  | none => pure none

/-- The arguments of a dirty call, from the left. -/
def traverseArgs : List (IRArg Op Fn) → m (List (IRArg Op Fn))
  | [] => pure []
  | .expr e :: args => do
    let e ← f e
    let args ← traverseArgs args
    pure (.expr e :: args)
  | arg :: args => do
    let args ← traverseArgs args
    pure (arg :: args)

/-- A statement with all of its expressions changed, one after the other. -/
def IRStmt.traverse : IRStmt Op Fn → m (IRStmt Op Fn)
  | .noOp => pure .noOp
  | .iMark addr len delta => pure (.iMark addr len delta)
  | .mbe event => pure (.mbe event)
  | .abiHint base len nia => do
    let e1 ← f base
    let e2 ← f nia
    pure (.abiHint e1 len e2)
  | .put offset data => do
    let e1 ← f data
    pure (.put offset e1)
  | .putI descr ix bias data => do
    let e1 ← f ix
    let e2 ← f data
    pure (.putI descr e1 bias e2)
  | .wrTmp tmp data => do
    let e1 ← f data
    pure (.wrTmp tmp e1)
  | .store endn addr data => do
    let e1 ← f addr
    let e2 ← f data
    pure (.store endn e1 e2)
  | .storeG endn addr data guard => do
    let e1 ← f addr
    let e2 ← f data
    let e3 ← f guard
    pure (.storeG endn e1 e2 e3)
  | .loadG endn cvt dst addr alt guard => do
    let e1 ← f addr
    let e2 ← f alt
    let e3 ← f guard
    pure (.loadG endn cvt dst e1 e2 e3)
  | .cas oldHi oldLo endn addr expdHi expdLo dataHi dataLo => do
    let e1 ← f addr
    let e2 ← traverseOpt f expdHi
    let e3 ← f expdLo
    let e4 ← traverseOpt f dataHi
    let e5 ← f dataLo
    pure (.cas oldHi oldLo endn e1 e2 e3 e4 e5)
  | .llsc endn result addr storedata => do
    let e1 ← f addr
    let e2 ← traverseOpt f storedata
    pure (.llsc endn result e1 e2)
  | .dirty ⟨cee, guard, args, tmp, some (fx, addr, size), fxs⟩ => do
    let e1 ← f addr
    let e2 ← f guard
    let args ← traverseArgs f args
    pure (.dirty ⟨cee, e2, args, tmp, some (fx, e1, size), fxs⟩)
  | .dirty ⟨cee, guard, args, tmp, none, fxs⟩ => do
    let e2 ← f guard
    let args ← traverseArgs f args
    pure (.dirty ⟨cee, e2, args, tmp, none, fxs⟩)
  | .exit guard jk dst offsIP => do
    let e1 ← f guard
    pure (.exit e1 jk dst offsIP)

end Traverse

/-- The statements that `flatten_Stmt` has a shortcut for. -/
def isKept : IRStmt Op Fn → Bool
  | .put _ data => isIRAtom data
  | .wrTmp _ data => isFlat data
  | _ => false

/-- `flatten_Stmt`. -/
def flattenStmt (st : IRStmt Op Fn) : StateM (Out Op Fn) Unit := do
  let st ← if isKept st then pure st else st.traverse (flattenExpr T ltr)
  addStmtToIRSB st

/-- The loop of `flatten_BB`. -/
def flattenStmts : List (IRStmt Op Fn) → StateM (Out Op Fn) Unit
  | [] => pure ()
  | st :: stmts => do
    flattenStmt T ltr st
    flattenStmts stmts

/-- `flatten_BB`. -/
def flattenBB (bb : IRSB Op Fn) : IRSB Op Fn :=
  let out := (flattenStmts T ltr bb.stmts ⟨bb.tyenv, []⟩).2
  let (next, out) := flattenExpr T ltr bb.next out
  { bb with tyenv := out.tyenv, stmts := out.stmts, next := next }

end Pass

/-! ### What is put in -/

/-- **The assignments that a part of the pass puts in**: they are flat, to new temporaries, and
assign them once and before they are used, if the temporaries in `X` have been assigned. -/
structure Piece (X : Set IRTemp) (bb bb' : Out Op Fn) (new : List (IRStmt Op Fn)) : Prop where
  /-- The new temporaries come after the old ones. -/
  tyenv : bb.tyenv <+: bb'.tyenv
  /-- The assignments come after what is there. -/
  stmts : bb'.stmts = bb.stmts ++ new
  /-- They are flat, and to new temporaries. -/
  assigns : ∀ st ∈ new, ∃ t d, st = .wrTmp t d ∧ isFlatData d = true ∧ bb.tyenv.length ≤ t
  /-- The new temporaries are assigned once, and before they are used. -/
  ssa : ∀ D, X ⊆ D → (∀ t ∈ D, t < bb.tyenv.length) → Ssa IRStmt.exprs bb'.tyenv.length D new

/-- **What becomes of an expression**: an atom of the same type, which after the new assignments
has the value that the expression had before them. -/
structure Carried (T : OpTable Op) (X : Set IRTemp) (bb bb' : Out Op Fn)
    (new : List (IRStmt Op Fn)) (e a : IRExpr Op Fn) : Prop where
  /-- The temporaries of the expression have been assigned. -/
  source : ∀ t ∈ e.temps, t ∈ X
  /-- An atom. -/
  atom : isIRAtom a = true
  /-- Its temporary has been assigned. -/
  temps : ∀ t ∈ a.temps, t < bb'.tyenv.length ∧ (t ∈ X ∨ t ∈ defsOf new)
  /-- The type is the same. -/
  type : typeOfIRExpr T bb'.tyenv a = typeOfIRExpr T bb.tyenv e
  /-- The value is the same. -/
  eval : ∀ {V σ : Type} (M : Machine Op Fn V σ) (tyenv : IRTypeEnv) (c : Config V σ),
    e.eval M c = a.eval M (run (IRStmt.sem T M tyenv) new c).1

section Piece

variable {T : OpTable Op} {M : Machine Op Fn V σ} {X : Set IRTemp} {bb bb₁ bb₂ : Out Op Fn}
  {new new₁ new₂ : List (IRStmt Op Fn)} {tyenv : IRTypeEnv}

/-- Assignments fall through; they leave the state alone, and the old temporaries. -/
theorem run_assigns {n : ℕ} (h : ∀ st ∈ new, ∃ t d, st = .wrTmp t d ∧ n ≤ t) (c : Config V σ) :
    (run (IRStmt.sem T M tyenv) new c).2 = none ∧
      Agree {t | t < n} c (run (IRStmt.sem T M tyenv) new c).1 := by
  induction new generalizing c with
  | nil => exact ⟨rfl, .refl _ c⟩
  | cons st new ih =>
    obtain ⟨t, d, rfl, ht⟩ := h st List.mem_cons_self
    obtain ⟨hnone, hagree⟩ := ih (fun st hst => h st (List.mem_cons_of_mem _ hst))
      (Function.update c.1 t (d.eval M c), c.2)
    have hone : Agree {t | t < n} c (Function.update c.1 t (d.eval M c), c.2) :=
      ⟨rfl, fun t' ht' => (Function.update_of_ne (ne_of_lt (lt_of_lt_of_le ht' ht)) _ _).symm⟩
    exact ⟨hnone, hone.trans hagree⟩

theorem Piece.run (h : Piece X bb bb₁ new) (T : OpTable Op) (M : Machine Op Fn V σ)
    (tyenv : IRTypeEnv) (c : Config V σ) :
    (run (IRStmt.sem T M tyenv) new c).2 = none ∧
      Agree {t | t < bb.tyenv.length} c (run (IRStmt.sem T M tyenv) new c).1 :=
  run_assigns (fun st hst => by
    obtain ⟨t, d, rfl, -, ht⟩ := h.assigns st hst
    exact ⟨t, d, rfl, ht⟩) c

/-- The temporaries that are assigned are the new ones. -/
theorem Piece.defs (h : Piece X bb bb₁ new) (hX : ∀ t ∈ X, t < bb.tyenv.length) {t : IRTemp}
    (ht : t ∈ defsOf new) : bb.tyenv.length ≤ t ∧ t < bb₁.tyenv.length := by
  refine ⟨?_, ((h.ssa X subset_rfl hX).notMem ht).1⟩
  obtain ⟨st, hst, ht⟩ := ht
  obtain ⟨t', d, rfl, -, hle⟩ := h.assigns st hst
  exact List.mem_singleton.mp ht ▸ hle

theorem Piece.length_le (h : Piece X bb bb₁ new) : bb.tyenv.length ≤ bb₁.tyenv.length :=
  h.tyenv.length_le

theorem piece_nil (X : Set IRTemp) (bb : Out Op Fn) : Piece X bb bb [] where
  tyenv := List.prefix_rfl
  stmts := (List.append_nil _).symm
  assigns _ h := by cases h
  ssa _ _ _ := trivial

/-- A new temporary. -/
theorem piece_newIRTemp (X : Set IRTemp) (bb : Out Op Fn) (ty : IRType) :
    Piece X bb (newIRTemp ty bb).2 [] where
  tyenv := List.prefix_append _ _
  stmts := (List.append_nil _).symm
  assigns _ h := by cases h
  ssa _ _ _ := trivial

/-- One part after another. -/
theorem Piece.append (h₁ : Piece X bb bb₁ new₁) (h₂ : Piece X bb₁ bb₂ new₂) :
    Piece X bb bb₂ (new₁ ++ new₂) where
  tyenv := h₁.tyenv.trans h₂.tyenv
  stmts := by rw [h₂.stmts, h₁.stmts, List.append_assoc]
  assigns st hst := by
    rcases List.mem_append.mp hst with hst | hst
    · exact h₁.assigns st hst
    · obtain ⟨t, d, hd, hflat, ht⟩ := h₂.assigns st hst
      exact ⟨t, d, hd, hflat, h₁.length_le.trans ht⟩
  ssa D hD hlt := by
    have hssa := h₁.ssa D hD hlt
    refine ssa_append.mpr ⟨hssa.mono h₂.length_le subset_rfl (fun t ht => (hssa.notMem ht).2)
      fun _ _ => List.Subset.refl _, h₂.ssa _ (hD.trans Set.subset_union_left) fun t ht => ?_⟩
    rcases ht with ht | ht
    · exact lt_of_lt_of_le (hlt t ht) h₁.length_le
    · exact (hssa.notMem ht).1

/-- What has become of an expression stays, whatever comes in later. -/
theorem Carried.later {e a : IRExpr Op Fn} (h : Carried T X bb bb₁ new₁ e a)
    (h₂ : Piece X bb₁ bb₂ new₂) (h₁ : Piece X bb bb₁ new₁) :
    Carried T X bb bb₂ (new₁ ++ new₂) e a where
  source := h.source
  atom := h.atom
  temps t ht := by
    obtain ⟨hlt, hmem⟩ := h.temps t ht
    refine ⟨lt_of_lt_of_le hlt h₂.length_le, hmem.imp_right fun hmem => ?_⟩
    rw [defsOf_append]
    exact Or.inl hmem
  type := (typeOfIRExpr_of_grown h₂.tyenv fun t ht => (h.temps t ht).1).trans h.type
  eval M tyenv c := by
    rw [h.eval M tyenv c, run_append_of_none _ _ (h₁.run T M tyenv c).1]
    obtain ⟨-, hs, hagree⟩ := h₂.run T M tyenv
      (Straight.run (IRStmt.sem T M tyenv) new₁ c).1
    exact a.eval_congr hs fun t ht => hagree (h.temps t ht).1

/-- What becomes of an expression is the same after assignments to new temporaries. -/
theorem Carried.earlier {e a : IRExpr Op Fn} (h : Carried T X bb₁ bb₂ new₂ e a)
    (h₁ : Piece X bb bb₁ new₁) (hX : ∀ t ∈ X, t < bb.tyenv.length) :
    Carried T X bb bb₂ (new₁ ++ new₂) e a where
  source := h.source
  atom := h.atom
  temps t ht := by
    obtain ⟨hlt, hmem⟩ := h.temps t ht
    refine ⟨hlt, hmem.imp_right fun hmem => ?_⟩
    rw [defsOf_append]
    exact Or.inr hmem
  type := h.type.trans (typeOfIRExpr_of_grown h₁.tyenv fun t ht => hX t (h.source t ht))
  eval M tyenv c := by
    obtain ⟨hnone, hs, hagree⟩ := h₁.run T M tyenv c
    rw [run_append_of_none _ _ hnone, ← h.eval M tyenv]
    exact e.eval_congr hs fun t ht => hagree (hX t (h.source t ht))

/-- **A new temporary that is assigned what is left of an expression** carries the expression. -/
theorem Piece.assign (h : Piece X bb bb₁ new) {e x : IRExpr Op Fn}
    (he : ∀ t ∈ e.temps, t ∈ X) (hx : e.Alike (Carried T X bb bb₁ new) x) {t1 : IRTemp}
    (hle : bb.tyenv.length ≤ t1) (hlt : t1 < bb₁.tyenv.length) (hnew : t1 ∉ defsOf new)
    (hty : typeOfIRTemp bb₁.tyenv t1 = typeOfIRExpr T bb.tyenv e) :
    Piece X bb (addStmtToIRSB (.wrTmp t1 x) bb₁).2 (new ++ [.wrTmp t1 x]) ∧
      Carried T X bb (addStmtToIRSB (.wrTmp t1 x) bb₁).2 (new ++ [.wrTmp t1 x]) e
        (.rdTmp t1) := by
  have htemps : ∀ t ∈ x.temps, t < bb₁.tyenv.length ∧ (t ∈ X ∨ t ∈ defsOf new) := fun t ht => by
    obtain ⟨e₁, a₁, h₁, ht⟩ := hx.temps ht
    exact h₁.temps t ht
  refine ⟨⟨h.tyenv, ?_, fun st hst => ?_, fun D hD hDlt => ?_⟩, he, rfl, fun t ht => ?_, hty,
    fun M tyenv c => ?_⟩
  · rw [← List.append_assoc, ← h.stmts]
    rfl
  · rcases List.mem_append.mp hst with hst | hst
    · exact h.assigns st hst
    · exact ⟨t1, x, List.mem_singleton.mp hst, hx.flat fun _ _ h => h.atom, hle⟩
  · refine ssa_append.mpr ⟨h.ssa D hD hDlt, fun e he t ht => ?_, List.nodup_singleton t1,
      fun t ht => ?_, trivial⟩
    · obtain rfl := List.mem_singleton.mp he
      exact ⟨(htemps t ht).1, (htemps t ht).2.imp (fun h => hD h) id⟩
    · obtain rfl := List.mem_singleton.mp ht
      exact ⟨hlt, fun h => h.elim (fun h => absurd (hDlt _ h) (not_lt.mpr hle)) hnew⟩
  · obtain rfl := List.mem_singleton.mp ht
    refine ⟨hlt, Or.inr ?_⟩
    rw [defsOf_append]
    exact Or.inr ⟨_, List.mem_singleton_self _, List.mem_singleton_self _⟩
  · obtain ⟨hnone, hs, -⟩ := h.run T M tyenv c
    rw [run_append_of_none _ _ hnone, run_singleton]
    rw [hx.eval hs fun _ _ h => h.eval M tyenv c]
    simp only [IRStmt.sem, IRExpr.eval, Function.update_self]

end Piece

/-! ### Parts of the pass -/

/-- **What a part of the pass does**, on any superblock in which the temporaries in `X` are in
range: it puts in a piece, and its result is `Q`, where expressions are related to what is
carried for them. -/
def Lifts {α : Type} (T : OpTable Op) (X : Set IRTemp)
    (Q : (IRExpr Op Fn → IRExpr Op Fn → Prop) → α → Prop) (m : StateM (Out Op Fn) α) : Prop :=
  ∀ bb, (∀ t ∈ X, t < bb.tyenv.length) →
    ∃ new, Piece X bb (m bb).2 new ∧ Q (Carried T X bb (m bb).2 new) (m bb).1

/-- More that is related is no harm. -/
def RelMono {α : Type} (Q : (IRExpr Op Fn → IRExpr Op Fn → Prop) → α → Prop) : Prop :=
  ∀ R R' a, (∀ e e', R e e' → R' e e') → Q R a → Q R' a

section Lifts

variable {T : OpTable Op} {X : Set IRTemp} {α β : Type}
  {Q Q' : (IRExpr Op Fn → IRExpr Op Fn → Prop) → α → Prop} {m : StateM (Out Op Fn) α}

/-- The rule of consequence. -/
theorem Lifts.mono (h : Lifts T X Q m) (hQ : ∀ R a, Q R a → Q' R a) : Lifts T X Q' m := by
  intro bb hX
  obtain ⟨new, hpiece, hq⟩ := h bb hX
  exact ⟨new, hpiece, hQ _ _ hq⟩

/-- The rule for a result without an effect. -/
theorem lifts_pure {a : α} (h : ∀ R, Q R a) : Lifts T X Q (pure a) :=
  fun bb _ => ⟨[], piece_nil X bb, h _⟩

/-- The rule for an atom that stays as it is. -/
theorem lifts_atom {e : IRExpr Op Fn} (he : isIRAtom e = true) (hX : ∀ t ∈ e.temps, t ∈ X) :
    Lifts T X (fun R a => R e a) (pure e) :=
  fun bb hlt => ⟨[], piece_nil X bb, hX, he, fun t ht => ⟨hlt t (hX t ht), Or.inl (hX t ht)⟩, rfl,
    fun _ _ _ => rfl⟩

/-- **The rule for one part after another.** -/
theorem Lifts.bind {f : α → StateM (Out Op Fn) β}
    {P : α → (IRExpr Op Fn → IRExpr Op Fn → Prop) → β → Prop} (h : Lifts T X Q m)
    (hQ : RelMono Q) (hf : ∀ a, Lifts T X (P a) (f a)) (hP : ∀ a, RelMono (P a)) :
    Lifts T X (fun R b => ∃ a, Q R a ∧ P a R b) (m >>= f) := by
  intro bb hX
  obtain ⟨new₁, hpiece₁, hq⟩ := h bb hX
  obtain ⟨new₂, hpiece₂, hp⟩ := hf (m bb).1 (m bb).2 fun t ht =>
    lt_of_lt_of_le (hX t ht) hpiece₁.length_le
  exact ⟨new₁ ++ new₂, hpiece₁.append hpiece₂, (m bb).1,
    hQ _ _ _ (fun e e' he => he.later hpiece₂ hpiece₁) hq,
    hP _ _ _ _ (fun e e' he => he.earlier hpiece₁ hX) hp⟩

/-- The rule for a result that something is made of. -/
theorem Lifts.map {P : (IRExpr Op Fn → IRExpr Op Fn → Prop) → β → Prop} (f : α → β)
    (h : Lifts T X Q m) (hQ : ∀ R a, Q R a → P R (f a)) : Lifts T X P (f <$> m) := by
  intro bb hX
  obtain ⟨new, hpiece, hq⟩ := h bb hX
  exact ⟨new, hpiece, hQ _ _ hq⟩

/-- The rule for two arguments, in either order. -/
theorem Lifts.inOrder {P : (IRExpr Op Fn → IRExpr Op Fn → Prop) → β → Prop} (ltr : Bool)
    {m₂ : StateM (Out Op Fn) β} (h₁ : Lifts T X Q m) (hQ : RelMono Q) (h₂ : Lifts T X P m₂)
    (hP : RelMono P) : Lifts T X (fun R p => Q R p.1 ∧ P R p.2) (inOrder ltr m m₂) := by
  have hpure (a : α) (b : β) :
      Lifts T X (fun _ p => p = (a, b)) (pure (a, b) : StateM (Out Op Fn) (α × β)) :=
    lifts_pure fun _ => rfl
  cases ltr with
  | true =>
    refine (h₁.bind hQ (fun a => h₂.bind hP (hpure a) fun _ _ _ _ _ h => h) ?_).mono ?_
    · rintro a R R' p hR ⟨b, hb, rfl⟩
      exact ⟨b, hP R R' b hR hb, rfl⟩
    · rintro R p ⟨a, ha, b, hb, rfl⟩
      exact ⟨ha, hb⟩
  | false =>
    refine (h₂.bind hP (fun b => h₁.bind hQ (fun a => hpure a b) fun _ _ _ _ _ h => h) ?_).mono ?_
    · rintro b R R' p hR ⟨a, ha, rfl⟩
      exact ⟨a, hQ R R' a hR ha, rfl⟩
    · rintro R p ⟨b, hb, a, ha, rfl⟩
      exact ⟨ha, hb⟩

/-- **The rule for a new temporary** that is assigned what is left of an expression. -/
theorem Lifts.assignNew {e : IRExpr Op Fn} (he : ∀ t ∈ e.temps, t ∈ X)
    {rhs : StateM (Out Op Fn) (IRExpr Op Fn)} (h : Lifts T X (fun R x => e.Alike R x) rhs) :
    Lifts T X (fun R a => R e a) (assignNew T e rhs) := by
  intro bb hX
  have hnew : Piece X bb (newIRTemp (typeOfIRExpr T bb.tyenv e) bb).2 [] := piece_newIRTemp X bb _
  generalize hbb : (newIRTemp (typeOfIRExpr T bb.tyenv e) bb).2 = bb₁ at hnew
  have htyenv : bb₁.tyenv = bb.tyenv ++ [typeOfIRExpr T bb.tyenv e] := by rw [← hbb]; rfl
  have hX₁ : ∀ t ∈ X, t < bb₁.tyenv.length := fun t ht =>
    lt_of_lt_of_le (hX t ht) hnew.length_le
  obtain ⟨new, hpiece, hx⟩ := h bb₁ hX₁
  have hlen : bb₁.tyenv.length = bb.tyenv.length + 1 := by simp [htyenv]
  have hlt : bb.tyenv.length < bb₁.tyenv.length := by omega
  have hty : typeOfIRTemp (rhs bb₁).2.tyenv bb.tyenv.length = typeOfIRExpr T bb.tyenv e := by
    rw [typeOfIRTemp_of_grown hpiece.tyenv hlt, htyenv, typeOfIRTemp]
    simp
  obtain ⟨hpiece', hcarried⟩ := (hnew.append hpiece).assign he
    (hx.mono fun _ _ h => h.earlier hnew hX) (le_refl bb.tyenv.length)
    (lt_of_lt_of_le hlt hpiece.length_le) (fun ht => absurd (hpiece.defs hX₁ ht).1 (by omega)) hty
  subst hbb
  exact ⟨_, hpiece', hcarried⟩

theorem relMono_rel (e : IRExpr Op Fn) : RelMono fun R a => R e a :=
  fun _ _ _ hR h => hR _ _ h

theorem RelMono.and {P : (IRExpr Op Fn → IRExpr Op Fn → Prop) → β → Prop} (hQ : RelMono Q)
    (hP : RelMono P) :
    RelMono fun R (p : α × β) => Q R p.1 ∧ P R p.2 :=
  fun R R' p hR h => ⟨hQ R R' p.1 hR h.1, hP R R' p.2 hR h.2⟩

/-- The arguments of a call. -/
theorem lifts_flattenArgs {ltr : Bool} {args : List (IRExpr Op Fn)}
    (h : ∀ arg ∈ args, Lifts T X (fun R a => R arg a) (flattenExpr T ltr arg)) :
    Lifts T X (fun R as => List.Forall₂ R args as) (flattenArgs T ltr args) := by
  induction args with
  | nil => exact lifts_pure fun _ => .nil
  | cons arg args ih =>
    have ih := ih fun arg' h' => h arg' (List.mem_cons_of_mem _ h')
    have hargs : RelMono fun R as => List.Forall₂ R args as := fun R R' as hR h => h.imp hR
    refine ((h arg List.mem_cons_self).bind (relMono_rel arg) (fun newarg => ih.bind hargs
      (fun newargs => lifts_pure (Q := fun _ as => as = newarg :: newargs) fun _ => rfl)
      fun _ _ _ _ _ h => h) ?_).mono ?_
    · rintro newarg R R' as hR ⟨newargs, hnew, rfl⟩
      exact ⟨newargs, hnew.imp hR, rfl⟩
    · rintro R as ⟨newarg, hnew, newargs, hnews, rfl⟩
      exact .cons hnew hnews

/-- The case of a call: the new temporary comes after the arguments. -/
theorem lifts_ccall {ltr : Bool} {cee : IRCallee Fn} {retty : IRType} {args : List (IRExpr Op Fn)}
    (hX : ∀ t ∈ (IRExpr.ccall cee retty args : IRExpr Op Fn).temps, t ∈ X)
    (h : Lifts T X (fun R as => List.Forall₂ R args as) (flattenArgs T ltr args)) :
    Lifts T X (fun R a => R (.ccall cee retty args) a)
      (flattenExpr T ltr (.ccall cee retty args)) := by
  intro bb hlt
  obtain ⟨new, hpiece, hargs⟩ := h bb hlt
  have hnew : Piece X (flattenArgs T ltr args bb).2
      (newIRTemp retty (flattenArgs T ltr args bb).2).2 [] := piece_newIRTemp X _ _
  have hty : typeOfIRTemp (newIRTemp retty (flattenArgs T ltr args bb).2).2.tyenv
      (flattenArgs T ltr args bb).2.tyenv.length =
        typeOfIRExpr T bb.tyenv (.ccall cee retty args) := by
    simp [newIRTemp, typeOfIRTemp, typeOfIRExpr]
  have hfresh : (flattenArgs T ltr args bb).2.tyenv.length ∉ defsOf (new ++ []) := by
    rw [List.append_nil]
    exact fun ht => absurd (hpiece.defs hlt ht).2 (lt_irrefl _)
  obtain ⟨hpiece', hcarried⟩ := (hpiece.append hnew).assign hX
    (.ccall cee retty (hargs.imp fun _ _ h => h.later hnew hpiece)) hpiece.length_le
    (by simp [newIRTemp]) hfresh hty
  exact ⟨_, hpiece', hcarried⟩

/-- **What becomes of an expression.** -/
theorem lifts_flattenExpr (ltr : Bool) {e : IRExpr Op Fn} (hX : ∀ t ∈ e.temps, t ∈ X) :
    Lifts T X (fun R a => R e a) (flattenExpr T ltr e) := by
  induction e using IRExpr.inductOn with
  | get offset ty =>
    rw [flattenExpr]
    exact .assignNew hX (lifts_pure fun _ => .get offset ty)
  | const con =>
    rw [flattenExpr]
    cases con.isF64i with
    | true => exact .assignNew hX (lifts_pure fun _ => .const con)
    | false => exact lifts_atom rfl hX
  | rdTmp tmp =>
    rw [flattenExpr]
    exact lifts_atom rfl hX
  | getI descr ix bias ih =>
    rw [flattenExpr]
    exact .assignNew hX ((ih hX).map _ fun _ _ h => .getI descr bias h)
  | unop op arg ih =>
    rw [flattenExpr]
    exact .assignNew hX ((ih hX).map _ fun _ _ h => .unop op h)
  | load endn ty addr ih =>
    rw [flattenExpr]
    exact .assignNew hX ((ih hX).map _ fun _ _ h => .load endn ty h)
  | binop op arg1 arg2 ih1 ih2 =>
    have hX' := hX
    simp only [IRExpr.temps, List.mem_append, or_imp, forall_and] at hX'
    obtain ⟨h1, h2⟩ := hX'
    rw [flattenExpr]
    refine .assignNew hX (((ih1 h1).inOrder ltr (relMono_rel arg1) (ih2 h2)
      (relMono_rel arg2)).map _ fun _ _ h => ?_)
    exact .binop op h.1 h.2
  | triop op arg1 arg2 arg3 ih1 ih2 ih3 =>
    have hX' := hX
    simp only [IRExpr.temps, List.mem_append, or_imp, forall_and] at hX'
    obtain ⟨⟨h1, h2⟩, h3⟩ := hX'
    rw [flattenExpr]
    refine .assignNew hX (((ih1 h1).inOrder ltr (relMono_rel arg1) ((ih2 h2).inOrder ltr
      (relMono_rel arg2) (ih3 h3) (relMono_rel arg3))
      ((relMono_rel arg2).and (relMono_rel arg3))).map _ fun _ _ h => ?_)
    exact .triop op h.1 h.2.1 h.2.2
  | ite cond iftrue iffalse ih1 ih2 ih3 =>
    have hX' := hX
    simp only [IRExpr.temps, List.mem_append, or_imp, forall_and] at hX'
    obtain ⟨⟨h1, h2⟩, h3⟩ := hX'
    rw [flattenExpr]
    refine .assignNew hX (((ih1 h1).inOrder ltr (relMono_rel cond) ((ih2 h2).inOrder ltr
      (relMono_rel iftrue) (ih3 h3) (relMono_rel iffalse))
      ((relMono_rel iftrue).and (relMono_rel iffalse))).map _ fun _ _ h => ?_)
    exact .ite h.1 h.2.1 h.2.2
  | qop op arg1 arg2 arg3 arg4 ih1 ih2 ih3 ih4 =>
    have hX' := hX
    simp only [IRExpr.temps, List.mem_append, or_imp, forall_and] at hX'
    obtain ⟨⟨⟨h1, h2⟩, h3⟩, h4⟩ := hX'
    rw [flattenExpr]
    refine .assignNew hX (((ih1 h1).inOrder ltr (relMono_rel arg1) ((ih2 h2).inOrder ltr
      (relMono_rel arg2) ((ih3 h3).inOrder ltr (relMono_rel arg3) (ih4 h4) (relMono_rel arg4))
      ((relMono_rel arg3).and (relMono_rel arg4)))
      ((relMono_rel arg2).and ((relMono_rel arg3).and (relMono_rel arg4)))).map _ fun _ _ h => ?_)
    exact .qop op h.1 h.2.1 h.2.2.1 h.2.2.2
  | ccall cee retty args ih =>
    refine lifts_ccall hX (lifts_flattenArgs fun arg harg => ih arg harg fun t ht => hX t ?_)
    rw [IRExpr.temps, argsTemps_eq]
    exact List.mem_flatMap.mpr ⟨arg, harg, ht⟩

/-! ### Statements -/

/-- An expression that there may be. -/
theorem lifts_traverseOpt {f : IRExpr Op Fn → StateM (Out Op Fn) (IRExpr Op Fn)}
    (e : Option (IRExpr Op Fn)) (h : ∀ e' ∈ e, Lifts T X (fun R a => R e' a) (f e')) :
    Lifts T X (fun R a => Option.Rel R e a) (traverseOpt f e) := by
  cases e with
  | none => exact lifts_pure fun _ => .none
  | some e => exact (h e rfl).map some fun _ _ h => .some h

theorem relMono_opt (e : Option (IRExpr Op Fn)) : RelMono fun R a => Option.Rel R e a := by
  rintro R R' a hR (h | _)
  · exact .some (hR _ _ h)
  · exact .none

theorem relMono_args (args : List (IRArg Op Fn)) :
    RelMono fun R as => List.Forall₂ (IRArg.Alike R) args as :=
  fun _ _ _ hR h => h.imp fun _ _ h => h.mono hR

/-- The arguments of a dirty call. -/
theorem lifts_traverseArgs {f : IRExpr Op Fn → StateM (Out Op Fn) (IRExpr Op Fn)}
    (args : List (IRArg Op Fn))
    (h : ∀ e ∈ args.filterMap IRArg.expr?, Lifts T X (fun R a => R e a) (f e)) :
    Lifts T X (fun R as => List.Forall₂ (IRArg.Alike R) args as) (traverseArgs f args) := by
  induction args with
  | nil => exact lifts_pure fun _ => .nil
  | cons arg args ih =>
    cases arg with
    | expr e =>
      have ih := ih fun e' h' => h e' (List.mem_cons_of_mem _ h')
      exact ((h e List.mem_cons_self).inOrder true (relMono_rel e) ih (relMono_args args)).map
        (fun p => .expr p.1 :: p.2) fun _ _ h => List.Forall₂.cons (.expr h.1) h.2
    | vecret => exact (ih h).map (.vecret :: ·) fun _ _ h => List.Forall₂.cons .vecret h
    | gsptr => exact (ih h).map (.gsptr :: ·) fun _ _ h => List.Forall₂.cons .gsptr h

/-- **What becomes of a statement**: one that is like it. -/
theorem lifts_traverse {f : IRExpr Op Fn → StateM (Out Op Fn) (IRExpr Op Fn)} {st : IRStmt Op Fn}
    (h : ∀ e ∈ st.exprs, Lifts T X (fun R a => R e a) (f e)) :
    Lifts T X (fun R st' => st.Alike R st') (st.traverse f) := by
  cases st with
  | noOp => exact lifts_pure fun _ => .noOp
  | iMark addr len delta => exact lifts_pure fun _ => .iMark addr len delta
  | mbe event => exact lifts_pure fun _ => .mbe event
  | put offset data =>
    have h1 := h data (by simp [IRStmt.exprs])
    show Lifts T X (IRStmt.Alike · _) ((IRStmt.put offset ·) <$> f data)
    exact h1.map _ fun _ _ h => .put offset h
  | wrTmp tmp data =>
    have h1 := h data (by simp [IRStmt.exprs])
    show Lifts T X (IRStmt.Alike · _) ((IRStmt.wrTmp tmp ·) <$> f data)
    exact h1.map _ fun _ _ h => .wrTmp tmp h
  | exit guard jk dst offsIP =>
    have h1 := h guard (by simp [IRStmt.exprs])
    show Lifts T X (IRStmt.Alike · _) ((IRStmt.exit · jk dst offsIP) <$> f guard)
    exact h1.map _ fun _ _ h => .exit jk dst offsIP h
  | abiHint base len nia =>
    have h1 := h base (by simp [IRStmt.exprs])
    have h2 := h nia (by simp [IRStmt.exprs])
    show Lifts T X (IRStmt.Alike · _)
      ((fun p => IRStmt.abiHint p.1 len p.2) <$> inOrder true (f base) (f nia))
    exact (h1.inOrder true (relMono_rel _) h2 (relMono_rel _)).map _
      fun _ _ h => .abiHint len h.1 h.2
  | putI descr ix bias data =>
    have h1 := h ix (by simp [IRStmt.exprs])
    have h2 := h data (by simp [IRStmt.exprs])
    show Lifts T X (IRStmt.Alike · _)
      ((fun p => IRStmt.putI descr p.1 bias p.2) <$> inOrder true (f ix) (f data))
    exact (h1.inOrder true (relMono_rel _) h2 (relMono_rel _)).map _
      fun _ _ h => .putI descr bias h.1 h.2
  | store endn addr data =>
    have h1 := h addr (by simp [IRStmt.exprs])
    have h2 := h data (by simp [IRStmt.exprs])
    show Lifts T X (IRStmt.Alike · _)
      ((fun p => IRStmt.store endn p.1 p.2) <$> inOrder true (f addr) (f data))
    exact (h1.inOrder true (relMono_rel _) h2 (relMono_rel _)).map _
      fun _ _ h => .store endn h.1 h.2
  | storeG endn addr data guard =>
    have h1 := h addr (by simp [IRStmt.exprs])
    have h2 := h data (by simp [IRStmt.exprs])
    have h3 := h guard (by simp [IRStmt.exprs])
    show Lifts T X (IRStmt.Alike · _) ((fun p => IRStmt.storeG endn p.1 p.2.1 p.2.2) <$>
      inOrder true (f addr) (inOrder true (f data) (f guard)))
    exact (h1.inOrder true (relMono_rel _) (h2.inOrder true (relMono_rel _) h3 (relMono_rel _))
      ((relMono_rel _).and (relMono_rel _))).map _
      fun _ _ h => .storeG endn h.1 h.2.1 h.2.2
  | loadG endn cvt dst addr alt guard =>
    have h1 := h addr (by simp [IRStmt.exprs])
    have h2 := h alt (by simp [IRStmt.exprs])
    have h3 := h guard (by simp [IRStmt.exprs])
    show Lifts T X (IRStmt.Alike · _) ((fun p => IRStmt.loadG endn cvt dst p.1 p.2.1 p.2.2) <$>
      inOrder true (f addr) (inOrder true (f alt) (f guard)))
    exact (h1.inOrder true (relMono_rel _) (h2.inOrder true (relMono_rel _) h3 (relMono_rel _))
      ((relMono_rel _).and (relMono_rel _))).map _
      fun _ _ h => .loadG endn cvt dst h.1 h.2.1 h.2.2
  | llsc endn result addr storedata =>
    have h1 := h addr (by simp [IRStmt.exprs])
    have h2 := lifts_traverseOpt storedata fun e he =>
      h e (by simp [IRStmt.exprs, Option.mem_def.mp he])
    show Lifts T X (IRStmt.Alike · _) ((fun p => IRStmt.llsc endn result p.1 p.2) <$>
      inOrder true (f addr) (traverseOpt f storedata))
    exact (h1.inOrder true (relMono_rel _) h2 (relMono_opt _)).map _
      fun _ _ h => .llsc endn result h.1 h.2
  | cas oldHi oldLo endn addr expdHi expdLo dataHi dataLo =>
    have h1 := h addr (by simp [IRStmt.exprs])
    have h2 := lifts_traverseOpt expdHi fun e he =>
      h e (by simp [IRStmt.exprs, Option.mem_def.mp he])
    have h3 := h expdLo (by simp [IRStmt.exprs])
    have h4 := lifts_traverseOpt dataHi fun e he =>
      h e (by simp [IRStmt.exprs, Option.mem_def.mp he])
    have h5 := h dataLo (by simp [IRStmt.exprs])
    show Lifts T X (IRStmt.Alike · _) ((fun p =>
      IRStmt.cas oldHi oldLo endn p.1 p.2.1 p.2.2.1 p.2.2.2.1 p.2.2.2.2) <$>
        inOrder true (f addr) (inOrder true (traverseOpt f expdHi) (inOrder true (f expdLo)
          (inOrder true (traverseOpt f dataHi) (f dataLo)))))
    exact (h1.inOrder true (relMono_rel _) (h2.inOrder true (relMono_opt _)
      (h3.inOrder true (relMono_rel _) (h4.inOrder true (relMono_opt _) h5 (relMono_rel _))
        ((relMono_opt _).and (relMono_rel _)))
      ((relMono_rel _).and ((relMono_opt _).and (relMono_rel _))))
      ((relMono_opt _).and ((relMono_rel _).and ((relMono_opt _).and (relMono_rel _))))).map _
      fun _ _ h => .cas oldHi oldLo endn h.1 h.2.1 h.2.2.1 h.2.2.2.1 h.2.2.2.2
  | dirty d =>
    obtain ⟨cee, guard, args, tmp, mem, fxs⟩ := d
    have h2 := h guard (by simp [IRStmt.exprs])
    have h3 := lifts_traverseArgs args fun e he =>
      h e (List.mem_append_right _ (List.mem_cons_of_mem _ he))
    cases mem with
    | none =>
      show Lifts T X (IRStmt.Alike · _) ((fun p => IRStmt.dirty ⟨cee, p.1, p.2, tmp, none, fxs⟩) <$>
        inOrder true (f guard) (traverseArgs f args))
      exact (h2.inOrder true (relMono_rel _) h3 (relMono_args _)).map _
        fun _ _ h => .dirty cee tmp fxs h.1 h.2 .none
    | some m =>
      obtain ⟨fx, addr, size⟩ := m
      have h1 := h addr (by simp [IRStmt.exprs])
      show Lifts T X (IRStmt.Alike · _) ((fun p =>
        IRStmt.dirty ⟨cee, p.2.1, p.2.2, tmp, some (fx, p.1, size), fxs⟩) <$>
          inOrder true (f addr) (inOrder true (f guard) (traverseArgs f args)))
      exact (h1.inOrder true (relMono_rel _) (h2.inOrder true (relMono_rel _) h3 (relMono_args _))
        ((relMono_rel _).and (relMono_args _))).map _
        fun _ _ h => .dirty cee tmp fxs h.2.1 h.2.2 (.some ⟨rfl, h.1, rfl⟩)

end Lifts

end Vex

import DepLeak.Vex.Ir
import Mathlib.Data.List.Forall2

/-!
# What the statements of a superblock use and define

The temporaries that an expression reads (`Vex.IRExpr.temps`), the expressions of a
statement and the temporaries it assigns (`Vex.IRStmt.exprs`, `Vex.IRStmt.defs`). The
value of an expression depends on the temporaries that it reads and on the state
(`Vex.IRExpr.eval_congr`), so that statements use and define what they should
(`Vex.IRStmt.useDef`).

Induction over expressions is by `Vex.IRExpr.inductOn`, where the arguments of a call are
met as members of their list.
-/

namespace Vex

open Straight

variable {Op Fn V σ : Type}

/-! ### Induction over expressions -/

section Induct

variable {motive : IRExpr Op Fn → Prop}
  (get : ∀ offset ty, motive (.get offset ty))
  (getI : ∀ descr ix bias, motive ix → motive (.getI descr ix bias))
  (rdTmp : ∀ tmp, motive (.rdTmp tmp))
  (qop : ∀ op arg1 arg2 arg3 arg4, motive arg1 → motive arg2 → motive arg3 → motive arg4 →
    motive (.qop op arg1 arg2 arg3 arg4))
  (triop : ∀ op arg1 arg2 arg3, motive arg1 → motive arg2 → motive arg3 →
    motive (.triop op arg1 arg2 arg3))
  (binop : ∀ op arg1 arg2, motive arg1 → motive arg2 → motive (.binop op arg1 arg2))
  (unop : ∀ op arg, motive arg → motive (.unop op arg))
  (load : ∀ endn ty addr, motive addr → motive (.load endn ty addr))
  (const : ∀ con, motive (.const con))
  (ite : ∀ cond iftrue iffalse, motive cond → motive iftrue → motive iffalse →
    motive (.ite cond iftrue iffalse))
  (ccall : ∀ cee retty args, (∀ arg ∈ args, motive arg) → motive (.ccall cee retty args))

include get getI rdTmp qop triop binop unop load const ite ccall

/-- Induction over expressions. -/
@[elab_as_elim]
theorem IRExpr.inductOn (e : IRExpr Op Fn) : motive e :=
  @IRExpr.rec Op Fn motive (fun args => ∀ arg ∈ args, motive arg) get getI
    rdTmp qop triop binop unop load const ite ccall
    (fun arg harg => absurd harg List.not_mem_nil)
    (fun head tail hhead htail arg harg => by
      rcases List.mem_cons.mp harg with rfl | harg
      · exact hhead
      · exact htail arg harg) e

end Induct

/-! ### Expressions -/

mutual

/-- The temporaries that an expression reads. -/
def IRExpr.temps : IRExpr Op Fn → List IRTemp
  | .get _ _ | .const _ => []
  | .getI _ ix _ => ix.temps
  | .rdTmp tmp => [tmp]
  | .qop _ arg1 arg2 arg3 arg4 => arg1.temps ++ arg2.temps ++ arg3.temps ++ arg4.temps
  | .triop _ arg1 arg2 arg3 => arg1.temps ++ arg2.temps ++ arg3.temps
  | .binop _ arg1 arg2 => arg1.temps ++ arg2.temps
  | .unop _ arg => arg.temps
  | .load _ _ addr => addr.temps
  | .ite cond iftrue iffalse => cond.temps ++ iftrue.temps ++ iffalse.temps
  | .ccall _ _ args => argsTemps args

/-- The temporaries that a list of expressions reads. -/
def argsTemps : List (IRExpr Op Fn) → List IRTemp
  | [] => []
  | e :: es => e.temps ++ argsTemps es

end

@[simp] theorem argsTemps_eq (es : List (IRExpr Op Fn)) :
    argsTemps es = es.flatMap IRExpr.temps := by
  induction es with
  | nil => rfl
  | cons e es ih => rw [argsTemps, List.flatMap_cons, ih]

@[simp] theorem evalArgs_eq (M : Machine Op Fn V σ) (c : Config V σ) (es : List (IRExpr Op Fn)) :
    evalArgs M c es = es.map (IRExpr.eval M c) := by
  induction es with
  | nil => rfl
  | cons e es ih => rw [evalArgs, List.map_cons, ih]

/-- **The value of an expression** depends on the temporaries that it reads, and on the
state. -/
theorem IRExpr.eval_congr {M : Machine Op Fn V σ} {c c' : Config V σ} (hs : c.2 = c'.2)
    (e : IRExpr Op Fn) (h : ∀ t ∈ e.temps, c.1 t = c'.1 t) : e.eval M c = e.eval M c' := by
  induction e using IRExpr.inductOn with
  | get | const => simp only [IRExpr.eval, hs]
  | rdTmp tmp => exact h tmp (List.mem_singleton_self tmp)
  | getI _ _ _ ih | load _ _ _ ih | unop _ _ ih => simp only [IRExpr.eval, hs, ih h]
  | qop _ _ _ _ _ ih₁ ih₂ ih₃ ih₄ =>
    simp only [IRExpr.temps, List.mem_append] at h
    simp only [IRExpr.eval, ih₁ fun t ht => h t (.inl (.inl (.inl ht))),
      ih₂ fun t ht => h t (.inl (.inl (.inr ht))), ih₃ fun t ht => h t (.inl (.inr ht)),
      ih₄ fun t ht => h t (.inr ht)]
  | triop _ _ _ _ ih₁ ih₂ ih₃ | ite _ _ _ ih₁ ih₂ ih₃ =>
    simp only [IRExpr.temps, List.mem_append] at h
    simp only [IRExpr.eval, ih₁ fun t ht => h t (.inl (.inl ht)),
      ih₂ fun t ht => h t (.inl (.inr ht)), ih₃ fun t ht => h t (.inr ht)]
  | binop _ _ _ ih₁ ih₂ =>
    simp only [IRExpr.temps, List.mem_append] at h
    simp only [IRExpr.eval, ih₁ fun t ht => h t (.inl ht), ih₂ fun t ht => h t (.inr ht)]
  | ccall cee retty args ih =>
    simp only [IRExpr.temps, argsTemps_eq, List.mem_flatMap] at h
    simp only [IRExpr.eval, evalArgs_eq]
    exact congrArg _ (List.map_congr_left fun arg harg =>
      ih arg harg fun t ht => h t ⟨arg, harg, ht⟩)

/-! ### Statements -/

/-- The expression that an argument of a dirty call is. -/
def IRArg.expr? : IRArg Op Fn → Option (IRExpr Op Fn)
  | .expr e => some e
  | .vecret | .gsptr => none

/-- The expressions of a statement. -/
def IRStmt.exprs : IRStmt Op Fn → List (IRExpr Op Fn)
  | .noOp | .iMark _ _ _ | .mbe _ => []
  | .abiHint base _ nia => [base, nia]
  | .put _ data | .wrTmp _ data => [data]
  | .putI _ ix _ data => [ix, data]
  | .store _ addr data => [addr, data]
  | .loadG _ _ _ addr alt guard => [addr, alt, guard]
  | .storeG _ addr data guard => [addr, data, guard]
  | .cas _ _ _ addr expdHi expdLo dataHi dataLo =>
    addr :: expdHi.toList ++ expdLo :: dataHi.toList ++ [dataLo]
  | .llsc _ _ addr storedata => addr :: storedata.toList
  | .dirty d => (d.mem.map fun m => m.2.1).toList ++ d.guard :: d.args.filterMap IRArg.expr?
  | .exit guard _ _ _ => [guard]

/-- An argument of a dirty call with its expression changed. -/
def IRArg.map (f : IRExpr Op Fn → IRExpr Op Fn) : IRArg Op Fn → IRArg Op Fn
  | .expr e => .expr (f e)
  | .vecret => .vecret
  | .gsptr => .gsptr

/-- A statement with all of its expressions changed. -/
def IRStmt.mapExprs (f : IRExpr Op Fn → IRExpr Op Fn) : IRStmt Op Fn → IRStmt Op Fn
  | .noOp => .noOp
  | .iMark addr len delta => .iMark addr len delta
  | .abiHint base len nia => .abiHint (f base) len (f nia)
  | .put offset data => .put offset (f data)
  | .putI descr ix bias data => .putI descr (f ix) bias (f data)
  | .wrTmp tmp data => .wrTmp tmp (f data)
  | .store endn addr data => .store endn (f addr) (f data)
  | .loadG endn cvt dst addr alt guard => .loadG endn cvt dst (f addr) (f alt) (f guard)
  | .storeG endn addr data guard => .storeG endn (f addr) (f data) (f guard)
  | .cas oldHi oldLo endn addr expdHi expdLo dataHi dataLo =>
    .cas oldHi oldLo endn (f addr) (expdHi.map f) (f expdLo) (dataHi.map f) (f dataLo)
  | .llsc endn result addr storedata => .llsc endn result (f addr) (storedata.map f)
  | .dirty d =>
    .dirty { d with
      guard := f d.guard
      args := d.args.map (IRArg.map f)
      mem := d.mem.map fun m => (m.1, f m.2.1, m.2.2) }
  | .mbe event => .mbe event
  | .exit guard jk dst offsIP => .exit (f guard) jk dst offsIP

/-- The temporaries that a statement reads. -/
def IRStmt.uses (st : IRStmt Op Fn) : List IRTemp := st.exprs.flatMap IRExpr.temps

/-- The temporaries that a statement assigns. -/
def IRStmt.defs : IRStmt Op Fn → List IRTemp
  | .wrTmp tmp _ => [tmp]
  | .loadG _ _ dst _ _ _ => [dst]
  | .cas oldHi oldLo _ _ _ _ _ _ => oldHi.toList ++ [oldLo]
  | .llsc _ result _ _ => [result]
  | .dirty d => d.tmp.toList
  | _ => []

/-! ### Guards that are constants -/

/-- `isZeroU1`. -/
def isZeroU1 : IRExpr Op Fn → Bool
  | .const (.u1 b) => b = false
  | _ => false

/-- `isOneU1`. -/
def isOneU1 : IRExpr Op Fn → Bool
  | .const (.u1 b) => b = true
  | _ => false

theorem eq_const_of_isZeroU1 {e : IRExpr Op Fn} (h : isZeroU1 e = true) :
    e = .const (.u1 false) := by
  cases e with
  | const con =>
    cases con with
    | u1 b => simpa [isZeroU1] using h
    | _ => cases h
  | _ => cases h

theorem eq_const_of_isOneU1 {e : IRExpr Op Fn} (h : isOneU1 e = true) :
    e = .const (.u1 true) := by
  cases e with
  | const con =>
    cases con with
    | u1 b => simpa [isOneU1] using h
    | _ => cases h
  | _ => cases h

/-! ### Expressions that are alike -/

/-- **Two compound expressions that are the same up to their parts**, which are related one by
one. -/
inductive IRExpr.Alike (R : IRExpr Op Fn → IRExpr Op Fn → Prop) :
    IRExpr Op Fn → IRExpr Op Fn → Prop
  | get (offset : ℤ) (ty : IRType) : Alike R (.get offset ty) (.get offset ty)
  | const (con : IRConst) : Alike R (.const con) (.const con)
  | getI (descr : IRRegArray) (bias : ℤ) {ix ix' : IRExpr Op Fn} (hix : R ix ix') :
    Alike R (.getI descr ix bias) (.getI descr ix' bias)
  | qop (op : Op) {arg1 arg1' arg2 arg2' arg3 arg3' arg4 arg4' : IRExpr Op Fn}
    (h1 : R arg1 arg1') (h2 : R arg2 arg2') (h3 : R arg3 arg3') (h4 : R arg4 arg4') :
    Alike R (.qop op arg1 arg2 arg3 arg4) (.qop op arg1' arg2' arg3' arg4')
  | triop (op : Op) {arg1 arg1' arg2 arg2' arg3 arg3' : IRExpr Op Fn} (h1 : R arg1 arg1')
    (h2 : R arg2 arg2') (h3 : R arg3 arg3') :
    Alike R (.triop op arg1 arg2 arg3) (.triop op arg1' arg2' arg3')
  | binop (op : Op) {arg1 arg1' arg2 arg2' : IRExpr Op Fn} (h1 : R arg1 arg1')
    (h2 : R arg2 arg2') : Alike R (.binop op arg1 arg2) (.binop op arg1' arg2')
  | unop (op : Op) {arg arg' : IRExpr Op Fn} (h : R arg arg') :
    Alike R (.unop op arg) (.unop op arg')
  | load (endn : IREndness) (ty : IRType) {addr addr' : IRExpr Op Fn} (haddr : R addr addr') :
    Alike R (.load endn ty addr) (.load endn ty addr')
  | ite {cond cond' iftrue iftrue' iffalse iffalse' : IRExpr Op Fn} (hcond : R cond cond')
    (htrue : R iftrue iftrue') (hfalse : R iffalse iffalse') :
    Alike R (.ite cond iftrue iffalse) (.ite cond' iftrue' iffalse')
  | ccall (cee : IRCallee Fn) (retty : IRType) {args args' : List (IRExpr Op Fn)}
    (hargs : List.Forall₂ R args args') : Alike R (.ccall cee retty args) (.ccall cee retty args')

section Alike

variable {R : IRExpr Op Fn → IRExpr Op Fn → Prop} {e e' : IRExpr Op Fn}

theorem exists_of_mem_right {args args' : List (IRExpr Op Fn)} (h : List.Forall₂ R args args')
    {arg' : IRExpr Op Fn} (harg' : arg' ∈ args') : ∃ arg ∈ args, R arg arg' := by
  induction h with
  | nil => cases harg'
  | cons harg _ ih =>
    rcases List.mem_cons.mp harg' with rfl | harg'
    · exact ⟨_, List.mem_cons_self, harg⟩
    · obtain ⟨arg, hmem, harg⟩ := ih harg'
      exact ⟨arg, List.mem_cons_of_mem _ hmem, harg⟩

theorem IRExpr.Alike.mono (h : e.Alike R e') {R' : IRExpr Op Fn → IRExpr Op Fn → Prop}
    (hR : ∀ e e', R e e' → R' e e') : e.Alike R' e' := by
  cases h with
  | get offset ty => exact .get offset ty
  | const con => exact .const con
  | getI descr bias h => exact .getI descr bias (hR _ _ h)
  | qop op h1 h2 h3 h4 => exact .qop op (hR _ _ h1) (hR _ _ h2) (hR _ _ h3) (hR _ _ h4)
  | triop op h1 h2 h3 => exact .triop op (hR _ _ h1) (hR _ _ h2) (hR _ _ h3)
  | binop op h1 h2 => exact .binop op (hR _ _ h1) (hR _ _ h2)
  | unop op h => exact .unop op (hR _ _ h)
  | load endn ty h => exact .load endn ty (hR _ _ h)
  | ite h1 h2 h3 => exact .ite (hR _ _ h1) (hR _ _ h2) (hR _ _ h3)
  | ccall cee retty hargs => exact .ccall cee retty (hargs.imp hR)

theorem IRExpr.Alike.eval (h : e.Alike R e') {M : Machine Op Fn V σ} {c c' : Config V σ}
    (hs : c.2 = c'.2) (hR : ∀ e e', R e e' → e.eval M c = e'.eval M c') :
    e.eval M c = e'.eval M c' := by
  have hall {args args' : List (IRExpr Op Fn)} (hargs : List.Forall₂ R args args') :
      args.map (IRExpr.eval M c) = args'.map (IRExpr.eval M c') := by
    induction hargs with
    | nil => rfl
    | cons harg _ ih => rw [List.map_cons, List.map_cons, hR _ _ harg, ih]
  cases h with
  | get | const => simp only [IRExpr.eval, hs]
  | getI _ _ h | unop _ h | load _ _ h => simp only [IRExpr.eval, hR _ _ h, hs]
  | qop _ h1 h2 h3 h4 => simp only [IRExpr.eval, hR _ _ h1, hR _ _ h2, hR _ _ h3, hR _ _ h4]
  | triop _ h1 h2 h3 | ite h1 h2 h3 => simp only [IRExpr.eval, hR _ _ h1, hR _ _ h2, hR _ _ h3]
  | binop _ h1 h2 => simp only [IRExpr.eval, hR _ _ h1, hR _ _ h2]
  | ccall _ _ hargs => simp only [IRExpr.eval, evalArgs_eq, hall hargs]

theorem IRExpr.Alike.temps (h : e.Alike R e') {t : IRTemp} (ht : t ∈ e'.temps) :
    ∃ e₁ e₁', R e₁ e₁' ∧ t ∈ e₁'.temps := by
  cases h with
  | get | const => cases ht
  | getI _ _ h | unop _ h | load _ _ h => exact ⟨_, _, h, ht⟩
  | qop _ h1 h2 h3 h4 =>
    simp only [IRExpr.temps, List.mem_append] at ht
    rcases ht with ((ht | ht) | ht) | ht
    exacts [⟨_, _, h1, ht⟩, ⟨_, _, h2, ht⟩, ⟨_, _, h3, ht⟩, ⟨_, _, h4, ht⟩]
  | triop _ h1 h2 h3 | ite h1 h2 h3 =>
    simp only [IRExpr.temps, List.mem_append] at ht
    rcases ht with (ht | ht) | ht
    exacts [⟨_, _, h1, ht⟩, ⟨_, _, h2, ht⟩, ⟨_, _, h3, ht⟩]
  | binop _ h1 h2 =>
    simp only [IRExpr.temps, List.mem_append] at ht
    rcases ht with ht | ht
    exacts [⟨_, _, h1, ht⟩, ⟨_, _, h2, ht⟩]
  | ccall _ _ hargs =>
    simp only [IRExpr.temps, argsTemps_eq, List.mem_flatMap] at ht
    obtain ⟨arg', harg', ht⟩ := ht
    obtain ⟨arg, -, harg⟩ := exists_of_mem_right hargs harg'
    exact ⟨arg, arg', harg, ht⟩

end Alike

/-! ### Statements that are alike -/

/-- Two arguments of dirty calls that are the same up to their expressions. -/
inductive IRArg.Alike (R : IRExpr Op Fn → IRExpr Op Fn → Prop) : IRArg Op Fn → IRArg Op Fn → Prop
  | expr {e e' : IRExpr Op Fn} (he : R e e') : Alike R (.expr e) (.expr e')
  | vecret : Alike R .vecret .vecret
  | gsptr : Alike R .gsptr .gsptr

/-- **Two statements that are the same up to their expressions**, which are related one by
one. -/
inductive IRStmt.Alike (R : IRExpr Op Fn → IRExpr Op Fn → Prop) :
    IRStmt Op Fn → IRStmt Op Fn → Prop
  | noOp : Alike R .noOp .noOp
  | iMark (addr : BitVec 64) (len : ℕ) (delta : BitVec 8) :
    Alike R (.iMark addr len delta) (.iMark addr len delta)
  | abiHint (len : ℤ) {base base' nia nia' : IRExpr Op Fn} (hbase : R base base')
    (hnia : R nia nia') : Alike R (.abiHint base len nia) (.abiHint base' len nia')
  | put (offset : ℤ) {data data' : IRExpr Op Fn} (hdata : R data data') :
    Alike R (.put offset data) (.put offset data')
  | putI (descr : IRRegArray) (bias : ℤ) {ix ix' data data' : IRExpr Op Fn} (hix : R ix ix')
    (hdata : R data data') : Alike R (.putI descr ix bias data) (.putI descr ix' bias data')
  | wrTmp (tmp : IRTemp) {data data' : IRExpr Op Fn} (hdata : R data data') :
    Alike R (.wrTmp tmp data) (.wrTmp tmp data')
  | store (endn : IREndness) {addr addr' data data' : IRExpr Op Fn} (haddr : R addr addr')
    (hdata : R data data') : Alike R (.store endn addr data) (.store endn addr' data')
  | loadG (endn : IREndness) (cvt : IRLoadGOp) (dst : IRTemp)
    {addr addr' alt alt' guard guard' : IRExpr Op Fn} (haddr : R addr addr') (halt : R alt alt')
    (hguard : R guard guard') :
    Alike R (.loadG endn cvt dst addr alt guard) (.loadG endn cvt dst addr' alt' guard')
  | storeG (endn : IREndness) {addr addr' data data' guard guard' : IRExpr Op Fn}
    (haddr : R addr addr') (hdata : R data data') (hguard : R guard guard') :
    Alike R (.storeG endn addr data guard) (.storeG endn addr' data' guard')
  | cas (oldHi : Option IRTemp) (oldLo : IRTemp) (endn : IREndness)
    {addr addr' expdLo expdLo' dataLo dataLo' : IRExpr Op Fn}
    {expdHi expdHi' dataHi dataHi' : Option (IRExpr Op Fn)} (haddr : R addr addr')
    (hexpdHi : Option.Rel R expdHi expdHi') (hexpdLo : R expdLo expdLo')
    (hdataHi : Option.Rel R dataHi dataHi') (hdataLo : R dataLo dataLo') :
    Alike R (.cas oldHi oldLo endn addr expdHi expdLo dataHi dataLo)
      (.cas oldHi oldLo endn addr' expdHi' expdLo' dataHi' dataLo')
  | llsc (endn : IREndness) (result : IRTemp) {addr addr' : IRExpr Op Fn}
    {storedata storedata' : Option (IRExpr Op Fn)} (haddr : R addr addr')
    (hdata : Option.Rel R storedata storedata') :
    Alike R (.llsc endn result addr storedata) (.llsc endn result addr' storedata')
  | dirty (cee : IRCallee Fn) (tmp : Option IRTemp) (fxs : List IRFxState)
    {guard guard' : IRExpr Op Fn}
    {args args' : List (IRArg Op Fn)} {mem mem' : Option (IREffect × IRExpr Op Fn × ℤ)}
    (hguard : R guard guard') (hargs : List.Forall₂ (IRArg.Alike R) args args')
    (hmem : Option.Rel (fun m m' => m.1 = m'.1 ∧ R m.2.1 m'.2.1 ∧ m.2.2 = m'.2.2) mem mem') :
    Alike R (.dirty ⟨cee, guard, args, tmp, mem, fxs⟩) (.dirty ⟨cee, guard', args', tmp, mem', fxs⟩)
  | mbe (event : IRMBusEvent) : Alike R (.mbe event) (.mbe event)
  | exit (jk : IRJumpKind) (dst : IRConst) (offsIP : ℤ) {guard guard' : IRExpr Op Fn}
    (hguard : R guard guard') : Alike R (.exit guard jk dst offsIP) (.exit guard' jk dst offsIP)

section Alike

variable {R : IRExpr Op Fn → IRExpr Op Fn → Prop}

/-- Statements that are alike assign the same temporaries. -/
theorem IRStmt.Alike.defs_eq {st st' : IRStmt Op Fn} (h : st.Alike R st') : st'.defs = st.defs := by
  cases h <;> rfl

theorem IRArg.Alike.mono {R' : IRExpr Op Fn → IRExpr Op Fn → Prop} {arg arg' : IRArg Op Fn}
    (h : arg.Alike R arg') (hR : ∀ e e', R e e' → R' e e') : arg.Alike R' arg' := by
  cases h with
  | expr h => exact .expr (hR _ _ h)
  | vecret => exact .vecret
  | gsptr => exact .gsptr

theorem IRStmt.Alike.mono {R' : IRExpr Op Fn → IRExpr Op Fn → Prop} {st st' : IRStmt Op Fn}
    (h : st.Alike R st') (hR : ∀ e e', R e e' → R' e e') : st.Alike R' st' := by
  have hopt {e e' : Option (IRExpr Op Fn)} (he : Option.Rel R e e') : Option.Rel R' e e' := by
    cases he with
    | some he => exact .some (hR _ _ he)
    | none => exact .none
  cases h with
  | noOp => exact .noOp
  | iMark addr len delta => exact .iMark addr len delta
  | abiHint len h1 h2 => exact .abiHint len (hR _ _ h1) (hR _ _ h2)
  | put offset h => exact .put offset (hR _ _ h)
  | putI descr bias h1 h2 => exact .putI descr bias (hR _ _ h1) (hR _ _ h2)
  | wrTmp tmp h => exact .wrTmp tmp (hR _ _ h)
  | store endn h1 h2 => exact .store endn (hR _ _ h1) (hR _ _ h2)
  | loadG endn cvt dst h1 h2 h3 => exact .loadG endn cvt dst (hR _ _ h1) (hR _ _ h2) (hR _ _ h3)
  | storeG endn h1 h2 h3 => exact .storeG endn (hR _ _ h1) (hR _ _ h2) (hR _ _ h3)
  | cas oldHi oldLo endn h1 h2 h3 h4 h5 =>
    exact .cas oldHi oldLo endn (hR _ _ h1) (hopt h2) (hR _ _ h3) (hopt h4) (hR _ _ h5)
  | llsc endn result h1 h2 => exact .llsc endn result (hR _ _ h1) (hopt h2)
  | dirty cee tmp fxs hguard hargs hmem =>
    refine .dirty cee tmp fxs (hR _ _ hguard) (hargs.imp fun _ _ h => h.mono hR) ?_
    cases hmem with
    | some h => exact .some ⟨h.1, hR _ _ h.2.1, h.2.2⟩
    | none => exact .none
  | mbe event => exact .mbe event
  | exit jk dst offsIP h => exact .exit jk dst offsIP (hR _ _ h)

/-- A statement is like the one with its expressions changed, if they are related to what
they become. -/
theorem IRStmt.alike_mapExprs {f : IRExpr Op Fn → IRExpr Op Fn} {st : IRStmt Op Fn}
    (h : ∀ e ∈ st.exprs, R e (f e)) : st.Alike R (st.mapExprs f) := by
  have hopt {e : Option (IRExpr Op Fn)} (he : ∀ e' ∈ e, R e' (f e')) :
      Option.Rel R e (e.map f) := by
    cases e with
    | none => exact .none
    | some e => exact .some (he e rfl)
  cases st with
  | noOp => exact .noOp
  | iMark addr len delta => exact .iMark addr len delta
  | mbe event => exact .mbe event
  | abiHint base len nia =>
    exact .abiHint len (h base (by simp [IRStmt.exprs])) (h nia (by simp [IRStmt.exprs]))
  | put offset data => exact .put offset (h data (by simp [IRStmt.exprs]))
  | wrTmp tmp data => exact .wrTmp tmp (h data (by simp [IRStmt.exprs]))
  | putI descr ix bias data =>
    exact .putI descr bias (h ix (by simp [IRStmt.exprs])) (h data (by simp [IRStmt.exprs]))
  | store endn addr data =>
    exact .store endn (h addr (by simp [IRStmt.exprs])) (h data (by simp [IRStmt.exprs]))
  | loadG endn cvt dst addr alt guard =>
    exact .loadG endn cvt dst (h addr (by simp [IRStmt.exprs])) (h alt (by simp [IRStmt.exprs]))
      (h guard (by simp [IRStmt.exprs]))
  | storeG endn addr data guard =>
    exact .storeG endn (h addr (by simp [IRStmt.exprs])) (h data (by simp [IRStmt.exprs]))
      (h guard (by simp [IRStmt.exprs]))
  | cas oldHi oldLo endn addr expdHi expdLo dataHi dataLo =>
    exact .cas oldHi oldLo endn (h addr (by simp [IRStmt.exprs]))
      (hopt fun e he => h e (by simp [IRStmt.exprs, Option.mem_def.mp he]))
      (h expdLo (by simp [IRStmt.exprs]))
      (hopt fun e he => h e (by simp [IRStmt.exprs, Option.mem_def.mp he]))
      (h dataLo (by simp [IRStmt.exprs]))
  | llsc endn result addr storedata =>
    exact .llsc endn result (h addr (by simp [IRStmt.exprs]))
      (hopt fun e he => h e (by simp [IRStmt.exprs, Option.mem_def.mp he]))
  | dirty d =>
    obtain ⟨cee, guard, args, tmp, mem, fxs⟩ := d
    refine .dirty cee tmp fxs (h guard (by simp [IRStmt.exprs])) ?_ ?_
    · refine List.forall₂_map_right_iff.mpr (List.forall₂_same.mpr fun arg harg => ?_)
      cases arg with
      | expr e =>
        exact .expr (h e (List.mem_append_right _ (List.mem_cons_of_mem _
          (List.mem_filterMap.mpr ⟨.expr e, harg, rfl⟩))))
      | vecret => exact .vecret
      | gsptr => exact .gsptr
    · cases mem with
      | none => exact .none
      | some m => exact .some ⟨rfl, h m.2.1 (by simp [IRStmt.exprs]), rfl⟩
  | exit guard jk dst offsIP => exact .exit jk dst offsIP (h guard (by simp [IRStmt.exprs]))

/-- The expressions of a statement with all of them changed. -/
theorem IRStmt.exprs_mapExprs (f : IRExpr Op Fn → IRExpr Op Fn) (st : IRStmt Op Fn) :
    (st.mapExprs f).exprs = st.exprs.map f := by
  have hargs (args : List (IRArg Op Fn)) : (args.map (IRArg.map f)).filterMap IRArg.expr? =
      (args.filterMap IRArg.expr?).map f := by
    induction args with
    | nil => rfl
    | cons arg args ih =>
      cases arg with
      | expr e => exact congrArg (f e :: ·) ih
      | vecret | gsptr => exact ih
  cases st with
  | dirty d =>
    simp only [IRStmt.mapExprs, IRStmt.exprs, hargs, List.map_append, List.map_cons]
    cases d.mem <;> rfl
  | cas _ _ _ _ expdHi _ dataHi _ =>
    cases expdHi <;> cases dataHi <;> rfl
  | llsc _ _ _ storedata => cases storedata <;> rfl
  | _ => rfl

theorem IRStmt.defs_mapExprs (f : IRExpr Op Fn → IRExpr Op Fn) (st : IRStmt Op Fn) :
    (st.mapExprs f).defs = st.defs := by
  cases st <;> rfl

theorem IRStmt.mapExprs_id (st : IRStmt Op Fn) : st.mapExprs id = st := by
  cases st with
  | dirty d =>
    obtain ⟨cee, guard, args, tmp, mem, fxs⟩ := d
    have hargs : args.map (IRArg.map id) = args := by
      refine List.map_id'' (fun arg => ?_) args
      cases arg <;> rfl
    have hmem : (mem.map fun m => (m.1, m.2.1, m.2.2)) = mem := by cases mem <;> rfl
    simp only [IRStmt.mapExprs, hargs, hmem, id]
  | _ => simp [IRStmt.mapExprs]

/-- A statement is like itself, if its expressions are related to themselves. -/
theorem IRStmt.alike_self {st : IRStmt Op Fn} (h : ∀ e ∈ st.exprs, R e e) : st.Alike R st := by
  have hid := IRStmt.alike_mapExprs (f := id) h
  rwa [IRStmt.mapExprs_id] at hid

/-- The expressions of a statement are related to those of one that is like it. -/
theorem IRStmt.Alike.mem_exprs {st st' : IRStmt Op Fn} (h : st.Alike R st') {e' : IRExpr Op Fn}
    (he' : e' ∈ st'.exprs) : ∃ e ∈ st.exprs, R e e' := by
  have hopt {e e₁ : Option (IRExpr Op Fn)} (he : Option.Rel R e e₁) (he₁ : e' ∈ e₁.toList) :
      ∃ e₂ ∈ e.toList, R e₂ e' := by
    cases he with
    | none => cases he₁
    | some he =>
      obtain rfl := List.mem_singleton.mp he₁
      exact ⟨_, List.mem_singleton_self _, he⟩
  have hargs {args args' : List (IRArg Op Fn)} (h : List.Forall₂ (IRArg.Alike R) args args')
      (he : e' ∈ args'.filterMap IRArg.expr?) : ∃ e ∈ args.filterMap IRArg.expr?, R e e' := by
    induction h with
    | nil => cases he
    | cons harg _ ih =>
      cases harg with
      | expr h =>
        rcases List.mem_cons.mp he with rfl | he
        · exact ⟨_, List.mem_cons_self, h⟩
        · obtain ⟨e, he, hR⟩ := ih he
          exact ⟨e, List.mem_cons_of_mem _ he, hR⟩
      | vecret | gsptr => exact ih he
  cases h with
  | noOp | iMark | mbe => cases he'
  | put _ h | wrTmp _ h | exit _ _ _ h =>
    obtain rfl := List.mem_singleton.mp he'
    exact ⟨_, List.mem_singleton_self _, h⟩
  | abiHint _ h₁ h₂ | putI _ _ h₁ h₂ | store _ h₁ h₂ =>
    simp only [IRStmt.exprs, List.mem_cons, List.not_mem_nil, or_false] at he'
    rcases he' with rfl | rfl
    · exact ⟨_, by simp [IRStmt.exprs], h₁⟩
    · exact ⟨_, by simp [IRStmt.exprs], h₂⟩
  | loadG _ _ _ h₁ h₂ h₃ | storeG _ h₁ h₂ h₃ =>
    simp only [IRStmt.exprs, List.mem_cons, List.not_mem_nil, or_false] at he'
    rcases he' with rfl | rfl | rfl
    · exact ⟨_, by simp [IRStmt.exprs], h₁⟩
    · exact ⟨_, by simp [IRStmt.exprs], h₂⟩
    · exact ⟨_, by simp [IRStmt.exprs], h₃⟩
  | cas _ _ _ haddr hexpdHi hexpdLo hdataHi hdataLo =>
    simp only [IRStmt.exprs, List.mem_cons, List.mem_append, List.not_mem_nil, or_false] at he'
    rcases he' with ((rfl | he') | rfl | he') | rfl
    · exact ⟨_, by simp [IRStmt.exprs], haddr⟩
    · obtain ⟨e, he, hR⟩ := hopt hexpdHi he'
      exact ⟨e, by simp only [IRStmt.exprs, List.mem_cons, List.mem_append]; tauto, hR⟩
    · exact ⟨_, by simp [IRStmt.exprs], hexpdLo⟩
    · obtain ⟨e, he, hR⟩ := hopt hdataHi he'
      exact ⟨e, by simp only [IRStmt.exprs, List.mem_cons, List.mem_append]; tauto, hR⟩
    · exact ⟨_, by simp [IRStmt.exprs], hdataLo⟩
  | llsc _ _ haddr hdata =>
    rcases List.mem_cons.mp he' with rfl | he'
    · exact ⟨_, List.mem_cons_self, haddr⟩
    · obtain ⟨e, he, hR⟩ := hopt hdata he'
      exact ⟨e, List.mem_cons_of_mem _ he, hR⟩
  | dirty cee tmp fxs hguard harg hmem =>
    simp only [IRStmt.exprs, List.mem_append, List.mem_cons] at he' ⊢
    rcases he' with he' | rfl | he'
    · cases hmem with
      | none => cases he'
      | some h =>
        obtain rfl := List.mem_singleton.mp he'
        exact ⟨_, Or.inl (List.mem_singleton_self _), h.2.1⟩
    · exact ⟨_, Or.inr (Or.inl rfl), hguard⟩
    · obtain ⟨e, he, hR⟩ := hargs harg he'
      exact ⟨e, Or.inr (Or.inr he), hR⟩

/-- Arguments that are alike have the same values, where their expressions have. -/
theorem IRArg.Alike.eval {M : Machine Op Fn V σ} {c c' : Config V σ} {arg arg' : IRArg Op Fn}
    (h : arg.Alike R arg') (hR : ∀ e e', R e e' → e.eval M c = e'.eval M c') :
    arg.eval M c = arg'.eval M c' := by
  cases h with
  | expr he => exact hR _ _ he
  | vecret | gsptr => rfl

/-- The same for a list of arguments. -/
theorem args_eval {M : Machine Op Fn V σ} {c c' : Config V σ} {args args' : List (IRArg Op Fn)}
    (h : List.Forall₂ (IRArg.Alike R) args args')
    (hR : ∀ e e', R e e' → e.eval M c = e'.eval M c') :
    args.map (IRArg.eval M c) = args'.map (IRArg.eval M c') := by
  induction h with
  | nil => rfl
  | cons harg _ ih => rw [List.map_cons, List.map_cons, harg.eval hR, ih]

end Alike

section UseDef

variable {T : OpTable Op} {M : Machine Op Fn V σ} {tyenv tyenv' : IRTypeEnv}

theorem setTmp_of_ne (ρ : IRTemp → V) {tmp : Option IRTemp} (v : V) {t : IRTemp}
    (h : t ∉ tmp.toList) : setTmp ρ tmp v t = ρ t := by
  cases tmp with
  | none => rfl
  | some t' => exact Function.update_of_ne (fun ht : t = t' => h (by simp [ht])) v ρ

theorem setTmp_of_mem (ρ ρ' : IRTemp → V) {tmp : Option IRTemp} (v : V) {t : IRTemp}
    (h : t ∈ tmp.toList) : setTmp ρ tmp v t = setTmp ρ' tmp v t := by
  cases tmp with
  | none => cases h
  | some t' =>
    obtain rfl := List.mem_singleton.mp h
    simp [setTmp]

/-- A statement leaves the temporaries alone that it does not assign. -/
theorem IRStmt.sem_frame (st : IRStmt Op Fn) (c : Config V σ) {t : IRTemp} (ht : t ∉ st.defs) :
    (st.sem T M tyenv c).1.1 t = c.1 t := by
  cases st with
  | noOp | iMark | abiHint | put | putI | store | mbe | exit => rfl
  | storeG =>
    simp only [IRStmt.sem]
    split <;> rfl
  | wrTmp | loadG | llsc => exact Function.update_of_ne (fun h => ht (by simp [IRStmt.defs, h])) _ _
  | cas oldHi oldLo =>
    simp only [IRStmt.defs, List.mem_append, not_or] at ht
    simp only [IRStmt.sem]
    rw [setTmp_of_ne _ _ ht.1, Function.update_of_ne fun h => ht.2 (by simp [h])]
  | dirty d =>
    simp only [IRStmt.sem]
    split <;> exact setTmp_of_ne _ _ ht

/-- **Statements that are alike do alike**: where their expressions have the same values, and
the temporaries they assign the same types, they go on in the same way, to the same state,
with the same values of what they assign. -/
theorem IRStmt.Alike.sem {R : IRExpr Op Fn → IRExpr Op Fn → Prop} {st st' : IRStmt Op Fn}
    (h : st.Alike R st') {c c' : Config V σ} (hs : c.2 = c'.2)
    (hR : ∀ e e', R e e' → e.eval M c = e'.eval M c')
    (hty : ∀ t ∈ st.defs, typeOfIRTemp tyenv t = typeOfIRTemp tyenv' t) :
    (st.sem T M tyenv c).2 = (st'.sem T M tyenv' c').2 ∧
      Agree {t | t ∈ st.defs} (st.sem T M tyenv c).1 (st'.sem T M tyenv' c').1 := by
  have hopt {e e' : Option (IRExpr Op Fn)} (he : Option.Rel R e e') :
      e.map (IRExpr.eval M c) = e'.map (IRExpr.eval M c') := by
    cases he with
    | some he => exact congrArg some (hR _ _ he)
    | none => rfl
  obtain ⟨ρ, s⟩ := c
  obtain ⟨ρ', s'⟩ := c'
  obtain rfl : s = s' := hs
  cases h with
  | noOp | iMark | abiHint | mbe => exact ⟨rfl, rfl, fun t ht => by cases ht⟩
  | put offset hdata =>
    exact ⟨rfl, congrArg (M.put s offset) (hR _ _ hdata), fun t ht => by cases ht⟩
  | putI descr bias hix hdata =>
    exact ⟨rfl, by simp only [IRStmt.sem, hR _ _ hix, hR _ _ hdata], fun t ht => by cases ht⟩
  | store endn haddr hdata =>
    exact ⟨rfl, by simp only [IRStmt.sem, hR _ _ haddr, hR _ _ hdata], fun t ht => by cases ht⟩
  | wrTmp tmp hdata =>
    refine ⟨rfl, rfl, fun t ht => ?_⟩
    obtain rfl := List.mem_singleton.mp ht
    simp only [IRStmt.sem, hR _ _ hdata, Function.update_self]
  | loadG endn cvt dst haddr halt hguard =>
    refine ⟨rfl, rfl, fun t ht => ?_⟩
    obtain rfl := List.mem_singleton.mp ht
    simp only [IRStmt.sem, hR _ _ haddr, hR _ _ halt, hR _ _ hguard, Function.update_self]
  | storeG endn haddr hdata hguard =>
    simp only [IRStmt.sem, hR _ _ haddr, hR _ _ hdata, hR _ _ hguard]
    split
    · exact ⟨rfl, rfl, fun t ht => by cases ht⟩
    · exact ⟨rfl, rfl, fun t ht => by cases ht⟩
  | cas oldHi oldLo endn haddr hexpdHi hexpdLo hdataHi hdataLo =>
    simp only [IRStmt.sem, hR _ _ haddr, hR _ _ hexpdLo, hR _ _ hdataLo, hopt hexpdHi, hopt hdataHi]
    refine ⟨trivial, rfl, fun t ht => ?_⟩
    by_cases hmem : t ∈ oldHi.toList
    · exact setTmp_of_mem _ _ _ hmem
    · simp only
      rw [setTmp_of_ne _ _ hmem, setTmp_of_ne _ _ hmem]
      obtain rfl := List.mem_singleton.mp ((List.mem_append.mp ht).resolve_left hmem)
      rw [Function.update_self, Function.update_self]
  | llsc endn result haddr hdata =>
    have hres : typeOfIRTemp tyenv result = typeOfIRTemp tyenv' result :=
      hty result (List.mem_singleton_self result)
    simp only [IRStmt.sem, hR _ _ haddr, hopt hdata, hres]
    refine ⟨trivial, rfl, fun t ht => ?_⟩
    obtain rfl := List.mem_singleton.mp ht
    simp only [Function.update_self]
  | dirty cee tmp fxs hguard hargs hmem =>
    have hres : tmp.map (typeOfIRTemp tyenv) = tmp.map (typeOfIRTemp tyenv') :=
      Option.map_congr fun t ht => hty t (by simpa [IRStmt.defs] using ht)
    have hargs := args_eval hargs hR
    simp only [IRStmt.sem, hR _ _ hguard, hargs, hres]
    split
    · exact ⟨rfl, rfl, fun t ht => setTmp_of_mem _ _ _ ht⟩
    · exact ⟨rfl, rfl, fun t ht => setTmp_of_mem _ _ _ ht⟩
  | exit jk dst offsIP hguard =>
    exact ⟨by simp only [IRStmt.sem, hR _ _ hguard], rfl, fun t ht => by cases ht⟩

/-- Executed side by side, statements that are alike go on together, and what agreed before
agrees after them. -/
theorem IRStmt.Alike.matches {R : IRExpr Op Fn → IRExpr Op Fn → Prop} {st st' : IRStmt Op Fn}
    (h : st.Alike R st') {c c' : Config V σ} {K : Set IRTemp} (hc : Agree K c c')
    (hR : ∀ e e', R e e' → e.eval M c = e'.eval M c')
    (hty : ∀ t ∈ st.defs, typeOfIRTemp tyenv t = typeOfIRTemp tyenv' t) :
    Matches (Agree (K ∪ {t | t ∈ st.defs})) SameState (st.sem T M tyenv c)
      (st'.sem T M tyenv' c') := by
  obtain ⟨hout, hstate, hdefs⟩ := h.sem (T := T) hc.1 hR hty
  refine ⟨hout, fun _ => ⟨hstate, fun t ht => ?_⟩, fun _ => hstate⟩
  by_cases hmem : t ∈ st.defs
  · exact hdefs hmem
  · rw [st.sem_frame c hmem, st'.sem_frame c' (by rwa [h.defs_eq])]
    exact hc.2 (ht.resolve_right hmem)

/-- **A statement uses and defines what it should.** -/
theorem IRStmt.useDef (st : IRStmt Op Fn) :
    UseDef (IRStmt.sem T M tyenv) st {t | t ∈ st.uses} {t | t ∈ st.defs} where
  frame c t ht := st.sem_frame c ht
  uses c c' h := by
    refine (IRStmt.alike_self (R := fun e e' => e.eval M c = e'.eval M c') fun e he => ?_).sem
      h.1 (fun _ _ he => he) fun _ _ => rfl
    exact e.eval_congr h.1 fun t ht => h.2 (List.mem_flatMap.mpr ⟨e, he, ht⟩)

/-- A no-op does nothing. -/
theorem run_noOp_cons (stmts : List (IRStmt Op Fn)) (c : Config V σ) :
    run (IRStmt.sem T M tyenv) (.noOp :: stmts) c = run (IRStmt.sem T M tyenv) stmts c := rfl

/-- **A superblock does what another one does** if its statements do, up to a relation under
which the two have the same state and go on to the same place. -/
theorem IRSB.exec_eq (sb sb' : IRSB Op Fn) {P R : Config V σ → Config V σ → Prop}
    (h : Simulates (IRStmt.sem T M sb.tyenv) (IRStmt.sem T M sb'.tyenv) P R SameState sb.stmts
      sb'.stmts)
    (hR : ∀ c c', R c c' → c.2 = c'.2 ∧ sb.next.eval M c = sb'.next.eval M c')
    (hjk : sb.jumpkind = sb'.jumpkind) (hIP : sb.offsIP = sb'.offsIP) {c c' : Config V σ}
    (hc : P c c') : sb.exec T M c = sb'.exec T M c' := by
  obtain ⟨hout, hnone, hsome⟩ := h c c' hc
  rw [IRSB.exec, IRSB.exec]
  rcases hr : run (IRStmt.sem T M sb.tyenv) sb.stmts c with ⟨c₁, out⟩
  rcases hr' : run (IRStmt.sem T M sb'.tyenv) sb'.stmts c' with ⟨c₁', out'⟩
  rw [hr, hr'] at hout hnone hsome
  obtain rfl : out = out' := hout
  cases out with
  | none =>
    obtain ⟨hs, hnext⟩ := hR _ _ (hnone rfl)
    simp only [hnext, hjk, hIP]
    rw [hs]
  | some w => exact Prod.ext (hsome (Option.some_ne_none w)) rfl

end UseDef

end Vex

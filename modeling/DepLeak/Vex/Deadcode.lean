import DepLeak.Vex.Types

/-!
# Dead code removal

`do_deadcode_BB`, one of the passes by which VEX cleans a superblock up after the tool has
put in its helper calls. The first pass goes backwards with the set of the temporaries
that are used after the current point, and turns assignments of other temporaries, and
dirty calls that are never made, into no-ops. The second pass cuts the superblock off at
the first exit that is always taken.

What is left does what the superblock did (`Vex.exec_doDeadcodeBB`): the same dirty calls
with the same arguments on the same states, and the same exit. There is one thing in
the way of it: a dirty call that is never made still gives a value to its result,
and goes without a look at whether that is used.
-/

namespace Vex

open Straight

variable {Op Fn V σ : Type}

/-! ### The temporaries that are used -/

/-- `addUses_Temp`. -/
def addUsesTemp (tmp : IRTemp) (set : IRTemp → Bool) : IRTemp → Bool := Function.update set tmp true

mutual

/-- `addUses_Expr`. -/
def addUsesExpr : IRExpr Op Fn → (IRTemp → Bool) → IRTemp → Bool
  | .getI _ ix _, set => addUsesExpr ix set
  | .ite cond iftrue iffalse, set => addUsesExpr iffalse (addUsesExpr iftrue (addUsesExpr cond set))
  | .ccall _ _ args, set => addUsesArgs args set
  | .load _ _ addr, set => addUsesExpr addr set
  | .qop _ arg1 arg2 arg3 arg4, set =>
    addUsesExpr arg4 (addUsesExpr arg3 (addUsesExpr arg2 (addUsesExpr arg1 set)))
  | .triop _ arg1 arg2 arg3, set => addUsesExpr arg3 (addUsesExpr arg2 (addUsesExpr arg1 set))
  | .binop _ arg1 arg2, set => addUsesExpr arg2 (addUsesExpr arg1 set)
  | .unop _ arg, set => addUsesExpr arg set
  | .rdTmp tmp, set => addUsesTemp tmp set
  | .const _, set | .get _ _, set => set

/-- The loop of `addUses_Expr` over the arguments of a call. -/
def addUsesArgs : List (IRExpr Op Fn) → (IRTemp → Bool) → IRTemp → Bool
  | [], set => set
  | arg :: args, set => addUsesArgs args (addUsesExpr arg set)

end

/-- `addUses_Stmt`. -/
def addUsesStmt : IRStmt Op Fn → (IRTemp → Bool) → IRTemp → Bool
  | .abiHint base _ nia, set => addUsesExpr nia (addUsesExpr base set)
  | .putI _ ix _ data, set => addUsesExpr data (addUsesExpr ix set)
  | .wrTmp _ data, set | .put _ data, set => addUsesExpr data set
  | .store _ addr data, set => addUsesExpr data (addUsesExpr addr set)
  | .storeG _ addr data guard, set => addUsesExpr guard (addUsesExpr data (addUsesExpr addr set))
  | .loadG _ _ _ addr alt guard, set => addUsesExpr guard (addUsesExpr alt (addUsesExpr addr set))
  | .cas _ _ _ addr expdHi expdLo dataHi dataLo, set =>
    let set := addUsesExpr addr set
    let set := expdHi.elim set fun e => addUsesExpr e set
    let set := addUsesExpr expdLo set
    let set := dataHi.elim set fun e => addUsesExpr e set
    addUsesExpr dataLo set
  | .llsc _ _ addr storedata, set =>
    let set := addUsesExpr addr set
    storedata.elim set fun e => addUsesExpr e set
  | .dirty d, set =>
    let set := d.mem.elim set fun m => addUsesExpr m.2.1 set
    let set := addUsesExpr d.guard set
    d.args.foldl (fun set arg => arg.expr?.elim set fun e => addUsesExpr e set) set
  | .noOp, set | .iMark _ _ _, set | .mbe _, set => set
  | .exit guard _ _ _, set => addUsesExpr guard set

/-! ### The two passes -/

/-- The statement is one that the first pass deletes, if `set` are the temporaries that are
used after it. -/
def isDead (set : IRTemp → Bool) : IRStmt Op Fn → Bool
  | .wrTmp tmp _ => set tmp = false
  | .dirty d => isZeroU1 d.guard
  | _ => false

/-- The statement is an exit that is always taken. -/
def isUnconditionalExit : IRStmt Op Fn → Bool
  | .exit guard _ _ _ => isOneU1 guard
  | _ => false

/-- What the first pass has at a point of the superblock. -/
structure DeadcodePass (Op Fn : Type) where
  /-- `set`. -/
  set : IRTemp → Bool
  /-- The statements from there on. -/
  stmts : List (IRStmt Op Fn)
  /-- `i_unconditional_exit`, counted from there; `none` is -1. -/
  exit : Option ℕ

/-- The first pass, backwards from the end of the superblock. -/
def deadcodePass (set : IRTemp → Bool) : List (IRStmt Op Fn) → DeadcodePass Op Fn
  | [] => ⟨set, [], none⟩
  | .noOp :: stmts =>
    let p := deadcodePass set stmts
    ⟨p.set, .noOp :: p.stmts, p.exit.map (· + 1)⟩
  | st :: stmts =>
    let p := deadcodePass set stmts
    -- take note of any unconditional exits
    let exit := if isUnconditionalExit st then some 0 else p.exit.map (· + 1)
    if isDead p.set st then ⟨p.set, .noOp :: p.stmts, exit⟩
    else ⟨addUsesStmt st p.set, st :: p.stmts, exit⟩

/-- The first pass over a superblock: it starts off with the temporaries in `next`. -/
def firstPass (bb : IRSB Op Fn) : DeadcodePass Op Fn :=
  deadcodePass (addUsesExpr bb.next fun _ => false) bb.stmts

/-- `do_deadcode_BB`. -/
def doDeadcodeBB (bb : IRSB Op Fn) : IRSB Op Fn :=
  let p := firstPass bb
  match p.exit with
  | none => { bb with stmts := p.stmts }
  | some i =>
    match p.stmts[i]? with
    | some (.exit _ jk dst offsIP) =>
      { bb with
        stmts := p.stmts.take i ++ List.replicate (p.stmts.length - i) .noOp
        next := .const dst
        jumpkind := jk
        offsIP := offsIP }
    -- an assertion: what was noted is an exit
    | _ => { bb with stmts := p.stmts }

/-! ### What is added to the set -/

/-- The temporaries in a set. -/
def ofSet (set : IRTemp → Bool) : Set IRTemp := {t | set t = true}

theorem mem_addUsesTemp {tmp t : IRTemp} {set : IRTemp → Bool} :
    addUsesTemp tmp set t = true ↔ t = tmp ∨ set t = true := by
  by_cases h : t = tmp <;> simp [addUsesTemp, h]

/-- The expressions of a list, one after the other. -/
theorem mem_foldl_addUsesExpr {es : List (IRExpr Op Fn)} {t : IRTemp}
    (h : ∀ e ∈ es, ∀ set, addUsesExpr e set t = true ↔ t ∈ e.temps ∨ set t = true)
    (set : IRTemp → Bool) : es.foldl (fun set e => addUsesExpr e set) set t = true ↔
      t ∈ es.flatMap IRExpr.temps ∨ set t = true := by
  induction es generalizing set with
  | nil => simp
  | cons e es ih =>
    rw [List.foldl_cons, ih fun e' he' => h e' (List.mem_cons_of_mem _ he'),
      h e List.mem_cons_self, List.flatMap_cons, List.mem_append]
    tauto

theorem addUsesArgs_eq (args : List (IRExpr Op Fn)) (set : IRTemp → Bool) :
    addUsesArgs args set = args.foldl (fun set e => addUsesExpr e set) set := by
  induction args generalizing set with
  | nil => rfl
  | cons arg args ih => rw [addUsesArgs, ih, List.foldl_cons]

/-- The temporaries that an expression reads are added to the set. -/
theorem mem_addUsesExpr (e : IRExpr Op Fn) {t : IRTemp} : ∀ set : IRTemp → Bool,
    addUsesExpr e set t = true ↔ t ∈ e.temps ∨ set t = true := by
  induction e using IRExpr.inductOn with
  | get | const => simp [addUsesExpr, IRExpr.temps]
  | rdTmp tmp => simp [addUsesExpr, IRExpr.temps, mem_addUsesTemp]
  | getI _ _ _ ih | load _ _ _ ih | unop _ _ ih => exact ih
  | binop _ _ _ ih₁ ih₂ =>
    intro set
    simp only [addUsesExpr, IRExpr.temps, ih₁, ih₂, List.mem_append]
    tauto
  | triop _ _ _ _ ih₁ ih₂ ih₃ | ite _ _ _ ih₁ ih₂ ih₃ =>
    intro set
    simp only [addUsesExpr, IRExpr.temps, ih₁, ih₂, ih₃, List.mem_append]
    tauto
  | qop _ _ _ _ _ ih₁ ih₂ ih₃ ih₄ =>
    intro set
    simp only [addUsesExpr, IRExpr.temps, ih₁, ih₂, ih₃, ih₄, List.mem_append]
    tauto
  | ccall cee retty args ih =>
    intro set
    rw [addUsesExpr, IRExpr.temps, argsTemps_eq, addUsesArgs_eq]
    exact mem_foldl_addUsesExpr ih set

/-- The expressions among the arguments of a dirty call. -/
theorem foldl_args (args : List (IRArg Op Fn)) (set : IRTemp → Bool) :
    args.foldl (fun set arg => arg.expr?.elim set fun e => addUsesExpr e set) set =
      (args.filterMap IRArg.expr?).foldl (fun set e => addUsesExpr e set) set := by
  induction args generalizing set with
  | nil => rfl
  | cons arg args ih =>
    cases arg with
    | expr e => exact ih (addUsesExpr e set)
    | vecret | gsptr => exact ih set

/-- The expressions of a statement are gone over one after the other. -/
theorem addUsesStmt_eq (st : IRStmt Op Fn) (set : IRTemp → Bool) :
    addUsesStmt st set = st.exprs.foldl (fun set e => addUsesExpr e set) set := by
  cases st with
  | cas _ _ _ _ expdHi _ dataHi _ => cases expdHi <;> cases dataHi <;> rfl
  | llsc _ _ _ storedata => cases storedata <;> rfl
  | dirty d =>
    obtain ⟨cee, guard, args, tmp, mem, fxs⟩ := d
    simp only [addUsesStmt, IRStmt.exprs, List.foldl_append, List.foldl_cons, foldl_args]
    cases mem <;> rfl
  | _ => rfl

/-- The temporaries that a statement reads are added to the set. -/
theorem ofSet_addUsesStmt (st : IRStmt Op Fn) (set : IRTemp → Bool) :
    ofSet (addUsesStmt st set) = ofSet set ∪ {t | t ∈ st.uses} := by
  ext t
  rw [addUsesStmt_eq]
  exact (mem_foldl_addUsesExpr (fun e _ => mem_addUsesExpr e) set).trans or_comm

/-! ### The first pass -/

variable {T : OpTable Op} {M : Machine Op Fn V σ} {tyenv : IRTypeEnv}

/-- The results of the dirty calls that are never made are not looked at. -/
def UnmadeUnused (stmts : List (IRStmt Op Fn)) (K : Set IRTemp) : Prop :=
  ∀ d, .dirty d ∈ stmts → isZeroU1 d.guard = true → ∀ t ∈ d.tmp, t ∉ K

/-- **A dead statement** only assigns what is not looked at. -/
theorem agree_of_isDead {set : IRTemp → Bool} {st : IRStmt Op Fn} (hdead : isDead set st = true)
    (hunmade : UnmadeUnused [st] (ofSet set)) (c : Config V σ) :
    (st.sem T M tyenv c).2 = none ∧ Agree (ofSet set) (st.sem T M tyenv c).1 c := by
  cases st with
  | wrTmp tmp data =>
    refine ⟨rfl, rfl, fun t ht => Function.update_of_ne ?_ _ _⟩
    rintro rfl
    simp only [isDead, decide_eq_true_eq] at hdead
    exact absurd ht (by simp [ofSet, hdead])
  | dirty d =>
    have hguard : M.truth (d.guard.eval M c) = false := by
      rw [eq_const_of_isZeroU1 hdead]
      exact M.truth_u1 false
    simp only [IRStmt.sem, hguard, Bool.false_eq_true, if_false]
    refine ⟨trivial, rfl, fun t ht => setTmp_of_ne _ _ fun hmem => ?_⟩
    exact hunmade d List.mem_cons_self hdead t (by simpa using hmem) ht
  | _ => cases hdead

/-- What the first pass notes of the exits. -/
def noteExit (st : IRStmt Op Fn) (exit : Option ℕ) : Option ℕ :=
  if isUnconditionalExit st then some 0 else exit.map (· + 1)

theorem deadcodePass_of_dead {set : IRTemp → Bool} {st : IRStmt Op Fn}
    {stmts : List (IRStmt Op Fn)} (hdead : isDead (deadcodePass set stmts).set st = true) :
    deadcodePass set (st :: stmts) = ⟨(deadcodePass set stmts).set,
      .noOp :: (deadcodePass set stmts).stmts, noteExit st (deadcodePass set stmts).exit⟩ := by
  cases st with
  | noOp => cases hdead
  | _ => exact if_pos hdead

theorem deadcodePass_of_live {set : IRTemp → Bool} {st : IRStmt Op Fn}
    {stmts : List (IRStmt Op Fn)} (hlive : isDead (deadcodePass set stmts).set st = false) :
    deadcodePass set (st :: stmts) = ⟨addUsesStmt st (deadcodePass set stmts).set,
      st :: (deadcodePass set stmts).stmts, noteExit st (deadcodePass set stmts).exit⟩ := by
  cases st with
  | noOp => rfl
  | _ =>
    simp only [deadcodePass, hlive, Bool.false_eq_true, if_false]
    rfl

/-- **The first pass** leaves what the superblock does as it is: its statements and those
that are left fall through or leave together, from configurations that agree on the
temporaries that are used. -/
theorem simulates_deadcodePass {set : IRTemp → Bool} {stmts : List (IRStmt Op Fn)}
    (hunmade : UnmadeUnused stmts (ofSet (deadcodePass set stmts).set)) :
    Simulates (IRStmt.sem T M tyenv) (IRStmt.sem T M tyenv)
      (Agree (ofSet (deadcodePass set stmts).set)) (Agree (ofSet set)) SameState stmts
      (deadcodePass set stmts).stmts := by
  induction stmts with
  | nil => exact simulates_nil fun _ _ h => h
  | cons st stmts ih =>
    have htail {K : Set IRTemp} (hK : ofSet (deadcodePass set stmts).set ⊆ K)
        (h : UnmadeUnused (st :: stmts) K) :
        UnmadeUnused stmts (ofSet (deadcodePass set stmts).set) := fun d hd hg t ht hmem =>
      h d (List.mem_cons_of_mem _ hd) hg t ht (hK hmem)
    cases hdead : isDead (deadcodePass set stmts).set st with
    | true =>
      rw [deadcodePass_of_dead hdead] at hunmade ⊢
      refine simulates_cons [.noOp] (fun c c' hc => ?_) (ih (htail subset_rfl hunmade))
      -- the statement is gone, and all that it did was to assign what is not looked at
      have hst : (st.sem T M tyenv c).2 = none ∧
          Agree (ofSet (deadcodePass set stmts).set) (st.sem T M tyenv c).1 c :=
        agree_of_isDead hdead (fun d hd => hunmade d (by
          rw [List.mem_singleton.mp hd]
          exact List.mem_cons_self)) c
      obtain ⟨hnone, hagree⟩ := hst
      exact ⟨hnone, fun _ => hagree.trans hc, fun hs => absurd hnone hs⟩
    | false =>
      rw [deadcodePass_of_live hdead] at hunmade ⊢
      rw [ofSet_addUsesStmt] at hunmade ⊢
      refine simulates_cons [st] (fun c c' hc => ?_)
        (ih (htail Set.subset_union_left hunmade))
      rw [run_singleton]
      exact (st.useDef.matches Set.subset_union_right hc).mono (fun _ _ h => h.mono
        (Set.subset_union_left.trans Set.subset_union_left)) fun _ _ h => h

/-- What is in the set at the beginning of a superblock is used in it. -/
theorem subset_uses_of_deadcodePass {set : IRTemp → Bool} {stmts : List (IRStmt Op Fn)} :
    ofSet (deadcodePass set stmts).set ⊆ ofSet set ∪ {t | ∃ st ∈ stmts, t ∈ st.uses} := by
  induction stmts with
  | nil => exact Set.subset_union_left
  | cons st stmts ih =>
    have hih : ofSet (deadcodePass set stmts).set ⊆
        ofSet set ∪ {t | ∃ st' ∈ st :: stmts, t ∈ st'.uses} :=
      ih.trans (Set.union_subset_union_right _ fun t ⟨st', hst', ht⟩ =>
        ⟨st', List.mem_cons_of_mem st hst', ht⟩)
    cases hdead : isDead (deadcodePass set stmts).set st with
    | true =>
      rw [deadcodePass_of_dead hdead]
      exact hih
    | false =>
      rw [deadcodePass_of_live hdead, ofSet_addUsesStmt]
      exact Set.union_subset hih fun t ht => Or.inr ⟨st, List.mem_cons_self, ht⟩

/-- **What is noted is an exit that is always taken**, and it is still there. -/
theorem exit_deadcodePass {set : IRTemp → Bool} {stmts : List (IRStmt Op Fn)} {i : ℕ}
    (h : (deadcodePass set stmts).exit = some i) : ∃ jk dst offsIP,
      (deadcodePass set stmts).stmts[i]? = some (.exit (.const (.u1 true)) jk dst offsIP) := by
  induction stmts generalizing i with
  | nil => cases h
  | cons st stmts ih =>
    have hexit : (deadcodePass set (st :: stmts)).exit =
        noteExit st (deadcodePass set stmts).exit := by
      cases hdead : isDead (deadcodePass set stmts).set st with
      | true => rw [deadcodePass_of_dead hdead]
      | false => rw [deadcodePass_of_live hdead]
    rw [hexit, noteExit] at h
    cases hst : isUnconditionalExit st with
    | true =>
      obtain rfl : 0 = i := by simpa [hst] using h
      cases st with
      | exit guard jk dst offsIP =>
        obtain rfl := eq_const_of_isOneU1 hst
        exact ⟨jk, dst, offsIP, rfl⟩
      | _ => cases hst
    | false =>
      simp only [hst, Bool.false_eq_true, if_false, Option.map_eq_some_iff] at h
      obtain ⟨j, hj, rfl⟩ := h
      obtain ⟨jk, dst, offsIP, hget⟩ := ih hj
      refine ⟨jk, dst, offsIP, ?_⟩
      cases hdead : isDead (deadcodePass set stmts).set st with
      | true => rw [deadcodePass_of_dead hdead, List.getElem?_cons_succ, hget]
      | false => rw [deadcodePass_of_live hdead, List.getElem?_cons_succ, hget]

/-! ### The second pass -/

/-- No-ops do nothing. -/
theorem run_replicate_noOp (n : ℕ) (c : Config V σ) :
    run (IRStmt.sem T M tyenv) (List.replicate n .noOp) c = (c, none) := by
  induction n with
  | zero => rfl
  | succ n ih => rw [List.replicate_succ, run_noOp_cons, ih]

/-- **A superblock ends at an exit that is always taken**: it can be cut off there. -/
theorem exec_truncate (sb : IRSB Op Fn) {pre post : List (IRStmt Op Fn)} {jk : IRJumpKind}
    {dst : IRConst} {offsIP : ℤ} (n : ℕ)
    (hstmts : sb.stmts = pre ++ .exit (.const (.u1 true)) jk dst offsIP :: post)
    (c : Config V σ) :
    IRSB.exec T M { sb with
      stmts := pre ++ List.replicate n .noOp
      next := .const dst
      jumpkind := jk
      offsIP := offsIP } c = sb.exec T M c := by
  rw [IRSB.exec, IRSB.exec, hstmts]
  rcases hr : run (IRStmt.sem T M sb.tyenv) pre c with ⟨c₁, _ | w⟩
  · rw [run_append_of_none _ _ (by rw [hr]), run_append_of_none _ _ (by rw [hr]), hr,
      run_replicate_noOp]
    have hexit : (IRStmt.exit (.const (.u1 true)) jk dst offsIP).sem T M sb.tyenv c₁ =
        (c₁, some ⟨M.const dst, jk, offsIP⟩) := by
      simp [IRStmt.sem, IRExpr.eval, M.truth_u1]
    rw [run, hexit]
    rfl
  · rw [run_append_of_some _ _ (by rw [hr]), run_append_of_some _ _ (by rw [hr]), hr]

/-! ### The superblock -/

theorem mem_usedAtEnd {next : IRExpr Op Fn} {t : IRTemp} :
    addUsesExpr next (fun _ => false) t = true ↔ t ∈ next.temps := by
  rw [mem_addUsesExpr]
  simp

/-- In a superblock that does not look at the results of dirty calls that are never made,
they are not in the set where it begins. -/
theorem unmadeUnused_firstPass {bb : IRSB Op Fn}
    (hunmade : ∀ d, .dirty d ∈ bb.stmts → isZeroU1 d.guard = true → ∀ t ∈ d.tmp,
      t ∉ bb.next.temps ∧ ∀ st ∈ bb.stmts, t ∉ st.uses) :
    UnmadeUnused bb.stmts (ofSet (firstPass bb).set) := by
  intro d hd hg t ht hmem
  obtain ⟨hunused, hstmts⟩ := hunmade d hd hg t ht
  rcases subset_uses_of_deadcodePass hmem with hmem | ⟨st, hst, hmem⟩
  · exact hunused (mem_usedAtEnd.mp hmem)
  · exact hstmts st hst hmem

/-- **Dead code removal leaves what a superblock does as it is**: from any values of the
temporaries and any state, with any meaning of the operations and helpers, it comes to
the same state and leaves in the same way. The results of dirty calls that are never made
must not be used. -/
theorem exec_doDeadcodeBB {bb : IRSB Op Fn}
    (hunmade : ∀ d, .dirty d ∈ bb.stmts → isZeroU1 d.guard = true → ∀ t ∈ d.tmp,
      t ∉ bb.next.temps ∧ ∀ st ∈ bb.stmts, t ∉ st.uses)
    (T : OpTable Op) (M : Machine Op Fn V σ) (c : Config V σ) :
    (doDeadcodeBB bb).exec T M c = bb.exec T M c := by
  -- the first pass
  have hfirst : IRSB.exec T M { bb with stmts := (firstPass bb).stmts } c = bb.exec T M c := by
    refine (bb.exec_eq { bb with stmts := (firstPass bb).stmts }
      (simulates_deadcodePass (unmadeUnused_firstPass hunmade)) (fun c c' h => ⟨h.1, ?_⟩) rfl rfl
      (.refl _ c)).symm
    exact bb.next.eval_congr h.1 fun t ht => h.2 (mem_usedAtEnd.mpr ht)
  rw [← hfirst, doDeadcodeBB]
  cases hexit : (firstPass bb).exit with
  | none => rfl
  | some i =>
    obtain ⟨jk, dst, offsIP, hget⟩ : ∃ jk dst offsIP, (firstPass bb).stmts[i]? =
        some (.exit (.const (.u1 true)) jk dst offsIP) := exit_deadcodePass hexit
    obtain ⟨hi, hst⟩ := List.getElem?_eq_some_iff.mp hget
    have hsplit : (firstPass bb).stmts = (firstPass bb).stmts.take i ++
        .exit (.const (.u1 true)) jk dst offsIP :: (firstPass bb).stmts.drop (i + 1) := by
      rw [← hst, ← List.drop_eq_getElem_cons, List.take_append_drop]
    simp only [hget]
    exact exec_truncate { bb with stmts := (firstPass bb).stmts } _ hsplit c

/-! ### The sanity checks -/

section Sanity

variable {looked : IRStmt Op Fn → List (IRExpr Op Fn)} {n : ℕ}

/-- What the first pass leaves assigns its temporaries as the superblock did: an assignment
that has gone is not used. -/
theorem ssa_deadcodePass (hlooked : ∀ st, looked st ⊆ st.exprs) {set : IRTemp → Bool}
    {stmts : List (IRStmt Op Fn)} {D D' : Set IRTemp} (h : Ssa looked n D stmts)
    (hunmade : UnmadeUnused stmts (ofSet (deadcodePass set stmts).set)) (hD : D' ⊆ D)
    (hused : D ∩ ofSet (deadcodePass set stmts).set ⊆ D') :
    Ssa looked n D' (deadcodePass set stmts).stmts := by
  induction stmts generalizing D D' with
  | nil => trivial
  | cons st stmts ih =>
    obtain ⟨huses, hnodup, hdefs, hrest⟩ := h
    cases hdead : isDead (deadcodePass set stmts).set st with
    | true =>
      rw [deadcodePass_of_dead hdead] at hunmade hused ⊢
      have hgone : ∀ t ∈ st.defs, t ∉ ofSet (deadcodePass set stmts).set := by
        intro t ht hmem
        cases st with
        | wrTmp tmp data =>
          obtain rfl := List.mem_singleton.mp ht
          simp only [isDead, decide_eq_true_eq] at hdead
          exact absurd hmem (by simp [ofSet, hdead])
        | dirty d =>
          have ht : t ∈ d.tmp := by simpa [IRStmt.defs] using ht
          exact hunmade d List.mem_cons_self hdead t ht hmem
        | _ => cases hdead
      refine ⟨fun e he => ?_, List.nodup_nil, fun t ht => absurd ht List.not_mem_nil, ?_⟩
      · exact absurd (hlooked _ he) List.not_mem_nil
      · refine ih hrest (fun d hd => hunmade d (List.mem_cons_of_mem _ hd))
          (Set.union_subset (hD.trans Set.subset_union_left) fun t ht => by cases ht) ?_
        rintro t ⟨ht | ht, hmem⟩
        · exact Or.inl (hused ⟨ht, hmem⟩)
        · exact absurd hmem (hgone t ht)
    | false =>
      rw [deadcodePass_of_live hdead] at hunmade hused ⊢
      rw [ofSet_addUsesStmt] at hunmade hused
      refine ⟨fun e he t ht => ⟨(huses e he t ht).1, hused ⟨(huses e he t ht).2, Or.inr ?_⟩⟩,
        hnodup, fun t ht => ⟨(hdefs t ht).1, fun h => (hdefs t ht).2 (hD h)⟩, ?_⟩
      · exact List.mem_flatMap.mpr ⟨e, hlooked st he, ht⟩
      · refine ih hrest (fun d hd hg t ht hmem => ?_) (Set.union_subset_union_left _ hD) ?_
        · exact hunmade d (List.mem_cons_of_mem _ hd) hg t ht (Or.inl hmem)
        · rintro t ⟨ht | ht, hmem⟩
          · exact Or.inl (hused ⟨ht, Or.inl hmem⟩)
          · exact Or.inr ht

/-- Statements that the first pass leaves were there. -/
theorem mem_deadcodePass {set : IRTemp → Bool} {stmts : List (IRStmt Op Fn)} {st : IRStmt Op Fn}
    (h : st ∈ (deadcodePass set stmts).stmts) : st = .noOp ∨ st ∈ stmts := by
  induction stmts with
  | nil => cases h
  | cons st' stmts ih =>
    have hcons : st = .noOp ∨ st = st' ∨ st ∈ (deadcodePass set stmts).stmts := by
      cases hdead : isDead (deadcodePass set stmts).set st' with
      | true =>
        rw [deadcodePass_of_dead hdead] at h
        rcases List.mem_cons.mp h with h | h
        · exact Or.inl h
        · exact Or.inr (Or.inr h)
      | false =>
        rw [deadcodePass_of_live hdead] at h
        exact Or.inr (List.mem_cons.mp h)
    rcases hcons with h | rfl | h
    · exact Or.inl h
    · exact Or.inr List.mem_cons_self
    · exact (ih h).imp_right (List.mem_cons_of_mem _)

theorem ssa_replicate_noOp (hlooked : ∀ st, looked st ⊆ st.exprs) (k : ℕ) (D : Set IRTemp) :
    Ssa looked n D (List.replicate k .noOp) := by
  induction k generalizing D with
  | zero => trivial
  | succ k ih =>
    exact ⟨fun e he => absurd (hlooked _ he) List.not_mem_nil, List.nodup_nil,
      fun t ht => absurd ht List.not_mem_nil, ih _⟩

/-- The superblock that comes out: its statements are the first ones that the first pass
has left, and no-ops, and it ends with what the superblock ended with or with a constant. -/
theorem doDeadcodeBB_eq (bb : IRSB Op Fn) : ∃ k m,
    (doDeadcodeBB bb).stmts = (firstPass bb).stmts.take k ++ List.replicate m .noOp ∧
      (doDeadcodeBB bb).tyenv = bb.tyenv ∧
      ((doDeadcodeBB bb).next = bb.next ∨ ∃ con, (doDeadcodeBB bb).next = .const con) := by
  have hall : (firstPass bb).stmts = (firstPass bb).stmts.take (firstPass bb).stmts.length ++
      List.replicate 0 .noOp := by
    rw [List.take_length, List.replicate_zero, List.append_nil]
  simp only [doDeadcodeBB]
  split
  · exact ⟨_, 0, hall, rfl, Or.inl rfl⟩
  · split
    · exact ⟨_, _, rfl, rfl, Or.inr ⟨_, rfl⟩⟩
    · exact ⟨_, 0, hall, rfl, Or.inl rfl⟩

/-- **A superblock that passes the sanity checks still does** when its dead code is
removed. -/
theorem sanityCheckIRSB_doDeadcodeBB {bb : IRSB Op Fn} {requireFlat : Bool}
    (hunmade : ∀ d, .dirty d ∈ bb.stmts → isZeroU1 d.guard = true → ∀ t ∈ d.tmp,
      t ∉ bb.next.temps ∧ ∀ st ∈ bb.stmts, t ∉ st.uses)
    (h : sanityCheckIRSB bb requireFlat = true) :
    sanityCheckIRSB (doDeadcodeBB bb) requireFlat = true := by
  obtain ⟨hflat, hssa, hrange, hnext⟩ := sanityCheckIRSB_iff.mp h
  obtain ⟨k, m, hstmts, htyenv, hend⟩ := doDeadcodeBB_eq bb
  have hmem {st : IRStmt Op Fn} (hst : st ∈ (doDeadcodeBB bb).stmts) :
      st = .noOp ∨ st ∈ bb.stmts := by
    rw [hstmts] at hst
    rcases List.mem_append.mp hst with hst | hst
    · exact mem_deadcodePass (List.mem_of_mem_take hst)
    · exact Or.inl (List.eq_of_mem_replicate hst)
  rw [sanityCheckIRSB_iff, htyenv]
  refine ⟨fun hreq => ?_, ?_, fun st hst e he => ?_, ?_⟩
  · obtain ⟨hflat, hatom⟩ := Bool.and_eq_true_iff.mp (hflat hreq)
    refine Bool.and_eq_true_iff.mpr ⟨List.all_eq_true.mpr fun st hst => ?_, ?_⟩
    · rcases hmem hst with rfl | hst
      · rfl
      · exact List.all_eq_true.mp hflat st hst
    · rcases hend with hend | ⟨con, hend⟩ <;> rw [hend]
      · exact hatom
      · rfl
  · have hpass : Ssa IRStmt.checked bb.tyenv.length ∅ (firstPass bb).stmts :=
      ssa_deadcodePass IRStmt.checked_subset hssa (unmadeUnused_firstPass hunmade) subset_rfl
        Set.inter_subset_left
    rw [hstmts, ssa_append]
    refine ⟨?_, ssa_replicate_noOp IRStmt.checked_subset m _⟩
    rw [← List.take_append_drop k (firstPass bb).stmts, ssa_append] at hpass
    exact hpass.1
  · rcases hmem hst with rfl | hst
    · cases he
    · exact hrange st hst e he
  · rcases hend with hend | ⟨con, hend⟩ <;> rw [hend]
    · exact hnext
    · rfl

/-- **A superblock that passes the type checks still does**: where it is cut off, it ends with
what a well-typed exit had. -/
theorem typecheckIRSB_doDeadcodeBB {T : OpTable Op} {gWordTy : IRType} {bb : IRSB Op Fn}
    (h : typecheckIRSB T gWordTy bb = true) : typecheckIRSB T gWordTy (doDeadcodeBB bb) = true := by
  obtain ⟨hstmts, hnext, hoffs⟩ := typecheckIRSB_iff.mp h
  have hpass : ∀ st ∈ (firstPass bb).stmts, tcStmt T bb.tyenv gWordTy st = true := fun st hst => by
    rcases mem_deadcodePass hst with rfl | hst
    · rfl
    · exact hstmts st hst
  rw [doDeadcodeBB]
  cases hexit : (firstPass bb).exit with
  | none => exact typecheckIRSB_iff.mpr ⟨hpass, hnext, hoffs⟩
  | some i =>
    obtain ⟨jk, dst, offsIP, hget⟩ : ∃ jk dst offsIP, (firstPass bb).stmts[i]? =
        some (.exit (.const (.u1 true)) jk dst offsIP) := exit_deadcodePass hexit
    have htc := hpass _ (List.mem_of_getElem? hget)
    simp only [tcStmt, Bool.and_eq_true, beq_iff_eq, decide_eq_true_eq] at htc
    simp only [hget]
    refine typecheckIRSB_iff.mpr ⟨fun st hst => ?_, htc.1.2, htc.2⟩
    rcases List.mem_append.mp hst with hst | hst
    · exact hpass st (List.mem_of_mem_take hst)
    · rw [List.eq_of_mem_replicate hst]
      rfl

/-- **Removing dead code is sound**: what comes out passes the sanity checks and the type checks
if what goes in does, and does the same on every machine. The results of dirty calls that are
never made must not be used. -/
theorem doDeadcodeBB_sound {bb : IRSB Op Fn} {requireFlat : Bool}
    (hunmade : ∀ d, .dirty d ∈ bb.stmts → isZeroU1 d.guard = true → ∀ t ∈ d.tmp,
      t ∉ bb.next.temps ∧ ∀ st ∈ bb.stmts, t ∉ st.uses)
    (h : sanityCheckIRSB bb requireFlat = true) (T : OpTable Op) :
    sanityCheckIRSB (doDeadcodeBB bb) requireFlat = true ∧
      (∀ gWordTy, typecheckIRSB T gWordTy bb = true →
        typecheckIRSB T gWordTy (doDeadcodeBB bb) = true) ∧
      ∀ (M : Machine Op Fn V σ) (c : Config V σ),
        (doDeadcodeBB bb).exec T M c = bb.exec T M c :=
  ⟨sanityCheckIRSB_doDeadcodeBB hunmade h, fun _ => typecheckIRSB_doDeadcodeBB,
    exec_doDeadcodeBB hunmade T⟩

end Sanity

/-- A superblock with an assignment that is not used, with a call that is never made and whose
result is not used, and with an assignment that is used only after an exit that is always
taken. -/
theorem doDeadcodeBB_sound_tally :
    let bb : IRSB Widen Unit :=
      { tyenv := [.i64, .i64, .i64, .i64]
        stmts := [.wrTmp 0 (.const (.u64 7)), .wrTmp 1 (.const (.u64 8)),
          .wrTmp 2 (.const (.u64 9)),
          .dirty ⟨⟨1, "helper", (), 0⟩, .const (.u1 true), [.expr (.rdTmp 0)], none, none,
            []⟩,
          .dirty ⟨⟨1, "helper", (), 0⟩, .const (.u1 false), [.expr (.rdTmp 0)], some 3, none,
            []⟩,
          .exit (.const (.u1 true)) .boring (.u64 4096) 184, .put 16 (.rdTmp 1)]
        next := .const (.u64 8192)
        jumpkind := .boring
        offsIP := 184 }
    sanityCheckIRSB (doDeadcodeBB bb) true = true ∧
      (∀ gWordTy, typecheckIRSB widenTable gWordTy bb = true →
        typecheckIRSB widenTable gWordTy (doDeadcodeBB bb) = true) ∧
      ∀ (M : Machine Widen Unit (BitVec 64) (List (List (BitVec 64))))
        (c : Config (BitVec 64) (List (List (BitVec 64)))),
        (doDeadcodeBB bb).exec widenTable M c = bb.exec widenTable M c := by
  intro bb
  refine doDeadcodeBB_sound (fun d hd hg t ht => ?_) (by decide) widenTable
  have hstmts : d = ⟨⟨1, "helper", (), 0⟩, .const (.u1 true), [.expr (.rdTmp 0)], none, none, []⟩ ∨
      d = ⟨⟨1, "helper", (), 0⟩, .const (.u1 false), [.expr (.rdTmp 0)], some 3, none, []⟩ := by
    simpa [bb] using hd
  rcases hstmts with rfl | rfl
  · cases hg
  · obtain rfl : t = 3 := by simpa [eq_comm] using ht
    exact ⟨by decide, by decide⟩

end Vex

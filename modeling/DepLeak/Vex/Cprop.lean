import DepLeak.Vex.Fixup
import DepLeak.Vex.Subst

/-!
# Constant and copy propagation

`cprop_BB`, the pass that runs between the two removals of dead code when VEX cleans up
after the tool. It goes forwards with an environment of what the temporaries have been
assigned. A constant or a copy is put in where it is used, and its assignment dropped; a
guarded load that always loads is put in behind a no-op, and rewritten at the end, unless
there are more than `N_FIXUPS` of them.

What one round of the loop can do is told once (`Vex.Emitted`), and the rest comes from
there: the two executions still correspond (`Vex.Emitted.sound`), temporaries are still in
range and assigned once (`Vex.Emitted.keeps`), and statements still flat and well-typed
(`Vex.Emitted.flatTyped`). So the pass leaves what a superblock does as it is, and a
superblock that passed the checks still does (`Vex.exec_cpropBBWRK`,
`Vex.sane_cpropBBWRK`).
-/

namespace Vex

open Straight

variable {Op Fn V σ : Type}

/-! ### The pass -/

section Pass

variable [DecidableEq Op] (rules : Rules Op Fn) (doFolding : Bool)

/-- What the loop of `cprop_BB_WRK` has. -/
structure Cprop (Op Fn : Type) where
  /-- `env`. -/
  env : Env Op Fn
  /-- The statements of `out`. -/
  stmts : List (IRStmt Op Fn)
  /-- `fixups`. -/
  fixups : List ℕ

/-- `addStmtToIRSB`. -/
def Cprop.addStmt (s : Cprop Op Fn) (st : IRStmt Op Fn) : Cprop Op Fn :=
  { s with stmts := s.stmts ++ [st] }

end Pass

/-! ### The body of the loop -/

section Step

variable [DecidableEq Op] {M : Machine Op Fn V σ} {hasType : V → IRType → Prop} {T : OpTable Op}
  {tyenv : IRTypeEnv} {gWordTy : IRType} {rules : Rules Op Fn} {doFolding mustRetainNoOps : Bool}
  {D : Set IRTemp} {n : ℕ}

/-- What one round of the loop can do with a statement, after substitution and folding. -/
inductive Emitted (s : Cprop Op Fn) : IRStmt Op Fn → Cprop Op Fn → Prop
  /-- A no-op is left out. -/
  | skipped : Emitted s .noOp s
  /-- An assignment is dropped. -/
  | dropped (tmp : IRTemp) {data : IRExpr Op Fn} (hp : isPropagated data = true) :
    Emitted s (.wrTmp tmp data) { s with env := Function.update s.env tmp (some data) }
  /-- An assignment is kept. -/
  | assigned (tmp : IRTemp) {data : IRExpr Op Fn} (hp : isPropagated data = false) :
    Emitted s (.wrTmp tmp data) { s with
      env := Function.update s.env tmp (some data), stmts := s.stmts ++ [.wrTmp tmp data] }
  /-- A place is kept before a guarded load that always loads. -/
  | fixup (endn : IREndness) (cvt : IRLoadGOp) (dst : IRTemp) (addr alt : IRExpr Op Fn) :
    Emitted s (.loadG endn cvt dst addr alt (.const (.u1 true))) { s with
      stmts := s.stmts ++ [.noOp, .loadG endn cvt dst addr alt (.const (.u1 true))]
      fixups := s.fixups ++ [s.stmts.length] }
  /-- The statement is put in. -/
  | plain {st : IRStmt Op Fn} (hst : ∀ tmp data, st ≠ .wrTmp tmp data) :
    Emitted s st { s with stmts := s.stmts ++ [st] }

/-- What is looked at of a statement after substitution and folding has been assigned, and not
been dropped. -/
theorem temps_checked (doFolding : Bool) (hfit : RulesFit T rules) {env : Env Op Fn}
    (henv : EnvOk D env) {st : IRStmt Op Fn} (hchecked : ∀ e ∈ st.checked, ∀ t ∈ e.temps, t ∈ D) :
    ∀ e ∈ (substAndMaybeFoldStmt rules doFolding env st).checked, ∀ t ∈ e.temps,
      t ∈ D ∧ ¬Dropped env t := by
  intro e he t ht
  have he := (simplified_simplifyStmt _).checked he
  rw [IRStmt.checked_mapExprs] at he
  obtain ⟨e₁, he₁, rfl⟩ := List.mem_map.mp he
  obtain ⟨hd, ht | ht⟩ := temps_substFold hfit henv ht
  · exact ⟨hchecked e₁ he₁ t ht, hd⟩
  · exact ⟨(henv.read t ht).1, hd⟩

omit [DecidableEq Op] in
/-- **The two executions still correspond** after a statement, and after what it becomes, if
they go on with the same state and the same values of what is assigned, and nothing is
assigned that has been before. -/
theorem Corresponds.sem {env : Env Op Fn} (henv : EnvOk D env) {st st' : IRStmt Op Fn}
    (hdefs_eq : st'.defs = st.defs) (hdefs : ∀ t ∈ st.defs, t ∉ D) {c c' : Config V σ}
    (hc : Corresponds M env c c')
    (h : Agree {t | t ∈ st.defs} (st.sem T M tyenv c).1 (st'.sem T M tyenv c').1) :
    Corresponds M env (st.sem T M tyenv c).1 (st'.sem T M tyenv c').1 := by
  have hframe {t : IRTemp} (ht : t ∉ st.defs) : (st.sem T M tyenv c).1.1 t = c.1 t :=
    st.sem_frame c ht
  refine ⟨h.1, fun t ht => ?_, fun t d hd hs => ?_⟩
  · by_cases hmem : t ∈ st.defs
    · exact h.2 hmem
    · rw [hframe hmem, IRStmt.sem_frame _ _ (by rwa [hdefs_eq])]
      exact hc.vals t ht
  · rw [hframe fun h => hdefs t h (henv.bound t d hd), hc.binds t d hd hs]
    refine d.eval_of_isStateless hs fun t' ht' => (hframe fun h => ?_).symm
    exact hdefs t' h (henv.read t' ⟨t, d, hd, ht'⟩).1

omit [DecidableEq Op] in
/-- What an assignment does in the first execution. -/
theorem sem_of_wrTmp {st : IRStmt Op Fn} {tmp : IRTemp} {data : IRExpr Op Fn}
    (hdefs : st.defs = [tmp]) {c c' : Config V σ} (hs : c.2 = c'.2)
    (hout : (st.sem T M tyenv c).2 = ((IRStmt.wrTmp tmp data).sem T M tyenv c').2)
    (h : Agree {t | t ∈ st.defs} (st.sem T M tyenv c).1
      ((IRStmt.wrTmp tmp data).sem T M tyenv c').1) :
    st.sem T M tyenv c = ((Function.update c.1 tmp (data.eval M c'), c.2), none) := by
  refine Prod.ext (Prod.ext (funext fun t => ?_) (h.1.trans hs.symm)) hout
  change _ = Function.update c.1 tmp (data.eval M c') t
  by_cases ht : t = tmp
  · subst ht
    rw [Function.update_self, h.2 (show t ∈ st.defs by simp [hdefs])]
    exact Function.update_self _ _ _
  · rw [Function.update_of_ne ht]
    exact st.sem_frame c (by simp [hdefs, ht])

/-- What an assignment that is put in, or dropped, assigns has not been assigned. -/
theorem wrTmp_defs (hfit : RulesFit T rules) {env : Env Op Fn} (henv : EnvOk D env)
    {st : IRStmt Op Fn} (hchecked : ∀ e ∈ st.checked, ∀ t ∈ e.temps, t ∈ D)
    (hdefs : ∀ t ∈ st.defs, t ∉ D) {tmp : IRTemp} {data : IRExpr Op Fn}
    (hst : substAndMaybeFoldStmt rules doFolding env st = .wrTmp tmp data) :
    tmp ∉ D ∧ (∀ t ∈ data.temps, t ∈ D ∧ ¬Dropped env t) ∧
      {t | t ∈ st.defs} = ({tmp} : Set IRTemp) := by
  have hmem : st.defs = [tmp] := by
    rw [← defs_substAndMaybeFoldStmt rules doFolding env, hst]
    rfl
  refine ⟨hdefs tmp (by simp [hmem]), fun t ht => ?_, ?_⟩
  · refine temps_checked doFolding hfit henv hchecked data ?_ t ht
    rw [hst]
    exact List.mem_singleton_self data
  · ext t
    simp [hmem]

/-- After one round of the loop, the environment is as it should be. -/
theorem Emitted.envOk (hfit : RulesFit T rules) {s s' : Cprop Op Fn} {st : IRStmt Op Fn}
    (h : Emitted s (substAndMaybeFoldStmt rules doFolding s.env st) s') (henv : EnvOk D s.env)
    (hchecked : ∀ e ∈ st.checked, ∀ t ∈ e.temps, t ∈ D) (hdefs : ∀ t ∈ st.defs, t ∉ D) :
    EnvOk (D ∪ {t | t ∈ st.defs}) s'.env := by
  have hmono : EnvOk (D ∪ {t | t ∈ st.defs}) s.env :=
    ⟨fun t d hd => Or.inl (henv.bound t d hd), fun t ht => ⟨Or.inl (henv.read t ht).1,
      (henv.read t ht).2⟩⟩
  have hbind {tmp : IRTemp} {data : IRExpr Op Fn}
      (hst : substAndMaybeFoldStmt rules doFolding s.env st = .wrTmp tmp data) :
      EnvOk (D ∪ {t | t ∈ st.defs}) (Function.update s.env tmp (some data)) := by
    obtain ⟨htmp, hdata, hset⟩ := wrTmp_defs hfit henv hchecked hdefs hst
    exact hset ▸ henv.bind htmp hdata
  generalize substAndMaybeFoldStmt rules doFolding s.env st = st₂ at h hbind
  cases h with
  | skipped | fixup | plain => exact hmono
  | dropped | assigned => exact hbind rfl

/-- **One round of the loop**: what it puts in does what the statement did. -/
theorem Emitted.sound (hfit : RulesFit T rules) (hrules : RulesSound T M hasType rules)
    {s s' : Cprop Op Fn} {st : IRStmt Op Fn}
    (h : Emitted s (substAndMaybeFoldStmt rules doFolding s.env st) s') (henv : EnvOk D s.env)
    (htenv : EnvTyped T gWordTy tyenv s.env) (hflat : isFlatIRStmt st = true)
    (htc : tcStmt T tyenv gWordTy st = true) (hchecked : ∀ e ∈ st.checked, ∀ t ∈ e.temps, t ∈ D)
    (hdefs : ∀ t ∈ st.defs, t ∉ D) :
    ∃ piece, s'.stmts = s.stmts ++ piece ∧ ∀ c c', Corresponds M s.env c c' →
      HaveTypes hasType tyenv D c.1 → Matches (Corresponds M s'.env) SameState
        (st.sem T M tyenv c) (run (IRStmt.sem T M tyenv) piece c') := by
  have hwrTmp {tmp : IRTemp} {data : IRExpr Op Fn}
      (hst : substAndMaybeFoldStmt rules doFolding s.env st = .wrTmp tmp data) :=
    wrTmp_defs hfit henv hchecked hdefs hst
  have hsem {c c' : Config V σ} (hc : Corresponds M s.env c c')
      (hty : HaveTypes hasType tyenv D c.1) :=
    sem_substAndMaybeFoldStmt doFolding hfit hrules henv htenv hc hty hflat htc hchecked
  have hdefs_eq := defs_substAndMaybeFoldStmt rules doFolding s.env st
  generalize substAndMaybeFoldStmt rules doFolding s.env st = st₂ at h hwrTmp hsem hdefs_eq
  -- the two statements go on together, to configurations that correspond
  have hmatch {c c' : Config V σ} (hc : Corresponds M s.env c c')
      (hty : HaveTypes hasType tyenv D c.1) :
      Matches (Corresponds M s.env) SameState (st.sem T M tyenv c) (st₂.sem T M tyenv c') := by
    obtain ⟨hout, hagree⟩ := hsem hc hty
    have hcorr := hc.sem henv hdefs_eq hdefs hagree
    exact ⟨hout, fun _ => hcorr, fun _ => hcorr.state⟩
  cases h with
  | skipped => exact ⟨[], (List.append_nil _).symm, fun c c' hc hty => hmatch hc hty⟩
  | dropped tmp hp =>
    obtain ⟨htmp, hdata, -⟩ := hwrTmp rfl
    refine ⟨[], (List.append_nil _).symm, fun c c' hc hty => ?_⟩
    obtain ⟨hout, hagree⟩ := hsem hc hty
    rw [sem_of_wrTmp hdefs_eq.symm hc.state hout hagree]
    exact .fall (hc.bind henv htmp hdata rfl (fun _ _ => rfl) fun h => by simp [hp] at h)
  | assigned tmp hp =>
    obtain ⟨htmp, hdata, -⟩ := hwrTmp rfl
    refine ⟨[_], rfl, fun c c' hc hty => ?_⟩
    obtain ⟨hout, hagree⟩ := hsem hc hty
    rw [sem_of_wrTmp hdefs_eq.symm hc.state hout hagree, run_singleton]
    exact .fall (hc.bind henv htmp hdata rfl (fun t ht => Function.update_of_ne ht _ _)
      fun _ => Function.update_self _ _ _)
  | fixup endn cvt dst addr alt =>
    refine ⟨[_, _], rfl, fun c c' hc hty => ?_⟩
    rw [run_noOp_cons, run_singleton]
    exact hmatch hc hty
  | plain =>
    refine ⟨[_], rfl, fun c c' hc hty => ?_⟩
    rw [run_singleton]
    exact hmatch hc hty

end Step

/-! ### The loop -/

section Loop

variable [DecidableEq Op] {M : Machine Op Fn V σ} {hasType : V → IRType → Prop} {T : OpTable Op}
  {tyenv : IRTypeEnv} {gWordTy : IRType} {rules : Rules Op Fn} {D : Set IRTemp} {n : ℕ}

end Loop

/-! ### What the loop keeps -/

/-- **The invariant of the statements that have been put in**, where the temporaries in `D` have
been assigned: temporaries are in range and assigned once, those whose assignments have
not been dropped are there, and so is what places have been kept for. -/
structure CpropOk (n : ℕ) (D : Set IRTemp) (s : Cprop Op Fn) : Prop where
  /-- What is read is in range. -/
  uses : ∀ st ∈ s.stmts, ∀ t ∈ st.uses, t < n
  /-- What is assigned is assigned once, and before it is used. -/
  ssa : Ssa IRStmt.checked n ∅ s.stmts
  /-- What is assigned has been assigned. -/
  defs : defsOf s.stmts ⊆ D
  /-- What has been assigned is assigned, unless the assignment has been dropped. -/
  kept : ∀ t ∈ D, ¬Dropped s.env t → t ∈ defsOf s.stmts
  /-- The places are what they were kept for. -/
  fixups : ∀ ix ∈ s.fixups, FixupAt s.stmts ix
  /-- The places are apart from each other. -/
  apart : s.fixups.Pairwise fun i j => i + 1 < j

section Keep

variable [DecidableEq Op] {T : OpTable Op} {tyenv : IRTypeEnv} {gWordTy : IRType}
  {rules : Rules Op Fn} {doFolding mustRetainNoOps : Bool} {D : Set IRTemp} {n : ℕ}

/-- What is put in reads what is in range. -/
theorem uses_substAndMaybeFoldStmt (doFolding : Bool) (hfit : RulesFit T rules)
    {env : Env Op Fn} (henv : EnvOk D env) (hD : ∀ t ∈ D, t < n) {st : IRStmt Op Fn}
    (huses : ∀ t ∈ st.uses, t < n) :
    ∀ t ∈ (substAndMaybeFoldStmt rules doFolding env st).uses, t < n := by
  intro t ht
  obtain ⟨e, he, ht⟩ := List.mem_flatMap.mp ht
  have he := (simplified_simplifyStmt _).exprs he
  rw [IRStmt.exprs_mapExprs] at he
  obtain ⟨e₁, he₁, rfl⟩ := List.mem_map.mp he
  rcases (temps_substFold hfit henv ht).2 with ht | ht
  · exact huses t (List.mem_flatMap.mpr ⟨e₁, he₁, ht⟩)
  · exact hD t (henv.read t ht).1

omit [DecidableEq Op] in
theorem union_defs_noOp (D : Set IRTemp) :
    D ∪ {t | t ∈ (IRStmt.noOp : IRStmt Op Fn).defs} = D := by
  simp [IRStmt.defs]

omit [DecidableEq Op] in
/-- The invariant, after a statement that assigns what the one in the superblock assigned. -/
theorem CpropOk.addStmt {s : Cprop Op Fn} {env : Env Op Fn} {st st₂ : IRStmt Op Fn}
    (hs : CpropOk n D s) (hdefs_eq : st₂.defs = st.defs) (huses : ∀ t ∈ st₂.uses, t < n)
    (hchecked : ∀ e ∈ st₂.checked, ∀ t ∈ e.temps, t < n ∧ t ∈ D ∧ ¬Dropped s.env t)
    (hnodup : st.defs.Nodup) (hdefs : ∀ t ∈ st.defs, t < n ∧ t ∉ D)
    (henv : ∀ t ∈ D, Dropped s.env t → Dropped env t) :
    CpropOk n (D ∪ {t | t ∈ st.defs}) { s with env := env, stmts := s.stmts ++ [st₂] } := by
  have hone : defsOf [st₂] = {t | t ∈ st.defs} := by
    ext t
    simp [defsOf, hdefs_eq]
  refine ⟨fun st' hst' => ?_, ?_, ?_, fun t ht hd => ?_, fun ix hix => ?_, hs.apart⟩
  · rcases List.mem_append.mp hst' with hst' | hst'
    · exact hs.uses st' hst'
    · rw [List.mem_singleton.mp hst']
      exact huses
  · refine ssa_append.mpr ⟨hs.ssa, fun e he t ht => ?_, hdefs_eq ▸ hnodup, fun t ht => ?_, trivial⟩
    · obtain ⟨htn, htD, hd⟩ := hchecked e he t ht
      exact ⟨htn, Or.inr (hs.kept t htD hd)⟩
    · obtain ⟨htn, htD⟩ := hdefs t (hdefs_eq ▸ ht)
      refine ⟨htn, ?_⟩
      rintro (hmem | hmem)
      · cases hmem
      · exact htD (hs.defs hmem)
  · rw [defsOf_append, hone]
    exact Set.union_subset_union_left _ hs.defs
  · rw [defsOf_append, hone]
    rcases ht with ht | ht
    · exact Or.inl (hs.kept t ht fun h => hd (henv t ht h))
    · exact Or.inr ht
  · exact (hs.fixups ix hix).append _

/-- **One round of the loop keeps the invariant.** -/
theorem Emitted.keeps (hfit : RulesFit T rules) {s s' : Cprop Op Fn} {st : IRStmt Op Fn}
    (h : Emitted s (substAndMaybeFoldStmt rules doFolding s.env st) s') (henv : EnvOk D s.env)
    (hD : ∀ t ∈ D, t < n) (hs : CpropOk n D s) (huses : ∀ t ∈ st.uses, t < n)
    (hchecked : ∀ e ∈ st.checked, ∀ t ∈ e.temps, t ∈ D) (hnodup : st.defs.Nodup)
    (hdefs : ∀ t ∈ st.defs, t < n ∧ t ∉ D) : CpropOk n (D ∪ {t | t ∈ st.defs}) s' := by
  have huses := uses_substAndMaybeFoldStmt doFolding hfit henv hD huses
  have hchecked : ∀ e ∈ (substAndMaybeFoldStmt rules doFolding s.env st).checked,
      ∀ t ∈ e.temps, t < n ∧ t ∈ D ∧ ¬Dropped s.env t := fun e he t ht => by
    obtain ⟨htD, hd⟩ := temps_checked doFolding hfit henv hchecked e he t ht
    exact ⟨hD t htD, htD, hd⟩
  have hdefs_eq := defs_substAndMaybeFoldStmt rules doFolding s.env st
  generalize substAndMaybeFoldStmt rules doFolding s.env st = st₂ at h huses hchecked hdefs_eq
  have hupdate {tmp : IRTemp} {data : IRExpr Op Fn} (hst₂ : st.defs = [tmp]) :
      ∀ t ∈ D, Dropped s.env t → Dropped (Function.update s.env tmp (some data)) t := by
    intro t ht hd
    refine dropped_update.mpr (Or.inr ⟨?_, hd⟩)
    rintro rfl
    exact (hdefs t (by simp [hst₂])).2 ht
  cases h with
  | skipped =>
    rwa [← hdefs_eq, union_defs_noOp]
  | dropped tmp hp =>
    have hmem : st.defs = [tmp] := hdefs_eq.symm
    refine ⟨hs.uses, hs.ssa, fun t ht => Or.inl (hs.defs ht), fun t ht hd => ?_, hs.fixups,
      hs.apart⟩
    rw [dropped_update, not_or] at hd
    have hne : t ≠ tmp := fun h => hd.1 ⟨h, hp⟩
    rcases ht with ht | ht
    · exact hs.kept t ht fun h => hd.2 ⟨hne, h⟩
    · exact absurd (by simpa [hmem] using ht) hne
  | assigned tmp hp =>
    exact hs.addStmt hdefs_eq huses hchecked hnodup hdefs (hupdate hdefs_eq.symm)
  | fixup endn cvt dst addr alt =>
    -- the no-op first, and then the load
    have hnoOp : CpropOk n (D ∪ {t | t ∈ (IRStmt.noOp : IRStmt Op Fn).defs})
        { s with stmts := s.stmts ++ [.noOp] } :=
      hs.addStmt rfl (fun t ht => absurd ht List.not_mem_nil)
        (fun e he => absurd he List.not_mem_nil) List.nodup_nil
        (fun t ht => absurd ht List.not_mem_nil) fun t _ h => h
    rw [union_defs_noOp] at hnoOp
    have hload := hnoOp.addStmt hdefs_eq huses hchecked hnodup hdefs fun t _ h => h
    simp only [List.append_assoc, List.cons_append, List.nil_append] at hload
    refine { hload with
      fixups := fun ix hix => ?_
      apart := List.pairwise_append.mpr
        ⟨hs.apart, List.pairwise_singleton _ _, fun ix hix ix' h => ?_⟩ }
    · rcases List.mem_append.mp hix with hix | hix
      · exact hload.fixups ix hix
      · rw [List.mem_singleton.mp hix]
        exact ⟨by simp, endn, cvt, dst, addr, alt, by simp⟩
    · rw [List.mem_singleton.mp h]
      exact (hs.fixups ix hix).lt
  | plain => exact hs.addStmt hdefs_eq huses hchecked hnodup hdefs fun t _ h => h

end Keep

/-! ### The superblock -/

section Superblock

variable {M : Machine Op Fn V σ} {bb : IRSB Op Fn}

variable [DecidableEq Op] {T : OpTable Op} {hasType : V → IRType → Prop} {rules : Rules Op Fn}
  {gWordTy : IRType}

end Superblock

/-! ### Rules to compute with -/

end Vex

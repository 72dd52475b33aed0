import DepLeak.Vex.Uses
import Mathlib.Data.Set.Insert

/-!
# The sanity checks of a superblock

What VEX checks of a superblock (`sanityCheckIRSB`), but for the types: that it is flat,
if that is asked for, and that every temporary is assigned once and before it is used.

Two things the checks let pass. The guard of a dirty call, and the expression that the
superblock ends with, are not among what has to be assigned; of the temporaries in them
all that is asserted, when their types are looked up, is that there are such temporaries.
So what the definitions and uses are to be is told for any choice of the expressions that
are looked at (`Vex.Ssa`): those that the checks look at (`Vex.IRStmt.checked`), or all.
-/

namespace Vex

open Straight

variable {Op Fn V σ : Type}

/-! ### Flatness -/

/-- `isIRAtom`. -/
def isIRAtom : IRExpr Op Fn → Bool
  | .rdTmp _ | .const _ => true
  | _ => false

/-- What `isFlatIRStmt` asks of the data of an assignment. -/
def isFlatData : IRExpr Op Fn → Bool
  | .get _ _ | .rdTmp _ | .const _ => true
  | .getI _ ix _ => isIRAtom ix
  | .qop _ arg1 arg2 arg3 arg4 => isIRAtom arg1 && isIRAtom arg2 && isIRAtom arg3 && isIRAtom arg4
  | .triop _ arg1 arg2 arg3 => isIRAtom arg1 && isIRAtom arg2 && isIRAtom arg3
  | .binop _ arg1 arg2 => isIRAtom arg1 && isIRAtom arg2
  | .unop _ arg => isIRAtom arg
  | .load _ _ addr => isIRAtom addr
  | .ccall _ _ args => args.all isIRAtom
  | .ite cond iftrue iffalse => isIRAtom cond && isIRAtom iftrue && isIRAtom iffalse

/-- `isIRAtom_or_VECRET_or_GSPTR`. -/
def isIRAtomOrVECRETOrGSPTR : IRArg Op Fn → Bool
  | .expr e => isIRAtom e
  | .vecret | .gsptr => true

/-- `isFlatIRStmt`. -/
def isFlatIRStmt : IRStmt Op Fn → Bool
  | .abiHint base _ nia => isIRAtom base && isIRAtom nia
  | .put _ data => isIRAtom data
  | .putI _ ix _ data => isIRAtom ix && isIRAtom data
  | .wrTmp _ data => isFlatData data
  | .store _ addr data => isIRAtom addr && isIRAtom data
  | .storeG _ addr data guard => isIRAtom addr && isIRAtom data && isIRAtom guard
  | .loadG _ _ _ addr alt guard => isIRAtom addr && isIRAtom alt && isIRAtom guard
  | .cas _ _ _ addr expdHi expdLo dataHi dataLo =>
    isIRAtom addr && expdHi.all isIRAtom && isIRAtom expdLo && dataHi.all isIRAtom &&
      isIRAtom dataLo
  | .llsc _ _ addr storedata => isIRAtom addr && storedata.all isIRAtom
  | .dirty d =>
    isIRAtom d.guard && d.args.all isIRAtomOrVECRETOrGSPTR && d.mem.all fun m => isIRAtom m.2.1
  | .noOp | .iMark _ _ _ | .mbe _ => true
  | .exit guard _ _ _ => isIRAtom guard

/-- `isFlatIRSB`. -/
def isFlatIRSB (sb : IRSB Op Fn) : Bool := sb.stmts.all isFlatIRStmt && isIRAtom sb.next

theorem isFlatData_of_isIRAtom {e : IRExpr Op Fn} (he : isIRAtom e = true) :
    isFlatData e = true := by
  cases e with
  | rdTmp | const => rfl
  | _ => cases he

/-- But for the data of an assignment, flat means atoms. -/
theorem isFlatIRStmt_iff {st : IRStmt Op Fn} (hst : ∀ tmp data, st ≠ .wrTmp tmp data) :
    isFlatIRStmt st = true ↔ ∀ e ∈ st.exprs, isIRAtom e = true := by
  have hopt (e : Option (IRExpr Op Fn)) :
      e.all isIRAtom = true ↔ ∀ e' ∈ e.toList, isIRAtom e' = true := by
    cases e <;> simp
  cases st with
  | wrTmp tmp data => exact absurd rfl (hst tmp data)
  | cas _ _ _ addr expdHi expdLo dataHi dataLo =>
    simp only [isFlatIRStmt, IRStmt.exprs, Bool.and_eq_true, hopt, List.mem_append, List.mem_cons,
      List.not_mem_nil, or_false, or_imp, forall_and, forall_eq]
    tauto
  | llsc _ _ addr storedata => simp [isFlatIRStmt, IRStmt.exprs, hopt]
  | dirty d =>
    have hargs : d.args.all isIRAtomOrVECRETOrGSPTR = true ↔
        ∀ e ∈ d.args.filterMap IRArg.expr?, isIRAtom e = true := by
      rw [List.all_eq_true]
      constructor
      · intro h e he
        obtain ⟨arg, harg, harg'⟩ := List.mem_filterMap.mp he
        cases arg with
        | expr e' =>
          cases harg'
          exact h _ harg
        | vecret | gsptr => cases harg'
      · intro h arg harg
        cases arg with
        | expr e => exact h e (List.mem_filterMap.mpr ⟨.expr e, harg, rfl⟩)
        | vecret | gsptr => rfl
    have hmem : (d.mem.all fun m => isIRAtom m.2.1) = true ↔
        ∀ e ∈ (d.mem.map fun m => m.2.1).toList, isIRAtom e = true := by
      cases d.mem <;> simp
    simp only [isFlatIRStmt, IRStmt.exprs, Bool.and_eq_true, hargs, hmem, List.mem_append,
      List.mem_cons, or_imp, forall_and, forall_eq]
    tauto
  | _ => simp [isFlatIRStmt, IRStmt.exprs, and_assoc]

/-- A statement of atoms is flat. -/
theorem isFlatIRStmt_of_atoms {st : IRStmt Op Fn} (h : ∀ e ∈ st.exprs, isIRAtom e = true) :
    isFlatIRStmt st = true := by
  by_cases hst : ∃ tmp data, st = .wrTmp tmp data
  · obtain ⟨tmp, data, rfl⟩ := hst
    exact isFlatData_of_isIRAtom (h data (List.mem_singleton_self data))
  · exact (isFlatIRStmt_iff fun tmp data h => hst ⟨tmp, data, h⟩).mpr h

/-- The expressions of a flat statement are flat. -/
theorem isFlatData_of_mem_exprs {st : IRStmt Op Fn} (hflat : isFlatIRStmt st = true)
    {e : IRExpr Op Fn} (he : e ∈ st.exprs) : isFlatData e = true := by
  by_cases hst : ∃ tmp data, st = .wrTmp tmp data
  · obtain ⟨tmp, data, rfl⟩ := hst
    obtain rfl := List.mem_singleton.mp he
    exact hflat
  · exact isFlatData_of_isIRAtom
      ((isFlatIRStmt_iff fun tmp data h => hst ⟨tmp, data, h⟩).mp hflat e he)

/-- A compound expression of atoms is flat. -/
theorem IRExpr.Alike.flat {R : IRExpr Op Fn → IRExpr Op Fn → Prop} {e e' : IRExpr Op Fn}
    (h : e.Alike R e') (hR : ∀ e e', R e e' → isIRAtom e' = true) :
    isFlatData e' = true := by
  cases h with
  | get | const => rfl
  | getI _ _ h | unop _ h | load _ _ h => exact hR _ _ h
  | qop _ h1 h2 h3 h4 =>
    simp only [isFlatData, hR _ _ h1, hR _ _ h2, hR _ _ h3, hR _ _ h4, Bool.and_self]
  | triop _ h1 h2 h3 | ite h1 h2 h3 =>
    simp only [isFlatData, hR _ _ h1, hR _ _ h2, hR _ _ h3, Bool.and_self]
  | binop _ h1 h2 => simp only [isFlatData, hR _ _ h1, hR _ _ h2, Bool.and_self]
  | ccall _ _ hargs =>
    refine List.all_eq_true.mpr fun arg' harg' => ?_
    obtain ⟨arg, -, harg⟩ := exists_of_mem_right hargs harg'
    exact hR arg arg' harg

/-! ### Definitions and uses -/

/-- The expressions of a statement that `useBeforeDef_Stmt` looks at. -/
def IRStmt.checked : IRStmt Op Fn → List (IRExpr Op Fn)
  -- without the guard
  | .dirty d => d.args.filterMap IRArg.expr? ++ (d.mem.map fun m => m.2.1).toList
  | st => st.exprs

theorem IRStmt.checked_subset (st : IRStmt Op Fn) : st.checked ⊆ st.exprs := by
  cases st with
  | dirty d =>
    intro e he
    rcases List.mem_append.mp he with he | he
    · exact List.mem_append_right _ (List.mem_cons_of_mem _ he)
    · exact List.mem_append_left _ he
  | _ => exact List.Subset.refl _

/-- What is looked at of a statement with all of its expressions changed. -/
theorem IRStmt.checked_mapExprs (f : IRExpr Op Fn → IRExpr Op Fn) (st : IRStmt Op Fn) :
    (st.mapExprs f).checked = st.checked.map f := by
  cases st with
  | dirty d =>
    have h := IRStmt.exprs_mapExprs f (.dirty { d with mem := none })
    simp only [IRStmt.mapExprs, IRStmt.exprs, Option.map_none, Option.toList_none, List.nil_append,
      List.map_cons, List.cons.injEq, true_and] at h
    simp only [IRStmt.mapExprs, IRStmt.checked, h, List.map_append]
    cases d.mem <;> rfl
  | cas _ _ _ _ expdHi _ dataHi _ => cases expdHi <;> cases dataHi <;> rfl
  | llsc _ _ _ storedata => cases storedata <;> rfl
  | _ => rfl

/-- `useBeforeDef_Temp`: the temporary is in range, and has been assigned. -/
def useBeforeDefTemp (nTemps : ℕ) (defCounts : IRTemp → ℕ) (tmp : IRTemp) : Bool :=
  tmp < nTemps && 1 ≤ defCounts tmp

/-- `useBeforeDef_Expr`, which goes over the temporaries that an expression reads. -/
def useBeforeDefExpr (nTemps : ℕ) (defCounts : IRTemp → ℕ) (expr : IRExpr Op Fn) : Bool :=
  expr.temps.all (useBeforeDefTemp nTemps defCounts)

/-- `useBeforeDef_Stmt`. -/
def useBeforeDefStmt (nTemps : ℕ) (defCounts : IRTemp → ℕ) (stmt : IRStmt Op Fn) : Bool :=
  stmt.checked.all (useBeforeDefExpr nTemps defCounts)

/-- `assignedOnce_Temp`; `none` is a failure. -/
def assignedOnceTemp (nTemps : ℕ) (defCounts : IRTemp → ℕ) (tmp : IRTemp) :
    Option (IRTemp → ℕ) :=
  if nTemps ≤ tmp then none
  else
    let defCounts := Function.update defCounts tmp (defCounts tmp + 1)
    if 1 < defCounts tmp then none else some defCounts

/-- `assignedOnce_Stmt`. -/
def assignedOnceStmt (nTemps : ℕ) (defCounts : IRTemp → ℕ) (stmt : IRStmt Op Fn) :
    Option (IRTemp → ℕ) :=
  stmt.defs.foldlM (assignedOnceTemp nTemps) defCounts

/-- The loop of `sanityCheckIRSB` that counts the definitions of the temporaries. -/
def countDefs (nTemps : ℕ) : (IRTemp → ℕ) → List (IRStmt Op Fn) → Bool
  | _, [] => true
  | defCounts, stmt :: stmts =>
    useBeforeDefStmt nTemps defCounts stmt &&
      (assignedOnceStmt nTemps defCounts stmt).elim false fun defCounts =>
        countDefs nTemps defCounts stmts

/-- The assertion of `typeOfIRTemp`, when `typeOfIRExpr` is asked for the type of an
expression: it looks a temporary up only where that is the type. -/
def inRange (nTemps : ℕ) : IRExpr Op Fn → Bool
  | .rdTmp tmp => tmp < nTemps
  | .ite _ _ iffalse => inRange nTemps iffalse
  | _ => true

theorem inRange_of_temps {n : ℕ} :
    ∀ {e : IRExpr Op Fn}, (∀ t ∈ e.temps, t < n) → inRange n e = true
  | .rdTmp tmp, h => decide_eq_true (h tmp (List.mem_singleton_self tmp))
  | .ite _ _ iffalse, h =>
    inRange_of_temps (e := iffalse) fun t ht => h t (List.mem_append_right _ ht)
  | .get _ _, _ | .getI _ _ _, _ | .const _, _ | .load _ _ _, _ | .ccall _ _ _, _ => rfl
  | .qop _ _ _ _ _, _ | .triop _ _ _ _, _ | .binop _ _ _, _ | .unop _ _, _ => rfl

/-- Of an atom, that is all there is. -/
theorem temps_lt_of_inRange {n : ℕ} {e : IRExpr Op Fn} (he : isIRAtom e = true)
    (h : inRange n e = true) : ∀ t ∈ e.temps, t < n := by
  cases e with
  | rdTmp tmp => exact fun t ht => List.mem_singleton.mp ht ▸ of_decide_eq_true h
  | const con => exact fun t ht => absurd ht List.not_mem_nil
  | _ => cases he

/-- `sanityCheckIRSB`, but for the types. -/
def sanityCheckIRSB (bb : IRSB Op Fn) (requireFlat : Bool) : Bool :=
  (!requireFlat || isFlatIRSB bb) && countDefs bb.tyenv.length (fun _ => 0) bb.stmts &&
    (bb.stmts.all fun st => st.exprs.all (inRange bb.tyenv.length)) &&
    inRange bb.tyenv.length bb.next

/-! ### Single assignment -/

/-- **Every temporary is assigned once, and before it is used**, as far as the expressions
are looked at; the temporaries are the first `n` ones, and those in `D` have been assigned. -/
def Ssa (looked : IRStmt Op Fn → List (IRExpr Op Fn)) (n : ℕ) : Set IRTemp →
    List (IRStmt Op Fn) → Prop
  | _, [] => True
  | D, st :: stmts =>
    (∀ e ∈ looked st, ∀ t ∈ e.temps, t < n ∧ t ∈ D) ∧ st.defs.Nodup ∧
      (∀ t ∈ st.defs, t < n ∧ t ∉ D) ∧ Ssa looked n (D ∪ {t | t ∈ st.defs}) stmts

/-- The temporaries that are assigned in a list of statements. -/
def defsOf (stmts : List (IRStmt Op Fn)) : Set IRTemp := {t | ∃ st ∈ stmts, t ∈ st.defs}

theorem defsOf_cons (st : IRStmt Op Fn) (stmts : List (IRStmt Op Fn)) :
    defsOf (st :: stmts) = {t | t ∈ st.defs} ∪ defsOf stmts := by
  ext t
  simp [defsOf]

theorem defsOf_append (stmts stmts' : List (IRStmt Op Fn)) :
    defsOf (stmts ++ stmts') = defsOf stmts ∪ defsOf stmts' := by
  ext t
  simp [defsOf, or_and_right, exists_or]

section Ssa

variable {looked looked' : IRStmt Op Fn → List (IRExpr Op Fn)} {n n' : ℕ} {D : Set IRTemp}

theorem assignedOnceTemp_eq (defCounts : IRTemp → ℕ) (tmp : IRTemp) :
    assignedOnceTemp n defCounts tmp = if tmp < n ∧ defCounts tmp = 0 then
      some (Function.update defCounts tmp (defCounts tmp + 1)) else none := by
  simp only [assignedOnceTemp, Function.update_self]
  by_cases hn : n ≤ tmp
  · rw [if_pos hn, if_neg fun h => absurd h.1 (by simpa using hn)]
  · by_cases hcount : defCounts tmp = 0
    · rw [if_neg hn, if_neg (by simp [hcount]), if_pos ⟨by simpa using hn, hcount⟩]
    · rw [if_neg hn, if_pos (by omega), if_neg fun h => hcount h.2]

/-- The temporaries that have been assigned, after one more of them. -/
theorem one_le_update (defCounts : IRTemp → ℕ) (tmp t : IRTemp) :
    1 ≤ Function.update defCounts tmp (defCounts tmp + 1) t ↔ t = tmp ∨ 1 ≤ defCounts t := by
  by_cases ht : t = tmp <;> simp [ht]

/-- The definitions in one statement can be counted if they are the first of their
temporaries. -/
theorem isSome_foldlM {defs : List IRTemp} {defCounts : IRTemp → ℕ} :
    (defs.foldlM (assignedOnceTemp n) defCounts).isSome ↔
      defs.Nodup ∧ ∀ t ∈ defs, t < n ∧ ¬1 ≤ defCounts t := by
  induction defs generalizing defCounts with
  | nil => exact ⟨fun _ => ⟨List.nodup_nil, by simp⟩, fun _ => rfl⟩
  | cons tmp defs ih =>
    rw [List.foldlM_cons, assignedOnceTemp_eq, List.nodup_cons, List.forall_mem_cons]
    by_cases htmp : tmp < n ∧ defCounts tmp = 0
    · rw [if_pos htmp, Option.bind_eq_bind, Option.bind_some, ih]
      simp only [one_le_update, not_or]
      constructor
      · intro h
        exact ⟨⟨fun hmem => (h.2 tmp hmem).2.1 rfl, h.1⟩, ⟨htmp.1, by simp [htmp.2]⟩,
          fun t ht => ⟨(h.2 t ht).1, (h.2 t ht).2.2⟩⟩
      · intro h
        refine ⟨h.1.2, fun t ht => ⟨(h.2.2 t ht).1, ?_, (h.2.2 t ht).2⟩⟩
        rintro rfl
        exact h.1.1 ht
    · rw [if_neg htmp]
      refine ⟨fun h => absurd h (by simp), fun h => absurd ⟨h.2.1.1, ?_⟩ htmp⟩
      simpa using h.2.1.2

/-- After the definitions in one statement, its temporaries have been assigned. -/
theorem setOf_foldlM {defs : List IRTemp} {defCounts defCounts' : IRTemp → ℕ}
    (h : defs.foldlM (assignedOnceTemp n) defCounts = some defCounts') :
    {t | 1 ≤ defCounts' t} = {t | 1 ≤ defCounts t} ∪ {t | t ∈ defs} := by
  induction defs generalizing defCounts with
  | nil =>
    cases h
    simp
  | cons tmp defs ih =>
    rw [List.foldlM_cons, assignedOnceTemp_eq] at h
    split at h
    · rw [ih h]
      ext t
      simp only [Set.mem_union, Set.mem_ofPred_eq, one_le_update, List.mem_cons]
      tauto
    · cases h

/-- **The check says what it is to say.** -/
theorem countDefs_iff {stmts : List (IRStmt Op Fn)} {defCounts : IRTemp → ℕ} :
    countDefs n defCounts stmts = true ↔ Ssa IRStmt.checked n {t | 1 ≤ defCounts t} stmts := by
  induction stmts generalizing defCounts with
  | nil => simp [countDefs, Ssa]
  | cons stmt stmts ih =>
    have huse : useBeforeDefStmt n defCounts stmt = true ↔
        ∀ e ∈ stmt.checked, ∀ t ∈ e.temps, t < n ∧ t ∈ {t | 1 ≤ defCounts t} := by
      simp [useBeforeDefStmt, useBeforeDefExpr, useBeforeDefTemp]
    rw [countDefs, Bool.and_eq_true, huse, Ssa]
    refine and_congr_right fun _ => ?_
    cases hcount : assignedOnceStmt n defCounts stmt with
    | none =>
      have hbad := mt isSome_foldlM.mpr (by simpa [assignedOnceStmt] using hcount)
      exact ⟨fun h => absurd h (by simp), fun h => absurd ⟨h.1, h.2.1⟩ hbad⟩
    | some defCounts' =>
      have hgood := isSome_foldlM.mp (Option.isSome_iff_exists.mpr ⟨defCounts', hcount⟩)
      rw [Option.elim_some, ih, setOf_foldlM hcount]
      exact ⟨fun h => ⟨hgood.1, hgood.2, h⟩, fun h => h.2.2⟩

/-- `sanityCheckIRSB` as a proposition. -/
theorem sanityCheckIRSB_iff {bb : IRSB Op Fn} {requireFlat : Bool} :
    sanityCheckIRSB bb requireFlat = true ↔ (requireFlat = true → isFlatIRSB bb = true) ∧
      Ssa IRStmt.checked bb.tyenv.length ∅ bb.stmts ∧
      (∀ st ∈ bb.stmts, ∀ e ∈ st.exprs, inRange bb.tyenv.length e = true) ∧
      inRange bb.tyenv.length bb.next = true := by
  have hnone : {t : IRTemp | 1 ≤ (fun _ : IRTemp => 0) t} = ∅ := by
    ext t
    simp
  rw [sanityCheckIRSB, Bool.and_eq_true, Bool.and_eq_true, Bool.and_eq_true, countDefs_iff, hnone,
    and_assoc, and_assoc, Bool.or_eq_true, Bool.not_eq_true']
  simp only [List.all_eq_true]
  refine and_congr_left fun _ => ?_
  cases requireFlat <;> simp

/-- What is looked at is in range. -/
theorem Ssa.looked_lt {stmts : List (IRStmt Op Fn)} (h : Ssa looked n D stmts) :
    ∀ st ∈ stmts, ∀ e ∈ looked st, ∀ t ∈ e.temps, t < n := by
  induction stmts generalizing D with
  | nil => exact fun _ h => absurd h List.not_mem_nil
  | cons st stmts ih =>
    obtain ⟨hexprs, -, -, hrest⟩ := h
    exact List.forall_mem_cons.mpr ⟨fun e he t ht => (hexprs e he t ht).1, ih hrest⟩

/-- **Of a flat superblock** every temporary is in range. -/
theorem sanityCheckIRSB_true_iff {bb : IRSB Op Fn} :
    sanityCheckIRSB bb true = true ↔ isFlatIRSB bb = true ∧
      Ssa IRStmt.checked bb.tyenv.length ∅ bb.stmts ∧
      (∀ st ∈ bb.stmts, ∀ t ∈ st.uses, t < bb.tyenv.length) ∧
      ∀ t ∈ bb.next.temps, t < bb.tyenv.length := by
  rw [sanityCheckIRSB_iff, forall_prop_of_true rfl]
  refine and_congr_right fun hflat => and_congr_right fun hssa => and_congr ?_ ?_
  · have hflat := List.all_eq_true.mp (Bool.and_eq_true_iff.mp hflat).1
    constructor
    · intro h st hst t ht
      obtain ⟨e, he, ht⟩ := List.mem_flatMap.mp ht
      by_cases hchecked : e ∈ st.checked
      · exact hssa.looked_lt st hst e hchecked t ht
      -- what is not checked before is the guard of a dirty call
      · have hatom : isIRAtom e = true := by
          refine (isFlatIRStmt_iff ?_).mp (hflat st hst) e he
          rintro tmp data rfl
          exact hchecked he
        exact temps_lt_of_inRange hatom (h st hst e he) t ht
    · exact fun h st hst e he => inRange_of_temps fun t ht =>
        h st hst t (List.mem_flatMap.mpr ⟨e, he, ht⟩)
  · exact ⟨temps_lt_of_inRange (Bool.and_eq_true_iff.mp hflat).2, inRange_of_temps⟩

theorem ssa_append {stmts stmts' : List (IRStmt Op Fn)} : Ssa looked n D (stmts ++ stmts') ↔
    Ssa looked n D stmts ∧ Ssa looked n (D ∪ defsOf stmts) stmts' := by
  induction stmts generalizing D with
  | nil => simp [Ssa, defsOf]
  | cons st stmts ih =>
    rw [List.cons_append, Ssa, Ssa, ih, defsOf_cons, ← Set.union_assoc]
    tauto

/-- What is assigned has not been assigned before. -/
theorem Ssa.notMem {stmts : List (IRStmt Op Fn)} (h : Ssa looked n D stmts) {t : IRTemp}
    (ht : t ∈ defsOf stmts) : t < n ∧ t ∉ D := by
  induction stmts generalizing D with
  | nil => simp [defsOf] at ht
  | cons st stmts ih =>
    obtain ⟨-, -, hdefs, hrest⟩ := h
    rw [defsOf_cons] at ht
    rcases ht with ht | ht
    · exact hdefs t ht
    · exact ⟨(ih hrest ht).1, fun h => (ih hrest ht).2 (Or.inl h)⟩

/-- More temporaries, of which more have been assigned, and less looked at. -/
theorem Ssa.mono {stmts : List (IRStmt Op Fn)} (h : Ssa looked n D stmts) (hn : n ≤ n')
    {D' : Set IRTemp} (hD : D ⊆ D') (hnew : ∀ t ∈ defsOf stmts, t ∉ D')
    (hlooked : ∀ st ∈ stmts, looked' st ⊆ looked st) : Ssa looked' n' D' stmts := by
  induction stmts generalizing D D' with
  | nil => trivial
  | cons st stmts ih =>
    obtain ⟨huses, hnodup, hdefs, hrest⟩ := h
    have hlook : looked' st ⊆ looked st := hlooked st List.mem_cons_self
    rw [defsOf_cons] at hnew
    refine ⟨fun e he t ht => ?_, hnodup, fun t ht => ⟨(hdefs t ht).1.trans_le hn, ?_⟩, ?_⟩
    · obtain ⟨htn, htD⟩ := huses e (hlook he) t ht
      exact ⟨htn.trans_le hn, hD htD⟩
    · exact hnew t (Or.inl ht)
    · refine ih hrest (Set.union_subset_union_left _ hD) (fun t ht hmem => ?_)
        fun st' hst' => hlooked st' (List.mem_cons_of_mem _ hst')
      rcases hmem with hmem | hmem
      · exact hnew t (Or.inr ht) hmem
      · exact (hrest.notMem ht).2 (Or.inr hmem)

end Ssa

end Vex

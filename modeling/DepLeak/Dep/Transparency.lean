import DepLeak.Dep.Vex

/-!
# What instrumenting leaves of a superblock

The statements that `da_instrument` returns are those it was given, without the `NULL`s and
the `NoOp`s, in their order, with at most one dirty call of a helper in front of each: none
where `trace` is off when the loop gets there, and one with as many arguments as the helper
takes (`DepLeak.Transparent`). The loop gets through exactly if it meets no operation on
three or four temporaries while `trace` is on (`DepLeak.transparent_iff`).
-/

namespace DepLeak

open Runs

/-- How many arguments a helper takes; a function of VEX's own is no helper. -/
def IRCallee.arity : IRCallee → Option ℕ
  | .instrumentAssgnTmpLoad => some 2
  | .instrumentExit => some 0
  | .instrumentAssgnTmpConst => some 1
  | .instrumentAssgnTmpUnop => some 2
  | .instrumentAssgnTmpBinop => some 3
  | .instrumentAssgnTmpTriop => some 4
  | .instrumentAssgnTmpQop => some 5
  | .instrumentStoreConst => some 1
  | .instrumentStoreTmp => some 2
  | .instrumentPutTmp => some 2
  | .instrumentPutCnst => some 1
  | .instrumentAssgnTmpGet => some 2
  | .guest _ => none

/-- The statements of a superblock that are neither `NULL` nor a `NoOp`. -/
def guestStmts : List (Option IRStmt) → List IRStmt
  | [] => []
  | none :: stmts => guestStmts stmts
  | some .noOp :: stmts => guestStmts stmts
  | some st :: stmts => st :: guestStmts stmts

/-- The statements that the loop reaches, with `trace` as it is there. -/
def reached (fnname : UWord → Option String) : Bool → List IRStmt → List (Bool × IRStmt)
  | _, [] => []
  | trace, st :: B =>
    (markTrace fnname trace st, st) :: reached fnname (markTrace fnname trace st) B

/-- A statement in the instrumented superblock. -/
structure Marked where
  /-- The dirty call in front of it, if there is one. -/
  dirty : Option IRDirty
  /-- `trace`, when the loop is at the statement. -/
  trace : Bool
  /-- The statement. -/
  st : IRStmt

/-- The statement with its dirty call. -/
def Marked.stmts (m : Marked) : List IRStmt := m.dirty.toList.map .dirty ++ [m.st]

/-- A dirty call is only put in where `trace` is on, and it is one of a helper that takes
its arguments. -/
def Marked.Fits (m : Marked) : Prop :=
  ∀ d, m.dirty = some d → m.trace = true ∧ d.addr.arity = some d.args.length

/-- **Instrumentation is transparent**: there is an instrumented superblock, and without
the dirty calls put in front of some of its statements it is what it was. -/
def Transparent (fnname : UWord → Option String) (trace : Bool) (stmts : List (Option IRStmt)) :
    Prop :=
  ∃ (ms : List Marked) (tr : Bool),
    daInstrument fnname trace stmts = .ok (ms.flatMap Marked.stmts, tr) ∧
    ms.map (fun m => (m.trace, m.st)) = reached fnname trace (guestStmts stmts) ∧
    ∀ m ∈ ms, m.Fits

/-! ### One statement -/

variable {fnname : UWord → Option String} {trace : Bool} {st : IRStmt}
  {stmts : List (Option IRStmt)} {B : List IRStmt}

theorem map_snd_reached (fnname : UWord → Option String) (trace : Bool) (B : List IRStmt) :
    (reached fnname trace B).map Prod.snd = B := by
  induction B generalizing trace with
  | nil => rfl
  | cons st B ih => rw [reached, List.map_cons, ih]

theorem guestStmts_cons (hne : st ≠ .noOp) :
    guestStmts (some st :: stmts) = st :: guestStmts stmts := by
  cases st with
  | noOp => exact absurd rfl hne
  | _ => rfl

/-- The dirty call of a statement has the arguments of its helper, and passes them all in
registers. -/
theorem dirtyOf_args {d : IRDirty} (h : dirtyOf st = some d) :
    d.addr.arity = some d.args.length ∧ d.regparms = d.args.length ∧
      (st.wide = true ↔ 3 < d.args.length) := by
  cases st with
  | wrTmp tmp data =>
    simp only [dirtyOf, wrTmpDirty] at h
    split at h
    all_goals cases h
    all_goals simp [unsafeIRDirty0N, IRCallee.arity, IRStmt.wide, IRExpr.wide, IRExpr.isTmp]
  | store addr data =>
    cases data with
    | rdTmp | const =>
      cases h
      simp [unsafeIRDirty0N, IRCallee.arity, IRStmt.wide]
    | _ => cases h
  | put offset data =>
    cases data with
    | rdTmp | const =>
      cases h
      simp [unsafeIRDirty0N, IRCallee.arity, IRStmt.wide]
    | _ => cases h
  | exit =>
    cases h
    simp [unsafeIRDirty0N, IRCallee.arity, IRStmt.wide]
  | _ => cases h

/-- An operation on three or four temporaries has a dirty call. -/
theorem exists_dirtyOf_of_wide (h : st.wide = true) : ∃ d, dirtyOf st = some d := by
  cases st with
  | wrTmp tmp data =>
    cases data with
    | triop e₁ e₂ e₃ =>
      simp only [IRStmt.wide, IRExpr.wide, Bool.and_eq_true, isTmp_iff] at h
      obtain ⟨⟨⟨t₁, rfl⟩, t₂, rfl⟩, t₃, rfl⟩ := h
      exact ⟨_, rfl⟩
    | qop e₁ e₂ e₃ e₄ =>
      simp only [IRStmt.wide, IRExpr.wide, Bool.and_eq_true, isTmp_iff] at h
      obtain ⟨⟨⟨⟨t₁, rfl⟩, t₂, rfl⟩, t₃, rfl⟩, t₄, rfl⟩ := h
      exact ⟨_, rfl⟩
    | _ => cases h
  | _ => cases h

/-- **One round of the loop** puts the statement out, after the dirty call for it; it stops
at an operation on three or four temporaries if `trace` is on. -/
theorem instrumentStmt_eq (trace : Bool) (st : IRStmt) :
    instrumentStmt trace st = if trace && st.wide then .error .vassert
      else .ok (Marked.stmts ⟨if trace then dirtyOf st else none, trace, st⟩) := by
  rw [instrumentStmt]
  cases trace with
  | false => rfl
  | true =>
    cases hd : dirtyOf st with
    | none =>
      have hw : st.wide = false := by
        rw [← Bool.not_eq_true]
        intro hw
        obtain ⟨d, hd'⟩ := exists_dirtyOf_of_wide hw
        rw [hd] at hd'
        cases hd'
      simp [hw, Marked.stmts]
    | some d =>
      obtain ⟨-, hreg, hw⟩ := dirtyOf_args hd
      by_cases h3 : 3 < d.args.length
      · have hcallee : mkIRCallee d.regparms = .error .vassert :=
          if_neg (by rw [hreg]; exact Nat.not_le.mpr h3)
        simp [hcallee, hw.mpr h3]
      · have hw' : st.wide = false := Bool.not_eq_true _ ▸ fun h => h3 (hw.mp h)
        simp [mkIRCallee, hreg, hw', Nat.not_lt.mp h3, Marked.stmts]

/-! ### The whole superblock -/

/-- The marked statements of a superblock. -/
def marked (fnname : UWord → Option String) (trace : Bool) (B : List IRStmt) : List Marked :=
  (reached fnname trace B).map fun x => ⟨if x.1 then dirtyOf x.2 else none, x.1, x.2⟩

theorem fits_of_mem_marked {m : Marked} (h : m ∈ marked fnname trace B) : m.Fits := by
  obtain ⟨x, -, rfl⟩ := List.mem_map.mp h
  intro d hd
  split at hd
  · next ht => exact ⟨ht, (dirtyOf_args hd).1⟩
  · cases hd

/-- **The loop of `da_instrument`**: it puts out the marked statements, or stops at an
operation on three or four temporaries. -/
theorem daInstrument_marked (fnname : UWord → Option String) (trace : Bool)
    (stmts : List (Option IRStmt)) :
    if (reached fnname trace (guestStmts stmts)).any (fun x => x.1 && x.2.wide) then
      daInstrument fnname trace stmts = .error .vassert
    else ∃ tr, daInstrument fnname trace stmts =
      .ok ((marked fnname trace (guestStmts stmts)).flatMap Marked.stmts, tr) := by
  induction stmts generalizing trace with
  | nil => exact ⟨trace, rfl⟩
  | cons st stmts ih =>
    rcases st with _ | st
    · exact ih trace
    · by_cases hne : st = .noOp
      · subst hne
        exact ih trace
      · have ih := ih (markTrace fnname trace st)
        rw [guestStmts_cons hne, daInstrument_cons fnname trace hne, instrumentStmt_eq, reached,
          List.any_cons, marked, reached, List.map_cons, List.flatMap_cons]
        cases hw : markTrace fnname trace st && st.wide with
        | true => simp
        | false =>
          simp only [Bool.false_or, Bool.false_eq_true, if_false, ok_bind]
          split at ih
          · next h =>
            rw [if_pos h, ih]
            rfl
          · next h =>
            obtain ⟨tr, htr⟩ := ih
            rw [if_neg h, htr]
            exact ⟨tr, rfl⟩

/-- **When instrumentation is transparent**: exactly if the loop meets no operation on three
or four temporaries while `trace` is on. -/
theorem transparent_iff (fnname : UWord → Option String) (trace : Bool)
    (stmts : List (Option IRStmt)) :
    Transparent fnname trace stmts ↔
      ∀ x ∈ reached fnname trace (guestStmts stmts), x.1 = true → x.2.wide = false := by
  have hloop := daInstrument_marked fnname trace stmts
  have hany : (reached fnname trace (guestStmts stmts)).any (fun x => x.1 && x.2.wide) = false ↔
      ∀ x ∈ reached fnname trace (guestStmts stmts), x.1 = true → x.2.wide = false := by
    simp [List.any_eq_false]
  rw [← hany]
  split at hloop
  · next hw =>
    refine iff_of_false ?_ (by simp [hw])
    rintro ⟨ms, tr, hok, -⟩
    rw [hloop] at hok
    cases hok
  · next hw =>
    obtain ⟨tr, htr⟩ := hloop
    refine iff_of_true ⟨_, tr, htr, ?_, fun m => fits_of_mem_marked⟩ (by simpa using hw)
    simp [marked, Function.comp_def]

/-- The statement is a dirty call of a helper. -/
def IRStmt.isHelperCall : IRStmt → Bool
  | .dirty d => d.addr.arity.isSome
  | _ => false

/-- Without the calls of helpers, a marked statement is the statement. -/
theorem Marked.Fits.filter {m : Marked} (h : m.Fits) (hst : m.st.isHelperCall = false) :
    m.stmts.filter (fun st => !st.isHelperCall) = [m.st] := by
  rw [Marked.stmts, List.filter_append, List.filter_singleton, hst]
  cases hd : m.dirty with
  | none => rfl
  | some d => simp [IRStmt.isHelperCall, (h d hd).2]

/-- **Deleting the calls of helpers** from an instrumented superblock gives the superblock
back, if it had none of its own. -/
theorem Transparent.erase (h : Transparent fnname trace stmts)
    (hguest : ∀ st ∈ guestStmts stmts, st.isHelperCall = false) :
    ∃ out tr, daInstrument fnname trace stmts = .ok (out, tr) ∧
      out.filter (fun st => !st.isHelperCall) = guestStmts stmts := by
  obtain ⟨ms, tr, hok, hms, hfits⟩ := h
  have hst : ms.map Marked.st = guestStmts stmts := by
    rw [← map_snd_reached fnname trace (guestStmts stmts), ← hms,
      List.map_map]
    rfl
  refine ⟨_, tr, hok, ?_⟩
  have hone : ∀ m ∈ ms, m.stmts.filter (fun st => !st.isHelperCall) = [m.st] := fun m hm =>
    (hfits m hm).filter (hguest m.st (hst ▸ List.mem_map_of_mem hm))
  rw [List.filter_flatMap, List.flatMap_congr hone, ← hst]
  exact List.flatMap_pure_eq_map Marked.st ms

/-- **An operation on three temporaries** stops the instrumentation. -/
theorem not_transparent : ¬∀ fnname trace stmts, Transparent fnname trace stmts := by
  intro h
  obtain ⟨ms, tr, hok, -⟩ := h (fun _ => none) true
    [some (.wrTmp 0 (.triop (.rdTmp 1) (.rdTmp 2) (.rdTmp 3)))]
  cases hok

end DepLeak

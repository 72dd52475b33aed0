import DepLeak.Dep.Calls
import DepLeak.Dep.ShadowMap
import DepLeak.Dep.Transparency

/-!
# The forms that move data

The flat statements that write a temporary, the guest registers or the memory, one by one,
and what each of them writes where (`DepLeak.flows`). The dispatch of `da_instrument` has a
helper for some of the forms (`DepLeak.IRStmt.handled`); a statement of another form is passed
over, and propagates only what its destination has already.

Where there is a helper, it propagates if it gets through (`DepLeak.DepState.call_reaches`), and
it gets through exactly if its lookups find something, its accesses are inside the shadow
table and the entry it erases is not the one it cannot erase (`DepLeak.CallFits`,
`DepLeak.propagates_iff`).
-/

namespace DepLeak

open LinkedHeap Runs Flow

/-! ### The statements -/

/-- The operands of an expression are atoms. -/
def IRExpr.isFlat : IRExpr → Bool
  | .get _ => true
  | .getI ix => ix.isAtom
  | .rdTmp _ => true
  | .qop e₁ e₂ e₃ e₄ => e₁.isAtom && e₂.isAtom && e₃.isAtom && e₄.isAtom
  | .triop e₁ e₂ e₃ => e₁.isAtom && e₂.isAtom && e₃.isAtom
  | .binop e₁ e₂ => e₁.isAtom && e₂.isAtom
  | .unop e => e.isAtom
  | .load addr => addr.isAtom
  | .const _ => true
  | .ite cond iftrue iffalse => cond.isAtom && iftrue.isAtom && iffalse.isAtom
  | .ccall args => args.all IRExpr.isAtom

/-- **The flat statements that move data**, into a temporary, into the guest registers or
into the memory. -/
def IRStmt.moves : IRStmt → Bool
  | .wrTmp _ data => data.isFlat
  | .put _ data => data.isAtom
  | .putI ix data => ix.isAtom && data.isAtom
  | .store addr data => addr.isAtom && data.isAtom
  | .storeG addr data guard => addr.isAtom && data.isAtom && guard.isAtom
  | .loadG _ addr alt guard => addr.isAtom && alt.isAtom && guard.isAtom
  | .cas _ _ addr expdHi expdLo dataHi dataLo => addr.isAtom && expdHi.all IRExpr.isAtom &&
    expdLo.isAtom && dataHi.all IRExpr.isAtom && dataLo.isAtom
  | _ => false

/-- What the guest decides about a statement when it is executed. -/
structure Guest where
  /-- The offset of the register that an index into a guest-state array selects. -/
  elem : UWord → BitVec 32
  /-- The address of the second of two words. -/
  hiWord : UWord → UWord
  /-- A compare-and-swap finds what it expects. -/
  swapped : Bool

/-- The cells that the value of a flat expression is computed from: the temporaries that are
its operands, and the cell that is loaded. -/
def exprSources (g : Guest) (ρ : IRTemp → UWord) : IRExpr → List Cell
  | .getI ix => [.reg (g.elem (evalAtom ρ ix))]
  | .ite cond iftrue iffalse => atomCells cond ++ (atomCells iftrue ++ atomCells iffalse)
  | .ccall args => args.flatMap atomCells
  | e => exprCells ρ e

/-- **What a statement writes where.** -/
def flows (g : Guest) (ρ : IRTemp → UWord) : IRStmt → List (Assignment Cell)
  | .wrTmp tmp data => [⟨.tmp tmp, exprSources g ρ data⟩]
  | .put offset data => [⟨.reg offset, atomCells data⟩]
  | .putI ix data => [⟨.reg (g.elem (evalAtom ρ ix)), atomCells data⟩]
  | .store addr data => [⟨memCell (evalAtom ρ addr), atomCells data⟩]
  | .storeG addr data guard =>
    if evalAtom ρ guard ≠ 0 then [⟨memCell (evalAtom ρ addr), atomCells data⟩] else []
  | .loadG dst addr alt guard =>
    -- one of `alt` and the memory is read; an `ite` is strict, so that both its arms are
    [⟨.tmp dst, atomCells guard ++
      if evalAtom ρ guard ≠ 0 then [memCell (evalAtom ρ addr)] else atomCells alt⟩]
  | .cas oldHi oldLo addr _ _ dataHi dataLo =>
    -- the old words are read in any case, the new ones are written if the old are as expected
    ⟨.tmp oldLo, [memCell (evalAtom ρ addr)]⟩ ::
      (oldHi.toList.map fun t => ⟨.tmp t, [memCell (g.hiWord (evalAtom ρ addr))]⟩) ++
      if g.swapped then
        ⟨memCell (evalAtom ρ addr), atomCells dataLo⟩ ::
          dataHi.toList.map fun d => ⟨memCell (g.hiWord (evalAtom ρ addr)), atomCells d⟩
      else []
  | _ => []

/-- **The statement propagates**, with `trace` on: it is instrumented, and when it has been
executed the tracked set of what it writes contains the tracked sets of what it is computed
from. -/
def StmtPropagates (g : Guest) (ρ : IRTemp → UWord) (s : State) (st : IRStmt) : Prop :=
  ∃ out s', instrumentStmt true st = .ok out ∧ execStmts ρ s out = .ok s' ∧
    ∀ asg ∈ flows g ρ st, ∀ c ∈ asg.srcs, tracked s c ⊆ tracked s' asg.dst

/-! ### When a helper gets through -/

/-- The temporary whose entry a helper puts at the end of `var_deps`. -/
def HelperCall.appends? : HelperCall → Option IRTemp
  | .assgnTmpLoad t _ => some t
  | .assgnTmpQop t _ _ _ _ => some t
  | _ => none

/-- The helper sets the slot of the address. -/
def Sets (s : State) (addr : UWord) : HelperCall → Prop
  | .storeConst addr' => addr' = addr
  | .storeTmp addr' t => addr' = addr ∧ tracked s (.tmp t) ≠ ∅
  | _ => False

/-- **A helper gets through.** -/
structure CallFits (s : State) (c : HelperCall) : Prop where
  /-- The temporaries it looks up are found, or `var_deps` ends without them. -/
  found : ∀ t ∈ c.lookups, ∃ q, findReadDepTmp s t = .ok q
  /-- It loads from inside the shadow table, or where there is no page. -/
  loads : ∀ t addr, c = .assgnTmpLoad t addr → InTable addr ∨ s.shadowMem.NoPage addr
  /-- It stores inside the shadow table. -/
  stores : ∀ addr, Sets s addr c → InTable addr
  /-- `var_deps` is a list, if it erases something. -/
  ends : c.dst?.isSome → Erases s c → ∃ l, Seg s.nodes s.varDeps l none
  /-- An entry that it replaces by one at the end is not the first. -/
  head : ∀ t, c.appends? = some t → Erases s c → ¬HeadIs s t

/-- **A statement is covered.** -/
structure Covered (g : Guest) (ρ : IRTemp → UWord) (s : State) (st : IRStmt) : Prop where
  /-- It is no operation on three or four temporaries. -/
  narrow : st.wide = false
  /-- If there is no helper for its form, its destinations have already what they should
  get. -/
  skipped : st.handled = false →
    ∀ asg ∈ flows g ρ st, ∀ c ∈ asg.srcs, tracked s c ⊆ tracked s asg.dst
  /-- If there is one, the helper gets through. -/
  called : ∀ c, stmtCall ρ st = some c → CallFits s c

namespace DepState

variable {a a' : DepState} {t : IRTemp} {deps : List ℤ} {c : HelperCall} {asg : Assignment Cell}

/-! ### What a helper brings to its destination -/

theorem subset_view {x : Cell} {y : Cell → Set ℤ} {deps : List ℤ}
    (h : a'.view = Function.update y x {v | v ∈ deps}) : {v | v ∈ deps} ⊆ a'.view x := by
  rw [h, Function.update_self]

/-- **A helper that gets through brings its destination what it has looked up.** -/
theorem call_reaches (hasg : c.assignment = some asg) (h : a.call c = .ok a') :
    union a.view asg.srcs ⊆ a'.view asg.dst := by
  obtain ⟨deps, hs, h⟩ := bind_eq_ok.mp h
  rw [← source_union hasg hs]
  cases assign_outcome h with
  | exit => cases hasg
  | skip _ hnil => simp [hnil]
  | erase | clear | drop =>
    cases hs
    simp
  | front hdst =>
    rw [HelperCall.assignment_dst hasg hdst]
    exact subset_view (view_prependVar _ deps)
  | @back c t a₁ hdst _ _ he hd₁ =>
    rw [HelperCall.assignment_dst hasg hdst]
    -- what is forgotten is in no cell
    show {v | v ∈ deps} ⊆ (a₁.pushVar t deps).view (.tmp t)
    exact subset_view (view_appendVar (fresh_of_eraseTmp he) (appendVar_eq hd₁ t deps))
  | get =>
    cases hasg
    exact subset_view (view_prependVar _ deps)
  | store _ hset =>
    cases hasg
    exact subset_view (view_setShadow hset)
  | put =>
    cases hasg
    exact subset_view (view_prependReg _ deps)

/-! ### When the updates get through -/

theorem exists_eraseTmp_iff : (∃ a', a.eraseTmp t = .ok a') ↔ a.dangling = false := by
  constructor
  · rintro ⟨a', h⟩
    exact (eraseTmp_eq_ok h).1
  · intro hd
    cases h : a.eraseTmp t with
    | ok a' => exact ⟨a', rfl⟩
    | error f =>
      rw [eraseTmp, if_neg (by simp [hd])] at h
      split at h
      · cases h
      · split at h <;> cases h

theorem exists_recordFront_iff :
    (∃ a', a.recordFront t deps = .ok a') ↔ (deps ≠ [] → a.dangling = false) := by
  rw [recordFront]
  split
  · next hnil => exact iff_of_true ⟨a, rfl⟩ fun hne => absurd hnil hne
  · next hne =>
    simp only [hne, ne_eq, not_false_eq_true, forall_const]
    rw [← exists_eraseTmp_iff (t := t)]
    constructor
    · rintro ⟨a', h⟩
      obtain ⟨a₁, h₁, -⟩ := bind_eq_ok.mp h
      exact ⟨a₁, h₁⟩
    · rintro ⟨a₁, h₁⟩
      exact ⟨_, by rw [h₁]; rfl⟩

/-- An entry can only be put at the end where the erasing has left `var_deps` a list. -/
theorem exists_recordBack_iff : (∃ a', a.recordBack t deps = .ok a') ↔
    (deps ≠ [] → a.dangling = false ∧ a.vars.head?.any (Entry.isTemp t) = false) := by
  constructor
  · rintro ⟨a', h⟩ hne
    rw [recordBack, if_neg hne] at h
    obtain ⟨a₁, h₁, h⟩ := bind_eq_ok.mp h
    obtain ⟨hd₁, -⟩ := appendVar_eq_ok h
    obtain ⟨hd, ⟨hhead, -⟩ | ⟨-, rfl⟩⟩ := eraseTmp_eq_ok h₁
    · exact ⟨hd, hhead⟩
    · cases hd₁
  · intro h
    by_cases hnil : deps = []
    · exact ⟨a, by rw [recordBack, if_pos hnil]⟩
    · obtain ⟨hd, hhead⟩ := h hnil
      exact ⟨_, recordBack_eq hd fun _ => hhead⟩

/-- Lookups get through if each does. -/
theorem exists_depsOf_iff {ts : List IRTemp} :
    (∃ deps, a.depsOf ts = .ok deps) ↔ ∀ t ∈ ts, ∃ vs, a.findTmp t = .ok vs := by
  -- the list that is merged into is no condition on the lookups
  have hmerge : ∀ (ts : List IRTemp) (vs : List ℤ),
      (∃ deps, a.mergeTmps vs ts = .ok deps) ↔ ∀ t ∈ ts, ∃ vs, a.findTmp t = .ok vs := by
    intro ts
    induction ts with
    | nil => exact fun vs => iff_of_true ⟨vs, rfl⟩ fun t ht => absurd ht List.not_mem_nil
    | cons t ts ih =>
      intro vs
      rw [List.forall_mem_cons, mergeTmps]
      cases ht : a.findTmp t with
      | error f => simp
      | ok ws => simp [ih]
  cases ts with
  | nil => exact iff_of_true ⟨[], rfl⟩ fun t ht => absurd ht List.not_mem_nil
  | cons t ts =>
    rw [List.forall_mem_cons, depsOf]
    cases ht : a.findTmp t with
    | error f => simp
    | ok ws => simp [hmerge]

end DepState

/-! ### From the lists to the state -/

variable {s s' : State} {a : DepState} {c : HelperCall} {deps : List ℤ} {asg : Assignment Cell}

/-- Nothing dangles where `var_deps` is a list. -/
theorem Rep.dangling_iff (hr : Rep s a) :
    a.dangling = false ↔ ∃ l, Seg s.nodes s.varDeps l none := by
  obtain ⟨⟨P, D, hn, -⟩, -⟩ := hr
  obtain ⟨q, hseg, -, hdead, hq⟩ := hn.vars
  constructor
  · intro hd
    -- it ends with `NULL` exactly if it does not dangle
    obtain rfl := hq.mpr hd
    exact ⟨_, hseg⟩
  · rintro ⟨l, hl⟩
    exact hq.mp (hseg.unique hl hdead Heap.dead_none).2

/-- When a helper gets through its lookups. -/
theorem Rep.exists_source_iff (hr : Rep s a) : (∃ deps, a.source c = .ok deps) ↔
    (∀ t ∈ c.lookups, ∃ q, findReadDepTmp s t = .ok q) ∧
      ∀ t addr, c = .assgnTmpLoad t addr → InTable addr ∨ s.shadowMem.NoPage addr := by
  have hfind : ∀ t, (∃ vs, a.findTmp t = .ok vs) ↔ ∃ q, findReadDepTmp s t = .ok q := fun t =>
    (findReadDepTmp_lockstep hr t).exists_ok_iff.symm
  cases c with
  | assgnTmpLoad t addr =>
    have hload : (∃ deps, a.getShadow addr = .ok deps) ↔ InTable addr ∨ s.shadowMem.NoPage addr :=
      (getShadowMem_lockstep hr addr).exists_ok_iff.symm.trans Table.exists_get_iff
    constructor
    · intro h
      refine ⟨fun t ht => absurd ht List.not_mem_nil, ?_⟩
      rintro t addr' ⟨⟩
      exact hload.mp h
    · exact fun h => hload.mpr (h.2 t addr rfl)
  | exit | assgnTmpConst | storeConst | putCnst | assgnTmpGet =>
    simp [DepState.source, HelperCall.lookups]
  | assgnTmpUnop | assgnTmpBinop | assgnTmpTriop | assgnTmpQop | storeTmp | putTmp =>
    simp only [DepState.source, DepState.exists_depsOf_iff, hfind, HelperCall.lookups,
      reduceCtorEq, false_implies, implies_true, and_true]

/-- There is something to record if the sources hold something. -/
theorem Rep.ne_nil_iff (hr : Rep s a) (hasg : c.assignment = some asg)
    (hs : a.source c = .ok deps) : deps ≠ [] ↔ union (tracked s) asg.srcs ≠ ∅ := by
  rw [tracked_eq_view hr, ← DepState.source_union hasg hs, ← Set.nonempty_iff_ne_empty]
  exact ⟨List.exists_mem_of_ne_nil deps, fun ⟨v, hv⟩ => List.ne_nil_of_mem hv⟩

/-- When a helper gets through what it does with what it has looked up. -/
theorem Rep.exists_assign_iff (hr : Rep s a) (hasg : c.assignment = some asg)
    (hs : a.source c = .ok deps) : (∃ a', a.assign deps c = .ok a') ↔
      (∀ addr, Sets s addr c → InTable addr) ∧
      (c.dst?.isSome → Erases s c → ∃ l, Seg s.nodes s.varDeps l none) ∧
      ∀ t, c.appends? = some t → Erases s c → ¬HeadIs s t := by
  have hne := hr.ne_nil_iff hasg hs
  have hset : ∀ {addr deps}, (∃ a', a.setShadow addr deps = .ok a') ↔ InTable addr := by
    intro addr deps
    constructor
    · rintro ⟨a', h⟩
      exact (DepState.setShadow_eq_ok h).1
    · intro h
      obtain ⟨tb, htb, -⟩ := a.setShadow_of_inTable h deps
      exact ⟨_, htb⟩
  have hback : ∀ {t}, (∃ a', a.recordBack t deps = .ok a') ↔
      (union (tracked s) asg.srcs ≠ ∅ → a.dangling = false) ∧
        (union (tracked s) asg.srcs ≠ ∅ → ¬HeadIs s t) := by
    intro t
    rw [DepState.exists_recordBack_iff, hne, ← forall_and]
    refine forall_congr' fun _ => and_congr_right fun hd => ?_
    rw [headIs_iff hr hd, Bool.not_eq_true]
  rw [← hr.dangling_iff]
  cases c with
  | exit => cases hasg
  | assgnTmpLoad t =>
    cases hasg
    simp [DepState.assign, hback, Sets, HelperCall.dst?, Erases, HelperCall.appends?,
      HelperCall.assignment]
  | assgnTmpQop t =>
    cases hasg
    -- forgetting the list that was merged does not fail
    have hforget : (∃ a', a.recordBack t deps = .ok a') ↔
        ∃ a', (a.recordBack t deps >>= fun a =>
          .ok { a with lost := a.lost || decide (deps ≠ []) }) = .ok a' := by
      cases a.recordBack t deps <;> simp
    rw [DepState.assign, ← hforget]
    simp [hback, Sets, HelperCall.dst?, Erases, HelperCall.appends?, HelperCall.assignment]
  | assgnTmpConst t =>
    simp [DepState.assign, DepState.exists_eraseTmp_iff, Sets, HelperCall.dst?, Erases,
      HelperCall.appends?]
  | assgnTmpUnop | assgnTmpBinop | assgnTmpTriop =>
    cases hasg
    simp [DepState.assign, DepState.exists_recordFront_iff, Sets, HelperCall.dst?, Erases,
      HelperCall.appends?, HelperCall.assignment, hne]
  | storeConst addr =>
    simp [DepState.assign, hset, Sets, HelperCall.dst?, HelperCall.appends?]
  | storeTmp addr t =>
    cases hasg
    have hne : deps ≠ [] ↔ tracked s (.tmp t) ≠ ∅ := by simpa [union] using hne
    by_cases hnil : deps = []
    · have hempty : tracked s (.tmp t) = ∅ := not_not.mp (hne.not.mp (not_not.mpr hnil))
      simp [DepState.assign, hnil, Sets, hempty, HelperCall.dst?, HelperCall.appends?]
    · simp [DepState.assign, hnil, hset, Sets, hne.mp hnil, HelperCall.dst?, HelperCall.appends?]
  | putCnst r =>
    exact iff_of_true ⟨_, rfl⟩ (by simp [Sets, HelperCall.dst?, HelperCall.appends?])
  | putTmp | assgnTmpGet =>
    -- nothing is erased from `var_deps`, and nothing is appended to it
    refine iff_of_true ?_ (by simp [Sets, HelperCall.dst?, Erases, HelperCall.appends?])
    rw [DepState.assign]
    split <;> exact ⟨_, rfl⟩

/-- **A helper gets through exactly if it fits.** -/
theorem Rep.exists_call_iff (hr : Rep s a) (hasg : c.assignment = some asg) :
    (∃ a', a.call c = .ok a') ↔ CallFits s c := by
  constructor
  · rintro ⟨a', h⟩
    obtain ⟨deps, hs, h⟩ := bind_eq_ok.mp h
    obtain ⟨hfound, hloads⟩ := hr.exists_source_iff.mp ⟨deps, hs⟩
    obtain ⟨hstores, hends, hhead⟩ := (hr.exists_assign_iff hasg hs).mp ⟨a', h⟩
    exact ⟨hfound, hloads, hstores, hends, hhead⟩
  · rintro ⟨hfound, hloads, hstores, hends, hhead⟩
    obtain ⟨deps, hs⟩ := hr.exists_source_iff.mpr ⟨hfound, hloads⟩
    obtain ⟨a', h⟩ := (hr.exists_assign_iff hasg hs).mpr ⟨hstores, hends, hhead⟩
    exact ⟨a', bind_eq_ok.mpr ⟨deps, hs, h⟩⟩

/-- The same of the helper itself, and that it propagates then. -/
theorem CallFits.iff_ok (hs : WellFormed s) (hasg : c.assignment = some asg) :
    CallFits s c ↔ ∃ s', callHelper s c = .ok s' ∧
      union (tracked s) asg.srcs ⊆ tracked s' asg.dst := by
  obtain ⟨a, hr⟩ := hs
  have hl := callHelper_lockstep hr c
  rw [← hr.exists_call_iff hasg]
  constructor
  · rintro ⟨a', h⟩
    obtain ⟨s', hs', hr'⟩ := hl.ok_left h
    refine ⟨s', hs', ?_⟩
    rw [tracked_eq_view hr, tracked_eq_view hr']
    exact DepState.call_reaches hasg h
  · rintro ⟨s', hs', -⟩
    obtain ⟨a', ha', -⟩ := hl.ok_right hs'
    exact ⟨a', ha'⟩

/-! ### The dispatch -/

variable {g : Guest} {ρ : IRTemp → UWord} {st : IRStmt} {P : State → Prop}

/-- A statement for which there is a helper writes one thing. -/
theorem flows_handled (h : st.handled) : flows g ρ st = [assignmentOf ρ st] := by
  cases st with
  | wrTmp tmp data =>
    cases data with
    | getI | ite | ccall => simp [IRStmt.handled, IRExpr.handled, IRExpr.wide] at h
    | _ => rfl
  | store | put => rfl
  | _ => simp [IRStmt.handled] at h

/-- **The default of the dispatch**: a statement that moves data, of a form for which there
is no helper, gets no dirty call. -/
theorem dirtyOf_eq_none (hm : st.moves) (h : st.handled = false) : dirtyOf st = none := by
  cases st with
  | wrTmp tmp data =>
    simp only [dirtyOf, wrTmpDirty]
    split
    all_goals simp_all [IRStmt.moves, IRExpr.isFlat, IRStmt.handled, IRExpr.handled, IRExpr.wide,
      IRExpr.isAtom, IRExpr.isTmp]
  | store addr data => exact absurd hm (by simpa [IRStmt.handled, IRStmt.moves] using h)
  | put offset data => exact absurd hm (by simpa [IRStmt.handled, IRStmt.moves] using h)
  | exit => cases hm
  | _ => rfl

/-- A statement that is put out with its dirty call does what its helper does. -/
theorem exists_execStmts_iff (hm : st.moves) : (∃ out s', instrumentStmt true st = .ok out ∧
    execStmts ρ s out = .ok s' ∧ P s') ↔
      st.wide = false ∧ ∃ s', stepStmt ρ s st = .ok s' ∧ P s' := by
  have hne : st ≠ .noOp := by
    rintro rfl
    cases hm
  have hguest : ∀ d, st = .dirty d → ∃ addr, d.addr = .guest addr := by
    rintro d rfl
    cases hm
  have hexit : exitTaken ρ st = false := by
    cases st with
    | exit => cases hm
    | _ => rfl
  -- there is nothing after the statement that could be executed
  have hexec : execStmts ρ s (instrumented st) = stepStmt ρ s st := by
    have h := execStmts_instrumented_append (ρ := ρ) hguest s []
    simp only [List.append_nil, hexit, Bool.false_eq_true, if_false, execStmts] at h
    rw [h]
    cases stepStmt ρ s st <;> rfl
  have hout : Marked.stmts ⟨dirtyOf st, true, st⟩ = instrumented st :=
    (instrumented_of_ne hne).symm
  rw [instrumentStmt_eq]
  simp only [if_true, Bool.true_and, hout]
  cases hw : st.wide with
  | true => simp
  | false => simp [hexec]

/-- **When a form that moves data propagates it**: exactly if the statement is covered. -/
theorem propagates_iff (g : Guest) (ρ : IRTemp → UWord) (hs : WellFormed s) (hm : st.moves) :
    StmtPropagates g ρ s st ↔ Covered g ρ s st := by
  rw [StmtPropagates, exists_execStmts_iff hm]
  cases hh : st.handled with
  | false =>
    -- without a helper the tool does not see the statement
    have hcall : stmtCall ρ st = none := by rw [stmtCall, dirtyOf_eq_none hm hh]; rfl
    have hstep : stepStmt ρ s st = .ok s := by rw [stepStmt, hcall]
    simp only [hstep, Except.ok.injEq, exists_eq_left']
    constructor
    · rintro ⟨hw, h⟩
      exact ⟨hw, fun _ => h, fun c hc => by simp [hcall] at hc⟩
    · rintro ⟨hw, h, -⟩
      exact ⟨hw, h hh⟩
  | true =>
    obtain ⟨c, hc, hasg⟩ := stmtCall_handled ρ hh
    have hstep : stepStmt ρ s st = callHelper s c := by rw [stepStmt, hc]
    have hfits := CallFits.iff_ok hs hasg
    have hprop : ∀ s' : State, (∀ asg ∈ flows g ρ st, ∀ x ∈ asg.srcs,
        tracked s x ⊆ tracked s' asg.dst) ↔
          union (tracked s) (assignmentOf ρ st).srcs ⊆ tracked s' (assignmentOf ρ st).dst := by
      intro s'
      simp [flows_handled hh, union]
    simp only [hstep, hprop, ← hfits]
    constructor
    · rintro ⟨hw, hf⟩
      refine ⟨hw, fun h => by simp [hh] at h, fun c' hc' => ?_⟩
      obtain rfl := Option.some.inj (hc.symm.trans hc')
      exact hf
    · rintro ⟨hw, -, hf⟩
      exact ⟨hw, hf c hc⟩

/-! ### A form that has a helper, and one that has none -/

/-- A byte is read, and loaded into a temporary. -/
def loadedByte : List Event :=
  [.preCall nrRead (sysArgs 0 8 1), .helper (.assgnTmpLoad 1 8)]

/-- A sum of a temporary and a constant. -/
theorem propagates_iff_binop : ∃ s, run stepTool (.init true) loadedByte = .ok s ∧
    StmtPropagates ⟨fun _ => 0, id, true⟩ (fun _ => 0) s
      (.wrTmp 0 (.binop (.rdTmp 1) (.const 3))) := by
  refine ⟨_, rfl, (propagates_iff _ _ (Reachable.wellFormed ⟨loadedByte, rfl⟩) rfl).mpr
    ⟨rfl, nofun, fun c hc => ?_⟩⟩
  cases hc
  refine ⟨fun t ht => ?_, nofun, fun addr h => h.elim,
    fun _ _ => ⟨[(0, ⟨.temp 1, some 1⟩)], rfl, _, rfl, rfl⟩, nofun⟩
  obtain rfl := List.mem_singleton.mp ht
  exact ⟨_, rfl⟩

/-- **A sum of two temporaries that is rounded in a constant mode** goes past the dispatch. -/
theorem not_propagates : ¬∀ g ρ s st, Reachable s → IRStmt.moves st → StmtPropagates g ρ s st := by
  intro h
  obtain ⟨out, s', hout, hs', hprop⟩ := h ⟨fun _ => 0, id, true⟩ (fun _ => 0) _
    (.wrTmp 0 (.triop (.const 0) (.rdTmp 1) (.rdTmp 1))) ⟨loadedByte, rfl⟩ rfl
  cases hout
  cases hs'
  obtain ⟨q, vs, hq, hvs, hv⟩ := hprop _ (List.mem_singleton_self _) (.tmp 1) (by decide)
    ⟨some 1, [1], rfl, rfl, List.mem_singleton_self 1⟩
  -- the tool has no entry for the temporary that is assigned
  cases hq
  cases hvs
  cases hv

end DepLeak

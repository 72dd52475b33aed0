import DepLeak.Dep.Reference

/-!
# One superblock against the reference machine

A flat superblock that assigns each temporary once, built from the statements the tool
handles and started with an empty `var_deps`, is compared with the reference machine
in both directions.

* The tool loses nothing: `DepLeak.run_reference_le` for the helpers,
  `DepLeak.nothingMissed_iff` for what `da_instrument` makes of the superblock – which
  is nothing at all if there is an operation on three or four temporaries, for which
  `mkIRCallee` is passed more registers than it takes.
* The tool keeps nothing that is stale as long as it stores no temporary without
  dependencies over something that has some (`DepLeak.neverAbove_iff`).

Both follow from one step (`DepLeak.Started.step`), by induction along the superblock; the
invariant is that no temporary that is still to be assigned has an entry.
-/

namespace DepLeak

open LinkedHeap Runs Flow

/-! ### The start of a superblock -/

/-- The state is one the tool can represent its lists in. -/
def WellFormed (s : State) : Prop := ∃ a, Rep s a

/-- The state is reached by helper calls and system-call hooks. -/
def Reachable (s : State) : Prop := ∃ es, run stepTool (.init true) es = .ok s

/-- **What the events preserve on lists** holds in every reachable state. -/
theorem Reachable.invariant {I : DepState → Prop} {s : State} (h : Reachable s)
    (hinit : I (.init true)) (hstep : ∀ e a a', I a → a.step e = .ok a' → I a') :
    ∃ a, Rep s a ∧ I a := by
  obtain ⟨es, hes⟩ := h
  obtain ⟨a, ha, hr⟩ := (runTool_lockstep (rep_init true) es).ok_right hes
  exact ⟨a, hr, run_preserves (fun e _ => hstep e) hinit ha⟩

theorem Reachable.wellFormed {s : State} (h : Reachable s) : WellFormed s := by
  obtain ⟨a, hr, -⟩ := h.invariant (I := fun _ => True) trivial fun _ _ _ _ _ => trivial
  exact ⟨a, hr⟩

/-- An empty `var_deps` has no entries, and does not dangle. -/
theorem Rep.of_null {s : State} {a : DepState} (hr : Rep s a) (hv : s.varDeps = none) :
    a.vars = [] ∧ a.dangling = false := by
  obtain ⟨⟨P, D, hn, -⟩, -⟩ := hr
  obtain ⟨q, hseg, -, -, hq⟩ := hn.vars
  rw [hv] at hseg
  have hnil := hseg.eq_nil_of_none
  rw [hnil] at hseg
  exact ⟨List.map_eq_nil_iff.mp hnil, hq.mp (Seg.nil_iff.mp hseg).symm⟩

/-- Each temporary is assigned once. -/
def SingleAssignment (B : List IRStmt) : Prop := (B.filterMap IRStmt.dst?).Nodup

instance (B : List IRStmt) : Decidable (SingleAssignment B) :=
  inferInstanceAs (Decidable (List.Nodup _))

/-- The statements of a superblock that the tool handles. -/
structure Flat (B : List IRStmt) : Prop where
  /-- There is a helper for every statement. -/
  handled : ∀ st ∈ B, st.handled
  /-- Each temporary is assigned once. -/
  ssa : SingleAssignment B

theorem Flat.tail {st : IRStmt} {B : List IRStmt} (h : Flat (st :: B)) : Flat B where
  handled st' hst' := h.handled st' (List.mem_cons_of_mem st hst')
  ssa := List.Nodup.sublist (List.Sublist.filterMap _ (List.sublist_cons_self st B)) h.ssa

theorem Flat.init {B C : List IRStmt} (h : Flat (B ++ C)) : Flat B where
  handled st hst := h.handled st (List.mem_append_left C hst)
  ssa := List.Nodup.sublist (List.Sublist.filterMap _ (List.sublist_append_left B C)) h.ssa

/-- The invariant in front of the statements `B`: no temporary they assign has an
entry. -/
structure Started (B : List IRStmt) (s : State) (a : DepState) : Prop where
  flat : Flat B
  rep : Rep s a
  dangling : a.dangling = false
  fresh : ∀ t ∈ B.filterMap IRStmt.dst?, a.Fresh t

theorem started {B : List IRStmt} {s : State} (hB : Flat B) (hs : WellFormed s)
    (hv : s.varDeps = none) : ∃ a, Started B s a := by
  obtain ⟨a, hr⟩ := hs
  obtain ⟨hvars, hd⟩ := hr.of_null hv
  exact ⟨a, hB, hr, hd, fun t _ e he => by simp [hvars] at he⟩

/-! ### One statement -/

/-- **A statement leaves something behind**: it stores a temporary that depends on
nothing over something that depends on something. -/
def Stale (ρ : IRTemp → UWord) (s : State) : IRStmt → Prop
  | .store addr (.rdTmp t) =>
    tracked s (.tmp t) = ∅ ∧ tracked s (memCell (evalAtom ρ addr)) ≠ ∅
  | .put offset (.rdTmp t) => tracked s (.tmp t) = ∅ ∧ tracked s (.reg offset) ≠ ∅
  | _ => False

theorem staleCall_iff {ρ : IRTemp → UWord} {s : State} {a : DepState} (hr : Rep s a) {st : IRStmt}
    (hst : st.handled) {c : HelperCall} (hc : stmtCall ρ st = some c)
    (hasg : c.assignment = some (assignmentOf ρ st)) : a.StaleCall c ↔ Stale ρ s st := by
  cases st with
  | wrTmp t data =>
    -- the helper of an assignment to a temporary stores nothing
    refine iff_of_false (fun hstale => ?_) id
    cases c <;> simp_all [HelperCall.assignment, assignmentOf, DepState.StaleCall, memCell]
  | store addr data =>
    simp only [IRStmt.handled, Bool.and_eq_true] at hst
    obtain ⟨t, rfl⟩ | ⟨w, rfl⟩ := isAtom_iff.mp hst.2
    · obtain rfl := Option.some.inj ((stmtCall_store ρ addr t).symm.trans hc)
      rw [Stale, tracked_eq_view hr]
      exact Iff.rfl
    · cases hc
      exact Iff.rfl
  | put offset data =>
    obtain ⟨t, rfl⟩ | ⟨w, rfl⟩ := isAtom_iff.mp hst
    · obtain rfl := Option.some.inj ((stmtCall_put ρ offset t).symm.trans hc)
      rw [Stale, tracked_eq_view hr]
      exact Iff.rfl
    · cases hc
      exact Iff.rfl
  | _ => simp [IRStmt.handled] at hst

variable {ρ : IRTemp → UWord} {st : IRStmt} {B : List IRStmt} {s s' : State} {a : DepState}

/-- **One statement**: the tracked sets follow its assignment, or something is left
behind and they do not change. -/
theorem Started.step (h : Started (st :: B) s a) (hs : stepStmt ρ s st = .ok s') :
    ∃ a', Started B s' a' ∧ (tracked s' = (assignmentOf ρ st).apply (tracked s) ∨
      (Stale ρ s st ∧ tracked s' = tracked s)) := by
  have hst := h.flat.handled st List.mem_cons_self
  obtain ⟨c, hc, hasg⟩ := stmtCall_handled ρ hst
  rw [stepStmt, hc] at hs
  obtain ⟨a', ha', hr'⟩ := (callHelper_lockstep h.rep c).ok_right hs
  have hdst : ∀ t, (assignmentOf ρ st).dst = .tmp t → st.dst? = some t := by
    intro t ht
    cases st <;> simp_all [assignmentOf, IRStmt.dst?, IRStmt.handled, memCell]
  have hssa := h.flat.ssa
  have hfresh : ∀ t, (assignmentOf ρ st).dst = .tmp t → a.Fresh t := fun t ht =>
    h.fresh t (List.mem_filterMap.mpr ⟨st, List.mem_cons_self, hdst t ht⟩)
  have hrest : ∀ t ∈ B.filterMap IRStmt.dst?, t ∈ (st :: B).filterMap IRStmt.dst? := fun t ht => by
    obtain ⟨st', hmem, hst'⟩ := List.mem_filterMap.mp ht
    exact List.mem_filterMap.mpr ⟨st', List.mem_cons_of_mem st hmem, hst'⟩
  rw [tracked_eq_view h.rep, tracked_eq_view hr']
  rcases DepState.call_follows hasg h.dangling hfresh ha' with hf | ⟨hstale, rfl⟩
  · refine ⟨a', ⟨h.flat.tail, hr', hf.dangling, fun t ht e he => ?_⟩, Or.inl hf.view⟩
    rcases hf.vars e he with he | ⟨t', ht', hval⟩
    · exact h.fresh t (hrest t ht) e he
    · -- the temporary that was assigned is not assigned again
      have hne : t' ≠ t := by
        rintro rfl
        rw [SingleAssignment, List.filterMap_cons_some (hdst t' ht'), List.nodup_cons] at hssa
        exact hssa.1 ht
      simp [Entry.isTemp, hval, hne]
  · exact ⟨a', ⟨h.flat.tail, hr', h.dangling, fun t ht => h.fresh t (hrest t ht)⟩,
      Or.inr ⟨(staleCall_iff h.rep hst hc hasg).mp hstale, rfl⟩⟩

/-- A statement does not fault inside the table. -/
theorem Started.step_ok (h : Started (st :: B) s a)
    (hin : ∀ addr, (stmtCall ρ st).bind HelperCall.addr? = some addr → InTable addr) :
    ∃ s', stepStmt ρ s st = .ok s' := by
  have hst := h.flat.handled st List.mem_cons_self
  obtain ⟨c, hc, hasg⟩ := stmtCall_handled ρ hst
  have hfresh : ∀ t, (assignmentOf ρ st).dst = .tmp t → a.Fresh t := by
    intro t ht
    refine h.fresh t (List.mem_filterMap.mpr ⟨st, List.mem_cons_self, ?_⟩)
    cases st <;> simp_all [assignmentOf, IRStmt.dst?, IRStmt.handled, memCell]
  obtain ⟨a', ha'⟩ := DepState.call_ok hasg h.dangling hfresh fun addr haddr =>
    hin addr (by rw [hc]; exact haddr)
  obtain ⟨s', hs', -⟩ := (callHelper_lockstep h.rep c).ok_left ha'
  exact ⟨s', by rw [stepStmt, hc]; exact hs'⟩

/-- What is left behind is stored from nothing. -/
theorem Stale.union_eq (h : Stale ρ s st) : union (tracked s) (assignmentOf ρ st).srcs = ∅ := by
  cases st with
  | store addr data =>
    cases data with
    | rdTmp t => simpa [union, assignmentOf, atomCells] using h.1
    | _ => exact absurd h id
  | put offset data =>
    cases data with
    | rdTmp t => simpa [union, assignmentOf, atomCells] using h.1
    | _ => exact absurd h id
  | _ => exact absurd h id

/-- What is left behind is something. -/
theorem Stale.dst_ne (h : Stale ρ s st) : tracked s (assignmentOf ρ st).dst ≠ ∅ := by
  cases st with
  | store addr data =>
    cases data with
    | rdTmp t => exact h.2
    | _ => exact absurd h id
  | put offset data =>
    cases data with
    | rdTmp t => exact h.2
    | _ => exact absurd h id
  | _ => exact absurd h id

/-- A statement that leaves something behind does nothing. -/
theorem Started.step_of_stale (h : Started (st :: B) s a) (hstale : Stale ρ s st) :
    ∃ s', stepStmt ρ s st = .ok s' ∧ tracked s' = tracked s := by
  have hst := h.flat.handled st List.mem_cons_self
  obtain ⟨c, hc, hasg⟩ := stmtCall_handled ρ hst
  have hcall : a.call c = .ok a := by
    have hcs := (staleCall_iff h.rep hst hc hasg).mpr hstale
    have hskip : ∀ {t deps}, a.view (.tmp t) = ∅ → a.depsOf [t] = .ok deps → deps = [] := by
      intro t deps ht hdeps
      have hunion := DepState.depsOf_union hdeps
      rw [List.map_singleton, union] at hunion
      simp only [List.mem_singleton, Set.iUnion_iUnion_eq_left, ht] at hunion
      exact List.eq_nil_iff_forall_not_mem.mpr fun v hv => (Set.ext_iff.mp hunion v).mp hv
    cases c with
    | storeTmp addr t =>
      obtain ⟨deps, hdeps⟩ := DepState.depsOf_ok h.dangling [t]
      rw [DepState.call, DepState.source, hdeps, ok_bind, DepState.assign,
        if_pos (hskip hcs.1 hdeps)]
    | putTmp r t =>
      obtain ⟨deps, hdeps⟩ := DepState.depsOf_ok h.dangling [t]
      rw [DepState.call, DepState.source, hdeps, ok_bind, DepState.assign,
        if_pos (hskip hcs.1 hdeps)]
    | _ => exact absurd hcs id
  obtain ⟨s', hs', hr'⟩ := (callHelper_lockstep h.rep c).ok_left hcall
  exact ⟨s', by rw [stepStmt, hc]; exact hs', by rw [tracked_eq_view h.rep, tracked_eq_view hr']⟩

/-! ### The whole superblock -/

variable {x : Cell → Set ℤ}

/-- The invariant along the statements of a superblock. -/
theorem Started.run {pre post : List IRStmt} (h : Started (pre ++ post) s a)
    (hs : Runs.run (stepStmt ρ) s pre = .ok s') : ∃ a', Started post s' a' := by
  induction pre generalizing s a with
  | nil =>
    cases hs
    exact ⟨a, h⟩
  | cons st pre ih =>
    obtain ⟨s₁, h₁, hs⟩ := run_cons_eq_ok.mp hs
    obtain ⟨a₁, hstart₁, -⟩ := Started.step (B := pre ++ post) h h₁
    exact ih hstart₁ hs

/-- **The helpers of a superblock lose nothing.** -/
theorem run_reference_le (hB : Flat B) (hs : WellFormed s) (hv : s.varDeps = none)
    (hx : x ≤ tracked s) (h : run (stepStmt ρ) s B = .ok s') : reference ρ x B ≤ tracked s' := by
  refine flow_le_view (I := fun B s => ∃ a, Started B s a) ?_ (started hB hs hv) hx h
  rintro st B s s' ⟨a, hstart⟩ hstep
  obtain ⟨a', hstart', heq | ⟨hstale, heq⟩⟩ := hstart.step hstep
  · exact ⟨⟨a', hstart'⟩, heq.ge⟩
  · refine ⟨⟨a', hstart'⟩, ?_⟩
    rw [heq]
    -- what is left behind is more than nothing, so that nothing is lost
    exact Assignment.apply_le_of_empty _ hstale.union_eq

/-- **The helpers of a superblock do not fault** inside the shadow table. -/
theorem run_ok (hB : Flat B) (hs : WellFormed s) (hv : s.varDeps = none)
    (hin : ∀ st ∈ B, ∀ addr, (stmtCall ρ st).bind HelperCall.addr? = some addr → InTable addr) :
    ∃ s', run (stepStmt ρ) s B = .ok s' := by
  have hrun : ∀ {B : List IRStmt} {s : State} {a : DepState}, Started B s a →
      (∀ st ∈ B, ∀ addr, (stmtCall ρ st).bind HelperCall.addr? = some addr → InTable addr) →
      ∃ s', run (stepStmt ρ) s B = .ok s' := by
    intro B
    induction B with
    | nil => exact fun _ _ => ⟨_, rfl⟩
    | cons st B ih =>
      intro s a hstart hin
      -- the invariant is there again after a statement that does not fault
      obtain ⟨s₁, h₁⟩ := hstart.step_ok (ρ := ρ) (hin st List.mem_cons_self)
      obtain ⟨a₁, hstart₁, -⟩ := hstart.step h₁
      obtain ⟨s', hs'⟩ := ih hstart₁ fun st' hst' => hin st' (List.mem_cons_of_mem st hst')
      exact ⟨s', run_cons_eq_ok.mpr ⟨s₁, h₁, hs'⟩⟩
  obtain ⟨a, hstart⟩ := started hB hs hv
  exact hrun hstart hin

/-- After every statement the tracked sets are within those of the reference machine. -/
def NeverAbove (ρ : IRTemp → UWord) (s : State) (B : List IRStmt) : Prop :=
  ∀ pre post, B = pre ++ post → ∀ s', run (stepStmt ρ) s pre = .ok s' →
    tracked s' ≤ reference ρ (tracked s) pre

/-- No statement leaves anything behind. -/
def NeverStale (ρ : IRTemp → UWord) (s : State) (B : List IRStmt) : Prop :=
  ∀ pre st post, B = pre ++ st :: post → ∀ s', run (stepStmt ρ) s pre = .ok s' → ¬Stale ρ s' st

/-- Where nothing is left behind, the tracked sets are those of the reference machine. -/
theorem run_reference_eq (hB : Flat B) (hs : WellFormed s) (hv : s.varDeps = none)
    (hstale : NeverStale ρ s B) (h : run (stepStmt ρ) s B = .ok s') :
    tracked s' = reference ρ (tracked s) B := by
  refine view_eq_flow (I := fun B s => (∃ a, Started B s a) ∧ NeverStale ρ s B) ?_
    ⟨started hB hs hv, hstale⟩ h
  rintro st B s s' ⟨⟨a, hstart⟩, hstale⟩ hstep
  obtain ⟨a', hstart', heq | ⟨hst, -⟩⟩ := hstart.step hstep
  -- the statements after `st` are those after `st` of the superblock
  · refine ⟨⟨⟨a', hstart'⟩, fun pre st' post hB s'' hs'' => ?_⟩, heq⟩
    exact hstale (st :: pre) st' post (by rw [hB]; rfl) s''
      (run_cons_eq_ok.mpr ⟨s', hstep, hs''⟩)
  · exact absurd hst (hstale [] st B rfl s rfl)

/-- **Nothing stale survives exactly where no statement leaves something behind.** -/
theorem neverAbove_iff (hB : Flat B) (hs : WellFormed s) (hv : s.varDeps = none) :
    NeverAbove ρ s B ↔ NeverStale ρ s B := by
  constructor
  · rintro habove pre st post rfl s' hs' hst
    -- up to `st` the tracked sets are those of the reference machine
    have heq : tracked s' = reference ρ (tracked s) pre :=
      le_antisymm (habove pre (st :: post) rfl s' hs')
        (run_reference_le hB.init hs hv le_rfl hs')
    obtain ⟨a, hstart₀⟩ := started hB hs hv
    obtain ⟨a', hstart⟩ := hstart₀.run hs'
    obtain ⟨s'', hs'', hsame⟩ := hstart.step_of_stale hst
    have hle := habove (pre ++ [st]) post (by simp) s''
      (run_append_eq_ok.mpr ⟨s', hs', run_cons_eq_ok.mpr ⟨s'', hs'', rfl⟩⟩)
    have href : reference ρ (tracked s) (pre ++ [st]) =
        (assignmentOf ρ st).apply (reference ρ (tracked s) pre) := by
      simp [reference, flow]
    rw [href, ← heq, hsame] at hle
    have hdst := hle (assignmentOf ρ st).dst
    -- the reference machine has nothing there after `st`, and the tool what it had
    rw [Assignment.apply, Function.update_self, hst.union_eq] at hdst
    exact hst.dst_ne (Set.subset_empty_iff.mp hdst)
  · rintro hstale pre post rfl s' hs'
    refine (run_reference_eq hB.init hs hv (fun pre' st post' hpre => ?_) hs').le
    exact hstale pre' st (post' ++ post) (by rw [hpre]; simp)

/-- A byte that was read is loaded and put into a register, over nothing. -/
theorem neverAbove_iff_read : ∃ s, run stepTool (.init true) [.preCall nrRead (sysArgs 0 8 1)] =
    .ok s ∧ (1 : ℤ) ∈ tracked s (memCell 8) ∧
      NeverAbove (fun _ => 8) s [.wrTmp 0 (.load (.rdTmp 1)), .put 16 (.rdTmp 0)] := by
  obtain ⟨s, s₁, hs, hv, hmem, h₁, hloaded⟩ : ∃ s s₁,
      run stepTool (.init true) [.preCall nrRead (sysArgs 0 8 1)] = .ok s ∧ s.varDeps = none ∧
        (1 : ℤ) ∈ tracked s (memCell 8) ∧
          run (stepStmt fun _ => 8) s [.wrTmp 0 (.load (.rdTmp 1))] = .ok s₁ ∧
            (1 : ℤ) ∈ tracked s₁ (.tmp 0) :=
    ⟨_, _, rfl, rfl, ⟨_, [1], rfl, rfl, List.mem_singleton_self 1⟩, rfl,
      ⟨_, [1], rfl, rfl, List.mem_singleton_self 1⟩⟩
  refine ⟨s, hs, hmem, (neverAbove_iff ⟨by decide, by decide⟩
    (Reachable.wellFormed ⟨_, hs⟩) hv).mpr ?_⟩
  intro pre st post split s' hs' hstale
  rcases pre with _ | ⟨x, _ | ⟨y, pre⟩⟩
  · obtain ⟨rfl, -⟩ := List.cons.inj split
    exact hstale
  · simp only [List.cons_append, List.nil_append, List.cons.injEq] at split
    obtain ⟨rfl, rfl, -⟩ := split
    obtain rfl := Except.ok.inj (h₁.symm.trans hs')
    -- what is put there depends on something
    exact Set.notMem_empty _ (hstale.1 ▸ hloaded)
  · simp at split

/-- A byte that was read is overwritten with a temporary that holds a constant, and keeps
its read. -/
theorem not_neverAbove :
    ¬∀ (ρ : IRTemp → UWord) (s : State) (B : List IRStmt), Flat B → Reachable s →
      s.varDeps = none → NeverAbove ρ s B := by
  intro h
  obtain ⟨s, s', hs, hv, hs', hmem⟩ : ∃ s s',
      run stepTool (.init true) [.preCall nrRead (sysArgs 0 8 1)] = .ok s ∧ s.varDeps = none ∧
        run (stepStmt fun _ => 0) s
          [.wrTmp 0 (.unop (.const 0)), .store (.const 8) (.rdTmp 0)] = .ok s' ∧
        (1 : ℤ) ∈ tracked s' (memCell 8) :=
    ⟨_, _, rfl, rfl, rfl, _, [1], rfl, rfl, List.mem_singleton_self 1⟩
  have hle :=
    h (fun _ => 0) s _ ⟨by decide, by decide⟩ ⟨_, hs⟩ hv _ [] (List.append_nil _).symm s' hs'
  have hempty : reference (fun _ => 0) (tracked s)
      [.wrTmp 0 (.unop (.const 0)), .store (.const 8) (.rdTmp 0)] (memCell 8) = ∅ := by
    simp [reference, flow, assignmentOf, Assignment.apply, exprCells, atomCells, evalAtom, union,
      memCell]
  have hin := hle (memCell 8) hmem
  rw [hempty] at hin
  exact hin

/-! ### The superblock that `da_instrument` makes -/

/-- **Nothing is missed**: `da_instrument` returns a superblock, and whenever it is executed
from a state with an empty `var_deps` that tracks what the reference machine has, with
addresses inside the shadow table, the state at its end does so too. -/
def NothingMissed (fnname : UWord → Option String) (B : List IRStmt) : Prop :=
  ∃ out, daInstrument fnname true (B.map some) = .ok (out, true) ∧
    ∀ (ρ : IRTemp → UWord) (s : State) (x : Cell → Set ℤ), WellFormed s → s.varDeps = none →
      x ≤ tracked s →
      (∀ st ∈ B, ∀ addr, (stmtCall ρ st).bind HelperCall.addr? = some addr → InTable addr) →
      ∃ s', execStmts ρ s out = .ok s' ∧ reference ρ x B ≤ tracked s'

/-- **Nothing is missed exactly where no statement is an operation on three or four
temporaries.** -/
theorem nothingMissed_iff (fnname : UWord → Option String) {B : List IRStmt} (hB : Flat B) :
    NothingMissed fnname B ↔ ∀ st ∈ B, st.wide = false := by
  have hinst := daInstrument_handled fnname hB.handled
  constructor
  · rintro ⟨out, hout, -⟩ st hst
    by_contra hw
    rw [if_pos (List.any_eq_true.mpr ⟨st, hst, by simpa using hw⟩), hout] at hinst
    cases hinst
  · intro hw
    rw [if_neg (by simpa using hw)] at hinst
    refine ⟨_, hinst, fun ρ s x hs hv hx hin => ?_⟩
    obtain ⟨s', hs'⟩ := run_ok hB hs hv hin
    refine ⟨s', ?_, run_reference_le hB hs hv hx hs'⟩
    rw [execStmts_instrumented fun d hd => absurd (hB.handled _ hd) (by simp [IRStmt.handled]),
      executed_handled hB.handled, hs']

theorem nothingMissed_iff_load_store :
    NothingMissed (fun _ => none) [.wrTmp 0 (.load (.const 8)), .store (.const 16) (.rdTmp 0)] ↔
      ∀ st ∈ [IRStmt.wrTmp 0 (.load (.const 8)), .store (.const 16) (.rdTmp 0)], st.wide = false :=
  nothingMissed_iff _ ⟨by decide, by decide⟩

/-- `da_instrument` does not get past an operation on three temporaries. -/
theorem not_nothingMissed :
    ¬∀ (fnname : UWord → Option String) (B : List IRStmt), Flat B → NothingMissed fnname B := by
  intro h
  obtain ⟨out, hout, -⟩ := h (fun _ => none)
    [.wrTmp 3 (.triop (.rdTmp 0) (.rdTmp 1) (.rdTmp 2))] ⟨by decide, by decide⟩
  cases hout

end DepLeak

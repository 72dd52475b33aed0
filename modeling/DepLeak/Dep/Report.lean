import DepLeak.Dep.Hooks

/-!
# The report of a run

What `printf_read_dep_list` prints at the end of a run is the record of the `write()`
calls of the run, in their order: for each of them the reads that the bytes it wrote
came from, as the shadow table had them when the call was made.

The record is followed along a run by `DepLeak.Logged`. The read numbers in the lists of
the tool never exceed the number of reads so far, helpers do not touch the record,
and a `write()` adds to it the union of the lists of its buffer
(`DepLeak.DepState.preWrite_eq_ok`).
-/

namespace DepLeak

open LinkedHeap Runs

/-! ### The report, as it should be -/

/-- The union of the shadow lists of a buffer: without repetitions, each number where it
occurs first when the bytes are gone over by increasing address. -/
def bytesDeps (s : State) (addr size : UWord) : Exec (List ℤ) := do
  let ls ← (List.range size.toNat).mapM fun i => do
    let q ← getShadowMem s (addr + BitVec.ofNat 64 i)
    s.ints.toList q
  .ok ls.flatten.eraseDups

/-- The line of a `write()`. -/
def reportLine (n : ℤ) (vs : List ℤ) : String := "write():" ++ toString n ++ readsText vs

/-- The lists of the `write()`s of a run were the unions of the lists of their buffers
at the moment of each call, and name reads issued before it. -/
def Moments (es : List Event) (ws : List (List ℤ)) : Prop :=
  ∀ es₁ args es₂, es = es₁ ++ .preCall nrWrite args :: es₂ →
    ∃ s₁ vs, run stepTool (.init true) es₁ = .ok s₁ ∧
      bytesDeps s₁ (args 1) (args 2) = .ok vs ∧ ws[es₁.countP Event.isWrite]? = some vs ∧
      ∀ v ∈ vs, 1 ≤ v ∧ v ≤ es₁.countP Event.isRead

/-- **The record of the `write()`s of a run**, in a state at its end; `ws` are their
lists. -/
structure Report (es : List Event) (s : State) (ws : List (List ℤ)) : Prop where
  /-- There is one for every call of the hook. -/
  count : ws.length = es.countP Event.isWrite
  /-- They are the entries of `write_deps`, numbered from 1 on. -/
  entries : ∃ ds, s.nodes.toList s.writeDeps = .ok ds ∧
    ds.map ReadDep.val = (List.range ws.length).map (fun k : ℕ => .write (k + 1)) ∧
    ds.mapM (fun d => s.ints.toList d.readDeps) = .ok ws
  /-- Each is what it should have been when the call was made. -/
  moments : Moments es ws
  /-- There is a line for each that is not empty. -/
  lines : printfReadDepList s s.writeDeps =
    .ok ((ws.zipIdx.filter fun x => x.1 ≠ []).map fun x => reportLine (x.2 + 1) x.1)

/-! ### The buffer of a `write()` -/

variable {s : State} {a : DepState}

/-- A byte has the list that it has on lists. -/
theorem getShadowMem_toList (hr : Rep s a) (addr : UWord) :
    (getShadowMem s addr >>= fun q => s.ints.toList q) = a.getShadow addr := by
  have hget := getShadowMem_lockstep hr addr
  cases hq : getShadowMem s addr with
  | error f =>
    rw [hq] at hget
    exact hget.eq_error.symm
  | ok q =>
    obtain ⟨vs, hvs, hat⟩ := hget.ok_right hq
    rw [hvs, ok_bind, hat.toList]

/-- A state and its lists have the same unions. -/
theorem bytesDeps_eq (hr : Rep s a) (addr size : UWord) :
    bytesDeps s addr size = a.memDeps addr size := by
  rw [DepState.memDeps_eq, bytesDeps, funext fun i : ℕ =>
    getShadowMem_toList hr (addr + BitVec.ofNat 64 i)]
  cases (List.range size.toNat).mapM fun i => a.getShadow (addr + BitVec.ofNat 64 i) <;> rfl

/-! ### The record along a run -/

/-- The numbers of a list are those of reads issued so far. -/
def Issued (n : ℤ) (vs : List ℤ) : Prop := ∀ v ∈ vs, 1 ≤ v ∧ v ≤ n

theorem issued_listProp (n : ℤ) : DepState.ListProp (Issued n) where
  nil _ hv := absurd hv List.not_mem_nil
  merge hvs hws v hv := (mem_mergeVals.mp hv).elim (hvs v) (hws v)

theorem Issued.mono {n m : ℤ} (hnm : n ≤ m) {vs : List ℤ} (h : Issued n vs) : Issued m vs :=
  fun v hv => ⟨(h v hv).1, Int.le_trans (h v hv).2 hnm⟩

/-- The read hook issues one number more. -/
theorem issued_preRead (h : a.ForallDeps (Issued a.readN)) (hn : 0 ≤ a.readN) {args : ℕ → UWord}
    {a' : DepState} (ha : a.preRead args = .ok a') : a'.ForallDeps (Issued a'.readN) := by
  have hread : a'.readN = a.readN + 1 := by
    obtain ⟨-, tb, rfl, -⟩ := DepState.preRead_eq_ok ha
    rfl
  rw [hread]
  refine h.preRead (fun vs => Issued.mono (Int.le_add_one (Int.le_refl _))) (fun v hv => ?_) ha
  obtain rfl := List.mem_singleton.mp hv
  omega

/-- The invariant of a run: counters, record and lists after the events `es`. -/
structure Logged (es : List Event) (a : DepState) (ws : List (List ℤ)) : Prop where
  trace : a.trace = true
  readN : a.readN = es.countP Event.isRead
  writeN : a.writeN = es.countP Event.isWrite
  count : ws.length = es.countP Event.isWrite
  writes : a.writes.map (fun e => (e.val, e.deps)) =
    ws.zipIdx.map fun x => (DepVal.write (x.2 + 1), x.1)
  issued : a.ForallDeps (Issued a.readN)
  moments : Moments es ws

theorem logged_init : Logged [] (.init true) [] where
  trace := rfl
  readN := rfl
  writeN := rfl
  count := rfl
  writes := rfl
  issued := ⟨fun e he => absurd he List.not_mem_nil, fun k v hv => absurd hv List.not_mem_nil⟩
  moments es₁ args es₂ h := by simp at h

/-- Where the last event of a run is. -/
theorem append_singleton_eq {es es₁ es₂ : List Event} {e x : Event}
    (h : es ++ [e] = es₁ ++ x :: es₂) :
    (es = es₁ ∧ e = x) ∨ ∃ es₂', es = es₁ ++ x :: es₂' := by
  -- the event is the last one, or there is a last one after it
  rcases List.eq_nil_or_concat' es₂ with rfl | ⟨es₂', e', rfl⟩
  · obtain ⟨rfl, he⟩ := List.append_inj' h rfl
    exact Or.inl ⟨rfl, List.singleton_inj.mp he⟩
  · rw [← List.cons_append, ← List.append_assoc] at h
    exact Or.inr ⟨es₂', (List.append_inj' h rfl).1⟩

/-- An event that is no `write()` adds nothing to the record. -/
theorem Moments.snoc {es : List Event} {ws : List (List ℤ)} (h : Moments es ws) {e : Event}
    (he : e.isWrite = false) : Moments (es ++ [e]) ws := by
  intro es₁ args es₂ hes
  rcases append_singleton_eq hes with ⟨-, rfl⟩ | ⟨es₂', hes'⟩
  · simp [Event.isWrite] at he
  · exact h es₁ args es₂' hes'

/-- A `write()` adds its list to the record. -/
theorem Moments.snoc_write {es : List Event} {ws : List (List ℤ)} (h : Moments es ws)
    {args : ℕ → UWord} (hs : run stepTool (.init true) es = .ok s) {vs : List ℤ}
    (hvs : bytesDeps s (args 1) (args 2) = .ok vs) (hcount : ws.length = es.countP Event.isWrite)
    (hissued : Issued (es.countP Event.isRead) vs) :
    Moments (es ++ [.preCall nrWrite args]) (ws ++ [vs]) := by
  intro es₁ args' es₂ hes
  rcases append_singleton_eq hes with ⟨rfl, he⟩ | ⟨es₂', hes'⟩
  · cases he
    exact ⟨s, vs, hs, hvs, by simp [← hcount], hissued⟩
  · obtain ⟨s₁, vs₁, hs₁, hb, hw, hi⟩ := h es₁ args' es₂' hes'
    refine ⟨s₁, vs₁, hs₁, hb, ?_, hi⟩
    rw [List.getElem?_append_left (List.getElem?_eq_some_iff.mp hw).1, hw]

variable {a' : DepState} {es : List Event} {ws : List (List ℤ)}

/-- An event that leaves the hooks' parts alone. -/
theorem Logged.snoc_same (h : Logged es a ws) {e : Event} (hsame : DepState.SameHooks a a')
    (hissued : a'.ForallDeps (Issued a.readN)) (hr : e.isRead = false) (hw : e.isWrite = false) :
    Logged (es ++ [e]) a' ws where
  trace := hsame.trace.trans h.trace
  readN := by simp [hsame.readN, h.readN, hr]
  writeN := by simp [hsame.writeN, h.writeN, hw]
  count := by simp [h.count, hw]
  writes := by rw [hsame.writes, h.writes]
  issued := by rwa [hsame.readN]
  moments := h.moments.snoc hw

theorem Logged.snoc_read (h : Logged es a ws) {args : ℕ → UWord}
    (ha : a.preRead args = .ok a') : Logged (es ++ [.preCall nrRead args]) a' ws := by
  have hissued := issued_preRead h.issued (by rw [h.readN]; omega) ha
  obtain ⟨-, tb, rfl, htb⟩ := DepState.preRead_eq_ok ha
  refine ⟨h.trace, ?_, ?_, ?_, h.writes, hissued, h.moments.snoc rfl⟩
  · simp [h.readN, Event.isRead]
  · simp [h.writeN, Event.isWrite]
  · simp [h.count, Event.isWrite]

theorem Logged.snoc_write (h : Logged es a ws) (hs : run stepTool (.init true) es = .ok s)
    (hr : Rep s a) {args : ℕ → UWord} (ha : a.preWrite args = .ok a') :
    ∃ vs, Logged (es ++ [.preCall nrWrite args]) a' (ws ++ [vs]) := by
  have hissued := h.issued.preWrite (issued_listProp _) ha
  obtain ⟨-, vs, hvs, rfl⟩ := DepState.preWrite_eq_ok ha
  refine ⟨vs, h.trace, ?_, ?_, ?_, ?_, hissued, ?_⟩
  · simp [h.readN, Event.isRead]
  · simp [h.writeN, Event.isWrite]
  · simp [h.count, Event.isWrite]
  · simp [h.writes, List.zipIdx_append, h.count, h.writeN]
  · refine h.moments.snoc_write hs ?_ h.count ?_
    · rw [bytesDeps_eq hr, hvs]
    · rw [← h.readN]
      exact DepState.memDeps_forall (issued_listProp _) h.issued hvs

/-! ### From the lists to the state -/

/-- The lines of an entry. -/
def entryLines : DepVal × List ℤ → List String
  | (.write n, vs) => if vs = [] then [] else [reportLine n vs]
  | _ => []

theorem flatMap_entryLines (xs : List (List ℤ × ℕ)) :
    (xs.map fun x => (DepVal.write (x.2 + 1), x.1)).flatMap entryLines =
      (xs.filter fun x => x.1 ≠ []).map fun x => reportLine (x.2 + 1) x.1 := by
  induction xs with
  | nil => rfl
  | cons x xs ih =>
    rw [List.map_cons, List.flatMap_cons, ih, List.filter_cons]
    by_cases hx : x.1 = [] <;> simp [entryLines, hx]

/-- The lines that are printed are those of the entries of `write_deps`. -/
theorem printfReadDepList_eq (hr : Rep s a) : printfReadDepList s s.writeDeps =
    .ok (a.writes.flatMap fun e => entryLines (e.val, e.deps)) := by
  obtain ⟨P, hlist, hat⟩ := hr.writes
  have hline : ∀ e ∈ a.writes, printfReadDep s.ints ⟨e.val, P e.id⟩ =
      .ok (entryLines (e.val, e.deps)) := by
    intro e he
    rw [printfReadDep]
    by_cases hnone : P e.id = none
    -- an empty list is `NULL`, and its entry is passed over
    · rw [if_pos hnone, (hat e he).eq_none_iff.mp hnone]
      cases e.val <;> rfl
    · have hne : e.deps ≠ [] := fun hnil => hnone ((hat e he).eq_none_iff.mpr hnil)
      rw [if_neg hnone]
      cases e.val with
      | write n =>
        simp only [printfIntList, (hat e he).toList, ok_bind, entryLines, if_neg hne]
        rfl
      | _ => rfl
  have hlines : (a.writes.map fun e => (⟨e.val, P e.id⟩ : ReadDep)).mapM (printfReadDep s.ints) =
      .ok (a.writes.map fun e => entryLines (e.val, e.deps)) := by
    rw [List.mapM_map]
    exact mapM_eq_ok_map hline
  rw [printfReadDepList, hlist, ok_bind, hlines, ok_bind, List.flatMap_def]

/-- **A record that has been kept along a run is the report at its end.** -/
theorem Logged.report (hr : Rep s a) (h : Logged es a ws) : Report es s ws := by
  obtain ⟨P, hlist, hat⟩ := hr.writes
  have hval := congrArg (List.map Prod.fst) h.writes
  have hdeps := congrArg (List.map Prod.snd) h.writes
  simp only [List.map_map, Function.comp_def] at hval hdeps
  refine ⟨h.count, ⟨_, hlist, ?_, ?_⟩, h.moments, ?_⟩
  · rw [List.map_map]
    change a.writes.map (fun e => e.val) = _
    rw [hval, List.range_eq_range', ← List.zipIdx_map_snd, List.map_map]
    rfl
  · rw [List.mapM_map]
    refine (mapM_eq_ok_map (f := Entry.deps) fun e he => (hat e he).toList).trans ?_
    change Except.ok (a.writes.map fun e => e.deps) = _
    rw [hdeps, List.zipIdx_map_fst]
  · rw [printfReadDepList_eq hr, ← flatMap_entryLines, ← h.writes, List.flatMap_map]

/-! ### Every run -/

/-- What comes of a run: the report of its writes, or the step it stops at, which
touches a freed node or is outside the shadow table. -/
def Reported (es : List Event) : Exec State → Prop
  | .ok s => ∃ ws, Report es s ws
  | .error f => f = .dangling ∨ f = .bounds ∧ ∃ e ∈ es, ∃ addr, e.Accesses addr ∧ ¬InTable addr

/-- The same, with the record along the run. -/
def Recorded (es : List Event) : Exec State → Prop
  | .ok s => ∃ a ws, Rep s a ∧ Logged es a ws
  | .error f => f = .dangling ∨ f = .bounds ∧ ∃ e ∈ es, ∃ addr, e.Accesses addr ∧ ¬InTable addr

/-- One event more. -/
theorem recorded_step {es : List Event} {ws : List (List ℤ)} {e : Event}
    (hs : run stepTool (.init true) es = .ok s) (hr : Rep s a) (h : Logged es a ws)
    (hread : (es ++ [e]).countP Event.isRead < 2 ^ 31)
    (hwrite : (es ++ [e]).countP Event.isWrite < 2 ^ 31) :
    Recorded (es ++ [e]) (stepTool s e) := by
  have hstep := stepTool_lockstep hr e
  have hmem : e ∈ es ++ [e] := by simp
  cases hx : a.step e with
  | error f =>
    rw [hx] at hstep
    rw [hstep.error_left]
    cases e with
    | helper c =>
      refine (DepState.call_error hx).imp_right fun ⟨hf, addr, ha, hout⟩ => ?_
      exact ⟨hf, _, hmem, addr, ha, hout⟩
    | preCall n args =>
      rcases DepState.preCall_error hx with ⟨-, ⟨rfl, hn⟩ | ⟨rfl, hn⟩⟩ | ⟨hf, addr, ha, hout⟩
      · -- the counters stay in range: there are not that many hooks
        have := h.readN
        simp [Event.isRead] at hread
        omega
      · have := h.writeN
        simp [Event.isWrite] at hwrite
        omega
      · exact Or.inr ⟨hf, _, hmem, addr, ha, hout⟩
  | ok a' =>
    obtain ⟨s', hs', hr'⟩ := hstep.ok_left hx
    rw [hs']
    cases e with
    | helper c =>
      exact ⟨a', ws, hr', h.snoc_same (DepState.call_sameHooks hx)
        (DepState.call_forallDeps (issued_listProp _) h.issued hx) rfl rfl⟩
    | preCall n args =>
      change a.preCall n args = .ok a' at hx
      by_cases hn : n = nrRead
      · subst hn
        rw [DepState.preCall_read h.trace] at hx
        exact ⟨a', ws, hr', h.snoc_read hx⟩
      · by_cases hn' : n = nrWrite
        · subst hn'
          rw [DepState.preCall_write h.trace] at hx
          obtain ⟨vs, hlog⟩ := h.snoc_write hs hr hx
          exact ⟨a', _, hr', hlog⟩
        · rw [DepState.preCall_other hn hn'] at hx
          cases hx
          exact ⟨a, ws, hr', h.snoc_same (.refl a) h.issued (by simpa [Event.isRead] using hn)
            (by simpa [Event.isWrite] using hn')⟩

theorem recorded_run (es : List Event) (hread : es.countP Event.isRead < 2 ^ 31)
    (hwrite : es.countP Event.isWrite < 2 ^ 31) :
    Recorded es (run stepTool (.init true) es) := by
  -- the record is about the events so far, so that the last event is split off
  induction es using List.reverseRecOn with
  | nil => exact ⟨_, [], rep_init true, logged_init⟩
  | append_singleton es e ih =>
    have hle : ∀ p : Event → Bool, es.countP p ≤ (es ++ [e]).countP p := fun p => by
      rw [List.countP_append]
      exact Nat.le_add_right _ _
    have ih := ih (lt_of_le_of_lt (hle _) hread) (lt_of_le_of_lt (hle _) hwrite)
    rw [run_append]
    cases hs : run stepTool (.init true) es with
    | error f =>
      rw [hs] at ih
      exact ih.imp_right fun ⟨hf, e', he', h⟩ => ⟨hf, e', List.mem_append_left _ he', h⟩
    | ok s =>
      rw [hs] at ih
      obtain ⟨a, ws, hr, hlog⟩ := ih
      have hstep := recorded_step hs hr hlog hread hwrite
      rw [ok_bind, run_cons]
      cases hx : stepTool s e with
      | error f =>
        rw [hx] at hstep
        exact hstep
      | ok s' =>
        rw [hx] at hstep
        exact hstep

/-- **The report is the exact record of the writes of a run.** -/
theorem run_reported (es : List Event) (hread : es.countP Event.isRead < 2 ^ 31)
    (hwrite : es.countP Event.isWrite < 2 ^ 31) : Reported es (run stepTool (.init true) es) := by
  have hrec := recorded_run es hread hwrite
  cases hs : run stepTool (.init true) es with
  | error f =>
    rw [hs] at hrec
    exact hrec
  | ok s =>
    rw [hs] at hrec
    obtain ⟨a, ws, hr, hlog⟩ := hrec
    exact ⟨ws, hlog.report hr⟩

/-- Two bytes are read and the second of them is written. -/
theorem run_reported_read_write :
    Reported [.preCall nrRead (sysArgs 0 8 2), .preCall nrWrite (sysArgs 1 9 1)]
      (run stepTool (.init true)
        [.preCall nrRead (sysArgs 0 8 2), .preCall nrWrite (sysArgs 1 9 1)]) :=
  run_reported _ (by decide) (by decide)

example : (run stepTool (.init true)
    [.preCall nrRead (sysArgs 0 8 2), .preCall nrWrite (sysArgs 1 9 1)] >>= fun s =>
      printfReadDepList s s.writeDeps) = .ok ["write():1 read():1"] := rfl

end DepLeak

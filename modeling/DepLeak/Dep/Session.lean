import DepLeak.Dep.Cache
import DepLeak.Dep.Ownership
import DepLeak.Dep.TraceFile

/-!
# A session, from the start to the trace file

The whole of Valgrind with the tool: superblocks are translated when they are executed
for the first time, `trace` goes on and off when the first instructions of `read` and
`exit` are translated, the trace file is opened by the first call of `da_instrument`, and
`da_fini` prints `write_deps` into it and closes it.

Next to the session there is its *record* (`DepLeak.noteAct`), which only watches: for
each `write()` that is called while `trace` is on, the union of the shadow lists of the
buffer at that moment. The trace file of a session is read back to exactly this record
(`DepLeak.session_file`), and its numbers are those of `read()`s that were traced before.
-/

namespace DepLeak

open LinkedHeap Runs Output

/-! ### Sessions -/

/-- Valgrind, and the trace file once it has been opened. -/
structure Session where
  /-- Valgrind and the tool. -/
  valgrind : Valgrind
  /-- `fp`; `none` is `NULL`. -/
  fp : Option VgFile

/-- The start of a session. -/
def Session.init : Session := ⟨.init, none⟩

section Session

variable (fnname : UWord → Option String) (code : UWord → List IRStmt)

/-- What the program does is what it does to Valgrind; `da_instrument` opens the trace file
if it has not been opened. -/
def stepSession (v : Session) (act : Act) : Except Stop Session := do
  let valgrind ← stepValgrind fnname code v.valgrind act
  match act with
  | .block pc _ =>
    let fp := if v.valgrind.cache pc = none then some (v.fp.getD fopen) else v.fp
    .ok ⟨valgrind, fp⟩
  | .preCall _ _ => .ok ⟨valgrind, v.fp⟩

/-- The end of a session: the blocks that are written to the trace file. -/
def Session.fini (v : Session) : Exec (List (List Char) × State) :=
  match v.fp with
  -- `VG_(fclose)` is handed `NULL`
  | none => .error .dangling
  | some fp => daFiniFile v.valgrind.tool fp

/-! ### The record of a session -/

/-- What is noted before the program does something: for a traced `write()`, the union of
the lists of its buffer. -/
def noteAct (s : State) (ws : List (List ℤ)) : Act → Exec (List (List ℤ))
  | .block _ _ => .ok ws
  | .preCall syscallno args =>
    if s.trace ∧ syscallno = nrWrite then do
      let vs ← bytesDeps s (args 1) (args 2)
      .ok (ws ++ [vs])
    else .ok ws

/-- A step of Valgrind that is noted. -/
def stepNoted (x : Valgrind × List (List ℤ)) (act : Act) :
    Except Stop (Valgrind × List (List ℤ)) := do
  let ws ← (noteAct x.1.tool x.2 act).mapError .fault
  let v ← stepValgrind fnname code x.1 act
  .ok (v, ws)

end Session

/-! ### The record along a session -/

variable {fnname : UWord → Option String} {code : UWord → List IRStmt}

/-- **What is kept along a session**: `write_deps` has the record, and all numbers are those
of `read()`s issued so far. -/
structure Noted (a : DepState) (ws : List (List ℤ)) : Prop where
  writes : a.writes.map (fun e => (e.val, e.deps)) =
    ws.zipIdx.map fun x => (DepVal.write (x.2 + 1), x.1)
  writeN : a.writeN = ws.length
  length : (ws.length : ℤ) < 2 ^ 31
  readN : 0 ≤ a.readN ∧ a.readN < 2 ^ 31
  issued : a.ForallDeps (Issued a.readN)
  noted : ∀ vs ∈ ws, Issued a.readN vs

theorem noted_init (trace : Bool) : Noted (.init trace) [] where
  writes := rfl
  writeN := rfl
  length := by decide
  readN := ⟨Int.le_refl 0, (by decide : (0 : ℤ) < 2 ^ 31)⟩
  issued := ⟨fun e he => absurd he List.not_mem_nil, fun k v hv => absurd hv List.not_mem_nil⟩
  noted vs hvs := absurd hvs List.not_mem_nil

variable {s s' : State} {a a' : DepState} {ws : List (List ℤ)}

/-- The recording is no part of what a state represents. -/
theorem rep_trace (hr : Rep s a) (trace : Bool) :
    Rep { s with trace := trace } { a with trace := trace } := by
  obtain ⟨⟨P, D, hn, hl⟩, hread, hwrite, -⟩ := hr
  exact ⟨⟨P, D, ⟨hn.vars, hn.regs, hn.writes, hn.nodup, hn.owned, hn.top⟩,
    ⟨hl.deps, hl.stray, hl.lists, hl.pages⟩⟩, hread, hwrite, rfl⟩

theorem Noted.trace (h : Noted a ws) (trace : Bool) : Noted { a with trace := trace } ws :=
  ⟨h.writes, h.writeN, h.length, h.readN, ⟨h.issued.all, h.issued.shadow⟩, h.noted⟩

/-- A helper leaves the record alone. -/
theorem Noted.call (h : Noted a ws) {c : HelperCall} (ha : a.call c = .ok a') : Noted a' ws := by
  have hsame := DepState.call_sameHooks ha
  have hissued := DepState.call_forallDeps (issued_listProp _) h.issued ha
  refine ⟨?_, ?_, h.length, ?_, ?_, ?_⟩
  · rw [hsame.writes, h.writes]
  · rw [hsame.writeN, h.writeN]
  · rw [hsame.readN]
    exact h.readN
  · rwa [hsame.readN]
  · rw [hsame.readN]
    exact h.noted

/-- **An instrumented superblock** leaves the record alone, wherever it is left. -/
theorem execStmts_noted {ρ : IRTemp → UWord} {B : List IRStmt} (hr : Rep s a) (h : Noted a ws)
    (hexec : execStmts ρ s B = .ok s') : ∃ a', Rep s' a' ∧ Noted a' ws := by
  induction B generalizing s a with
  | nil =>
    cases hexec
    exact ⟨a, hr, h⟩
  | cons st B ih =>
    obtain ⟨s₁, hst, hexec⟩ := bind_eq_ok.mp hexec
    have hstep : ∃ a₁, Rep s₁ a₁ ∧ Noted a₁ ws := by
      cases st with
      | dirty d =>
        rw [execStmt] at hst
        split at hst
        · obtain ⟨a₁, ha, hr₁⟩ := (callHelper_lockstep hr _).ok_right hst
          exact ⟨a₁, hr₁, h.call ha⟩
        · cases hst
          exact ⟨a, hr, h⟩
      | _ =>
        cases hst
        exact ⟨a, hr, h⟩
    obtain ⟨a₁, hr₁, h₁⟩ := hstep
    split at hexec
    · cases hexec
      exact ⟨a₁, hr₁, h₁⟩
    · exact ih hr₁ h₁ hexec

/-- **The read hook** issues the next number. -/
theorem Noted.preRead (h : Noted a ws) {args : ℕ → UWord} (ha : a.preRead args = .ok a') :
    Noted a' ws := by
  have hissued := issued_preRead h.issued h.readN.1 ha
  have hread := h.readN.1
  obtain ⟨hlt, tb, rfl, -⟩ := DepState.preRead_eq_ok ha
  refine ⟨h.writes, h.writeN, h.length, ⟨by simp only; omega, hlt⟩, hissued, fun vs hvs => ?_⟩
  exact (h.noted vs hvs).mono (Int.le_add_one (Int.le_refl _))

/-- **The write hook** puts the union of the buffer into the record. -/
theorem Noted.preWrite (h : Noted a ws) {args : ℕ → UWord} (ha : a.preWrite args = .ok a') :
    ∃ vs, a.memDeps (args 1) (args 2) = .ok vs ∧ Noted a' (ws ++ [vs]) := by
  have hissued := h.issued.preWrite (issued_listProp _) ha
  obtain ⟨hlt, vs, hvs, rfl⟩ := DepState.preWrite_eq_ok ha
  have hlen := h.writeN
  refine ⟨vs, hvs, ?_, ?_, ?_, h.readN, hissued, fun us hus => ?_⟩
  · simp [h.writes, List.zipIdx_append, hlen]
  · simp [hlen]
  · rw [List.length_append, List.length_singleton]
    omega
  · rcases List.mem_append.mp hus with hus | hus
    · exact h.noted us hus
    · rw [List.mem_singleton.mp hus]
      exact DepState.memDeps_forall (issued_listProp _) h.issued hvs

/-- **One step of a session**: it is noted, and the record is kept. -/
theorem stepNoted_of_stepValgrind {v v' : Valgrind} {act : Act} (hr : Rep v.tool a)
    (h : Noted a ws) (hstep : stepValgrind fnname code v act = .ok v') :
    ∃ ws' a', stepNoted fnname code (v, ws) act = .ok (v', ws') ∧ Rep v'.tool a' ∧
      Noted a' ws' := by
  have hnote {ws' : List (List ℤ)} (hw : noteAct v.tool ws act = .ok ws') :
      stepNoted fnname code (v, ws) act = .ok (v', ws') := by
    rw [stepNoted, hw, hstep]
    rfl
  cases act with
  | block pc ρ =>
    obtain ⟨⟨v₁, out⟩, ht, hstep⟩ := bind_eq_ok.mp hstep
    obtain ⟨s, hs, hstep⟩ := bind_eq_ok.mp hstep
    cases hstep
    -- the translation sets `trace` and nothing else of the tool
    have hr₁ : ∃ a₁, Rep v₁.tool a₁ ∧ Noted a₁ ws := by
      rcases translate_eq_ok.mp (mapError_eq_ok.mp ht) with ⟨-, rfl⟩ | ⟨-, tr, -, rfl⟩
      · exact ⟨a, hr, h⟩
      · exact ⟨_, rep_trace hr tr, h.trace tr⟩
    obtain ⟨a₁, hr₁, h₁⟩ := hr₁
    obtain ⟨a', hr', h'⟩ := execStmts_noted hr₁ h₁ (mapError_eq_ok.mp hs)
    exact ⟨ws, a', hnote rfl, hr', h'⟩
  | preCall n args =>
    obtain ⟨s, hs, hstep⟩ := bind_eq_ok.mp hstep
    cases hstep
    obtain ⟨a', ha, hr'⟩ := (taPreCall_lockstep hr n args).ok_right (mapError_eq_ok.mp hs)
    have htrace : v.tool.trace = a.trace := hr.2.2.2
    by_cases hw : v.tool.trace = true ∧ n = nrWrite
    · obtain ⟨ht, rfl⟩ := hw
      rw [DepState.preCall_write (htrace ▸ ht)] at ha
      obtain ⟨vs, hvs, h'⟩ := h.preWrite ha
      refine ⟨ws ++ [vs], a', hnote ?_, hr', h'⟩
      rw [noteAct, if_pos ⟨ht, rfl⟩, bytesDeps_eq hr, hvs]
      rfl
    · refine ⟨ws, a', hnote (by rw [noteAct, if_neg hw]), hr', ?_⟩
      obtain rfl | ⟨-, -, ha⟩ | ⟨hn, ht, -⟩ := DepState.preCall_cases ha
      · exact h
      · exact h.preRead ha
      · exact absurd ⟨htrace.trans ht, hn⟩ hw

/-- **Every session is noted.** -/
theorem run_noted {acts : List Act} {v v' : Valgrind} (hr : Rep v.tool a) (h : Noted a ws)
    (hrun : run (stepValgrind fnname code) v acts = .ok v') :
    ∃ ws' a', run (stepNoted fnname code) (v, ws) acts = .ok (v', ws') ∧ Rep v'.tool a' ∧
      Noted a' ws' := by
  induction acts generalizing v a ws with
  | nil =>
    cases hrun
    exact ⟨ws, a, rfl, hr, h⟩
  | cons act acts ih =>
    obtain ⟨v₁, hstep, hrun⟩ := run_cons_eq_ok.mp hrun
    obtain ⟨ws₁, a₁, hnote, hr₁, h₁⟩ := stepNoted_of_stepValgrind hr h hstep
    obtain ⟨ws', a', hrun', hr', h'⟩ := ih hr₁ h₁ hrun
    exact ⟨ws', a', run_cons_eq_ok.mpr ⟨_, hnote, hrun'⟩, hr', h'⟩

/-! ### The file of a session -/

/-- A session is a run of Valgrind, and nothing has been printed before its end. -/
theorem run_session {acts : List Act} {v v' : Session}
    (hrun : run (stepSession fnname code) v acts = .ok v') (hfp : ∀ fp ∈ v.fp, fp = fopen) :
    run (stepValgrind fnname code) v.valgrind acts = .ok v'.valgrind ∧
      ∀ fp ∈ v'.fp, fp = fopen := by
  induction acts generalizing v with
  | nil =>
    cases hrun
    exact ⟨rfl, hfp⟩
  | cons act acts ih =>
    obtain ⟨v₁, hstep, hrun⟩ := run_cons_eq_ok.mp hrun
    obtain ⟨w, hw, hstep⟩ := bind_eq_ok.mp hstep
    have hkeep : v₁.valgrind = w ∧ ∀ fp ∈ v₁.fp, fp = fopen := by
      cases act with
      | preCall =>
        cases hstep
        exact ⟨rfl, hfp⟩
      | block pc ρ =>
        cases hstep
        refine ⟨rfl, ?_⟩
        simp only
        split
        · intro fp h
          obtain rfl := Option.some.inj h
          cases hv : v.fp with
          | none => rfl
          | some fp => exact hfp fp hv
        · exact hfp
    obtain ⟨hrun', hfp'⟩ := ih hrun hkeep.2
    rw [hkeep.1] at hrun'
    exact ⟨run_cons_eq_ok.mpr ⟨w, hw, hrun'⟩, hfp'⟩

/-- **What is printed at the end of a session** is its record; nothing is in the way of
printing it. -/
theorem session_printed {acts : List Act} {v : Session}
    (hrun : run (stepSession fnname code) .init acts = .ok v) :
    ∃ ws, run (stepNoted fnname code) (.init, []) acts = .ok (v.valgrind, ws) ∧
      (∀ vs ∈ ws, Issued v.valgrind.tool.readN vs) ∧
      ∀ fp, printfReadDepLoop v.valgrind.tool.ints v.valgrind.tool.nodes
        (v.valgrind.tool.nodes.top + 1) fp v.valgrind.tool.writeDeps =
          .ok (fp.puts (traceText (traceRecords ws))) := by
  obtain ⟨hrun, -⟩ := run_session hrun fun fp h => by cases h
  obtain ⟨ws, a, hnote, hr, h⟩ := run_noted (rep_init false) (noted_init false) hrun
  have hread : v.valgrind.tool.readN = a.readN := hr.2.1
  refine ⟨ws, hnote, fun vs hvs => hread ▸ h.noted vs hvs, fun fp => ?_⟩
  refine printfReadDepLoop_rep hr h.writes h.length fun vs hvs n hn => ?_
  have := h.noted vs hvs n hn
  have := h.readN
  exact ⟨by omega, by omega⟩

/-- **The trace file of a session is its record.** Whenever a session has come to its end, the
file is read back to the unions that the traced `write()`s found, numbered as they were
called, with those left out that found nothing. The numbers in them are those of `read()`s
that were issued, and the file was written in full blocks. -/
theorem session_file {acts : List Act} {v : Session} {blocks : List (List Char)} {s : State}
    (hrun : run (stepSession fnname code) .init acts = .ok v) (hfini : v.fini = .ok (blocks, s)) :
    ∃ ws, run (stepNoted fnname code) (.init, []) acts = .ok (v.valgrind, ws) ∧
      readTrace blocks.flatten = some (traceRecords ws) ∧
      (∀ vs ∈ ws, ∀ n ∈ vs, 1 ≤ n ∧ n ≤ v.valgrind.tool.readN) ∧
      ∀ b ∈ blocks.dropLast, b.length = 8192 := by
  obtain ⟨-, hfp⟩ := run_session hrun fun fp h => by cases h
  obtain ⟨ws, hnote, hissued, hprint⟩ := session_printed hrun
  rw [Session.fini] at hfini
  cases hv : v.fp with
  | none =>
    rw [hv] at hfini
    cases hfini
  | some fp =>
    rw [hv] at hfini
    simp only [daFiniFile, hprint, ok_bind] at hfini
    obtain ⟨⟨lines, s'⟩, -, hfini⟩ := bind_eq_ok.mp hfini
    obtain ⟨rfl, rfl⟩ := Prod.mk.inj (Except.ok.inj hfini)
    refine ⟨ws, hnote, ?_, hissued, fun b hb => Sink.length_of_mem_dropLast_close _ hb⟩
    rw [Sink.flatten_close, Sink.text_puts, hfp fp hv, fopen, Sink.text_new, List.nil_append,
      readTrace_traceText]

/-- A program that comes to `read()`, reads a byte and writes it. -/
theorem session_file_read_write :
    ∃ v blocks s, run (stepSession (fun _ => some "read") fun _ => [.iMark 100]) .init
        [.block 100 fun _ => 0, .preCall nrRead (sysArgs 0 8 1),
          .preCall nrWrite (sysArgs 1 8 1)] = .ok v ∧ v.fini = .ok (blocks, s) ∧
      readTrace blocks.flatten = some [(1, [1])] := by
  obtain ⟨v, hrun, htool, hfp⟩ : ∃ v, run (stepSession (fun _ => some "read") fun _ => [.iMark 100])
      .init [.block 100 fun _ => 0, .preCall nrRead (sysArgs 0 8 1),
        .preCall nrWrite (sysArgs 1 8 1)] = .ok v ∧
      run stepTool (.init true) [.preCall nrRead (sysArgs 0 8 1),
        .preCall nrWrite (sysArgs 1 8 1)] = .ok v.valgrind.tool ∧ v.fp = some fopen :=
    ⟨_, rfl, rfl, rfl⟩
  obtain ⟨a, ha, hr⟩ := (runTool_lockstep (rep_init true) _).ok_right htool
  have hkept : a.dangling = false ∧ a.lost = false := by
    cases ha
    exact ⟨rfl, rfl⟩
  -- everything can be freed, so that the session comes to its end
  obtain ⟨lines, s, hs, -⟩ := hr.freesAll hkept.1 hkept.2
  obtain ⟨ws, -, -, hprint⟩ := session_printed hrun
  obtain ⟨blocks, hfini⟩ : ∃ blocks, v.fini = .ok (blocks, s) := by
    rw [Session.fini, hfp]
    simp only [daFiniFile, hprint, hs, ok_bind]
    exact ⟨_, rfl⟩
  refine ⟨v, blocks, s, hrun, hfini, ?_⟩
  obtain ⟨ws, hnote, hread, -⟩ := session_file hrun hfini
  rw [hread]
  obtain ⟨-, rfl⟩ := Prod.mk.inj (Except.ok.inj hnote)
  rfl

end DepLeak

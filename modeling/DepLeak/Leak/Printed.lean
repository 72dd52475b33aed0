import DepLeak.Leak.Module
import DepLeak.Output
import Mathlib.Data.List.Destutter

/-!
# The report

What `PrintPath` writes of the paths that leak: a path is shown by the source lines of
its instructions, each of them once for every time that the path comes to it. Instructions
without a debug location are passed over, and so are those on line 0 until there is
another one.

The report is read back line by line (`DepLeak.readReport`): it says which of the paths
that were analysed leak, in the order in which they were, by the source lines that they
go through (`DepLeak.readReport_report`). What is written for debugging in between
(`print_malloc_structs`) is no part of it.

The debug locations are those of the module before the pass. The instructions that the
analyses put into the blocks have none, and so are passed over as well.
-/

namespace DepLeak

open Runs Output

/-! ### `PrintPath` -/

/-- The lines of the debug locations of the instructions of a block, where they have one. -/
abbrev DebugLines := BasicBlock → List (Option (BitVec 32))

/-- The body of the inner loop of `PrintPath`: what has been written, and `prev_line`. -/
def printInstruction (out : List Char × ℤ) : Option (BitVec 32) → List Char × ℤ
  | none => out
  | some line =>
    -- an `unsigned` that becomes an `int`
    let lineno := line.toInt
    if out.2 ≠ lineno then (out.1 ++ showInt lineno ++ " -> ".toList, lineno) else out

/-- `PrintPath`: what is written. -/
def printPath (debugLoc : DebugLines) (path : List BasicBlock) : List Char :=
  ((path.flatMap debugLoc).foldl printInstruction ([], 0)).1 ++ ['\n']

/-- What `runOnModule` writes with `PrintPath`. -/
def report (debugLoc : DebugLines) (s : Pass) : List Char :=
  s.printed.flatMap (printPath debugLoc)

/-! ### What is shown of a path -/

/-- The source lines of a path. -/
def sourceLines (debugLoc : DebugLines) (path : List BasicBlock) : List ℤ :=
  (path.flatMap debugLoc).filterMap fun loc => loc.map BitVec.toInt

/-- The lines that are shown of those that come after `prev`: the ones that are not the same as
the one before. -/
def shown (prev : ℤ) (lines : List ℤ) : List ℤ := (lines.destutter' (· ≠ ·) prev).tail

/-- **The source lines that a path goes through**, from line to line. -/
def stops (debugLoc : DebugLines) (path : List BasicBlock) : List ℤ :=
  shown 0 (sourceLines debugLoc path)

theorem destutter'_eq_cons (prev : ℤ) (lines : List ℤ) :
    lines.destutter' (· ≠ ·) prev = prev :: shown prev lines := by
  induction lines generalizing prev with
  | nil => rfl
  | cons line lines ih =>
    rw [shown, List.destutter'_cons]
    split
    · rfl
    · rw [ih, List.tail_cons]

theorem shown_cons (prev line : ℤ) (lines : List ℤ) : shown prev (line :: lines) =
    if prev ≠ line then line :: shown line lines else shown prev lines := by
  rw [shown, List.destutter'_cons]
  split
  · rw [List.tail_cons, destutter'_eq_cons]
  · rfl

/-- A line number, with an arrow after it. -/
def arrow (n : ℤ) : List (List Char) := [showInt n, "->".toList]

/-- **The loop writes what is to be shown.** -/
theorem foldl_printInstruction (locs : List (Option (BitVec 32))) (cs : List Char) (prev : ℤ) :
    (locs.foldl printInstruction (cs, prev)).1 = cs ++ unlines ' '
      ((shown prev (locs.filterMap fun loc => loc.map BitVec.toInt)).flatMap arrow) := by
  induction locs generalizing cs prev with
  | nil => exact (List.append_nil cs).symm
  | cons loc locs ih =>
    rw [List.foldl_cons]
    cases loc with
    | none => exact ih cs prev
    | some line =>
      have hline : (some line :: locs).filterMap (fun loc => loc.map BitVec.toInt) =
          line.toInt :: locs.filterMap fun loc => loc.map BitVec.toInt := rfl
      rw [hline, shown_cons, printInstruction]
      by_cases hne : prev ≠ line.toInt
      · rw [if_pos hne, if_pos hne, ih]
        simp [unlines, arrow]
      · rw [if_neg hne, if_neg hne, ih]

theorem printPath_eq (debugLoc : DebugLines) (path : List BasicBlock) :
    printPath debugLoc path = unlines ' ' ((stops debugLoc path).flatMap arrow) ++ ['\n'] := by
  rw [printPath, foldl_printInstruction, List.nil_append]
  rfl

/-! ### Reading the report -/

/-- The source lines on one line of the report. -/
def readStops (cs : List Char) : Option (List ℤ) :=
  ((lines ' ' cs).filter (· ≠ "->".toList)).mapM readInt

/-- The report, line by line. -/
def readReport (cs : List Char) : Option (List (List ℤ)) := (lines '\n' cs).mapM readStops

theorem notMem_showInt {c : Char} (hminus : c ≠ '-') (hdigit : c.isDigit = false) (n : ℤ) :
    c ∉ showInt n := by
  intro h
  rcases mem_showInt h with h | h
  · exact hminus h
  · rw [hdigit] at h
    cases h

theorem showInt_ne_arrow (n : ℤ) : showInt n ≠ "->".toList := by
  intro h
  rcases mem_showInt (n := n) (c := '>') (h ▸ by decide) with h | h <;> exact absurd h (by decide)

/-- A line of the report is read back. -/
theorem readStops_unlines (ns : List ℤ) :
    readStops (unlines ' ' (ns.flatMap arrow)) = some ns := by
  have hsep : ∀ w ∈ ns.flatMap arrow, ' ' ∉ w := by
    intro w hw
    obtain ⟨n, -, hw⟩ := List.mem_flatMap.mp hw
    rcases List.mem_pair.mp hw with rfl | rfl
    · exact notMem_showInt (by decide) (by decide) n
    · decide
  have hwords : (ns.flatMap arrow).filter (· ≠ "->".toList) = ns.map showInt := by
    induction ns with
    | nil => rfl
    | cons n ns ih =>
      have ih := ih fun w hw => hsep w (List.mem_append_right _ hw)
      rw [List.flatMap_cons, List.filter_append, ih, arrow,
        List.filter_cons_of_pos (by simpa using showInt_ne_arrow n)]
      rfl
  rw [readStops, lines_unlines hsep, hwords, mapM_read_show readInt_showInt]

/-- There is no end of a line within what is shown of a path. -/
theorem newline_notMem (ns : List ℤ) : '\n' ∉ unlines ' ' (ns.flatMap arrow) := by
  intro h
  obtain ⟨w, hw, h⟩ := List.mem_flatMap.mp h
  rcases List.mem_append.mp h with h | h
  · obtain ⟨n, -, hw⟩ := List.mem_flatMap.mp hw
    rcases List.mem_pair.mp hw with rfl | rfl
    · exact notMem_showInt (by decide) (by decide) n h
    · exact absurd h (by decide)
  · exact absurd h (by decide)

/-- **The report says which paths leak**: it is read back to the source lines of those paths,
among all that were analysed for one function after the other, that were found to leak. -/
theorem readReport_report (debugLoc : DebugLines) {m : Module} {s : Pass}
    (h : runOnModule m = .ok s) : readReport (report debugLoc s) =
      some ((leaking s.analysed.flatten).map (stops debugLoc)) := by
  have hprinted : s.printed = leaking s.analysed.flatten :=
    (run_runOnFunction (m := m) (fun _ h => h) rfl rfl h).2
  have htext : report debugLoc s = unlines '\n' (s.printed.map fun path =>
      unlines ' ' ((stops debugLoc path).flatMap arrow)) := by
    rw [report, unlines, List.flatMap_map]
    exact List.flatMap_congr fun path _ => printPath_eq debugLoc path
  have hnewline : ∀ l ∈ s.printed.map fun path =>
      unlines ' ' ((stops debugLoc path).flatMap arrow), '\n' ∉ l := by
    intro l hl
    obtain ⟨path, -, rfl⟩ := List.mem_map.mp hl
    exact newline_notMem _
  rw [readReport, htext, lines_unlines hnewline, ← hprinted]
  induction s.printed with
  | nil => rfl
  | cons path paths ih =>
    rw [List.map_cons, List.mapM_cons, readStops_unlines, ih]
    rfl

/-- A path that leaks, with an instruction on line 3, two on line 4, and the last one on line 3
again. -/
theorem readReport_report_leakInFront : ∃ s, runOnModule (leakInFront [[0], []]) = .ok s ∧
    readReport (report (fun _ => [some 3, some 4, none, some 4, some 3]) s) =
      some ((leaking s.analysed.flatten).map
        (stops fun _ => [some 3, some 4, none, some 4, some 3])) :=
  ⟨_, rfl, readReport_report _ (m := leakInFront [[0], []]) rfl⟩

end DepLeak

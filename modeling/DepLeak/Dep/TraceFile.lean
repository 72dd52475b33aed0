import DepLeak.Dep.Report
import DepLeak.Output

/-!
# The trace file

What `da_fini` writes to the trace file, character by character: `VG_(fprintf)` formats
into the buffer of a `VgFile`, which goes to the kernel in blocks of 8192 characters,
and `VG_(fclose)` writes the rest.

An entry of `write_deps` becomes a line, with the number of the `write()` and the
numbers of the reads. The file is read back from its text (`DepLeak.readTrace`): the
numbers that come back are those that were printed, in their order, whatever they are
(`DepLeak.readTrace_traceText`). The conversion of an `int` to decimal is the loop of
`myvprintf_int64` (`DepLeak.myvprintfInt64_signed`).
-/

namespace DepLeak

open LinkedHeap Runs Output

/-! ### `VG_(fprintf)` -/

/-- The flags of a conversion that `myvprintf_int64` looks at. -/
structure MsgFlags where
  /-- `VG_MSG_SIGNED`. -/
  signed : Bool
  /-- `VG_MSG_COMMA`. -/
  comma : Bool
  /-- `VG_MSG_LJUSTIFY`. -/
  ljustify : Bool
  /-- `VG_MSG_ZJUSTIFY`. -/
  zjustify : Bool

/-- `digits` of `myvprintf_int64`. -/
def digits (capitalised : Bool) : List Char :=
  if capitalised then "0123456789ABCDEF".toList else "0123456789abcdef".toList

/-- The loop of `myvprintf_int64` over the digits of `p`, the last one first. `buf` is kept
from its end to its start, which is how it is sent in the end; it has room for 64
rounds. -/
def int64Loop (flags : MsgFlags) (base : ℕ) (capitalised : Bool) :
    ℕ → ℕ → ℕ → List Char → List Char
  | 0, _, _, buf => buf
  | n + 1, p, nc, buf =>
    if 0 < p then
      let digit := (digits capitalised).getD (p % base) '0'
      if flags.comma ∧ 10 = base ∧ (buf.length - nc) % 3 = 0 ∧ buf.length ≠ 0 then
        int64Loop flags base capitalised n (p / base) (nc + 1) (digit :: ',' :: buf)
      else int64Loop flags base capitalised n (p / base) nc (digit :: buf)
    else buf

/-- `myvprintf_int64`: the characters that are sent. -/
def myvprintfInt64 (flags : MsgFlags) (base width : ℕ) (capitalised : Bool) (p : BitVec 64) :
    List Char :=
  if base < 2 ∨ 16 < base then []
  else
    let neg := flags.signed && p.slt 0
    let p := if neg then -p else p
    let buf := if p.toNat = 0 then ['0'] else int64Loop flags base capitalised 64 p.toNat 0 []
    let buf := if neg then '-' :: buf else buf
    if flags.ljustify then buf ++ List.replicate (width - buf.length) ' '
    else List.replicate (width - buf.length) (if flags.zjustify then '0' else ' ') ++ buf

/-- `VG_(debugLog_vprintf)`: the characters that are sent. Of the conversions there are only
`%%` and `%d`, without flags and field width, and the tool writes its file with `%d` alone. A
`%` before any other is sent as it is, which is not what the source does with it. -/
def debugLogVprintf : List Char → List ℤ → List Char
  -- a trailing `%` is ignored
  | ['%'], _ => []
  | '%' :: '%' :: format, vargs => '%' :: debugLogVprintf format vargs
  | '%' :: 'd' :: format, v :: vargs =>
    -- an `Int` argument is extended with its sign
    myvprintfInt64 ⟨true, false, false, false⟩ 10 0 false (BitVec.ofInt 64 v) ++
      debugLogVprintf format vargs
  | c :: format, vargs => c :: debugLogVprintf format vargs
  | [], _ => []

/-- `VgFile`, with its buffer of `VGFILE_BUFSIZE` characters. -/
abbrev VgFile := Sink Char 8192

/-- `VG_(fopen)`, if the file can be opened: it is truncated. -/
def fopen : VgFile := Sink.new Char (by decide)

/-- `VG_(fprintf)`; each character goes through `add_to__vgfile`. -/
def fprintf (fp : VgFile) (format : String) (vargs : List ℤ) : VgFile :=
  fp.puts (debugLogVprintf format.toList vargs)

/-! ### `da_fini` -/

/-- The loop of `printf_int_list`. -/
def printfIntLoop (h : IntHeap) : ℕ → VgFile → Ptr → Exec VgFile
  | _, fp, none => .ok fp
  | 0, _, some _ => .error .fuel
  | n + 1, fp, some current => do
    let nd ← h.read current
    printfIntLoop h n (fprintf fp " read():%d" [nd.val]) nd.next

/-- The body of the loop of `printf_read_dep_list`. -/
def printfEntry (ints : IntHeap) (fp : VgFile) (d : ReadDep) : Exec VgFile :=
  if d.readDeps = none then .ok fp
  else
    match d.val with
    | .write n => do
      let fp := fprintf fp "write():%d" [n]
      let fp ← printfIntLoop ints (ints.top + 1) fp d.readDeps
      .ok (fprintf fp "\n" [])
    | _ => .ok fp

/-- The loop of `printf_read_dep_list`. -/
def printfReadDepLoop (ints : IntHeap) (h : NodeHeap) : ℕ → VgFile → Ptr → Exec VgFile
  | _, fp, none => .ok fp
  | 0, _, some _ => .error .fuel
  | n + 1, fp, some current => do
    let nd ← h.read current
    let fp ← printfEntry ints fp nd.val
    printfReadDepLoop ints h n fp nd.next

/-- What `da_fini` writes to the trace file, with the state it leaves: the file is closed
after everything has been freed. -/
def daFiniFile (s : State) (fp : VgFile) : Exec (List (List Char) × State) := do
  let fp ← printfReadDepLoop s.ints s.nodes (s.nodes.top + 1) fp s.writeDeps
  let (_, s) ← daFini s
  .ok (fp.close, s)

/-! ### The decimal digits of an `int` -/

theorem getD_digits {i : ℕ} (hi : i < 10) : (digits false).getD i '0' = Nat.digitChar i := by
  have h : ∀ i : Fin 10, (digits false).getD i '0' = Nat.digitChar i := by decide
  exact h ⟨i, hi⟩

/-- **The loop prints the decimal digits**, if there are enough rounds for them. -/
theorem int64Loop_ten {flags : MsgFlags} (hcomma : flags.comma = false) :
    ∀ (n p nc : ℕ) (buf : List Char), p < 10 ^ n →
      int64Loop flags 10 false n p nc buf = (if p = 0 then [] else Nat.toDigits 10 p) ++ buf := by
  intro n
  induction n with
  | zero =>
    intro p nc buf hp
    obtain rfl : p = 0 := by omega
    rfl
  | succ n ih =>
    intro p nc buf hp
    have hdiv : p / 10 < 10 ^ n := by
      rw [pow_succ] at hp
      omega
    rw [int64Loop]
    by_cases hpos : 0 < p
    · rw [if_pos hpos, if_neg (by simp [hcomma]), ih _ _ _ hdiv, if_neg (Nat.ne_of_gt hpos),
        getD_digits (Nat.mod_lt p (by decide))]
      by_cases hlt : p < 10
      · rw [if_pos (Nat.div_eq_of_lt hlt), Nat.mod_eq_of_lt hlt, Nat.toDigits_of_lt_base hlt]
        rfl
      · have hdigits := Nat.toDigits_of_base_le (b := 10) (n := p) (by decide) (by omega)
        rw [if_neg (by omega), hdigits, List.append_assoc, List.singleton_append]
    · rw [if_neg hpos, if_pos (by omega)]
      rfl

/-- **`%d` prints the number in decimal**, as long as it is an `int`. -/
theorem myvprintfInt64_signed {v : ℤ} (hlo : -2 ^ 31 ≤ v) (hhi : v < 2 ^ 31) :
    myvprintfInt64 ⟨true, false, false, false⟩ 10 0 false (BitVec.ofInt 64 v) = showInt v := by
  have htoInt : (BitVec.ofInt 64 v).toInt = v := by
    rw [BitVec.toInt_ofInt]
    exact Int.bmod_eq_of_le (by omega) (by omega)
  have hneg : (BitVec.ofInt 64 v).slt 0 = decide (v < 0) := by
    rw [BitVec.slt, htoInt]
    rfl
  -- the number whose digits are printed
  have habs : (if v < 0 then -BitVec.ofInt 64 v else BitVec.ofInt 64 v).toNat = v.natAbs := by
    split
    · rw [← BitVec.ofInt_neg, BitVec.toNat_ofInt]
      omega
    · rw [BitVec.toNat_ofInt]
      omega
  have hbuf : (if v.natAbs = 0 then ['0']
      else int64Loop ⟨true, false, false, false⟩ 10 false 64 v.natAbs 0 []) =
        Nat.toDigits 10 v.natAbs := by
    rw [int64Loop_ten rfl _ _ _ _ (by omega), List.append_nil]
    by_cases hz : v.natAbs = 0
    · rw [hz]
      rfl
    · rw [if_neg hz, if_neg hz]
  simp only [myvprintfInt64, hneg, Bool.true_and, decide_eq_true_eq, habs]
  rw [if_neg (by decide), hbuf, showInt]
  simp

/-! ### The text of the file, and reading it -/

/-- What the file says of a `write()`: its number and the numbers of the reads. -/
abbrev TraceRecord := ℤ × List ℤ

/-- The words of a line. -/
def traceWords (r : TraceRecord) : List (List Char) :=
  ("write():".toList ++ showInt r.1) :: r.2.map fun v => "read():".toList ++ showInt v

/-- The line of a `write()`. -/
def traceLine (r : TraceRecord) : List Char := [' '].intercalate (traceWords r)

/-- The text of a file. -/
def traceText (rs : List TraceRecord) : List Char := unlines '\n' (rs.map traceLine)

/-- The number of a word that starts with a certain tag. -/
def readWord (tag word : List Char) : Option ℤ :=
  if word.take tag.length = tag then readInt (word.drop tag.length) else none

/-- What a line says. -/
def readTraceLine (line : List Char) : Option TraceRecord :=
  match line.splitOn ' ' with
  | [] => none
  | word :: words => do
    let n ← readWord "write():".toList word
    let vs ← words.mapM (readWord "read():".toList)
    some (n, vs)

/-- What a file says. -/
def readTrace (text : List Char) : Option (List TraceRecord) :=
  (lines '\n' text).mapM readTraceLine

theorem readWord_append (tag : List Char) (v : ℤ) : readWord tag (tag ++ showInt v) = some v := by
  rw [readWord, List.take_left, if_pos rfl, List.drop_left, readInt_showInt]

/-- There is no blank and no end of line in a word. -/
theorem notMem_traceWords {r : TraceRecord} {w : List Char} (hw : w ∈ traceWords r) :
    ' ' ∉ w ∧ '\n' ∉ w := by
  have hint (c : Char) (hc : c ≠ '-') (hd : c.isDigit = false) (n : ℤ) : c ∉ showInt n := fun h =>
    (mem_showInt h).elim hc fun h => by simp [hd] at h
  have hblank := hint ' ' (by decide) (by decide)
  have hend := hint '\n' (by decide) (by decide)
  rcases List.mem_cons.mp hw with rfl | hw
  · simp [hblank, hend]
  · obtain ⟨v, -, rfl⟩ := List.mem_map.mp hw
    simp [hblank, hend]

/-- The words of a line are found again. -/
theorem splitOn_traceLine (r : TraceRecord) : (traceLine r).splitOn ' ' = traceWords r :=
  List.splitOn_intercalate ' ' (fun _ hw => (notMem_traceWords hw).1) (List.cons_ne_nil _ _)

theorem readTraceLine_traceLine (r : TraceRecord) : readTraceLine (traceLine r) = some r := by
  have hwords := mapM_read_show (readWord_append "read():".toList) r.2
  rw [readTraceLine, splitOn_traceLine]
  simp only [traceWords, readWord_append, hwords]
  rfl

/-- The end of a line is not in it. -/
theorem notMem_traceLine (r : TraceRecord) : '\n' ∉ traceLine r := by
  have hword {w : List Char} (hw : w ∈ traceWords r) : '\n' ∉ w := (notMem_traceWords hw).2
  rw [traceLine, traceWords, intercalate_cons]
  intro h
  rcases List.mem_append.mp h with h | h
  · exact hword List.mem_cons_self h
  · obtain ⟨w, hw, h⟩ := List.mem_flatMap.mp h
    refine hword (List.mem_cons_of_mem _ hw) ((List.mem_cons.mp h).resolve_left (by decide))

/-- **What is printed is read back**, whatever the numbers are. -/
theorem readTrace_traceText (rs : List TraceRecord) : readTrace (traceText rs) = some rs := by
  have hlines : lines '\n' (traceText rs) = rs.map traceLine := by
    refine lines_unlines fun l hl => ?_
    obtain ⟨r, -, rfl⟩ := List.mem_map.mp hl
    exact notMem_traceLine r
  rw [readTrace, hlines]
  exact mapM_read_show readTraceLine_traceLine rs

/-! ### What `da_fini` prints -/

/-- A number is an `int`. -/
def IsInt (v : ℤ) : Prop := -2 ^ 31 ≤ v ∧ v < 2 ^ 31

/-- A format with one `%d` at its end. -/
theorem debugLogVprintf_d (text : List Char) (htext : '%' ∉ text) {v : ℤ} (hv : IsInt v) :
    debugLogVprintf (text ++ ['%', 'd']) [v] = text ++ showInt v := by
  induction text with
  | nil =>
    rw [List.nil_append, debugLogVprintf, myvprintfInt64_signed hv.1 hv.2]
    simp [debugLogVprintf]
  | cons c text ih =>
    rw [List.mem_cons, not_or] at htext
    have hne : ¬c = '%' := fun h => htext.1 h.symm
    have hc : debugLogVprintf (c :: (text ++ ['%', 'd'])) [v] =
        c :: debugLogVprintf (text ++ ['%', 'd']) [v] := by
      rw [debugLogVprintf]
      · exact fun h _ => hne h
      · exact fun _ h _ => hne h
      · exact fun _ _ _ _ h _ => hne h
    rw [List.cons_append, hc, ih htext.2, List.cons_append]

variable {fp : VgFile} {ints : IntHeap} {nodes : NodeHeap}

/-- **`printf_int_list`** prints the numbers of the list. -/
theorem printfIntLoop_eq {n : ℕ} {q : Ptr} {vs : List ℤ} (h : ints.toListFrom n q = .ok vs)
    (hvs : ∀ v ∈ vs, IsInt v) : printfIntLoop ints n fp q =
      .ok (fp.puts ((vs.map fun v => "read():".toList ++ showInt v).flatMap (' ' :: ·))) := by
  induction n generalizing q vs fp with
  | zero =>
    cases q with
    | none =>
      cases h
      rfl
    | some current => cases h
  | succ n ih =>
    cases q with
    | none =>
      cases h
      rfl
    | some current =>
      obtain ⟨nd, hnd, h⟩ := bind_eq_ok.mp h
      obtain ⟨ws, hws, h⟩ := bind_eq_ok.mp h
      obtain rfl := Except.ok.inj h
      have hprint : fprintf fp " read():%d" [nd.val] =
          fp.puts (" read():".toList ++ showInt nd.val) :=
        congrArg fp.puts
          (debugLogVprintf_d " read():".toList (by decide) (hvs _ List.mem_cons_self))
      rw [printfIntLoop, hnd, ok_bind, ih hws fun v hv => hvs v (List.mem_cons_of_mem _ hv), hprint,
        ← Sink.puts_append, List.map_cons, List.flatMap_cons]
      rfl

/-- **An entry of a `write()`** gets its line, unless its list is empty. -/
theorem printfEntry_eq {n : ℤ} {q : Ptr} {vs : List ℤ} (h : ints.toList q = .ok vs)
    (hq : q = none ↔ vs = []) (hn : IsInt n) (hvs : ∀ v ∈ vs, IsInt v) :
    printfEntry ints fp ⟨.write n, q⟩ =
      .ok (fp.puts (traceText (if vs = [] then [] else [(n, vs)]))) := by
  rw [printfEntry]
  by_cases hnil : vs = []
  · rw [if_pos (hq.mpr hnil), if_pos hnil]
    rfl
  · have hprint : fprintf fp "write():%d" [n] = fp.puts ("write():".toList ++ showInt n) :=
      congrArg fp.puts (debugLogVprintf_d "write():".toList (by decide) hn)
    have hend (fp : VgFile) : fprintf fp "\n" [] = fp.puts ['\n'] := rfl
    rw [if_neg fun h => hnil (hq.mp h), if_neg hnil]
    simp only [hprint]
    rw [printfIntLoop_eq h hvs, ok_bind, hend, ← Sink.puts_append, ← Sink.puts_append]
    simp only [traceText, unlines, List.map_cons, List.map_nil, List.flatMap_cons,
      List.flatMap_nil, List.append_nil, traceLine, traceWords, intercalate_cons,
      List.append_assoc]

/-- **`printf_read_dep_list`** prints its entries one after the other. -/
theorem printfReadDepLoop_eq {α : Type} {entry : α → ReadDep} {text : α → List Char} {n : ℕ}
    {q : Ptr} {xs : List α} (h : nodes.toListFrom n q = .ok (xs.map entry))
    (htext : ∀ x ∈ xs, ∀ fp, printfEntry ints fp (entry x) = .ok (fp.puts (text x))) :
    printfReadDepLoop ints nodes n fp q = .ok (fp.puts (xs.flatMap text)) := by
  induction n generalizing q xs fp with
  | zero =>
    cases q with
    | none =>
      obtain rfl := List.map_eq_nil_iff.mp (Except.ok.inj h).symm
      rfl
    | some current => cases h
  | succ n ih =>
    cases q with
    | none =>
      obtain rfl := List.map_eq_nil_iff.mp (Except.ok.inj h).symm
      rfl
    | some current =>
      obtain ⟨nd, hnd, h⟩ := bind_eq_ok.mp h
      obtain ⟨ds, hds, h⟩ := bind_eq_ok.mp h
      obtain ⟨x, xs, rfl, hx, rfl⟩ := List.map_eq_cons_iff.mp (Except.ok.inj h).symm
      rw [printfReadDepLoop, hnd, ok_bind, ← hx, htext _ List.mem_cons_self, ok_bind,
        ih hds fun d hd => htext d (List.mem_cons_of_mem _ hd), ← Sink.puts_append,
        List.flatMap_cons]

/-- The records of a list of `write()`s: those with an empty list have none, and yet they are
counted. -/
def traceRecords (ws : List (List ℤ)) : List TraceRecord :=
  (ws.zipIdx.filter fun x => x.1 ≠ []).map fun x => (x.2 + 1, x.1)

theorem traceText_append (rs rs' : List TraceRecord) :
    traceText (rs ++ rs') = traceText rs ++ traceText rs' := by
  simp [traceText, unlines]

theorem traceText_flatMap {α : Type} (f : α → List TraceRecord) (xs : List α) :
    traceText (xs.flatMap f) = xs.flatMap fun x => traceText (f x) := by
  induction xs with
  | nil => rfl
  | cons x xs ih => rw [List.flatMap_cons, List.flatMap_cons, traceText_append, ih]

/-- The record of an entry of `write_deps`, if it has one. -/
def entryRecord : DepVal × List ℤ → List TraceRecord
  | (.write n, vs) => if vs = [] then [] else [(n, vs)]
  | _ => []

theorem flatMap_entryRecord (xs : List (List ℤ × ℕ)) :
    (xs.map fun x => (DepVal.write (x.2 + 1), x.1)).flatMap entryRecord =
      (xs.filter fun x => x.1 ≠ []).map fun x => ((x.2 + 1 : ℤ), x.1) := by
  induction xs with
  | nil => rfl
  | cons x xs ih =>
    rw [List.map_cons, List.flatMap_cons, ih, List.filter_cons]
    by_cases hx : x.1 = [] <;> simp [entryRecord, hx]

/-- **What is printed for a state**: the records of its `write()`s. -/
theorem printfReadDepLoop_rep {s : State} {a : DepState} (hr : Rep s a) {ws : List (List ℤ)}
    (hwrites : a.writes.map (fun e => (e.val, e.deps)) =
      ws.zipIdx.map fun x => (DepVal.write (x.2 + 1), x.1))
    (hlen : (ws.length : ℤ) < 2 ^ 31) (hints : ∀ vs ∈ ws, ∀ v ∈ vs, IsInt v) :
    printfReadDepLoop s.ints s.nodes (s.nodes.top + 1) fp s.writeDeps =
      .ok (fp.puts (traceText (traceRecords ws))) := by
  obtain ⟨P, hlist, hat⟩ := hr.writes
  have hentry : ∀ e ∈ a.writes, ∀ fp, printfEntry s.ints fp ⟨e.val, P e.id⟩ =
      .ok (fp.puts (traceText (entryRecord (e.val, e.deps)))) := by
    intro e he fp
    obtain ⟨x, hx, hxe⟩ := List.mem_map.mp (hwrites ▸ List.mem_map_of_mem he)
    obtain ⟨hval, hdeps⟩ := Prod.mk.inj hxe
    obtain ⟨-, hlt, hmem⟩ := List.mem_zipIdx hx
    rw [← hval, ← hdeps]
    refine printfEntry_eq (hdeps ▸ (hat e he).toList) (hdeps ▸ (hat e he).eq_none_iff) ?_ ?_
    · exact ⟨by omega, by omega⟩
    · exact hints _ (hmem ▸ List.getElem_mem _)
  have hrecords : (a.writes.flatMap fun e => entryRecord (e.val, e.deps)) = traceRecords ws := by
    rw [traceRecords, ← flatMap_entryRecord, ← hwrites, List.flatMap_map]
  rw [printfReadDepLoop_eq hlist hentry, ← traceText_flatMap, hrecords]

end DepLeak

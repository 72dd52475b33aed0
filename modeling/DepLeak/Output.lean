import Mathlib.Data.List.Basic
import Mathlib.Algebra.Ring.Int.Defs

/-!
# Text that is written through a buffer

A file that is written one character at a time: the characters are collected in a
buffer, and the buffer is written out as a block when it is full. Closing the file
writes what is left. `Output.Sink` is such a file; that its blocks are full and its
buffer is not is part of it. What has been written when the file is closed is the text
that was put into it, whatever the calls were (`Output.Sink.flatten_close`), in blocks
that are all full but the last (`Output.Sink.length_of_mem_dropLast_close`).

A text is read back line by line (`Output.lines_unlines`), and an integer from its sign
and its decimal digits (`Output.readInt_showInt`).
-/

namespace Output

/-! ### A buffer -/

/-- A file that is written through a buffer of `cap` characters. -/
structure Sink (α : Type) (cap : ℕ) where
  /-- The blocks that have been written. -/
  written : List (List α)
  /-- The characters in the buffer. -/
  buf : List α
  /-- A block is written when it is full. -/
  full : ∀ b ∈ written, b.length = cap
  /-- There is room in the buffer. -/
  room : buf.length < cap

namespace Sink

variable {α : Type} {cap : ℕ}

/-- A file in which nothing has been written. -/
def new (α : Type) {cap : ℕ} (h : 0 < cap) : Sink α cap :=
  ⟨[], [], fun _ hb => absurd hb List.not_mem_nil, h⟩

/-- One more character: the buffer is written when it becomes full. -/
def put (s : Sink α cap) (c : α) : Sink α cap :=
  if h : s.buf.length + 1 = cap then
    { written := s.written ++ [s.buf ++ [c]]
      buf := []
      full := fun b hb => (List.mem_append.mp hb).elim (s.full b) fun hb => by
        rw [List.mem_singleton.mp hb, List.length_append, List.length_singleton, h]
      room := h ▸ Nat.succ_pos _ }
  else
    { written := s.written
      buf := s.buf ++ [c]
      full := s.full
      room := by
        have := s.room
        rw [List.length_append, List.length_singleton]
        omega }

/-- The characters of a text, one after the other. -/
def puts (s : Sink α cap) (cs : List α) : Sink α cap := cs.foldl put s

/-- The blocks that have been written when the file is closed. -/
def close (s : Sink α cap) : List (List α) :=
  if s.buf = [] then s.written else s.written ++ [s.buf]

/-- Everything that has been put into the file. -/
def text (s : Sink α cap) : List α := s.written.flatten ++ s.buf

@[simp] theorem text_new (h : 0 < cap) : (new α h).text = [] := rfl

@[simp] theorem text_put (s : Sink α cap) (c : α) : (s.put c).text = s.text ++ [c] := by
  rw [put]
  split <;> simp [text]

/-- **Nothing is lost and nothing is put twice**, wherever the buffer fills up. -/
@[simp] theorem text_puts (s : Sink α cap) (cs : List α) : (s.puts cs).text = s.text ++ cs := by
  induction cs generalizing s with
  | nil => simp [puts]
  | cons c cs ih =>
    have h : s.puts (c :: cs) = (s.put c).puts cs := rfl
    rw [h, ih, text_put, List.append_assoc, List.singleton_append]

theorem puts_append (s : Sink α cap) (cs ds : List α) : s.puts (cs ++ ds) = (s.puts cs).puts ds :=
  List.foldl_append

/-- **What is in the file once it is closed.** -/
theorem flatten_close (s : Sink α cap) : s.close.flatten = s.text := by
  rw [close, text]
  split
  · simp [*]
  · simp

/-- The blocks that are written are full, up to the last one. -/
theorem length_of_mem_dropLast_close (s : Sink α cap) {b : List α} (hb : b ∈ s.close.dropLast) :
    b.length = cap := by
  rw [close] at hb
  split at hb
  · exact s.full b ((List.dropLast_sublist _).subset hb)
  · rw [List.dropLast_concat] at hb
    exact s.full b hb

end Sink

/-! ### Lines -/

section Lines

variable {α : Type} [BEq α] [LawfulBEq α]

/-- Lines, each with its end. -/
def unlines (sep : α) (ls : List (List α)) : List α := ls.flatMap fun l => l ++ [sep]

/-- The lines of a text. -/
def lines (sep : α) (cs : List α) : List (List α) := (cs.splitOn sep).dropLast

/-- **The lines of a text are read back**, if their end is in none of them. -/
theorem lines_unlines {sep : α} {ls : List (List α)} (h : ∀ l ∈ ls, sep ∉ l) :
    lines sep (unlines sep ls) = ls := by
  rw [lines]
  induction ls with
  | nil => rfl
  | cons l ls ih =>
    have hsplit : (unlines sep (l :: ls)).splitOn sep = l :: (unlines sep ls).splitOn sep := by
      rw [unlines, List.flatMap_cons, List.append_assoc, List.singleton_append,
        List.splitOn_append_cons_self_of_not_mem (h l List.mem_cons_self)]
      rfl
    rw [hsplit, List.dropLast_cons_of_ne_nil (List.splitOn_ne_nil _ _),
      ih fun l hl => h l (List.mem_cons_of_mem _ hl)]

end Lines

/-- Words that are separated by `sep`: all but the first come after a separator. -/
theorem intercalate_cons {α : Type} (sep : α) (w : List α) (ws : List (List α)) :
    [sep].intercalate (w :: ws) = w ++ ws.flatMap fun w => sep :: w := by
  induction ws generalizing w with
  | nil => simp
  | cons w' ws ih =>
    rw [List.intercalate_cons_cons, ih, List.flatMap_cons, List.append_assoc,
      List.singleton_append, List.cons_append]

/-- What is shown one by one is read back one by one. -/
theorem mapM_read_show {α β : Type} {read : β → Option α} {shown : α → β}
    (h : ∀ a, read (shown a) = some a) (as : List α) : (as.map shown).mapM read = some as := by
  induction as with
  | nil => rfl
  | cons a as ih =>
    rw [List.map_cons, List.mapM_cons, h, ih]
    rfl

/-! ### Integers -/

/-- An integer in decimal. -/
def showInt (n : ℤ) : List Char :=
  if n < 0 then '-' :: Nat.toDigits 10 n.natAbs else Nat.toDigits 10 n.natAbs

/-- The number that a list of digits is. -/
def readNat (cs : List Char) : Option ℕ :=
  if cs ≠ [] ∧ cs.all Char.isDigit then some (Nat.ofDigitChars 10 cs 0) else none

/-- The integer in decimal that a text is. -/
def readInt : List Char → Option ℤ
  | '-' :: cs => (readNat cs).map fun n => -Int.ofNat n
  | cs => (readNat cs).map Int.ofNat

theorem readNat_toDigits (n : ℕ) : readNat (Nat.toDigits 10 n) = some n := by
  have hall : (Nat.toDigits 10 n).all Char.isDigit :=
    List.all_eq_true.mpr fun c hc => Nat.isDigit_of_mem_toDigits (by decide) (by decide) hc
  rw [readNat, if_pos ⟨Nat.toDigits_ne_nil, hall⟩, Nat.ofDigitChars_ten_toDigits]

/-- The digits of a number do not start with a sign. -/
theorem toDigits_ne_minus (n : ℕ) (cs : List Char) : Nat.toDigits 10 n ≠ '-' :: cs := by
  intro h
  have hdigit := Nat.isDigit_of_mem_toDigits (b := 10) (n := n) (c := '-') (by decide) (by decide)
    (h ▸ List.mem_cons_self)
  exact absurd hdigit (by decide)

/-- **An integer is read back from its decimal text.** -/
theorem readInt_showInt (n : ℤ) : readInt (showInt n) = some n := by
  rw [showInt]
  by_cases hn : n < 0
  · rw [if_pos hn, readInt, readNat_toDigits, Option.map_some, Int.ofNat_eq_natCast,
      Int.ofNat_natAbs_of_nonpos (Int.le_of_lt hn), Int.neg_neg]
  · rw [if_neg hn]
    have h : readInt (Nat.toDigits 10 n.natAbs) =
        (readNat (Nat.toDigits 10 n.natAbs)).map Int.ofNat := by
      rw [readInt]
      exact fun cs => toDigits_ne_minus n.natAbs cs
    rw [h, readNat_toDigits, Option.map_some, Int.ofNat_eq_natCast,
      Int.natAbs_of_nonneg (Int.not_lt.mp hn)]

/-- The characters of an integer. -/
theorem mem_showInt {n : ℤ} {c : Char} (h : c ∈ showInt n) : c = '-' ∨ c.isDigit := by
  have hdigit {c : Char} (h : c ∈ Nat.toDigits 10 n.natAbs) : c.isDigit :=
    Nat.isDigit_of_mem_toDigits (by decide) (by decide) h
  rw [showInt] at h
  split at h
  · exact (List.mem_cons.mp h).imp_right hdigit
  · exact Or.inr (hdigit h)

end Output

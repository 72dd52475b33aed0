import Mathlib.Data.List.Induction
import Mathlib.Logic.Function.Basic

/-!
# Blocks of memory, and the locations that hold them

Locations get blocks by allocation and from one another; a block is freed through a
location that holds it. `Ledger.exec` says, after any list of operations, what every
location holds and which blocks were freed.

Two kinds of lists of operations are singled out.

* A copy is *blank* if its source was never given a block. It empties its destination;
  `Ledger.withoutBlanks` leaves such copies out. That changes what a location holds only
  from nothing to something (`Ledger.holds_withoutBlanks`), so that a block freed without
  them and not with them is one that a free through an emptied location misses
  (`Ledger.mem_freed_or_missed`).
* Operations are in *rounds* if every location that gets a block is freed before it gets
  another one, and before the end. Then every block is freed
  (`Ledger.allFreed_of_rounds`).

A `Ledger.Move` is an operation or a copy of many locations at once, and the blank copies can
be left out of a list of moves in the same way.
-/

namespace Ledger

/-! ### Somewhere in a list -/

section Occurs

variable {α : Type} {P : List α → α → Prop}

/-- Somewhere in the list there is an element that stands in relation `P` with those before
it. -/
def Occurs (P : List α → α → Prop) (l : List α) : Prop :=
  ∃ pre x post, l = pre ++ x :: post ∧ P pre x

theorem not_occurs_nil : ¬Occurs P [] := by
  rintro ⟨pre, x, post, h, -⟩
  simp at h

theorem occurs_append_singleton {l : List α} {x : α} :
    Occurs P (l ++ [x]) ↔ Occurs P l ∨ P l x := by
  constructor
  · rintro ⟨pre, y, post, h, hP⟩
    rcases List.eq_nil_or_concat post with rfl | ⟨post', z, rfl⟩
    · obtain ⟨rfl, hxy⟩ := List.append_inj' h rfl
      obtain rfl := List.singleton_inj.mp hxy
      exact .inr hP
    · rw [List.concat_eq_append, ← List.cons_append, ← List.append_assoc] at h
      obtain ⟨rfl, -⟩ := List.append_inj' h rfl
      exact .inl ⟨pre, y, post', rfl, hP⟩
  · rintro (⟨pre, y, post, rfl, hP⟩ | hP)
    · exact ⟨pre, y, post ++ [x], by simp, hP⟩
    · exact ⟨l, x, [], rfl, hP⟩

end Occurs

/-! ### Operations -/

/-- What is done with blocks and locations. -/
inductive Op (ι : Type)
  /-- The location gets a new block. -/
  | alloc (l : ι)
  /-- The location gets what the other one holds. -/
  | copy (dst src : ι)
  /-- The block that the location holds is freed. -/
  | free (l : ι)
  deriving DecidableEq

/-- What the locations hold; blocks are numbered in the order of their allocation. -/
structure State (ι : Type) where
  /-- The number of the next block. -/
  count : ℕ
  /-- The block that a location holds, if any. -/
  holds : ι → Option ℕ
  /-- The blocks that were freed. -/
  freed : List ℕ

/-- In the beginning, no location holds a block. -/
def State.init {ι : Type} : State ι := ⟨0, fun _ => none, []⟩

/-- Every block was freed. -/
def State.AllFreed {ι : Type} (s : State ι) : Prop := ∀ id < s.count, id ∈ s.freed

variable {ι : Type} [DecidableEq ι]

/-- One operation. -/
def State.step (s : State ι) : Op ι → State ι
  | .alloc l => ⟨s.count + 1, Function.update s.holds l (some s.count), s.freed⟩
  | .copy dst src => ⟨s.count, Function.update s.holds dst (s.holds src), s.freed⟩
  | .free l => ⟨s.count, s.holds, (s.holds l).toList ++ s.freed⟩

/-- Every location gets what the one at `src` of it holds, all at once. -/
def State.pull (s : State ι) (src : ι → ι) : State ι := ⟨s.count, fun l => s.holds (src l), s.freed⟩

/-- A list of operations, from the beginning. -/
def exec (ops : List (Op ι)) : State ι := ops.foldl State.step State.init

@[simp] theorem exec_nil : exec ([] : List (Op ι)) = State.init := rfl

@[simp] theorem exec_snoc (ops : List (Op ι)) (op : Op ι) :
    exec (ops ++ [op]) = (exec ops).step op := by
  simp [exec]

/-! ### Locations that were given a block -/

/-- Who was given a block, by allocation or from a location that was given one. -/
def give (g : ι → Bool) : Op ι → ι → Bool
  | .alloc l => Function.update g l true
  | .copy dst src => if g src then Function.update g dst true else g
  | .free _ => g

/-- Who was given a block by a list of operations. -/
def given (ops : List (Op ι)) : ι → Bool := ops.foldl give fun _ => false

@[simp] theorem given_nil : given ([] : List (Op ι)) = fun _ => false := rfl

@[simp] theorem given_snoc (ops : List (Op ι)) (op : Op ι) :
    given (ops ++ [op]) = give (given ops) op := by
  simp [given]

/-- A location that was given a block is allocated into. -/
def Reallocates (ops : List (Op ι)) : Prop :=
  Occurs (fun pre op => ∃ l, op = .alloc l ∧ given pre l) ops

theorem not_reallocates_nil : ¬Reallocates ([] : List (Op ι)) := not_occurs_nil

theorem reallocates_snoc {ops : List (Op ι)} {op : Op ι} :
    Reallocates (ops ++ [op]) ↔ Reallocates ops ∨ ∃ l, op = .alloc l ∧ given ops l :=
  occurs_append_singleton

/-! ### Leaving out the blank copies -/

/-- The operation is a copy from a location that was given no block. -/
def isBlank (g : ι → Bool) : Op ι → Bool
  | .copy _ src => !g src
  | _ => false

/-- The operations that are left, when `g` says who was given a block before. -/
def withoutBlanksFrom (g : ι → Bool) : List (Op ι) → List (Op ι)
  | [] => []
  | op :: ops =>
    if isBlank g op then withoutBlanksFrom g ops
    else op :: withoutBlanksFrom (give g op) ops

/-- The operations without the blank copies. -/
def withoutBlanks (ops : List (Op ι)) : List (Op ι) := withoutBlanksFrom (fun _ => false) ops

theorem give_of_isBlank {g : ι → Bool} {op : Op ι} (h : isBlank g op) : give g op = g := by
  cases op with
  | copy dst src =>
    have hsrc : g src = false := by simpa [isBlank] using h
    simp [give, hsrc]
  | _ => cases h

theorem withoutBlanksFrom_snoc (g : ι → Bool) (ops : List (Op ι)) (op : Op ι) :
    withoutBlanksFrom g (ops ++ [op]) =
      withoutBlanksFrom g ops ++ if isBlank (ops.foldl give g) op then [] else [op] := by
  induction ops generalizing g with
  | nil =>
    rw [List.nil_append, withoutBlanksFrom]
    rfl
  | cons op' ops ih =>
    rw [List.cons_append, withoutBlanksFrom, withoutBlanksFrom, List.foldl_cons]
    by_cases hblank : isBlank g op'
    · rw [if_pos hblank, if_pos hblank, ih, give_of_isBlank hblank]
    · rw [if_neg hblank, if_neg hblank, ih, List.cons_append]

@[simp] theorem withoutBlanks_nil : withoutBlanks ([] : List (Op ι)) = [] := rfl

theorem withoutBlanks_snoc (ops : List (Op ι)) (op : Op ι) :
    withoutBlanks (ops ++ [op]) =
      withoutBlanks ops ++ if isBlank (given ops) op then [] else [op] :=
  withoutBlanksFrom_snoc _ ops op

theorem withoutBlanks_snoc_of_not {ops : List (Op ι)} {op : Op ι}
    (h : ¬isBlank (given ops) op) : withoutBlanks (ops ++ [op]) = withoutBlanks ops ++ [op] := by
  rw [withoutBlanks_snoc, if_neg h]

theorem withoutBlanks_snoc_of_blank {ops : List (Op ι)} {op : Op ι}
    (h : isBlank (given ops) op) : withoutBlanks (ops ++ [op]) = withoutBlanks ops := by
  rw [withoutBlanks_snoc, if_pos h, List.append_nil]

/-- Without the blank copies, exactly those who were given a block hold one. -/
theorem holds_withoutBlanks_isSome (ops : List (Op ι)) (l : ι) :
    ((exec (withoutBlanks ops)).holds l).isSome = given ops l := by
  induction ops using List.reverseRecOn generalizing l with
  | nil => rfl
  | append_singleton ops op ih =>
    by_cases hblank : isBlank (given ops) op
    · rw [withoutBlanks_snoc_of_blank hblank, given_snoc, give_of_isBlank hblank, ih]
    · rw [withoutBlanks_snoc_of_not hblank, exec_snoc, given_snoc]
      cases op with
      | alloc l' =>
        rcases eq_or_ne l l' with rfl | hne
        · simp [State.step, give]
        · simp [State.step, give, hne, ih]
      | copy dst src =>
        have hsrc : given ops src = true := by simpa [isBlank] using hblank
        rcases eq_or_ne l dst with rfl | hne
        · simp [State.step, give, hsrc, ih]
        · simp [State.step, give, hsrc, hne, ih]
      | free l' => exact ih l

theorem count_withoutBlanks (ops : List (Op ι)) :
    (exec (withoutBlanks ops)).count = (exec ops).count := by
  induction ops using List.reverseRecOn with
  | nil => rfl
  | append_singleton ops op ih =>
    rw [exec_snoc]
    by_cases hblank : isBlank (given ops) op
    · rw [withoutBlanks_snoc_of_blank hblank, ih]
      cases op with
      | copy dst src => rfl
      | _ => cases hblank
    · rw [withoutBlanks_snoc_of_not hblank, exec_snoc]
      cases op <;> simp [State.step, ih]

/-- **The blank copies only take away**: what a location holds, it holds without them. -/
theorem holds_withoutBlanks {ops : List (Op ι)} {l : ι} {id : ℕ}
    (h : (exec ops).holds l = some id) : (exec (withoutBlanks ops)).holds l = some id := by
  induction ops using List.reverseRecOn generalizing l id with
  | nil => cases h
  | append_singleton ops op ih =>
    rw [exec_snoc] at h
    by_cases hblank : isBlank (given ops) op
    · rw [withoutBlanks_snoc_of_blank hblank]
      cases op with
      | copy dst src =>
        rcases eq_or_ne l dst with rfl | hne
        · -- the source holds nothing, as it was given nothing
          have hsrc : (exec ops).holds src = some id := by simpa [State.step] using h
          have hgiven := holds_withoutBlanks_isSome ops src
          rw [ih hsrc] at hgiven
          simp [isBlank, ← hgiven] at hblank
        · exact ih (by simpa [State.step, hne] using h)
      | _ => cases hblank
    · rw [withoutBlanks_snoc_of_not hblank, exec_snoc]
      cases op with
      | alloc l' =>
        rcases eq_or_ne l l' with rfl | hne
        · simpa [State.step, count_withoutBlanks] using h
        · simpa [State.step, hne] using ih (by simpa [State.step, hne] using h)
      | copy dst src =>
        rcases eq_or_ne l dst with rfl | hne
        · simpa [State.step] using ih (by simpa [State.step] using h)
        · simpa [State.step, hne] using ih (by simpa [State.step, hne] using h)
      | free l' => exact ih h

/-! ### What is freed -/

theorem mem_freed_step {s : State ι} {op : Op ι} {id : ℕ} :
    id ∈ (s.step op).freed ↔ id ∈ s.freed ∨ ∃ l, op = .free l ∧ s.holds l = some id := by
  cases op with
  | free l =>
    simp only [State.step, List.mem_append, Option.mem_toList, Op.free.injEq, exists_eq_left']
    exact or_comm
  | _ => simp [State.step]

/-- A free through a location that a blank copy has emptied misses the block. -/
def Missed (ops : List (Op ι)) (id : ℕ) : Prop :=
  Occurs (fun pre op => ∃ l, op = .free l ∧ (exec pre).holds l = none ∧
    (exec (withoutBlanks pre)).holds l = some id) ops

/-- **What is freed without the blank copies** is freed with them, or missed. -/
theorem mem_freed_withoutBlanks {ops : List (Op ι)} {id : ℕ} :
    id ∈ (exec (withoutBlanks ops)).freed ↔ id ∈ (exec ops).freed ∨ Missed ops id := by
  induction ops using List.reverseRecOn with
  | nil => simp [State.init, Missed, not_occurs_nil]
  | append_singleton ops op ih =>
    rw [Missed, occurs_append_singleton, ← Missed, exec_snoc, mem_freed_step]
    by_cases hblank : isBlank (given ops) op
    · rw [withoutBlanks_snoc_of_blank hblank, ih]
      cases op with
      | copy dst src => simp
      | _ => cases hblank
    · rw [withoutBlanks_snoc_of_not hblank, exec_snoc, mem_freed_step, ih]
      constructor
      · rintro ((hfreed | hmissed) | ⟨l, rfl, hl⟩)
        · exact .inl (.inl hfreed)
        · exact .inr (.inl hmissed)
        · cases hheld : (exec ops).holds l with
          | none => exact .inr (.inr ⟨l, rfl, hheld, hl⟩)
          | some id' =>
            obtain rfl : id' = id := Option.some.inj ((holds_withoutBlanks hheld).symm.trans hl)
            exact .inl (.inr ⟨l, rfl, hheld⟩)
      · rintro ((hfreed | ⟨l, rfl, hl⟩) | hmissed | ⟨l, rfl, -, hl⟩)
        · exact .inl (.inl hfreed)
        · exact .inr ⟨l, rfl, holds_withoutBlanks hl⟩
        · exact .inl (.inr hmissed)
        · exact .inr ⟨l, rfl, hl⟩

/-! ### Moves -/

/-- An operation, or one in which every location gets what another one holds, all at once. -/
inductive Move (ι : Type)
  /-- An operation. -/
  | op (op : Op ι)
  /-- Each location gets what the one at `src` of it holds. -/
  | pull (src : ι → ι)

/-- One move. -/
def State.move (s : State ι) : Move ι → State ι
  | .op op => s.step op
  | .pull src => s.pull src

/-- A list of moves, from the beginning. -/
def execMoves (ms : List (Move ι)) : State ι := ms.foldl State.move State.init

@[simp] theorem execMoves_snoc (ms : List (Move ι)) (m : Move ι) :
    execMoves (ms ++ [m]) = (execMoves ms).move m := by
  simp [execMoves]

/-- A block that is not freed, and that no location holds any more. -/
def State.Lost (s : State ι) (id : ℕ) : Prop :=
  id < s.count ∧ (∀ l, s.holds l ≠ some id) ∧ id ∉ s.freed

/-- **What is lost stays lost.** -/
theorem State.Lost.move {s : State ι} {id : ℕ} (h : s.Lost id) (m : Move ι) :
    (s.move m).Lost id := by
  obtain ⟨hlt, hholds, hfreed⟩ := h
  cases m with
  | op op =>
    cases op with
    | alloc l =>
      refine ⟨Nat.lt_succ_of_lt hlt, fun l' => ?_, hfreed⟩
      rcases eq_or_ne l' l with rfl | hne
      · simpa [State.move, State.step] using (Nat.ne_of_lt hlt).symm
      · simpa [State.move, State.step, hne] using hholds l'
    | copy dst src =>
      refine ⟨hlt, fun l' => ?_, hfreed⟩
      rcases eq_or_ne l' dst with rfl | hne
      · simpa [State.move, State.step] using hholds src
      · simpa [State.move, State.step, hne] using hholds l'
    | free l =>
      refine ⟨hlt, hholds, fun hmem => ?_⟩
      rcases List.mem_append.mp hmem with hmem | hmem
      · exact hholds l (Option.mem_toList.mp hmem)
      · exact hfreed hmem
  | pull src => exact ⟨hlt, fun l => hholds (src l), hfreed⟩

theorem not_allFreed_of_lost {ms ms' : List (Move ι)} {id : ℕ} (h : (execMoves ms).Lost id) :
    ¬(execMoves (ms ++ ms')).AllFreed := by
  have hlost : (execMoves (ms ++ ms')).Lost id := by
    induction ms' using List.reverseRecOn with
    | nil => rwa [List.append_nil]
    | append_singleton ms' m ih =>
      rw [← List.append_assoc, execMoves_snoc]
      exact ih.move m
  exact fun hall => hlost.2.2 (hall id hlost.1)

/-- Who was given a block. -/
def giveMove (g : ι → Bool) : Move ι → ι → Bool
  | .op op => give g op
  | .pull src => fun l => g (src l)

/-- Who was given a block by a list of moves. -/
def givenMoves (ms : List (Move ι)) : ι → Bool := ms.foldl giveMove fun _ => false

@[simp] theorem givenMoves_snoc (ms : List (Move ι)) (m : Move ι) :
    givenMoves (ms ++ [m]) = giveMove (givenMoves ms) m := by
  simp [givenMoves]

/-- A location that was given a block is allocated into. -/
def ReallocatesMoves (ms : List (Move ι)) : Prop :=
  Occurs (fun pre m => ∃ l, m = .op (.alloc l) ∧ givenMoves pre l) ms

/-- The move is a copy from a location that was given no block. -/
def isBlankMove (g : ι → Bool) : Move ι → Bool
  | .op op => isBlank g op
  | .pull _ => false

/-- The moves that are left, when `g` says who was given a block before. -/
def withoutBlankMovesFrom (g : ι → Bool) : List (Move ι) → List (Move ι)
  | [] => []
  | m :: ms =>
    if isBlankMove g m then withoutBlankMovesFrom g ms
    else m :: withoutBlankMovesFrom (giveMove g m) ms

/-- The moves without the blank copies. -/
def withoutBlankMoves (ms : List (Move ι)) : List (Move ι) :=
  withoutBlankMovesFrom (fun _ => false) ms

theorem giveMove_of_isBlankMove {g : ι → Bool} {m : Move ι} (h : isBlankMove g m) :
    giveMove g m = g := by
  cases m with
  | op op => exact give_of_isBlank h
  | pull src => cases h

theorem withoutBlankMoves_snoc (ms : List (Move ι)) (m : Move ι) :
    withoutBlankMoves (ms ++ [m]) =
      withoutBlankMoves ms ++ if isBlankMove (givenMoves ms) m then [] else [m] := by
  have hfrom : ∀ g : ι → Bool, withoutBlankMovesFrom g (ms ++ [m]) =
      withoutBlankMovesFrom g ms ++ if isBlankMove (ms.foldl giveMove g) m then [] else [m] := by
    induction ms with
    | nil =>
      intro g
      rw [List.nil_append, withoutBlankMovesFrom]
      rfl
    | cons m' ms ih =>
      intro g
      rw [List.cons_append, withoutBlankMovesFrom, withoutBlankMovesFrom, List.foldl_cons]
      by_cases hblank : isBlankMove g m'
      · rw [if_pos hblank, if_pos hblank, ih, giveMove_of_isBlankMove hblank]
      · rw [if_neg hblank, if_neg hblank, ih, List.cons_append]
  exact hfrom _

/-! ### Without copies -/

theorem withoutBlanks_of_forall_not_copy {ops : List (Op ι)}
    (h : ∀ dst src, .copy dst src ∉ ops) : withoutBlanks ops = ops := by
  induction ops using List.reverseRecOn with
  | nil => rfl
  | append_singleton ops op ih =>
    have hops : ∀ dst src, Op.copy dst src ∉ ops := fun dst src hmem =>
      h dst src (List.mem_append_left [op] hmem)
    rw [withoutBlanks_snoc_of_not, ih hops]
    cases op with
    | copy dst src => exact absurd (by simp) (h dst src)
    | _ => simp [isBlank]

theorem given_iff_mem {ops : List (Op ι)} (h : ∀ dst src, .copy dst src ∉ ops) (l : ι) :
    given ops l ↔ .alloc l ∈ ops := by
  induction ops using List.reverseRecOn with
  | nil => simp
  | append_singleton ops op ih =>
    have hops : ∀ dst src, Op.copy dst src ∉ ops := fun dst src hmem =>
      h dst src (List.mem_append_left [op] hmem)
    rw [given_snoc, List.mem_append, List.mem_singleton, ← ih hops]
    cases op with
    | alloc l' =>
      rcases eq_or_ne l l' with rfl | hne
      · simp [give]
      · simp [give, hne]
    | copy dst src => exact absurd (by simp) (h dst src)
    | free l' => simp [give]

/-- **Without copies**, a location is allocated into again if it is allocated into twice. -/
theorem reallocates_iff {ops : List (Op ι)} (h : ∀ dst src, .copy dst src ∉ ops) :
    Reallocates ops ↔ ∃ l, 2 ≤ ops.count (.alloc l) := by
  induction ops using List.reverseRecOn with
  | nil => simp [not_reallocates_nil]
  | append_singleton ops op ih =>
    have hops : ∀ dst src, Op.copy dst src ∉ ops := fun dst src hmem =>
      h dst src (List.mem_append_left [op] hmem)
    rw [reallocates_snoc, ih hops]
    constructor
    · rintro (⟨l, hl⟩ | ⟨l, rfl, hl⟩)
      · exact ⟨l, Nat.le_trans hl ((List.sublist_append_left ops [op]).count_le _)⟩
      · have hpos := List.count_pos_iff.mpr ((given_iff_mem hops l).mp hl)
        refine ⟨l, ?_⟩
        rw [List.count_append, List.count_singleton_self]
        omega
    · rintro ⟨l, hl⟩
      rw [List.count_append] at hl
      rcases eq_or_ne op (.alloc l) with rfl | hne
      · rw [List.count_singleton_self] at hl
        refine .inr ⟨l, rfl, (given_iff_mem hops l).mpr (List.count_pos_iff.mp ?_)⟩
        omega
      · rw [List.count_singleton, beq_false_of_ne hne, if_neg Bool.false_ne_true] at hl
        exact .inl ⟨l, hl⟩

/-! ### Rounds -/

/-- The operations are in rounds, when the locations in `live` hold a block to be freed. -/
def Rounds (live : ι → Prop) : List (Op ι) → Prop
  | [] => ∀ l, ¬live l
  | .alloc l :: ops => ¬live l ∧ Rounds (fun l' => l' = l ∨ live l') ops
  | .copy _ _ :: _ => False
  | .free l :: ops => live l ∧ Rounds (fun l' => l' ≠ l ∧ live l') ops

omit [DecidableEq ι] in
theorem Rounds.not_copy {live : ι → Prop} {ops : List (Op ι)} (h : Rounds live ops)
    (dst src : ι) : .copy dst src ∉ ops := by
  induction ops generalizing live with
  | nil => exact List.not_mem_nil
  | cons op ops ih =>
    cases op with
    | alloc l => simpa using ih h.2
    | copy dst' src' => exact h.elim
    | free l => simpa using ih h.2

/-- **In rounds, every block is freed.** -/
theorem allFreed_of_rounds {live : ι → Prop} {ops : List (Op ι)} {s : State ι}
    (h : Rounds live ops)
    (hs : ∀ id < s.count, id ∈ s.freed ∨ ∃ l, live l ∧ s.holds l = some id) :
    (ops.foldl State.step s).AllFreed := by
  induction ops generalizing live s with
  | nil =>
    intro id hid
    rcases hs id hid with hfreed | ⟨l, hl, -⟩
    · exact hfreed
    · exact absurd hl (h l)
  | cons op ops ih =>
    cases op with
    | alloc l =>
      obtain ⟨hl, hops⟩ := h
      refine ih hops fun id hid => ?_
      rcases Nat.lt_succ_iff_lt_or_eq.mp hid with hlt | rfl
      · rcases hs id hlt with hfreed | ⟨l', hl', hheld⟩
        · exact .inl hfreed
        · have hne : l' ≠ l := fun heq => hl (heq ▸ hl')
          exact .inr ⟨l', .inr hl', by simpa [State.step, hne] using hheld⟩
      · exact .inr ⟨l, .inl rfl, by simp [State.step]⟩
    | copy dst src => exact h.elim
    | free l =>
      obtain ⟨-, hops⟩ := h
      refine ih hops fun id hid => ?_
      rcases hs id hid with hfreed | ⟨l', hl', hheld⟩
      · exact .inl (mem_freed_step.mpr (.inl hfreed))
      · rcases eq_or_ne l' l with rfl | hne
        · exact .inl (mem_freed_step.mpr (.inr ⟨l', rfl, hheld⟩))
        · exact .inr ⟨l', ⟨hne, hl'⟩, hheld⟩

end Ledger

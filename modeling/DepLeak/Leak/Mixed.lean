import DepLeak.Leak.Structs

/-!
# Pointers read out of structures

Paths on which the fields of structures and variables get blocks, structures are copied, and
variables get what other variables or fields hold (`DepLeak.MixedPath`). A load from a field
has no name that the detector knows, so that the variable it is stored to is not noted to hold
the block; and from the second visit of a block on, the instruction that was put before a call
of `free` hides the load from it. No leak is found where there is none exactly if every block
is freed without these operations as well, and the detector can count the blocks
(`DepLeak.MixedPath.keepsBlocks_iff`).
-/

namespace DepLeak

open Runs Ledger Detector

/-! ### Notes of moves -/

/-- What the detector notes of one move: structures are copied as they are. -/
def noteMove (s : State Location) : Move Location → State Location
  | .op op => note s op
  | .pull src => s.pull src

/-- What it notes of a list of moves. -/
def notedMoves (ms : List (Move Location)) : State Location := ms.foldl noteMove State.init

@[simp] theorem notedMoves_snoc (ms : List (Move Location)) (m : Move Location) :
    notedMoves (ms ++ [m]) = noteMove (notedMoves ms) m := by
  simp [notedMoves]

theorem count_noteMove (s : State Location) (m : Move Location) :
    (noteMove s m).count = (s.move m).count := by
  cases m with
  | op op => exact count_note s op
  | pull src => rfl

theorem count_le_foldl_noteMove (s : State Location) (ms : List (Move Location)) :
    s.count ≤ (ms.foldl noteMove s).count := by
  induction ms generalizing s with
  | nil => exact le_rfl
  | cons m ms ih =>
    refine le_trans ?_ (ih (noteMove s m))
    cases m with
    | op op => exact count_le_foldl_note s [op]
    | pull src => exact le_rfl

theorem notedMoves_holds_isSome (ms : List (Move Location)) (l : Location) :
    ((notedMoves ms).holds l).isSome = givenMoves ms l := by
  induction ms using List.reverseRecOn generalizing l with
  | nil => rfl
  | append_singleton ms m ih =>
    rw [notedMoves_snoc, givenMoves_snoc]
    cases m with
    | op op => exact note_holds_isSome ih op l
    | pull src => exact ih (src l)

theorem reallocatesMoves_snoc {ms : List (Move Location)} {m : Move Location} :
    ReallocatesMoves (ms ++ [m]) ↔
      ReallocatesMoves ms ∨ ∃ l, m = .op (.alloc l) ∧ givenMoves ms l :=
  occurs_append_singleton

/-- **The notes are right about the moves without the blank copies**, as long as no location
that was given a block is allocated into. -/
theorem notedMoves_eq {ms : List (Move Location)} (h : ¬ReallocatesMoves ms) :
    notedMoves ms = execMoves (withoutBlankMoves ms) := by
  induction ms using List.reverseRecOn with
  | nil => rfl
  | append_singleton ms m ih =>
    rw [reallocatesMoves_snoc, not_or] at h
    obtain ⟨hms, hm⟩ := h
    rw [notedMoves_snoc, withoutBlankMoves_snoc]
    by_cases hblank : isBlankMove (givenMoves ms) m
    · rw [if_pos hblank, List.append_nil, ← ih hms]
      cases m with
      | op op => exact note_of_isBlank (notedMoves_holds_isSome ms) hblank
      | pull src => cases hblank
    · rw [if_neg hblank, execMoves_snoc, ← ih hms]
      cases m with
      | op op =>
        exact note_eq_step (notedMoves_holds_isSome ms) hblank fun l hl hgiven =>
          hm ⟨l, congrArg Move.op hl, hgiven⟩
      | pull src => rfl

theorem allocated_notedMoves (ms : List (Move Location)) : Allocated (notedMoves ms) := by
  induction ms using List.reverseRecOn with
  | nil => exact allocated_noted []
  | append_singleton ms m ih =>
    rw [notedMoves_snoc]
    cases m with
    | op op => exact ih.note op
    | pull src => exact ih.pull src

theorem Orphan.pull {s : State Location} {id : ℕ} (h : Orphan s id)
    (src : Location → Location) : Orphan (s.pull src) id :=
  ⟨h.1, fun l => h.2.1 (src l), h.2.2⟩

/-- **When the notes find every block freed.** -/
theorem notedMoves_allFreed_iff {ms : List (Move Location)} : (notedMoves ms).AllFreed ↔
    ¬ReallocatesMoves ms ∧ (execMoves (withoutBlankMoves ms)).AllFreed := by
  have horphan : ReallocatesMoves ms → ∃ id, Orphan (notedMoves ms) id := by
    induction ms using List.reverseRecOn with
    | nil => exact fun h => absurd h not_occurs_nil
    | append_singleton ms m ih =>
      intro h
      rw [notedMoves_snoc]
      rcases reallocatesMoves_snoc.mp h with hms | ⟨l, rfl, hl⟩
      · obtain ⟨id, hid⟩ := ih hms
        cases m with
        | op op => exact ⟨id, hid.note op⟩
        | pull src => exact ⟨id, hid.pull src⟩
      · rw [← notedMoves_holds_isSome] at hl
        exact ⟨_, (allocated_notedMoves ms).orphan hl⟩
  constructor
  · intro h
    have hre : ¬ReallocatesMoves ms := by
      intro hre
      obtain ⟨id, hlt, -, hid⟩ := horphan hre
      exact hid (h id hlt)
    exact ⟨hre, notedMoves_eq hre ▸ h⟩
  · rintro ⟨hre, h⟩
    rwa [notedMoves_eq hre]

/-! ### Operations -/

/-- What is done with structures, their fields and variables. -/
inductive MixedOp
  /-- A location gets a new block. -/
  | malloc (l : Location)
  /-- `v := w` or `v := s.f`. -/
  | copy (v : String) (src : Location)
  /-- `d := s`. -/
  | memcpy (d s : String)
  /-- The block that the location holds is freed. -/
  | free (l : Location)
  deriving DecidableEq

namespace MixedOp

/-- **What it does.** -/
def move : MixedOp → Move Location
  | .malloc l => .op (.alloc l)
  | .copy v src => .op (.copy (.var v) src)
  | .memcpy d s => .pull (fieldSource d s)
  | .free l => .op (.free l)

/-- What the detector sees of it, on the first visit of its block or on a later one: a copy
from a field is not seen, nor a free through a field when its block has been visited
before. -/
def seen (again : Bool) : MixedOp → Bool
  | .copy _ (.field _ _) => false
  | .free (.field _ _) => !again
  | _ => true

/-- The variables have names. -/
def Named : MixedOp → Prop
  | .malloc l => l ≠ .var ""
  | .copy v src => v ≠ "" ∧ src ≠ .var ""
  | .memcpy _ _ => True
  | .free l => l ≠ .var ""

end MixedOp

/-- The moves of a list of operations that the detector sees on one visit of their block. -/
def seenMoves (again : Bool) (ops : List MixedOp) : List (Move Location) :=
  (ops.filter (MixedOp.seen again)).map MixedOp.move

/-! ### Their code -/

/-- The operand of a load from the location, or of a store to it, where the variables are
kept at these addresses. -/
def addressOf (address : String → Value) : Location → Value
  | .var v => address v
  | .field s f => (Location.field s f).address

/-- An instruction that plays no part, whatever the variables hold: no store, and none that
the detector would take for one. -/
def Idle (i : Instruction) (rest : List Instruction) : Prop :=
  Quiet (fun _ => True) i rest ∧ ∀ value pointer, i ≠ .store value pointer

/-- **The code of a list of operations**, with instructions among it that play no part. When
the detector has been there before, there is an instruction made of the address between the
load and the call of a free through a field. -/
inductive MixedCode (address : String → Value) (again : Bool) :
    List MixedOp → List Instruction → Prop
  /-- The end of a block. -/
  | nil : MixedCode address again [] []
  /-- Any other instruction. -/
  | quiet {ops : List MixedOp} {i : Instruction} {rest : List Instruction} :
    Idle i rest → MixedCode address again ops rest → MixedCode address again ops (i :: rest)
  /-- A call of `malloc`, directly followed by a store to the location. -/
  | malloc {ops : List MixedOp} {rest : List Instruction} (l : Location) (id : ℕ)
      (name : String) (args : List Value) : MixedCode address again ops rest →
    MixedCode address again (.malloc l :: ops)
      (.call id (some "malloc") args ::
        .store (.result id name) (addressOf address l) :: rest)
  /-- A load of a location, directly followed by a store to a variable. -/
  | copy {ops : List MixedOp} {rest : List Instruction} (v : String) (src : Location) (id : ℕ)
      (name : String) : MixedCode address again ops rest →
    MixedCode address again (.copy v src :: ops)
      (.load id (addressOf address src) :: .store (.result id name) (address v) :: rest)
  /-- A call of `llvm.memcpy` on the addresses of two structures. -/
  | memcpy {ops : List MixedOp} {rest : List Instruction} (d s : String) (id : ℕ)
      (args : List Value) : MixedCode address again ops rest →
    MixedCode address again (.memcpy d s :: ops)
      (.call id (some memcpyName) (bitCast d :: bitCast s :: args) :: rest)
  /-- A load of the location, directly followed by a call of `free`. -/
  | free {ops : List MixedOp} {rest : List Instruction} (l : Location) (id id' : ℕ)
      (name : String) : MixedOp.seen again (.free l) → MixedCode address again ops rest →
    MixedCode address again (.free l :: ops)
      (.load id (addressOf address l) :: .call id' (some "free") [.result id name] :: rest)
  /-- The same when the detector has been there before. -/
  | freeAgain {ops : List MixedOp} {rest : List Instruction} (s : String) (f : BitVec 32)
      (id id' : ℕ) (name : String) (opcode : Opcode) (operands : List Value) : again →
      MixedCode address again ops rest →
    MixedCode address again (.free (.field s f) :: ops)
      (.load id (Location.field s f).address :: .expression opcode operands ::
        .call id' (some "free") [.result id name] :: rest)

/-! ### The detector on a block -/

section Block

variable {address : String → Value} {again : Bool} {ops : List MixedOp} {d d' : Detector}
  {s : State Location} {before rest l : List Instruction}

/-- A variable that is known by its name is kept at no constant expression. -/
theorem Value.of_key_var {v : Value} {x : String} (h : v.key = some (.var x)) :
    v.getName = x ∧ v.spliced = [] := by
  cases v with
  | constantExpr opcode operands =>
    rw [Value.key] at h
    split at h <;> cases h
  | _ => exact ⟨Location.var.inj (Option.some.inj h), rfl⟩

theorem key_addressOf (haddress : ∀ v, (address v).key = some (.var v)) (l : Location) :
    (addressOf address l).key = some l := by
  cases l with
  | var v => exact haddress v
  | field x k => exact (Location.field x k).key_address

/-- Nothing is ever noted under the empty name. -/
theorem noteMove_blank {op : MixedOp} (hop : op.Named) (hs : s.holds (.var "") = none) :
    (noteMove s op.move).holds (.var "") = none := by
  cases op with
  | malloc l => simpa [MixedOp.move, noteMove, note, insert_apply, hop.symm] using hs
  | copy v src =>
    cases hsrc : s.holds src with
    | none => simpa [MixedOp.move, noteMove, note, hsrc] using hs
    | some id => simpa [MixedOp.move, noteMove, note, hsrc, hop.1.symm] using hs
  | memcpy dst src => exact hs
  | free l => exact hs

/-- **A copy into a variable** is noted if the source has a name. -/
theorem Notes.visitLoad_copy (haddress : ∀ v, (address v).key = some (.var v)) (hd : Notes d s)
    (hs : s.holds (.var "") = none) (v : String) (src : Location) (value : Value)
    (rest : List Instruction) :
    Notes (visitLoad (addressOf address src) (.store value (address v) :: rest) d)
      ((seenMoves again [.copy v src]).foldl noteMove s) := by
  have hnames : visitLoad (addressOf address src) (.store value (address v) :: rest) d =
      visitLoad (.global (addressOf address src).getName) (.store value (.global v) :: rest) d := by
    have hv := (Value.of_key_var (haddress v)).1
    have hglobal : ∀ name, (Value.global name).getName = name := fun _ => rfl
    simp [visitLoad, adjacent, Instruction.isDebug, hglobal, hv]
  rw [hnames]
  cases src with
  | var w =>
    rw [addressOf, (Value.of_key_var (haddress w)).1]
    exact hd.visitLoad_store v w value rest
  | field x k =>
    -- a constant expression has no name
    have hnone : d.malloc_vars "" = none := (hd.vars "").trans hs
    simpa [seenMoves, MixedOp.seen, addressOf, Location.address, Value.getName, visitLoad,
      adjacent, Instruction.isDebug, hnone] using hd

/-- No instruction is stored by the next one. -/
def NoStore (l : List Instruction) : Prop :=
  ∀ value target, adjacent l ≠ some (.store value target)

theorem Idle.of_noStore {i : Instruction} {left : List Instruction} (h : Idle i rest)
    (hstore : NoStore rest → NoStore left) : Idle i left := by
  refine ⟨?_, h.2⟩
  cases i with
  | load id pointer => exact fun _ => hstore (h.1 trivial)
  | _ => exact h.1

theorem NoStore.cons {i : Instruction} (hi : ∀ value pointer, i ≠ .store value pointer)
    (hdebug : i.isDebug → NoStore l) : NoStore (i :: l) := by
  intro value target
  rw [adjacent_cons]
  split
  · rename_i hd
    exact hdebug hd value target
  · exact fun h => hi value target (Option.some.inj h)

/-- What is put before a call plays no part. -/
theorem MixedCode.spliced (h : MixedCode address again ops l) (v : Value) :
    MixedCode address again ops (v.spliced.reverse ++ l) := by
  cases v with
  | constantExpr opcode operands => exact .quiet ⟨trivial, fun _ _ => Instruction.noConfusion⟩ h
  | _ => exact h

theorem NoStore.spliced (h : NoStore l) (v : Value) : NoStore (v.spliced.reverse ++ l) := by
  cases v with
  | constantExpr opcode operands =>
    exact NoStore.cons (fun _ _ => Instruction.noConfusion) fun _ => h
  | _ => exact h

theorem seenMoves_cons (op : MixedOp) (ops : List MixedOp) : seenMoves again (op :: ops) =
    seenMoves again [op] ++ seenMoves again ops := by
  cases h : MixedOp.seen again op <;> simp [seenMoves, h]

/-- Notes of an operation that is seen. -/
theorem foldl_seenMoves_of_seen {op : MixedOp} (h : MixedOp.seen again op) :
    (seenMoves again [op]).foldl noteMove s = noteMove s op.move := by
  simp [seenMoves, h]

theorem foldl_seenMoves_blank {op : MixedOp} (hop : op.Named) (hs : s.holds (.var "") = none) :
    ((seenMoves again [op]).foldl noteMove s).holds (.var "") = none := by
  cases h : MixedOp.seen again op with
  | true =>
    rw [foldl_seenMoves_of_seen h]
    exact noteMove_blank hop hs
  | false => simpa [seenMoves, h] using hs

/-- **What a visit of a block leads to**: the detector notes the operations that it sees, and
leaves the code of the same operations for the next visit; or there are too many blocks to
count. -/
def Visits (address : String → Value) (again : Bool) (ops : List MixedOp) (d : Detector)
    (s : State Location) (before l : List Instruction) : Prop :=
  EndsOr (fun r => Notes r.1 ((seenMoves again ops).foldl noteMove s) ∧
      ((seenMoves again ops).foldl noteMove s).holds (.var "") = none ∧
      ∃ left, r.2 = before.reverse ++ left ∧ MixedCode address true ops left ∧
        (NoStore l → NoStore left))
    .overflow (2 ^ 31 ≤ ((seenMoves again ops).foldl noteMove s).count) (visitBlock d before l)

/-- One operation more: its code is gone over and left as `code'`. -/
theorem Visits.cons {op : MixedOp} {d₁ : Detector} (code code' : List Instruction)
    (h : Visits address again ops d₁ ((seenMoves again [op]).foldl noteMove s)
      (code'.reverse ++ before) rest)
    (hvisit : visitBlock d before (code ++ rest) = visitBlock d₁ (code'.reverse ++ before) rest)
    (hcode : ∀ left, MixedCode address true ops left → MixedCode address true (op :: ops)
      (code' ++ left))
    (hstore : ∀ left, NoStore (code' ++ left)) :
    Visits address again (op :: ops) d s before (code ++ rest) := by
  rw [Visits, ← List.foldl_append, ← seenMoves_cons] at h
  rw [Visits, hvisit]
  refine h.mono ?_
  rintro r ⟨hd', hs', left, hr, hleft, -⟩
  refine ⟨hd', hs', code' ++ left, ?_, hcode left hleft, fun _ => hstore left⟩
  rw [hr, List.reverse_append, List.reverse_reverse, List.append_assoc]

/-- What a visit leads to, whatever has been noted before. -/
def Visited (address : String → Value) (again : Bool) (ops : List MixedOp)
    (l : List Instruction) : Prop :=
  ∀ d s before, Notes d s → s.holds (.var "") = none → Visits address again ops d s before l

namespace Visited

theorem nil : Visited address again [] [] := fun _ _ _ hd hs =>
  .ok ⟨hd, hs, [], by simp, .nil, id⟩

theorem quiet {i : Instruction} (hi : Idle i rest) (h : Visited address again ops rest) :
    Visited address again ops (i :: rest) := by
  intro d s before hd hs
  have hvisit : visit i before rest d = .ok (d, before) :=
    visit_quiet hd (fun _ _ => trivial) hi.1
  rw [Visits, visitBlock_cons hvisit]
  refine (h d s (i :: before) hd hs).mono ?_
  rintro r ⟨hd', hs', left, hr, hcode, hstore⟩
  refine ⟨hd', hs', i :: left, ?_, .quiet (hi.of_noStore hstore) hcode, fun hno => ?_⟩
  · rw [hr]
    simp
  · refine NoStore.cons hi.2 fun hdebug => hstore ?_
    intro value target
    have h := hno value target
    rwa [adjacent_cons, if_pos hdebug] at h

theorem malloc (haddress : ∀ v, (address v).key = some (.var v)) {x : Location}
    (hx : (MixedOp.malloc x).Named) (id : ℕ) (name : String) (args : List Value)
    (h : Visited address again ops rest) : Visited address again (.malloc x :: ops)
      (.call id (some "malloc") args ::
        .store (.result id name) (addressOf address x) :: rest) := by
  intro d s before hd hs
  let code : List Instruction :=
    [.call id (some "malloc") args, .store (.result id name) (addressOf address x)]
  have hnext : adjacent (.store (.result id name) (addressOf address x) :: rest) =
      some (.store (.result id name) (addressOf address x)) := rfl
  have hvisit := visit_malloc_store hnext (key_addressOf haddress x) id args before d
  rcases le_or_gt (2 ^ 31) (s.count + 1) with hle | hlt
  · rw [store?_of_le (hd.malloc_id ▸ hle)] at hvisit
    rw [Visits, visitBlock, hvisit]
    exact .error (hle.trans (count_le_foldl_noteMove (note s (.alloc x)) _))
  rw [store?_of_lt (hd.malloc_id ▸ hlt)] at hvisit
  have hd₁ : Notes _ ((seenMoves again [.malloc x]).foldl noteMove s) :=
    hd.mallocAt hlt (.call id (some "malloc") args) x
  refine Visits.cons code ((addressOf address x).spliced.reverse ++ code)
    (h _ _ _ hd₁ (foldl_seenMoves_blank hx hs)) ?_ (fun left hleft => ?_) fun left => ?_
  · simp only [code, List.cons_append, List.nil_append]
    rw [visitBlock_cons hvisit, visitBlock_cons rfl]
    simp
  · rw [List.append_assoc]
    exact (hleft.malloc x id name args).spliced _
  · rw [List.append_assoc]
    exact NoStore.spliced
      (NoStore.cons (fun _ _ => Instruction.noConfusion) fun h => by cases h) _

theorem copy (haddress : ∀ v, (address v).key = some (.var v)) {v : String} {src : Location}
    (hcopy : (MixedOp.copy v src).Named) (id : ℕ) (name : String)
    (h : Visited address again ops rest) : Visited address again (.copy v src :: ops)
      (.load id (addressOf address src) :: .store (.result id name) (address v) :: rest) := by
  intro d s before hd hs
  let code : List Instruction :=
    [.load id (addressOf address src), .store (.result id name) (address v)]
  have hd₁ : Notes _ ((seenMoves again [.copy v src]).foldl noteMove s) :=
    hd.visitLoad_copy haddress hs v src (.result id name) rest
  refine Visits.cons code code (h _ _ _ hd₁ (foldl_seenMoves_blank hcopy hs)) ?_
    (fun left hleft => hleft.copy v src id name)
    fun left => NoStore.cons (fun _ _ => Instruction.noConfusion) fun h => by cases h
  simp only [code, List.cons_append, List.nil_append]
  rw [visitBlock_cons rfl, visitBlock_cons rfl]
  rfl

theorem memcpy (dst src : String) (id : ℕ) (args : List Value)
    (h : Visited address again ops rest) : Visited address again (.memcpy dst src :: ops)
      (.call id (some memcpyName) (bitCast dst :: bitCast src :: args) :: rest) := by
  intro d s before hd hs
  let code : List Instruction :=
    [.call id (some memcpyName) (bitCast dst :: bitCast src :: args)]
  have hop : (MixedOp.memcpy dst src).Named := trivial
  obtain ⟨d₁, hvisit, hd₁⟩ := visit_memcpy before rest hd dst src id args
  refine Visits.cons code code (h _ _ _ hd₁ (foldl_seenMoves_blank hop hs))
    (visitBlock_cons hvisit) (fun left hleft => hleft.memcpy dst src id args)
    fun left => NoStore.cons (fun _ _ => Instruction.noConfusion) fun h => ?_
  exact absurd (show (Instruction.call 0 (some memcpyName) []).isDebug from h) (by decide)

theorem free (haddress : ∀ v, (address v).key = some (.var v)) {x : Location}
    (hx : (MixedOp.free x).Named) (hseen : MixedOp.seen again (.free x)) (id id' : ℕ)
    (name : String) (h : Visited address again ops rest) :
    Visited address again (.free x :: ops)
      (.load id (addressOf address x) :: .call id' (some "free") [.result id name] :: rest) := by
  intro d s before hd hs
  have hkey := key_addressOf haddress x
  have hload : visit (.load id (addressOf address x)) before
      (.call id' (some "free") [.result id name] :: rest) d = .ok (d, before) := by
    simp [visit, visitLoad, adjacent, Instruction.isDebug]
  have hprev : adjacent (.load id (addressOf address x) :: before) =
      some (.load id (addressOf address x)) := rfl
  obtain ⟨d₁, hfree, hd₁⟩ := hd.freeId x
  have hvisit : visit (.call id' (some "free") [.result id name])
      (.load id (addressOf address x) :: before) rest d =
        .ok (d₁, (addressOf address x).spliced ++ .load id (addressOf address x) :: before) := by
    rw [visit_call_free, visitFree_load hprev hkey, hd.numberAt_eq, hfree]
    rfl
  have hd₁ : Notes d₁ ((seenMoves again [.free x]).foldl noteMove s) := by
    rw [foldl_seenMoves_of_seen hseen]
    exact hd₁
  refine Visits.cons
    [.load id (addressOf address x), .call id' (some "free") [.result id name]]
    (.load id (addressOf address x) :: ((addressOf address x).spliced.reverse ++
      [.call id' (some "free") [.result id name]]))
    (h _ _ _ hd₁ (foldl_seenMoves_blank hx hs)) ?_ (fun left hleft => ?_)
    fun left => NoStore.cons (fun _ _ => Instruction.noConfusion) fun h => by cases h
  · simp only [List.cons_append, List.nil_append]
    rw [visitBlock_cons hload, visitBlock_cons hvisit]
    simp
  · cases x with
    | var v =>
      rw [(Value.of_key_var hkey).2]
      exact hleft.free (.var v) id id' name rfl
    | field x k => exact hleft.freeAgain x k id id' name _ _ rfl

theorem freeAgain (hagain : again) (x : String) (k : BitVec 32) (id id' : ℕ) (name : String)
    (opcode : Opcode) (operands : List Value) (h : Visited address again ops rest) :
    Visited address again (.free (.field x k) :: ops)
      (.load id (Location.field x k).address :: .expression opcode operands ::
        .call id' (some "free") [.result id name] :: rest) := by
  intro d s before hd hs
  let code : List Instruction := [.load id (Location.field x k).address,
    .expression opcode operands, .call id' (some "free") [.result id name]]
  have hload : visit (.load id (Location.field x k).address) before
      (.expression opcode operands :: .call id' (some "free") [.result id name] :: rest) d =
        .ok (d, before) := by
    simp [visit, visitLoad, adjacent, Instruction.isDebug]
  -- the load is no longer the instruction before the call
  have hvisit : visit (.call id' (some "free") [.result id name])
      (.expression opcode operands :: .load id (Location.field x k).address :: before) rest d =
        .ok (d, .expression opcode operands :: .load id (Location.field x k).address ::
          before) := by
    rw [visit_call_free]
    rfl
  have hnone : (seenMoves again [.free (.field x k)]).foldl noteMove s = s := by
    simp [seenMoves, MixedOp.seen, hagain]
  refine Visits.cons code code (h _ _ _ (hnone.symm ▸ hd) (hnone.symm ▸ hs)) ?_
    (fun left hleft => hleft.freeAgain x k id id' name opcode operands rfl)
    fun left => NoStore.cons (fun _ _ => Instruction.noConfusion) fun h => by cases h
  simp only [code, List.cons_append, List.nil_append]
  rw [visitBlock_cons hload, visitBlock_cons rfl, visitBlock_cons hvisit]
  rfl

end Visited

/-- **A block of code for operations.** -/
theorem visitBlock_mixed (haddress : ∀ v, (address v).key = some (.var v))
    (h : MixedCode address again ops l) (hops : ∀ op ∈ ops, op.Named) :
    Visited address again ops l := by
  induction h with
  | nil => exact .nil
  | quiet hi _ ih => exact (ih hops).quiet hi
  | malloc x id name args _ ih =>
    obtain ⟨hop, hops⟩ := List.forall_mem_cons.mp hops
    exact (ih hops).malloc haddress hop id name args
  | copy v src id name _ ih =>
    obtain ⟨hop, hops⟩ := List.forall_mem_cons.mp hops
    exact (ih hops).copy haddress hop id name
  | memcpy dst src id args _ ih =>
    exact (ih (List.forall_mem_cons.mp hops).2).memcpy dst src id args
  | free x id id' name hseen _ ih =>
    obtain ⟨hop, hops⟩ := List.forall_mem_cons.mp hops
    exact (ih hops).free haddress hop hseen id id' name
  | freeAgain x k id id' name opcode operands hagain _ ih =>
    exact (ih (List.forall_mem_cons.mp hops).2).freeAgain hagain x k id id' name opcode operands

end Block

/-! ### A path -/

/-- The moves that the detector sees along a path, when the blocks in `visited` have been
visited before. -/
def seenOn (code : BasicBlock → List MixedOp) :
    List BasicBlock → List BasicBlock → List (Move Location)
  | _, [] => []
  | visited, bb :: path =>
    seenMoves (decide (bb ∈ visited)) (code bb) ++ seenOn code (bb :: visited) path

/-- **A path over structures and variables.** -/
structure MixedPath where
  /-- The module. -/
  blocks : Blocks
  /-- The path. -/
  path : List BasicBlock
  /-- The operations of each block. -/
  code : BasicBlock → List MixedOp
  /-- Where the variables are kept, which are known by their names. -/
  address : String → Value
  key_address : ∀ v, (address v).key = some (.var v)
  compiles : ∀ bb ∈ path, MixedCode address false (code bb) (blocks bb)
  named : ∀ bb ∈ path, ∀ op ∈ code bb, op.Named

namespace MixedPath

variable (p : MixedPath)

/-- What is done on the path. -/
def moves : List (Move Location) := (p.path.flatMap p.code).map MixedOp.move

/-- What the detector sees of it. -/
def seen : List (Move Location) := seenOn p.code [] p.path

/-- No location is overwritten while it holds the only pointer to a block that is not freed. -/
def NothingLost : Prop := ∀ pre post, p.moves = pre ++ post → ∀ id, ¬(execMoves pre).Lost id

/-- **A pointer read out of a field keeps its block**: if nothing is lost and every block that
is allocated is freed, then the verdict is that there is no leak. -/
def KeepsBlocks : Prop := p.NothingLost → (execMoves p.moves).AllFreed →
  (memoryLeakDetection p.blocks p.path).map Prod.fst = .ok false

variable {p}

theorem run_visitAt_mixed {visited path : List BasicBlock} {d : Detector} {s : State Location}
    {current : Blocks} (hpath : ∀ bb ∈ path, bb ∈ p.path)
    (hcode : ∀ bb ∈ path, MixedCode p.address (decide (bb ∈ visited)) (p.code bb) (current bb))
    (hd : Notes d s) (hs : s.holds (.var "") = none) :
    EndsOr (fun r => Notes r.1 ((seenOn p.code visited path).foldl noteMove s)) .overflow
      (2 ^ 31 ≤ ((seenOn p.code visited path).foldl noteMove s).count)
      (run visitAt (d, current) path) := by
  induction path generalizing visited d s current with
  | nil => exact .ok hd
  | cons bb path ih =>
    obtain ⟨hbb, hpath⟩ := List.forall_mem_cons.mp hpath
    have hvisits : Visits p.address (decide (bb ∈ visited)) (p.code bb) d s [] (current bb) :=
      visitBlock_mixed p.key_address (hcode bb List.mem_cons_self) (p.named bb hbb) _ _ [] hd hs
    rw [seenOn, List.foldl_append, run_cons, visitAt, bind_assoc]
    refine (hvisits.weaken fun hle => hle.trans (count_le_foldl_noteMove _ _)).bind ?_
    rintro ⟨d₁, left⟩ ⟨hd₁, hs₁, left', heq, hleft, -⟩
    obtain rfl : left = left' := heq
    refine ih hpath (fun bb' hbb' => ?_) hd₁ hs₁
    rcases eq_or_ne bb' bb with rfl | hne
    · simpa using hleft
    · simpa [hne] using hcode bb' (List.mem_cons_of_mem bb hbb')

/-- Every allocation is seen. -/
theorem count_seenOn (code : BasicBlock → List MixedOp) (visited path : List BasicBlock)
    (s t : State Location) (hst : s.count = t.count) :
    ((seenOn code visited path).foldl noteMove s).count =
      (((path.flatMap code).map MixedOp.move).foldl State.move t).count := by
  have hops : ∀ (again : Bool) (ops : List MixedOp) (s t : State Location), s.count = t.count →
      ((seenMoves again ops).foldl noteMove s).count =
        ((ops.map MixedOp.move).foldl State.move t).count := by
    intro again ops
    induction ops with
    | nil => exact fun s t hst => hst
    | cons op ops ih =>
      intro s t hst
      rw [seenMoves_cons, List.foldl_append, List.map_cons, List.foldl_cons]
      refine ih _ _ ?_
      cases hseen : MixedOp.seen again op with
      | true =>
        rw [foldl_seenMoves_of_seen hseen, count_noteMove]
        cases op <;> simp [MixedOp.move, State.move, State.step, State.pull, hst]
      | false =>
        cases op with
        | malloc l | memcpy dst src => cases hseen
        | copy v src | free l =>
          simpa [seenMoves, hseen, MixedOp.move, State.move, State.step] using hst
  induction path generalizing visited s t with
  | nil => exact hst
  | cons bb path ih =>
    rw [seenOn, List.foldl_append, List.flatMap_cons, List.map_append, List.foldl_append]
    exact ih _ _ _ (hops _ _ _ _ hst)

/-- The verdict that there is no leak. -/
theorem verdict_false_iff : (memoryLeakDetection p.blocks p.path).map Prod.fst = .ok false ↔
    (execMoves p.moves).count < 2 ^ 31 ∧ ¬ReallocatesMoves p.seen ∧
      (execMoves (withoutBlankMoves p.seen)).AllFreed := by
  have hcode : ∀ bb ∈ p.path,
      MixedCode p.address (decide (bb ∈ ([] : List BasicBlock))) (p.code bb) (p.blocks bb) := by
    simpa using p.compiles
  have hcount : (notedMoves p.seen).count = (execMoves p.moves).count :=
    count_seenOn p.code [] p.path State.init State.init rfl
  rw [← notedMoves_allFreed_iff, ← hcount]
  exact verdict_of_notes (run_visitAt_mixed (fun _ h => h) hcode notes_init rfl)

/-- **When a pointer read out of a field keeps its block**: if not every block is freed, or if
there are no more blocks than the detector counts, and every block is freed also without the
copies from fields, the frees through fields in blocks that come again, and the copies from
locations that were given no block by what is left, and that gives no location a second
block. -/
theorem keepsBlocks_iff (p : MixedPath) : p.KeepsBlocks ↔ ¬(execMoves p.moves).AllFreed ∨
    ((execMoves p.moves).count < 2 ^ 31 ∧ ¬ReallocatesMoves p.seen ∧
      (execMoves (withoutBlankMoves p.seen)).AllFreed) := by
  rw [KeepsBlocks, verdict_false_iff]
  constructor
  · intro h
    by_cases hall : (execMoves p.moves).AllFreed
    · refine .inr (h (fun pre post heq id hlost => ?_) hall)
      -- a block that was lost would not be freed
      exact not_allFreed_of_lost hlost (heq ▸ hall)
    · exact .inl hall
  · rintro (hnot | hseen) - hall
    · exact absurd hall hnot
    · exact hseen

end MixedPath

/-- `x = malloc(10); s1.p = malloc(10); y = s1.p; free(x); free(y);`, where `p` is the second
field. -/
def readBack : MixedPath where
  blocks := fun _ =>
    [.call 0 (some "malloc") [.constantInt 10], .store (.result 0 "") (.global "x"),
      .call 1 (some "malloc") [.constantInt 10],
      .store (.result 1 "") (Location.field "s1" 1).address,
      .load 2 (Location.field "s1" 1).address, .store (.result 2 "") (.global "y"),
      .load 3 (.global "x"), .call 4 (some "free") [.result 3 ""],
      .load 5 (.global "y"), .call 6 (some "free") [.result 5 ""], .terminator []]
  path := [0]
  code := fun _ => [.malloc (.var "x"), .malloc (.field "s1" 1), .copy "y" (.field "s1" 1),
    .free (.var "x"), .free (.var "y")]
  address := .global
  key_address := fun _ => rfl
  compiles := fun _ _ =>
    .malloc (.var "x") 0 "" _ (.malloc (.field "s1" 1) 1 "" _ (.copy "y" (.field "s1" 1) 2 ""
      (.free (.var "x") 3 4 "" rfl (.free (.var "y") 5 6 "" rfl
        (.quiet ⟨trivial, fun _ _ => Instruction.noConfusion⟩ .nil)))))
  named := by
    simp [MixedOp.Named]

/-- **A leak is found where a pointer was read out of a field** and freed. -/
theorem not_keepsBlocks : ¬∀ p : MixedPath, p.KeepsBlocks := by
  intro h
  have hall : (execMoves readBack.moves).AllFreed := by
    intro id hid
    have hlt : id < 2 := hid
    obtain rfl | rfl : id = 0 ∨ id = 1 := by omega
    · decide
    · decide
  have hlost : readBack.NothingLost := fun pre post heq id hlost =>
    not_allFreed_of_lost hlost (heq ▸ hall)
  have hfalse : (Except.ok true : Except Crash Bool) = .ok false := h readBack hlost hall
  cases hfalse

end DepLeak

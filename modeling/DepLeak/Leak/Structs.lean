import DepLeak.Leak.Code

/-!
# Copies of structures

Paths on which the fields of global structures get blocks, whole structures are copied by
`llvm.memcpy`, and blocks are freed through the fields that hold them
(`DepLeak.StructPath`). The map that the detector keeps for a structure is copied as a whole,
so that a field the source has no block in gets none either, and where a field gets a block
only while it holds none the map is exactly what the fields hold: a leak is reported exactly
if a block is left, as long as the detector can count the blocks
(`DepLeak.StructPath.exact_iff`).
-/

namespace DepLeak

open Runs Ledger Detector

/-! ### Operations on structures -/

/-- What is done with structures and their fields. -/
inductive StructOp
  /-- `s.f := malloc(..)`. -/
  | malloc (s : String) (f : BitVec 32)
  /-- `d := s`. -/
  | memcpy (d s : String)
  /-- `free(s.f)`. -/
  | free (s : String) (f : BitVec 32)
  deriving DecidableEq

/-- Where the fields of `d` get what they hold from when `s` is copied to it. -/
def fieldSource (d s : String) : Location → Location
  | .field x f => if x = d then .field s f else .field x f
  | .var v => .var v

/-- **One operation**: a copy overwrites every field. -/
def structStep (st : State Location) : StructOp → State Location
  | .malloc s f => st.step (.alloc (.field s f))
  | .memcpy d s => st.pull (fieldSource d s)
  | .free s f => st.step (.free (.field s f))

/-- A list of operations, from the beginning. -/
def structExec (ops : List StructOp) : State Location := ops.foldl structStep State.init

/-- What is counted stays so. -/
theorem count_le_foldl_structStep (st : State Location) (ops : List StructOp) :
    st.count ≤ (ops.foldl structStep st).count := by
  induction ops generalizing st with
  | nil => exact le_rfl
  | cons op ops ih =>
    refine le_trans ?_ (ih (structStep st op))
    cases op <;> simp [structStep, State.step, State.pull]

/-- Fields get a block only while they hold none. -/
def IntoEmpty (st : State Location) : List StructOp → Prop
  | [] => True
  | op :: ops =>
    (∀ s f, op = .malloc s f → st.holds (.field s f) = none) ∧ IntoEmpty (structStep st op) ops

/-! ### Their code -/

/-- The name of the intrinsic. -/
def memcpyName : String := "llvm.memcpy.p0i8.p0i8.i64"

/-- The address of a global structure, as a pointer to bytes. -/
def bitCast (s : String) : Value := .constantExpr .bitCast [.global s]

/-- **The code of a list of operations on structures**, with instructions among it that play
no part. -/
inductive StructCode : List StructOp → List Instruction → Prop
  /-- The end of a block. -/
  | nil : StructCode [] []
  /-- Any other instruction. -/
  | quiet {ops : List StructOp} {i : Instruction} {rest : List Instruction} :
    Quiet (fun _ => False) i rest → StructCode ops rest → StructCode ops (i :: rest)
  /-- A call of `malloc`, directly followed by a store to the field. -/
  | malloc {ops : List StructOp} {rest : List Instruction} (s : String) (f : BitVec 32) (id : ℕ)
      (name : String) (args : List Value) : StructCode ops rest →
    StructCode (.malloc s f :: ops)
      (.call id (some "malloc") args ::
        .store (.result id name) (Location.field s f).address :: rest)
  /-- A call of `llvm.memcpy` on the addresses of two structures. -/
  | memcpy {ops : List StructOp} {rest : List Instruction} (d s : String) (id : ℕ)
      (args : List Value) : StructCode ops rest →
    StructCode (.memcpy d s :: ops)
      (.call id (some memcpyName) (bitCast d :: bitCast s :: args) :: rest)
  /-- A load of the field, directly followed by a call of `free`. -/
  | free {ops : List StructOp} {rest : List Instruction} (s : String) (f : BitVec 32)
      (id id' : ℕ) (name : String) : StructCode ops rest →
    StructCode (.free s f :: ops)
      (.load id (Location.field s f).address ::
        .call id' (some "free") [.result id name] :: rest)

/-! ### The detector on a copy -/

variable {d : Detector} {s : State Location} {before rest : List Instruction}

theorem Allocated.pull (h : Allocated s) (src : Location → Location) : Allocated (s.pull src) :=
  ⟨fun l id hid => h.1 (src l) id hid, h.2⟩

/-- **The map of a structure is copied as a whole.** -/
theorem Notes.memcpy (h : Notes d s) (dst src : String) : Notes { d with
      malloc_structs := Function.update (Function.update d.malloc_structs src
        (some (d.structMap src))) dst (some (d.structMap src)) }
    (s.pull (fieldSource dst src)) where
  count_lt := h.count_lt
  malloc_id := h.malloc_id
  length := h.length
  mallocs := h.mallocs
  vars := h.vars
  fields := fun x f => by
    -- the map that `malloc_structs[src]` makes where there is none is empty
    have hsrc : ∀ k, d.structMap src k = s.holds (.field src k) := fun k =>
      (Notes.structMap_apply d src k).trans (h.fields src k)
    rcases eq_or_ne x dst with rfl | hdst
    -- also for a copy of a structure onto itself
    · simp [fieldId, State.pull, fieldSource, hsrc]
    · rcases eq_or_ne x src with rfl | hne
      · simp [fieldId, State.pull, fieldSource, hdst, hsrc]
      · simpa [fieldId, State.pull, fieldSource, hdst, hne] using h.fields x f
  allocated := h.allocated.pull _

theorem visit_memcpy (before rest : List Instruction) (h : Notes d s) (dst src : String) (id : ℕ)
    (args : List Value) :
    ∃ d', visit (.call id (some memcpyName) (bitCast dst :: bitCast src :: args)) before rest d =
        .ok (d', before) ∧ Notes d' (s.pull (fieldSource dst src)) := by
  have hmemcpy : finds memcpyName "llvm.memcpy.p0i8.p0i8.i64" = true := by decide
  have hmalloc : finds memcpyName "malloc" = false := by decide
  have hfree : finds memcpyName "free" = false := by decide
  refine ⟨_, ?_, h.memcpy dst src⟩
  simp [visit, memcpyCall, mallocCall, freeCall, hmemcpy, hmalloc, hfree, visitMemcpy, getOperand,
    bitCast, Value.getName]

/-! ### A block, and a path -/

/-- **A block of code for operations on structures**: the detector notes them, or there are
too many blocks to count. -/
theorem visitBlock_structs {ops : List StructOp} {l : List Instruction} (h : StructCode ops l)
    (hops : IntoEmpty s ops) (hd : Notes d s) (hvars : ∀ v, s.holds (.var v) = none) :
    EndsOr (fun r => Notes r.1 (ops.foldl structStep s) ∧
        ∀ v, (ops.foldl structStep s).holds (.var v) = none)
      .overflow (2 ^ 31 ≤ (ops.foldl structStep s).count) (visitBlock d before l) := by
  induction h generalizing d s before with
  | nil => exact .ok ⟨hd, hvars⟩
  | @quiet ops i rest hi _ ih =>
    rw [visitBlock_cons (visit_quiet hd (fun v hv => by simp [hvars] at hv) hi)]
    exact ih hops hd hvars
  | @malloc ops rest x f id name args _ ih =>
    obtain ⟨hempty, hops⟩ := hops
    have hvisit := visit_malloc before rest hd (.field x f) id args (.result id name)
    -- where nothing is held, the block is noted
    have hnote : note s (.alloc (.field x f)) = structStep s (.malloc x f) := by
      simp [note, structStep, State.step, Detector.insert, hempty x f rfl]
    rw [hnote] at hvisit
    refine (hvisit.weaken fun hle => hle.trans (count_le_foldl_structStep _ ops)).bind ?_
    rintro ⟨d₁, -⟩ ⟨hd₁, new, rfl, -⟩
    have hvars₁ : ∀ v, (structStep s (.malloc x f)).holds (.var v) = none := fun v => by
      simpa [structStep, State.step] using hvars v
    have hrest : ∀ before, EndsOr _ _ _ (visitBlock d₁ before rest) := fun before =>
      ih hops hd₁ hvars₁
    exact hrest (.store (.result id name) (Location.field x f).address ::
      .call id (some "malloc") args :: (new ++ before))
  | @memcpy ops rest dst src id args _ ih =>
    obtain ⟨d₁, hvisit, hd₁⟩ := visit_memcpy before rest hd dst src id args
    rw [visitBlock_cons hvisit]
    exact ih hops.2 hd₁ hvars
  | @free ops rest x f id id' name _ ih =>
    obtain ⟨d₁, new, hvisit, hd₁, -⟩ :=
      visit_free before rest hd (.field x f) id id' [.result id name]
    have hload : visit (.load id (Location.field x f).address) before
        (.call id' (some "free") [.result id name] :: rest) d = .ok (d, before) := by
      simp [visit, visitLoad, adjacent, Instruction.isDebug]
    rw [visitBlock_cons hload, visitBlock_cons hvisit]
    exact ih hops.2 hd₁ hvars

theorem intoEmpty_append {ops ops' : List StructOp} :
    IntoEmpty s (ops ++ ops') ↔ IntoEmpty s ops ∧ IntoEmpty (ops.foldl structStep s) ops' := by
  induction ops generalizing s with
  | nil => simp [IntoEmpty]
  | cons op ops ih => simp [IntoEmpty, ih, and_assoc]

/-- **A path over structures** that repeats no block, in a module as it was given. -/
structure StructPath where
  /-- The module. -/
  blocks : Blocks
  /-- The path. -/
  path : List BasicBlock
  /-- The operations of each block. -/
  code : BasicBlock → List StructOp
  compiles : ∀ bb ∈ path, StructCode (code bb) (blocks bb)
  nodup : path.Nodup
  /-- Fields get a block only while they hold none. -/
  intoEmpty : IntoEmpty State.init (path.flatMap code)

namespace StructPath

variable (p : StructPath)

/-- The operations of the path. -/
def ops : List StructOp := p.path.flatMap p.code

/-- Some block that is allocated on the path is never released. -/
def Leaks : Prop := ∃ id < (structExec p.ops).count, id ∉ (structExec p.ops).freed

/-- **Copies of structures are tracked exactly**: a leak is reported exactly if there is
one. -/
def Exact : Prop :=
  ∃ verdict blocks', memoryLeakDetection p.blocks p.path = .ok (verdict, blocks') ∧
    (verdict = true ↔ p.Leaks)

/-- Along the path, the detector holds what the fields do. -/
theorem run_visitAt_structs : EndsOr (fun s => Notes s.1 (structExec p.ops)) .overflow
    (2 ^ 31 ≤ (structExec p.ops).count) (run visitAt (Detector.init, p.blocks) p.path) := by
  -- what the detector holds before the rest of the path
  let P : List BasicBlock → Detector → Prop := fun path d =>
    (∀ bb ∈ path, StructCode (p.code bb) (p.blocks bb)) ∧ path.Nodup ∧ ∃ s, Notes d s ∧
      (∀ v, s.holds (.var v) = none) ∧ IntoEmpty s (path.flatMap p.code) ∧
      (path.flatMap p.code).foldl structStep s = structExec p.ops
  have hP : P p.path Detector.init :=
    ⟨p.compiles, p.nodup, _, notes_init, fun _ => rfl, p.intoEmpty, rfl⟩
  refine (run_visitAt (P := P) ?_ hP).mono ?_
  · rintro bb path d ⟨hcode, hnd, s, hd, hvars, hempty, heq⟩
    rw [List.flatMap_cons, intoEmpty_append] at hempty
    rw [List.flatMap_cons, List.foldl_append] at heq
    have hblock : EndsOr _ _ _ (visitBlock d [] (p.blocks bb)) :=
      visitBlock_structs (hcode bb List.mem_cons_self) hempty.1 hd hvars
    obtain ⟨hbb, hnd⟩ := List.nodup_cons.mp hnd
    refine (hblock.weaken fun hle => ?_).mono ?_
    · exact hle.trans (heq ▸ count_le_foldl_structStep _ _)
    · rintro r ⟨hd', hvars'⟩
      -- a block that is left changed does not come again
      exact ⟨fun hmem => absurd hmem hbb, fun bb' hbb' => hcode bb' (List.mem_cons_of_mem bb hbb'),
        hnd, _, hd', hvars', hempty.2, heq⟩
  · rintro s ⟨-, -, s', hd, -, -, heq⟩
    exact heq ▸ hd

/-- Where the detector comes to a verdict, it could count the blocks. -/
theorem count_lt (h : p.Exact) : (structExec p.ops).count < 2 ^ 31 := by
  obtain ⟨verdict, blocks', hverdict, -⟩ := h
  obtain ⟨s, hrun, -⟩ := bind_eq_ok.mp hverdict
  rcases p.run_visitAt_structs.cases_ok with ⟨s', -, hd⟩ | ⟨herror, -⟩
  · exact Notes.count_lt hd
  · cases hrun.symm.trans herror

/-- **When copies of structures are tracked exactly**: exactly if there are no more blocks
than the detector counts. -/
theorem exact_iff : p.Exact ↔ (structExec p.ops).count < 2 ^ 31 := by
  refine ⟨p.count_lt, fun hlt => ?_⟩
  rcases p.run_visitAt_structs.cases_ok with ⟨⟨d, blocks'⟩, hrun, hd⟩ | ⟨-, hle⟩
  · refine ⟨d.leaks, blocks', by rw [memoryLeakDetection, hrun]; rfl, ?_⟩
    have hd : Notes d (structExec p.ops) := hd
    rw [← not_iff_not, Bool.not_eq_true, hd.leaks_eq_false]
    simp [Leaks, State.AllFreed]
  · exact absurd hlt hle.not_gt

end StructPath

/-- `s1.p = malloc(10); s2 = s1; free(s2.p);`, where `p` is the second field. -/
def freedThroughCopy : StructPath where
  blocks := fun _ =>
    [.call 0 (some "malloc") [.constantInt 10],
      .store (.result 0 "") (Location.field "s1" 1).address,
      .call 1 (some memcpyName) [bitCast "s2", bitCast "s1", .constantInt 24, .constantInt 0],
      .load 2 (Location.field "s2" 1).address, .call 3 (some "free") [.result 2 ""],
      .terminator []]
  path := [0]
  code := fun _ => [.malloc "s1" 1, .memcpy "s2" "s1", .free "s2" 1]
  compiles := fun _ _ =>
    .malloc "s1" 1 0 "" _ (.memcpy "s2" "s1" 1 _ (.free "s2" 1 2 3 "" (.quiet trivial .nil)))
  nodup := List.nodup_singleton 0
  intoEmpty := by simp [IntoEmpty, State.init]

/-- The block is freed through the field that it was copied to. -/
theorem exact_iff_copy : freedThroughCopy.Exact ∧ ¬freedThroughCopy.Leaks := by
  refine ⟨freedThroughCopy.exact_iff.mpr (by decide), ?_⟩
  rintro ⟨id, hid, hfreed⟩
  obtain rfl : id = 0 := Nat.lt_one_iff.mp hid
  exact absurd hfreed (by decide)

/-- `s.p = malloc(10); s = e;`, where nothing was ever assigned to a field of `e`. -/
def lostByCopy : List StructOp := [.malloc "s" 0, .memcpy "s" "e"]

/-- A block is counted, and nothing is held, as before. -/
theorem foldl_lostByCopy {st : State Location} (hst : ∀ l, st.holds l = none) :
    IntoEmpty st lostByCopy ∧ (lostByCopy.foldl structStep st).count = st.count + 1 ∧
      ∀ l, (lostByCopy.foldl structStep st).holds l = none := by
  refine ⟨?_, rfl, fun l => ?_⟩
  · simp [lostByCopy, IntoEmpty, hst]
  · cases l with
    | var v => simp [lostByCopy, structStep, State.step, State.pull, fieldSource, hst]
    | field x k =>
      rcases eq_or_ne x "s" with rfl | hne
      · simp [lostByCopy, structStep, State.step, State.pull, fieldSource, hst]
      · simp [lostByCopy, structStep, State.step, State.pull, fieldSource, hne, hst]

theorem flatMap_lostByCopy {st : State Location} (path : List BasicBlock)
    (hst : ∀ l, st.holds l = none) :
    IntoEmpty st (path.flatMap fun _ => lostByCopy) ∧
      ((path.flatMap fun _ => lostByCopy).foldl structStep st).count = st.count + path.length := by
  induction path generalizing st with
  | nil => exact ⟨trivial, rfl⟩
  | cons bb path ih =>
    obtain ⟨hempty, hcount, hholds⟩ := foldl_lostByCopy hst
    obtain ⟨hempty', hcount'⟩ := ih hholds
    rw [List.flatMap_cons, intoEmpty_append, List.foldl_append, hcount', hcount, List.length_cons]
    exact ⟨⟨hempty, hempty'⟩, by omega⟩

/-- So in each of `n` blocks, one after the other. -/
def lostBlocks (n : ℕ) : StructPath where
  blocks := fun bb =>
    [.call 0 (some "malloc") [.constantInt 10],
      .store (.result 0 "") (Location.field "s" 0).address,
      .call 1 (some memcpyName) [bitCast "s", bitCast "e", .constantInt 8, .constantInt 0],
      .br [bb + 1]]
  path := List.range n
  code := fun _ => lostByCopy
  compiles := fun _ _ => .malloc "s" 0 0 "" _ (.memcpy "s" "e" 1 _ (.quiet trivial .nil))
  nodup := List.nodup_range
  intoEmpty := (flatMap_lostByCopy _ fun _ => rfl).1

theorem count_lostBlocks (n : ℕ) : (structExec (lostBlocks n).ops).count = n := by
  have hcount : (structExec (lostBlocks n).ops).count = 0 + (List.range n).length :=
    (flatMap_lostByCopy _ fun _ => rfl).2
  rw [hcount, List.length_range, Nat.zero_add]

/-- **There are too many blocks to count**: `malloc_id` overflows. -/
theorem not_exact : ¬∀ p : StructPath, p.Exact := by
  intro h
  have hlt := (lostBlocks (2 ^ 31)).count_lt (h _)
  rw [count_lostBlocks] at hlt
  exact lt_irrefl _ hlt

end DepLeak

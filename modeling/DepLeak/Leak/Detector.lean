import DepLeak.Runs
import DepLeak.Leak.Llvm
import Mathlib.Algebra.Group.Nat.Defs
import Mathlib.Data.List.Infix

/-!
# The leak detector

`DepLeak.discoverPaths` lists the paths of a function, `DepLeak.memoryLeakDetection`
goes over one path, and `DepLeak.detectAll` over one path after the other, each time in
the module that the paths before have left.

Going over a path, the detector numbers the calls of `malloc` whose result is stored
at once, and remembers under the name of a variable, or under the name of a structure
and the index of a field, the number of the block it takes the location to hold. An
instruction is looked at together with those around it in its block, so that a block
is walked through as a zipper: the instructions before, nearest first, the current
one, and those after it (`DepLeak.Detector.visitBlock`). To take the address of a
field apart, the detector makes an instruction of it, and that instruction stays in
the block, before the current one.
-/

namespace DepLeak

open Runs

/-! ### Paths -/

/-- `DiscoverPaths`, which calls itself at most `fuel` deep. -/
def discoverPaths (blocks : Blocks) :
    ℕ → List (List BasicBlock) → List BasicBlock → BasicBlock → Option (List (List BasicBlock))
  | 0, _, _, _ => none
  | fuel + 1, paths, path, bb =>
    if path.count bb > 2 then
      some paths
    else
      -- two visits before this one are let through
      let path := path ++ [bb]
      match (blocks bb).findSome? Instruction.branch? with
      | some successors =>
        successors.foldlM (fun paths target => discoverPaths blocks fuel paths path target) paths
      | none => some (paths ++ [path])

/-- The successors of the first `br` of a block. -/
def branchOf (blocks : Blocks) (bb : BasicBlock) : Option (List BasicBlock) :=
  (blocks bb).findSome? Instruction.branch?

/-! ### What is remembered along a path -/

/-- The local variables of `MemoryLeakDetection`. -/
structure Detector where
  /-- The number of the next block: an `int` that starts from 0 and is only increased. -/
  malloc_id : ℕ
  /-- The calls of `malloc`, by number; those whose block is freed are `NULL`. -/
  mallocs : List (Option Instruction)
  /-- The number under the name of a variable. -/
  malloc_vars : String → Option ℕ
  /-- The numbers under the name of a structure, by the index of the field. -/
  malloc_structs : String → Option (BitVec 32 → Option ℕ)

namespace Detector

/-- The values they start with. -/
def init : Detector := ⟨0, [], fun _ => none, fun _ => none⟩

/-- `getName().find(s) != npos`. -/
def finds (name s : String) : Bool := decide (s.toList <:+: name.toList)

/-- `m.insert({key, value})`, which keeps what is there already. -/
def insert {κ ν : Type} [DecidableEq κ] (m : κ → Option ν) (key : κ) (value : ν) : κ → Option ν :=
  match m key with
  | some _ => m
  | none => Function.update m key (some value)

theorem insert_apply {κ ν : Type} [DecidableEq κ] (m : κ → Option ν) (key : κ) (value : ν)
    (k : κ) : insert m key value k = if k = key then some ((m key).getD value) else m k := by
  unfold insert
  cases h : m key with
  | none => simp [Function.update_apply]
  | some v =>
    rcases eq_or_ne k key with rfl | hne
    · simp [h]
    · simp [hne]

/-- `malloc_structs[name]`, which makes an empty map where there is none. -/
def structMap (d : Detector) (name : String) : BitVec 32 → Option ℕ :=
  (d.malloc_structs name).getD fun _ => none

/-- `n++`, where `n` is an `int`. -/
def increment (n : ℕ) : Except Crash ℕ :=
  if n + 1 < 2 ^ 31 then .ok (n + 1) else .error .overflow

theorem increment_of_lt {n : ℕ} (h : n + 1 < 2 ^ 31) : increment n = .ok (n + 1) := if_pos h

theorem increment_of_le {n : ℕ} (h : 2 ^ 31 ≤ n + 1) : increment n = .error .overflow :=
  if_neg h.not_gt

/-- A block stored into a variable. -/
def mallocVar (d : Detector) (i : Instruction) (var : String) : Except Crash Detector := do
  let malloc_id ← increment d.malloc_id
  .ok
    { malloc_id := malloc_id
      mallocs := d.mallocs ++ [some i]
      malloc_vars := insert d.malloc_vars var d.malloc_id
      malloc_structs := d.malloc_structs }

/-- A block stored into the field of a structure. -/
def mallocField (d : Detector) (i : Instruction) (var : String) (index : BitVec 32) :
    Except Crash Detector := do
  let malloc_id ← increment d.malloc_id
  .ok
    { malloc_id := malloc_id
      mallocs := d.mallocs ++ [some i]
      malloc_vars := d.malloc_vars
      malloc_structs :=
        Function.update d.malloc_structs var (some (insert (d.structMap var) index d.malloc_id)) }

/-- `mallocs[id] = NULL`, where a number was found. -/
def freeId (d : Detector) : Option ℕ → Except Crash Detector
  | some id =>
    if id < d.mallocs.length then .ok { d with mallocs := d.mallocs.set id none }
    else .error .index
  | none => .ok d

/-- The number under a field. -/
def fieldId (d : Detector) (var : String) (index : BitVec 32) : Option ℕ :=
  (d.malloc_structs var).bind fun m => m index

/-! ### Instructions -/

/-- The name of the structure and the index that the instruction made of an address has,
when it is a `getelementptr` with a constant index; the index is cut to an `int`. -/
def gepField (opcode : Opcode) (operands : List Value) :
    Except Crash (Option (String × BitVec 32)) :=
  match opcode with
  | .getElementPtr => do
    let var ← getOperand operands 0
    let index ← getOperand operands 2
    match index with
    | .constantInt zext => .ok (some (var.getName, zext.setWidth 32))
    | _ => .ok none
  | _ => .ok none

/-- A load whose value the next instruction may store. -/
def visitLoad (pointer : Value) (rest : List Instruction) (d : Detector) : Detector :=
  match adjacent rest with
  | some (.store _ aliased) =>
    match d.malloc_vars pointer.getName with
    | some id => { d with malloc_vars := Function.update d.malloc_vars aliased.getName (some id) }
    | none => d
  | _ => d

/-- A call of `memcpy`: what is copied from one structure to another. -/
def visitMemcpy (operands : List Value) (d : Detector) : Except Crash Detector := do
  let lhs ← getOperand operands 0
  let rhs ← getOperand operands 1
  match lhs, rhs with
  | .constantExpr .bitCast lhs, .constantExpr .bitCast rhs => do
    let lhsOp ← getOperand lhs 0
    let rhsOp ← getOperand rhs 0
    -- looking the right side up makes an empty map where it had none
    let m := d.structMap rhsOp.getName
    .ok { d with
      malloc_structs :=
        Function.update (Function.update d.malloc_structs rhsOp.getName (some m))
          lhsOp.getName (some m) }
  | _, _ => .ok d

/-- A call of `malloc`: where the next instruction stores the block. -/
def visitMalloc (i : Instruction) (before rest : List Instruction) (d : Detector) :
    Except Crash (Detector × List Instruction) := do
  match ← storePointer? (adjacent rest) with
  | some (.constantExpr opcode operands) =>
    -- the instruction made of the address is put into the block, and stays there
    let before := .expression opcode operands :: before
    match ← gepField opcode operands with
    | some (var, index) => do
      let d ← d.mallocField i var index
      .ok (d, before)
    | none => .ok (d, before)
  | some pointer => do
    let d ← d.mallocVar i pointer.getName
    .ok (d, before)
  | none => .ok (d, before)

/-- A call of `free`: where the instruction before has the block from. -/
def visitFree (before : List Instruction) (d : Detector) :
    Except Crash (Detector × List Instruction) := do
  match ← loadPointer? (adjacent before) with
  | some (.constantExpr opcode operands) =>
    let before := .expression opcode operands :: before
    match ← gepField opcode operands with
    | some (var, index) => do
      let d ← d.freeId (d.fieldId var index)
      .ok (d, before)
    | none => .ok (d, before)
  | some pointer => do
    let d ← d.freeId (d.malloc_vars pointer.getName)
    .ok (d, before)
  | none => .ok (d, before)

/-- The first thing a call is looked at for. -/
def memcpyCall (name : String) (args : List Value) (d : Detector) : Except Crash Detector :=
  -- the called function is the last operand of a call
  if finds name "llvm.memcpy.p0i8.p0i8.i64" then visitMemcpy (args ++ [.global name]) d
  else .ok d

/-- The second. -/
def mallocCall (name : String) (i : Instruction) (before rest : List Instruction)
    (d : Detector) : Except Crash (Detector × List Instruction) :=
  if finds name "malloc" then visitMalloc i before rest d else .ok (d, before)

/-- The third. -/
def freeCall (name : String) (before : List Instruction) (d : Detector) :
    Except Crash (Detector × List Instruction) :=
  if finds name "free" then visitFree before d else .ok (d, before)

/-- One instruction, given those before it, nearest first, and those after it; the former
change when an instruction is put before this one. -/
def visit (i : Instruction) (before rest : List Instruction) (d : Detector) :
    Except Crash (Detector × List Instruction) :=
  match i with
  | .load _ pointer => .ok (visitLoad pointer rest d, before)
  -- an indirect call: there is no function to ask for its name
  | .call _ none _ => .error .null
  | .call _ (some name) args => do
    let d ← memcpyCall name args d
    let (d, before) ← mallocCall name i before rest d
    freeCall name before d
  | _ => .ok (d, before)

/-- The instructions of a block, and the block they leave. -/
def visitBlock (d : Detector) (before : List Instruction) :
    List Instruction → Except Crash (Detector × List Instruction)
  | [] => .ok (d, before.reverse)
  | i :: rest => do
    let (d, before) ← visit i before rest d
    visitBlock d (i :: before) rest

/-- A block of the path. -/
def visitAt (s : Detector × Blocks) (bb : BasicBlock) : Except Crash (Detector × Blocks) := do
  let (d, instructions) ← visitBlock s.1 [] (s.2 bb)
  .ok (d, Function.update s.2 bb instructions)

/-- Whether a block is left that no call of `free` was seen for. -/
def leaks (d : Detector) : Bool := d.mallocs.any Option.isSome

end Detector

/-! ### The detector -/

/-- `MemoryLeakDetection`: the verdict, and the module it leaves. -/
def memoryLeakDetection (blocks : Blocks) (path : List BasicBlock) :
    Except Crash (Bool × Blocks) := do
  let (d, blocks) ← run Detector.visitAt (Detector.init, blocks) path
  .ok (d.leaks, blocks)

/-- The verdict on a path, if the detector comes to one. -/
def verdict? (blocks : Blocks) (path : List BasicBlock) : Option Bool :=
  (memoryLeakDetection blocks path).toOption.map Prod.fst

/-- One turn of the loop of `runOnModule` over `paths`: a verdict more, and the module that
is left. -/
def detectNext (s : List Bool × Blocks) (path : List BasicBlock) :
    Except Crash (List Bool × Blocks) := do
  let (verdict, blocks) ← memoryLeakDetection s.2 path
  .ok (s.1 ++ [verdict], blocks)

/-- The loop: the verdicts, in order, and the module left in the end. -/
def detectAll (blocks : Blocks) (paths : List (List BasicBlock)) :
    Except Crash (List Bool × Blocks) :=
  run detectNext ([], blocks) paths

end DepLeak

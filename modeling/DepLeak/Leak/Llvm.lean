import Mathlib.Data.Finset.Card
import Mathlib.Logic.Function.Basic

/-!
# The part of LLVM that the leak detector looks at

Basic blocks are lists of instructions, named by numbers and kept in one map, which
the detector changes: `ConstantExpr::getAsInstruction` puts a new instruction into
the block it is looking at. Instructions and values have the operands the detector
asks for, and their names. Types, and what an instruction computes, play no part.

A pointer that is null, or an operand that is not there, is dereferenced nowhere in
LLVM without taking the program down; here this is a `DepLeak.Crash`, and so is an `int` that
overflows, after which anything may happen.
-/

namespace DepLeak

/-- What takes the detector down. -/
inductive Crash
  /-- A null pointer is dereferenced, or passed to `dyn_cast`. -/
  | null
  /-- An operand is asked for that is not there. -/
  | operand
  /-- An element of a vector is assigned that is not there. -/
  | index
  /-- The largest `int` is increased. -/
  | overflow
  deriving DecidableEq, Repr

/-- `BasicBlock *`. -/
abbrev BasicBlock := ℕ

/-- The opcodes of a constant expression that the detector tells apart. -/
inductive Opcode
  /-- `Instruction::GetElementPtr`. -/
  | getElementPtr
  /-- `Instruction::BitCast`. -/
  | bitCast
  /-- Any other. -/
  | other
  deriving DecidableEq, Repr

/-- `Value *`. -/
inductive Value
  /-- The result of an instruction, an argument: with its name, if it has one. -/
  | result (id : ℕ) (name : String)
  /-- A global variable or a function. -/
  | global (name : String)
  /-- A `ConstantInt`, with its zero-extended value. -/
  | constantInt (zext : BitVec 64)
  /-- A `ConstantExpr`. -/
  | constantExpr (opcode : Opcode) (operands : List Value)

/-- `getName()`; constants that are no globals have none. -/
def Value.getName : Value → String
  | .result _ name => name
  | .global name => name
  | .constantInt _ => ""
  | .constantExpr _ _ => ""

/-- `Instruction`. -/
inductive Instruction
  /-- `LoadInst`. -/
  | load (id : ℕ) (pointer : Value)
  /-- `StoreInst`. -/
  | store (value pointer : Value)
  /-- `CallInst`; an indirect call has no called function. -/
  | call (id : ℕ) (calledFunction : Option String) (args : List Value)
  /-- `BranchInst`. -/
  | br (successors : List BasicBlock)
  /-- Any other terminator: `switch`, `indirectbr` and `invoke`, and, without successors,
  `ret` and `unreachable`. -/
  | terminator (successors : List BasicBlock)
  /-- The instruction that `getAsInstruction` makes of a `ConstantExpr`. -/
  | expression (opcode : Opcode) (operands : List Value)
  /-- Any other instruction. -/
  | other (id : ℕ)

/-- The basic blocks of a module. -/
abbrev Blocks := BasicBlock → List Instruction

/-- `dyn_cast<BranchInst>`, and the successors. -/
def Instruction.branch? : Instruction → Option (List BasicBlock)
  | .br successors => some successors
  | _ => none

/-- `isTerminator()`. -/
def Instruction.isTerminator : Instruction → Bool
  | .br _ => true
  | .terminator _ => true
  | _ => false

/-- Whether a block may end in this instruction: a `br`, a `ret` or an `unreachable`. -/
def Instruction.isEnd : Instruction → Bool
  | .br _ => true
  | .terminator [] => true
  | _ => false

/-- `isa<DbgInfoIntrinsic>`: a call of one of the intrinsics for debug information. -/
def Instruction.isDebug : Instruction → Bool
  | .call _ (some name) _ =>
    ["llvm.dbg.declare", "llvm.dbg.value", "llvm.dbg.addr", "llvm.dbg.label"].contains name
  | _ => false

/-- `getNextNonDebugInstruction` and `getPrevNonDebugInstruction`, given the instructions
after this one, or those before it from here to the start of the block. -/
def adjacent (l : List Instruction) : Option Instruction := l.find? fun i => !i.isDebug

theorem adjacent_append (l l' : List Instruction) :
    adjacent (l ++ l') = (adjacent l).or (adjacent l') := List.find?_append

theorem adjacent_cons (i : Instruction) (l : List Instruction) :
    adjacent (i :: l) = if i.isDebug then adjacent l else some i := by
  rw [adjacent, List.find?_cons]
  cases i.isDebug <;> rfl

/-- `dyn_cast<StoreInst>` of an instruction that may be null, and `getOperand(1)`. -/
def storePointer? : Option Instruction → Except Crash (Option Value)
  | none => .error .null
  | some (.store _ pointer) => .ok (some pointer)
  | some _ => .ok none

/-- `dyn_cast<LoadInst>` of an instruction that may be null, and `getOperand(0)`. -/
def loadPointer? : Option Instruction → Except Crash (Option Value)
  | none => .error .null
  | some (.load _ pointer) => .ok (some pointer)
  | some _ => .ok none

/-- `getOperand(n)`. -/
def getOperand (operands : List Value) (n : ℕ) : Except Crash Value :=
  match operands[n]? with
  | some v => .ok v
  | none => .error .operand

end DepLeak

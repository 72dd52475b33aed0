import DepLeak.Dep.Tool

/-!
# The dependency tracker on lists

What the tracker computes, with its linked lists as lists of values: the abstract
side of the refinement of `DepLeak.Dep.Refine`. `var_deps`, `reg_deps` and
`write_deps` are lists of `DepLeak.Entry`, the slots of the shadow table hold lists
of read numbers, and every helper is a few lines on them.

Two fields say what the lists alone cannot. `read_dep_node_erase_tmp` assigns
`reg_deps` where it erases the head of `var_deps`; afterwards `var_deps` points at
the freed node, the rest of the list is `reg_deps`, and the registers recorded there
before are out of reach. `DepLeak.DepState.dangling` records the first: the entries
of `vars` are then followed by a dangling pointer, which only a search that stops
before it survives. `DepLeak.DepState.lost` records that some node has become
unreachable without being freed.

An entry carries the address of its node, that is, its place in the order in which
the `read_dep_node`s were created: addresses are handed out once.
-/

namespace DepLeak

open LinkedHeap Runs

/-- A `read_dep_node` with its list: its address, its `val`, its read numbers. -/
structure Entry where
  /-- The address of the node. -/
  id : ℕ
  /-- Whose dependencies these are. -/
  val : DepVal
  /-- The read numbers. -/
  deps : List ℤ
  deriving DecidableEq, Repr

/-- An entry for a temporary. -/
def Entry.isTemp (t : BitVec 32) (e : Entry) : Bool := e.val = .temp t

/-- An entry for a register. -/
def Entry.isReg (r : BitVec 32) (e : Entry) : Bool := e.val = .reg r

/-- The state of the tracker, on lists. -/
structure DepState where
  /-- The entries of `var_deps`. -/
  vars : List Entry
  /-- The entries of `vars` are followed by a dangling pointer. -/
  dangling : Bool
  /-- The entries of `reg_deps`. -/
  regs : List Entry
  /-- The entries of `write_deps`. -/
  writes : List Entry
  /-- The address of the next node. -/
  nextId : ℕ
  /-- The shadow table. -/
  shadow : Table (List ℤ)
  /-- `read_n`. -/
  readN : ℤ
  /-- `write_n`. -/
  writeN : ℤ
  /-- `trace`. -/
  trace : Bool
  /-- Some node is unreachable and not freed. -/
  lost : Bool

namespace DepState

/-- The state before anything is recorded. -/
def init (trace : Bool) : DepState where
  vars := []
  dangling := false
  regs := []
  writes := []
  nextId := 0
  shadow := .empty
  readN := 0
  writeN := 0
  trace := trace
  lost := false

/-! ### Lookups -/

/-- The list recorded for a temporary: that of its first entry. -/
def findTmp (a : DepState) (t : BitVec 32) : Exec (List ℤ) :=
  match a.vars.find? (Entry.isTemp t) with
  | some e => .ok e.deps
  | none => if a.dangling then .error .dangling else .ok []

/-- The list recorded for a register. -/
def findReg (a : DepState) (r : BitVec 32) : List ℤ :=
  ((a.regs.find? (Entry.isReg r)).elim [] Entry.deps)

/-- The list of an address. -/
def getShadow (a : DepState) (addr : UWord) : Exec (List ℤ) := a.shadow.get [] addr

/-! ### Updates -/

/-- Set the list of an address. -/
def setShadow (a : DepState) (addr : UWord) (deps : List ℤ) : Exec DepState := do
  let table ← a.shadow.demand [] addr
  let _ ← table.get [] addr
  let table ← table.put addr deps
  .ok { a with shadow := table }

/-- Erase the entries of a temporary. Where the first entry of `vars` is one of them,
what remains becomes `reg_deps` and `var_deps` is left dangling. -/
def eraseTmp (a : DepState) (t : BitVec 32) : Exec DepState :=
  let kept := a.vars.filter fun e => !e.isTemp t
  if a.dangling then .error .dangling
  else
    match a.vars with
    | [] => .ok a
    | e :: _ =>
      if e.isTemp t then
        .ok { a with vars := [], dangling := true, regs := kept, lost := true }
      else .ok { a with vars := kept }

/-- Erase the entries of a register. -/
def eraseReg (a : DepState) (r : BitVec 32) : DepState :=
  { a with regs := a.regs.filter fun e => !e.isReg r }

/-- Record a list for a temporary, in front. -/
def prependVar (a : DepState) (t : BitVec 32) (deps : List ℤ) : DepState :=
  { a with vars := ⟨a.nextId, .temp t, deps⟩ :: a.vars, nextId := a.nextId + 1 }

/-- Record a list for a temporary, at the end. -/
def appendVar (a : DepState) (t : BitVec 32) (deps : List ℤ) : Exec DepState :=
  if a.dangling then .error .dangling
  else .ok { a with vars := a.vars ++ [⟨a.nextId, .temp t, deps⟩], nextId := a.nextId + 1 }

/-- Record a list for a register. -/
def prependReg (a : DepState) (r : BitVec 32) (deps : List ℤ) : DepState :=
  { a with regs := ⟨a.nextId, .reg r, deps⟩ :: a.regs, nextId := a.nextId + 1 }

/-! ### The helpers -/

/-- The common end of the helpers that assign a temporary and put its entry in
front: nothing happens if there is nothing to record. -/
def recordFront (a : DepState) (t : BitVec 32) (deps : List ℤ) : Exec DepState :=
  if deps = [] then .ok a
  else do
    let a ← a.eraseTmp t
    .ok (a.prependVar t deps)

/-- The same for the helpers that put the entry at the end. -/
def recordBack (a : DepState) (t : BitVec 32) (deps : List ℤ) : Exec DepState :=
  if deps = [] then .ok a
  else do
    let a ← a.eraseTmp t
    a.appendVar t deps

/-- The union of the lists of some temporaries, in the order of the merges. -/
def mergeTmps (a : DepState) : List ℤ → List (BitVec 32) → Exec (List ℤ)
  | vs, [] => .ok vs
  | vs, t :: ts => do
    let ws ← a.findTmp t
    mergeTmps a (mergeVals vs ws) ts

/-- The list of an expression over temporaries. -/
def depsOf (a : DepState) : List (BitVec 32) → Exec (List ℤ)
  | [] => .ok []
  | t :: ts => do
    let vs ← a.findTmp t
    a.mergeTmps vs ts

/-- What a helper looks up before it changes anything: the list of what its
destination is assigned from. -/
def source (a : DepState) : HelperCall → Exec (List ℤ)
  | .assgnTmpLoad _ addr => a.getShadow addr
  | .exit => .ok []
  | .assgnTmpConst _ => .ok []
  | .assgnTmpUnop _ t₁ => a.depsOf [t₁]
  | .assgnTmpBinop _ t₁ t₂ => a.depsOf [t₁, t₂]
  | .assgnTmpTriop _ t₁ t₂ t₃ => a.depsOf [t₁, t₂, t₃]
  | .assgnTmpQop _ t₁ t₂ t₃ t₄ => a.depsOf [t₁, t₂, t₃, t₄]
  | .storeConst _ => .ok []
  | .storeTmp _ t => a.depsOf [t]
  | .putTmp _ t => a.depsOf [t]
  | .putCnst _ => .ok []
  | .assgnTmpGet _ r => .ok (a.findReg r)

/-- What a helper does with the list it has looked up. -/
def assign (a : DepState) (deps : List ℤ) : HelperCall → Exec DepState
  | .assgnTmpLoad t _ => a.recordBack t deps
  | .exit => if a.dangling then .error .dangling else .ok { a with vars := [] }
  | .assgnTmpConst t => a.eraseTmp t
  | .assgnTmpUnop t _ => a.recordFront t deps
  | .assgnTmpBinop t _ _ => a.recordFront t deps
  | .assgnTmpTriop t _ _ _ => a.recordFront t deps
  | .assgnTmpQop t _ _ _ _ => do
    let a ← a.recordBack t deps
    -- the merged list itself is forgotten, only its copy is recorded
    .ok { a with lost := a.lost || decide (deps ≠ []) }
  | .storeConst addr => a.setShadow addr []
  | .storeTmp addr _ => if deps = [] then .ok a else a.setShadow addr deps
  | .putTmp r _ => if deps = [] then .ok a else .ok ((a.eraseReg r).prependReg r deps)
  | .putCnst r => .ok (a.eraseReg r)
  | .assgnTmpGet t _ => if deps = [] then .ok a else .ok (a.prependVar t deps)

/-- The effect of a helper call. -/
def call (a : DepState) (c : HelperCall) : Exec DepState := do
  let deps ← a.source c
  a.assign deps c

/-! ### The hooks -/

/-- A round of the loop of the read hook. -/
def readByte (p : UWord) (a : DepState) (i : ℕ) : Exec DepState := do
  let a ← a.setShadow (p + BitVec.ofNat 64 i) [a.readN]
  let _ ← incr i
  .ok a

/-- A round of the loop of the write hook: the union so far. -/
def mergeByte (a : DepState) (p : UWord) (vs : List ℤ) (i : ℕ) : Exec (List ℤ) := do
  let ws ← a.getShadow (p + BitVec.ofNat 64 i)
  .ok (mergeVals vs ws)

/-- The union of the lists of the bytes of a buffer. -/
def memDeps (a : DepState) (p size : UWord) : Exec (List ℤ) :=
  run (a.mergeByte p) [] (List.range size.toNat)

/-- The read hook. -/
def preRead (a : DepState) (args : ℕ → UWord) : Exec DepState := do
  let n ← incr a.readN
  run (readByte (args 1)) { a with readN := n } (List.range (args 2).toNat)

/-- The write hook. -/
def preWrite (a : DepState) (args : ℕ → UWord) : Exec DepState := do
  let n ← incr a.writeN
  let deps ← a.memDeps (args 1) (args 2)
  .ok { a with
    writeN := n, writes := a.writes ++ [⟨a.nextId, .write n, deps⟩], nextId := a.nextId + 1 }

/-- The system-call hook. -/
def preCall (a : DepState) (syscallno : ℕ) (args : ℕ → UWord) : Exec DepState :=
  if a.trace then do
    let a ← (if syscallno = nrRead then a.preRead args else .ok a)
    if syscallno = nrWrite then a.preWrite args else .ok a
  else .ok a

/-- The effect of an event. -/
def step (a : DepState) : Event → Exec DepState
  | .helper c => a.call c
  | .preCall syscallno args => a.preCall syscallno args

end DepState

end DepLeak

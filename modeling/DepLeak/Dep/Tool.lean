import DepLeak.Dep.IntNode
import DepLeak.Dep.Shadow
import Mathlib.Algebra.Ring.Int.Defs
import Mathlib.Algebra.Ring.Nat

/-!
# The run-time state of the dependency tracker

The run-time half of `depAnalysis.c`: its global variables, the functions on
`read_dep_node` lists, the helpers that an instrumented superblock calls, and the
system-call hooks. Every function is the one of the source, over a heap in which a
freed node is never handed out again; a step that touches a freed node, indexes
outside the shadow table or overflows a counter is undefined in C, and is a fault
here.

`read_dep_node_erase_tmp` and `read_dep_node_erase_reg` have one body, down to the
assignment to `reg_deps` when the node at the head of the list is erased; they
differ in the list they walk and in the entries they match, and so share
`DepLeak.eraseLoop`.
-/

namespace DepLeak

open LinkedHeap Runs

/-! ### The data -/

/-- `dep_val`: a `dep_kind` with the member of its union. -/
inductive DepVal
  /-- A memory region. -/
  | mem (memAddr size : UWord)
  /-- A temporary. -/
  | temp (temp : BitVec 32)
  /-- A `write()` call. -/
  | write (writeVal : ℤ)
  /-- A register, by its offset in the guest state. -/
  | reg (regVal : BitVec 32)
  deriving DecidableEq, Repr

/-- What a `read_dep_node` carries besides its `next`. -/
structure ReadDep where
  /-- Whose dependencies these are. -/
  val : DepVal
  /-- The list of read numbers. -/
  readDeps : Ptr
  deriving DecidableEq

/-- The `read_dep_node`s of the tool. -/
abbrev NodeHeap := Heap ReadDep

/-- The global variables of the tool, and the two heaps they point into. -/
structure State where
  /-- The `int_node`s. -/
  ints : IntHeap
  /-- The `read_dep_node`s. -/
  nodes : NodeHeap
  /-- `var_deps`. -/
  varDeps : Ptr
  /-- `reg_deps`. -/
  regDeps : Ptr
  /-- `write_deps`. -/
  writeDeps : Ptr
  /-- `shadow_mem`. -/
  shadowMem : Table Ptr
  /-- `read_n`. -/
  readN : ℤ
  /-- `write_n`. -/
  writeN : ℤ
  /-- `trace`. -/
  trace : Bool

/-- The state after `da_post_clo_init`. -/
def State.init (trace : Bool) : State where
  ints := .empty
  nodes := .empty
  varDeps := none
  regDeps := none
  writeDeps := none
  shadowMem := .empty
  readN := 0
  writeN := 0
  trace := trace

/-- `x++` on a C `int`. -/
def incr (x : ℤ) : Exec ℤ := if x + 1 < 2 ^ 31 then .ok (x + 1) else .error .overflow

/-! ### Lists of `read_dep_node`s -/

/-- `create_read_dep_node`. -/
def createReadDepNode (h : NodeHeap) (val : DepVal) (readDeps : Ptr) : NodeHeap × ℕ :=
  (h.alloc ⟨⟨val, readDeps⟩, none⟩, h.top)

/-- `read_dep_node_prepend`. -/
def readDepNodePrepend (h : NodeHeap) (head : Ptr) (dependency : DepVal) (readDeps : Ptr) :
    Exec (NodeHeap × Ptr) := do
  let (h, newNode) := createReadDepNode h dependency readDeps
  let h ← h.setNext newNode head
  .ok (h, some newNode)

/-- `read_dep_node_append`. -/
def readDepNodeAppend (h : NodeHeap) (head : Ptr) (dependency : DepVal) (readDeps : Ptr) :
    Exec (NodeHeap × Ptr) :=
  match head with
  | none =>
    let (h, newNode) := createReadDepNode h dependency readDeps
    .ok (h, some newNode)
  | some tmp => do
    -- the walk to the end comes first, so a freed node is met before anything is allocated
    let tmp ← h.last tmp
    let (h, newNode) := createReadDepNode h dependency readDeps
    let h ← h.setNext tmp (some newNode)
    .ok (h, head)

/-- The loop of `free_read_dep_list`. -/
def freeReadDepLoop : ℕ → NodeHeap → IntHeap → Ptr → Exec (NodeHeap × IntHeap)
  | _, h, ints, none => .ok (h, ints)
  | 0, _, _, some _ => .error .fuel
  | n + 1, h, ints, some head => do
    let nd ← h.read head
    let ints ← freeIntNodeList ints nd.val.readDeps
    let temp := head
    let h ← h.free temp
    freeReadDepLoop n h ints nd.next

/-- `free_read_dep_list`. -/
def freeReadDepList (h : NodeHeap) (ints : IntHeap) (head : Ptr) : Exec (NodeHeap × IntHeap) :=
  freeReadDepLoop (h.top + 1) h ints head

/-- The test `h->val.tag == k_temp && h->val.val.temp == tmp`. -/
def isTemp (tmp : BitVec 32) (d : ReadDep) : Bool := d.val = .temp tmp

/-- The test `h->val.tag == k_reg && h->val.val.reg_val == reg`. -/
def isReg (reg : BitVec 32) (d : ReadDep) : Bool := d.val = .reg reg

/-- What the erasing loops change: the two heaps and `reg_deps`. -/
structure EraseState where
  /-- The `read_dep_node`s. -/
  nodes : NodeHeap
  /-- The `int_node`s. -/
  ints : IntHeap
  /-- `reg_deps`. -/
  regDeps : Ptr

/-- Taking a node out of its list, given the pointers before and after it. A node
without a predecessor is the head of the list, and there both functions assign
`reg_deps`. -/
def eraseUnlink (st : EraseState) (prev next : Ptr) : Exec EraseState :=
  match prev with
  | none => .ok { st with regDeps := next }
  | some prev => do
    let nodes ← st.nodes.setNext prev next
    .ok { st with nodes := nodes }

/-- The loop of `read_dep_node_erase_tmp` and `read_dep_node_erase_reg`, with the
local variables `prev` and `h`. -/
def eraseLoop (f : ReadDep → Bool) : ℕ → EraseState → Ptr → Ptr → Exec EraseState
  | _, st, _, none => .ok st
  | 0, _, _, some _ => .error .fuel
  | n + 1, st, prev, some h => do
    let nd ← st.nodes.read h
    if f nd.val then do
      let st ← eraseUnlink st prev nd.next
      let ints ← freeIntNodeList st.ints nd.val.readDeps
      let nodes ← st.nodes.free h
      -- the node before the next one is still `prev`
      eraseLoop f n { st with nodes := nodes, ints := ints } prev nd.next
    else eraseLoop f n st (some h) nd.next

/-- An erasing loop over the list at `head`, run on the state of the tool. -/
def eraseFrom (f : ReadDep → Bool) (s : State) (head : Ptr) : Exec State := do
  let st ← eraseLoop f (s.nodes.top + 1) ⟨s.nodes, s.ints, s.regDeps⟩ none head
  .ok { s with nodes := st.nodes, ints := st.ints, regDeps := st.regDeps }

/-- `read_dep_node_erase_tmp`. -/
def readDepNodeEraseTmp (s : State) (tmp : BitVec 32) : Exec State :=
  if s.varDeps = none then .ok s else eraseFrom (isTemp tmp) s s.varDeps

/-- `read_dep_node_erase_reg`. -/
def readDepNodeEraseReg (s : State) (reg : BitVec 32) : Exec State :=
  if s.regDeps = none then .ok s else eraseFrom (isReg reg) s s.regDeps

/-! ### Lookups -/

/-- `get_shadow_mem`. -/
def getShadowMem (s : State) (addr : UWord) : Exec Ptr := s.shadowMem.get none addr

/-- `set_shadow_mem`. -/
def setShadowMem (s : State) (addr : UWord) (deps : Ptr) : Exec State := do
  let table ← s.shadowMem.demand none addr
  let old ← table.get none addr
  -- the list that was in the slot is freed
  let ints ← freeIntNodeList s.ints old
  let table ← table.put addr deps
  .ok { s with shadowMem := table, ints := ints }

/-- `find_read_dep_tmp`. -/
def findReadDepTmp (s : State) (tmp : BitVec 32) : Exec Ptr := do
  let found ← s.nodes.find (isTemp tmp) s.varDeps
  .ok (found.elim none fun x => x.2.readDeps)

/-- `find_read_dep_reg`. -/
def findReadDepReg (s : State) (reg : BitVec 32) : Exec Ptr := do
  let found ← s.nodes.find (isReg reg) s.regDeps
  .ok (found.elim none fun x => x.2.readDeps)

/-- A deep copy of a list of the tool: a state with the copy in its heap, and the
pointer to it. A `NULL` list copies to `NULL`. -/
def copyDeps (s : State) (l : Ptr) : Exec (State × Ptr) := do
  let (ints, l) ← deepCopyIntNodeList s.ints l
  .ok ({ s with ints := ints }, l)

/-- `get_deps_tmp`. -/
def getDepsTmp (s : State) (tmp : BitVec 32) : Exec (State × Ptr) := do
  let l ← findReadDepTmp s tmp
  copyDeps s l

/-- `get_deps_reg`. -/
def getDepsReg (s : State) (reg : BitVec 32) : Exec (State × Ptr) := do
  let l ← findReadDepReg s reg
  copyDeps s l

/-- `int_node_merge` on two lists of the tool. -/
def mergeDeps (s : State) (head l : Ptr) : Exec (State × Ptr) := do
  let (ints, head) ← intNodeMerge s.ints head l
  .ok ({ s with ints := ints }, head)

/-! ### The helpers -/

/-- `var_deps = read_dep_node_prepend(var_deps, val, l)`. -/
def prependVar (s : State) (tmp : BitVec 32) (l : Ptr) : Exec State := do
  let (nodes, head) ← readDepNodePrepend s.nodes s.varDeps (.temp tmp) l
  .ok { s with nodes := nodes, varDeps := head }

/-- `var_deps = read_dep_node_append(var_deps, val, l)`. -/
def appendVar (s : State) (tmp : BitVec 32) (l : Ptr) : Exec State := do
  let (nodes, head) ← readDepNodeAppend s.nodes s.varDeps (.temp tmp) l
  .ok { s with nodes := nodes, varDeps := head }

/-- `reg_deps = read_dep_node_prepend(reg_deps, val, l)`. -/
def prependReg (s : State) (reg : BitVec 32) (l : Ptr) : Exec State := do
  let (nodes, head) ← readDepNodePrepend s.nodes s.regDeps (.reg reg) l
  .ok { s with nodes := nodes, regDeps := head }

/-- `instrument_assgn_tmp_load`. -/
def instrumentAssgnTmpLoad (s : State) (tmpN : BitVec 32) (addr : UWord) : Exec State := do
  let l ← getShadowMem s addr
  if l = none then .ok s
  else do
    -- the slot keeps its list; the entry gets a copy
    let s ← readDepNodeEraseTmp s tmpN
    let (s, l) ← copyDeps s l
    appendVar s tmpN l

/-- `instrument_exit`. -/
def instrumentExit (s : State) : Exec State := do
  let (nodes, ints) ← freeReadDepList s.nodes s.ints s.varDeps
  .ok { s with nodes := nodes, ints := ints, varDeps := none }

/-- `instrument_assgn_tmp_const`. -/
def instrumentAssgnTmpConst (s : State) (tmp : BitVec 32) : Exec State :=
  readDepNodeEraseTmp s tmp

/-- `instrument_assgn_tmp_unop`. -/
def instrumentAssgnTmpUnop (s : State) (tmpLhs tmpRhs : BitVec 32) : Exec State := do
  let (s, l) ← getDepsTmp s tmpRhs
  if l = none then .ok s
  else do
    let s ← readDepNodeEraseTmp s tmpLhs
    prependVar s tmpLhs l

/-- `instrument_assgn_tmp_binop`. -/
def instrumentAssgnTmpBinop (s : State) (tmpLhs tmp1 tmp2 : BitVec 32) : Exec State := do
  let (s, l1) ← getDepsTmp s tmp1
  let (s, l2) ← getDepsTmp s tmp2
  let (s, l) ← mergeDeps s l1 l2
  if l = none then .ok s
  else do
    let s ← readDepNodeEraseTmp s tmpLhs
    prependVar s tmpLhs l

/-- `instrument_assgn_tmp_triop`. -/
def instrumentAssgnTmpTriop (s : State) (tmpLhs tmp1 tmp2 tmp3 : BitVec 32) : Exec State := do
  let (s, l1) ← getDepsTmp s tmp1
  let (s, l2) ← getDepsTmp s tmp2
  let (s, l3) ← getDepsTmp s tmp3
  let (s, l) ← mergeDeps s l1 l2
  let (s, l) ← mergeDeps s l l3
  if l = none then .ok s
  else do
    let s ← readDepNodeEraseTmp s tmpLhs
    prependVar s tmpLhs l

/-- `instrument_assgn_tmp_qop`: it records a copy of the merged list, and keeps no
pointer to the list itself. -/
def instrumentAssgnTmpQop (s : State) (tmpLhs tmp1 tmp2 tmp3 tmp4 : BitVec 32) :
    Exec State := do
  let (s, l1) ← getDepsTmp s tmp1
  let (s, l2) ← getDepsTmp s tmp2
  let (s, l3) ← getDepsTmp s tmp3
  let (s, l4) ← getDepsTmp s tmp4
  let (s, l) ← mergeDeps s l1 l2
  let (s, l) ← mergeDeps s l l3
  let (s, l) ← mergeDeps s l l4
  if l = none then .ok s
  else do
    let s ← readDepNodeEraseTmp s tmpLhs
    let (s, l) ← copyDeps s l
    appendVar s tmpLhs l

/-- `instrument_store_const`. -/
def instrumentStoreConst (s : State) (addr : UWord) : Exec State := setShadowMem s addr none

/-- `instrument_store_tmp`. -/
def instrumentStoreTmp (s : State) (addr : UWord) (tmp : BitVec 32) : Exec State := do
  let (s, l) ← getDepsTmp s tmp
  if l = none then .ok s else setShadowMem s addr l

/-- `instrument_put_tmp`. -/
def instrumentPutTmp (s : State) (reg tmp : BitVec 32) : Exec State := do
  let (s, l) ← getDepsTmp s tmp
  if l = none then .ok s
  else do
    let s ← readDepNodeEraseReg s reg
    prependReg s reg l

/-- `instrument_put_cnst`. -/
def instrumentPutCnst (s : State) (reg : BitVec 32) : Exec State := readDepNodeEraseReg s reg

/-- `instrument_assgn_tmp_get`. -/
def instrumentAssgnTmpGet (s : State) (tmp reg : BitVec 32) : Exec State := do
  let (s, l) ← getDepsReg s reg
  -- the entries the temporary has are left in the list
  if l = none then .ok s else prependVar s tmp l

/-- A call of a helper. -/
inductive HelperCall
  /-- `instrument_assgn_tmp_load`. -/
  | assgnTmpLoad (tmpN : BitVec 32) (addr : UWord)
  /-- `instrument_exit`. -/
  | exit
  /-- `instrument_assgn_tmp_const`. -/
  | assgnTmpConst (tmp : BitVec 32)
  /-- `instrument_assgn_tmp_unop`. -/
  | assgnTmpUnop (tmpLhs tmpRhs : BitVec 32)
  /-- `instrument_assgn_tmp_binop`. -/
  | assgnTmpBinop (tmpLhs tmp1 tmp2 : BitVec 32)
  /-- `instrument_assgn_tmp_triop`. -/
  | assgnTmpTriop (tmpLhs tmp1 tmp2 tmp3 : BitVec 32)
  /-- `instrument_assgn_tmp_qop`. -/
  | assgnTmpQop (tmpLhs tmp1 tmp2 tmp3 tmp4 : BitVec 32)
  /-- `instrument_store_const`. -/
  | storeConst (addr : UWord)
  /-- `instrument_store_tmp`. -/
  | storeTmp (addr : UWord) (tmp : BitVec 32)
  /-- `instrument_put_tmp`. -/
  | putTmp (reg tmp : BitVec 32)
  /-- `instrument_put_cnst`. -/
  | putCnst (reg : BitVec 32)
  /-- `instrument_assgn_tmp_get`. -/
  | assgnTmpGet (tmp reg : BitVec 32)
  deriving DecidableEq, Repr

/-- The address whose shadow a helper looks at or sets. -/
def HelperCall.addr? : HelperCall → Option UWord
  | .assgnTmpLoad _ addr => some addr
  | .storeConst addr => some addr
  | .storeTmp addr _ => some addr
  | _ => none

/-- The effect of a helper call. -/
def callHelper (s : State) : HelperCall → Exec State
  | .assgnTmpLoad t a => instrumentAssgnTmpLoad s t a
  | .exit => instrumentExit s
  | .assgnTmpConst t => instrumentAssgnTmpConst s t
  | .assgnTmpUnop t t₁ => instrumentAssgnTmpUnop s t t₁
  | .assgnTmpBinop t t₁ t₂ => instrumentAssgnTmpBinop s t t₁ t₂
  | .assgnTmpTriop t t₁ t₂ t₃ => instrumentAssgnTmpTriop s t t₁ t₂ t₃
  | .assgnTmpQop t t₁ t₂ t₃ t₄ => instrumentAssgnTmpQop s t t₁ t₂ t₃ t₄
  | .storeConst a => instrumentStoreConst s a
  | .storeTmp a t => instrumentStoreTmp s a t
  | .putTmp r t => instrumentPutTmp s r t
  | .putCnst r => instrumentPutCnst s r
  | .assgnTmpGet t r => instrumentAssgnTmpGet s t r

/-! ### The system-call hooks -/

/-- `__NR_read`. -/
abbrev nrRead : ℕ := 0

/-- `__NR_write`. -/
abbrev nrWrite : ℕ := 1

/-- The arguments of a `read()` or of a `write()`. -/
def sysArgs (fd buf count : UWord) (i : ℕ) : UWord :=
  if i = 0 then fd else if i = 1 then buf else count

/-- A round of the loop of `ta_pre_call` on a `read()`: give byte `i` of the buffer
its own one-element list, and count up the `int i`. -/
def readByte (p : UWord) (s : State) (i : ℕ) : Exec State := do
  let (ints, intList) := intListCreate s.ints s.readN
  let s ← setShadowMem { s with ints := ints } (p + BitVec.ofNat 64 i) intList
  let _ ← incr i
  .ok s

/-- A round of the loop of `find_read_dep_by_mem_addrs`: merge in a copy of the list
of byte `i`. -/
def mergeByte (targetAddr : UWord) (sl : State × Ptr) (i : ℕ) : Exec (State × Ptr) := do
  let (s, head) := sl
  let found ← getShadowMem s (targetAddr + BitVec.ofNat 64 i)
  let (s, tmp) ← copyDeps s found
  mergeDeps s head tmp

/-- `find_read_dep_by_mem_addrs`. -/
def findReadDepByMemAddrs (s : State) (targetAddr size : UWord) : Exec (State × Ptr) :=
  run (mergeByte targetAddr) (s, none) (List.range size.toNat)

/-- `ta_pre_call` on a `read()`. -/
def taPreRead (s : State) (args : ℕ → UWord) : Exec State := do
  let n ← incr s.readN
  -- every byte asked for, before the kernel has filled any
  run (readByte (args 1)) { s with readN := n } (List.range (args 2).toNat)

/-- `ta_pre_call` on a `write()`. -/
def taPreWrite (s : State) (args : ℕ → UWord) : Exec State := do
  let n ← incr s.writeN
  let (s, readDep) ← findReadDepByMemAddrs { s with writeN := n } (args 1) (args 2)
  -- an entry is made for every call, also where nothing was found
  let (nodes, head) ← readDepNodeAppend s.nodes s.writeDeps (.write s.writeN) readDep
  .ok { s with nodes := nodes, writeDeps := head }

/-- `ta_pre_call`. -/
def taPreCall (s : State) (syscallno : ℕ) (args : ℕ → UWord) : Exec State :=
  if s.trace then do
    let s ← (if syscallno = nrRead then taPreRead s args else .ok s)
    if syscallno = nrWrite then taPreWrite s args else .ok s
  else .ok s

/-- `ta_post_call`: the hook after a system call is empty. -/
def taPostCall (s : State) (_syscallno : ℕ) (_args : ℕ → UWord) : Exec State := .ok s

/-! ### Runs -/

/-- What a running program makes the tool do. -/
inductive Event
  /-- An instrumented superblock calls a helper. -/
  | helper (c : HelperCall)
  /-- The program is about to make a system call. -/
  | preCall (syscallno : ℕ) (args : ℕ → UWord)

/-- The addresses whose shadow an event looks at or sets. -/
def Event.Accesses : Event → UWord → Prop
  | .helper c, addr => c.addr? = some addr
  | .preCall syscallno args, addr =>
    (syscallno = nrRead ∨ syscallno = nrWrite) ∧
      ∃ i < (args 2).toNat, addr = args 1 + BitVec.ofNat 64 i

/-- The event is a call of the hook for a `read()`. -/
def Event.isRead : Event → Bool
  | .helper _ => false
  | .preCall syscallno _ => syscallno = nrRead

/-- The event is a call of the hook for a `write()`. -/
def Event.isWrite : Event → Bool
  | .helper _ => false
  | .preCall syscallno _ => syscallno = nrWrite

/-- The effect of an event. -/
def stepTool (s : State) : Event → Exec State
  | .helper c => callHelper s c
  | .preCall syscallno args => taPreCall s syscallno args

/-! ### The report -/

/-- The text of a list of read numbers. -/
def readsText (vs : List ℤ) : String :=
  vs.foldl (fun out v => out ++ " read():" ++ toString v) ""

/-- `printf_int_list`. -/
def printfIntList (h : IntHeap) (current : Ptr) : Exec String := do
  let vs ← h.toList current
  .ok (readsText vs)

/-- The line `printf_read_dep_list` prints for an entry, if it prints one: entries
with a `NULL` list and entries that are no writes are passed over. -/
def printfReadDep (h : IntHeap) (d : ReadDep) : Exec (List String) :=
  if d.readDeps = none then .ok []
  else
    match d.val with
    | .write n => do
      let line ← printfIntList h d.readDeps
      .ok ["write():" ++ toString n ++ line]
    | _ => .ok []

/-- `printf_read_dep_list`: the lines printed to the trace file. -/
def printfReadDepList (s : State) (head : Ptr) : Exec (List String) := do
  let ds ← s.nodes.toList head
  let lines ← ds.mapM (printfReadDep s.ints)
  .ok lines.flatten

/-! ### The end of the program -/

/-- A round of the inner loop of `free_shadow_mem`. -/
def freeSlot (page : Page Ptr) (ints : IntHeap) (j : ℕ) : Exec IntHeap :=
  if hj : j < tableSize then freeIntNodeList ints (page ⟨j, hj⟩) else .error .bounds

/-- A round of the outer loop of `free_shadow_mem`: the lists of a page, and the page,
which is not there any more when it is freed. -/
def freePage (s : State) (i : ℕ) : Exec State :=
  if hi : i < tableSize then
    match s.shadowMem ⟨i, hi⟩ with
    | none => .ok s
    | some page => do
      let ints ← run (freeSlot page) s.ints (List.range 0x0000FFFF)
      .ok { s with ints := ints, shadowMem := Function.update s.shadowMem ⟨i, hi⟩ none }
  else .error .bounds

/-- `free_shadow_mem`. -/
def freeShadowMem (s : State) : Exec State := run freePage s (List.range 0x0000FFFF)

/-- `da_fini`: the lines of the trace file, and what is left allocated. -/
def daFini (s : State) : Exec (List String × State) := do
  let lines ← printfReadDepList s s.writeDeps
  let (nodes, ints) ← freeReadDepList s.nodes s.ints s.regDeps
  let (nodes, ints) ← freeReadDepList nodes ints s.varDeps
  let (nodes, ints) ← freeReadDepList nodes ints s.writeDeps
  let s ← freeShadowMem { s with nodes := nodes, ints := ints }
  .ok (lines, s)

end DepLeak

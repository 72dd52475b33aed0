import DepLeak.Leak.Detector

/-!
# What an analysis leaves of the module

The pass is registered as an analysis, and `runOnModule` says that the module is not
modified. But each call of `malloc` whose result is stored to a constant expression, and
each call of `free` whose argument was loaded from one, leaves the instruction made of
that expression in its block, before the call (`DepLeak.Splices`). Where that is before a
call of `free`, the load is no longer adjacent to it, and the next analysis of the block
misses the call.

The blocks never get shorter, so that an instruction once put in is seen in the end:
`DepLeak.detectAll_pure_iff`, the analysis of any paths one after the other is pure
exactly if there is no such call on them.
-/

namespace DepLeak

open Runs Detector

/-! ### The calls that change their block -/

/-- The next instruction stores to a constant expression. -/
def StoresToExpr (rest : List Instruction) : Prop :=
  ∃ value opcode operands, adjacent rest = some (.store value (.constantExpr opcode operands))

/-- The instruction before loads from a constant expression. -/
def LoadsFromExpr (before : List Instruction) : Prop :=
  ∃ id opcode operands, adjacent before = some (.load id (.constantExpr opcode operands))

/-- A call of `malloc` or of `free` that reaches its location through a constant
expression. -/
def Splices (before : List Instruction) (i : Instruction) (rest : List Instruction) : Prop :=
  match i with
  | .call _ (some name) _ =>
    finds name "malloc" ∧ StoresToExpr rest ∨ finds name "free" ∧ LoadsFromExpr before
  | _ => False

/-- There is one among the instructions of a block from here on. -/
def SplicesFrom (before l : List Instruction) : Prop :=
  ∃ pre i post, l = pre ++ i :: post ∧ Splices (pre.reverse ++ before) i post

/-- There is one in a block. -/
def HasSplice (l : List Instruction) : Prop := SplicesFrom [] l

theorem not_splicesFrom_nil (before : List Instruction) : ¬SplicesFrom before [] := by
  rintro ⟨pre, i, post, h, -⟩
  simp at h

theorem splicesFrom_cons {before rest : List Instruction} {i : Instruction} :
    SplicesFrom before (i :: rest) ↔ Splices before i rest ∨ SplicesFrom (i :: before) rest := by
  constructor
  · rintro ⟨pre, j, post, h, hj⟩
    cases pre with
    | nil =>
      obtain ⟨rfl, rfl⟩ := List.cons.inj h
      exact .inl hj
    | cons k pre =>
      obtain ⟨rfl, rfl⟩ := List.cons.inj h
      exact .inr ⟨pre, j, post, rfl, by simpa using hj⟩
  · rintro (hi | ⟨pre, j, post, rfl, hj⟩)
    · exact ⟨[], i, rest, rfl, hi⟩
    · exact ⟨i :: pre, j, post, rfl, by simpa using hj⟩

/-! ### What one instruction puts in -/

section Visit

variable {i : Instruction} {before before' rest : List Instruction} {d d' : Detector}

theorem visitMalloc_before (h : visitMalloc i before rest d = .ok (d', before')) :
    (¬StoresToExpr rest ∧ before' = before) ∨
      (StoresToExpr rest ∧ ∃ opcode operands, before' = .expression opcode operands :: before) := by
  rw [visitMalloc] at h
  obtain ⟨pointer, hpointer, h⟩ := bind_eq_ok.mp h
  cases hadj : adjacent rest with
  | none =>
    rw [hadj] at hpointer
    cases hpointer
  | some j =>
    rw [hadj] at hpointer
    cases j with
    | store value target =>
      obtain rfl : some target = pointer := Except.ok.inj hpointer
      cases target with
      | constantExpr opcode operands =>
        refine .inr ⟨⟨value, opcode, operands, hadj⟩, ?_⟩
        obtain ⟨field, -, h⟩ := bind_eq_ok.mp h
        cases field with
        | none =>
          cases h
          exact ⟨_, _, rfl⟩
        | some field =>
          obtain ⟨d₁, -, h⟩ := bind_eq_ok.mp h
          cases h
          exact ⟨_, _, rfl⟩
      | _ =>
        obtain ⟨d₁, -, h⟩ := bind_eq_ok.mp h
        cases h
        refine .inl ⟨?_, rfl⟩
        rintro ⟨value', opcode, operands, hstore⟩
        rw [hadj] at hstore
        cases hstore
    | _ =>
      cases hpointer
      cases h
      refine .inl ⟨?_, rfl⟩
      rintro ⟨value', opcode, operands, hstore⟩
      rw [hadj] at hstore
      cases hstore

theorem visitFree_before (h : visitFree before d = .ok (d', before')) :
    (¬LoadsFromExpr before ∧ before' = before) ∨
      (LoadsFromExpr before ∧
        ∃ opcode operands, before' = .expression opcode operands :: before) := by
  rw [visitFree] at h
  obtain ⟨pointer, hpointer, h⟩ := bind_eq_ok.mp h
  cases hadj : adjacent before with
  | none =>
    rw [hadj] at hpointer
    cases hpointer
  | some j =>
    rw [hadj] at hpointer
    cases j with
    | load id source =>
      obtain rfl : some source = pointer := Except.ok.inj hpointer
      cases source with
      | constantExpr opcode operands =>
        refine .inr ⟨⟨id, opcode, operands, hadj⟩, ?_⟩
        obtain ⟨field, -, h⟩ := bind_eq_ok.mp h
        cases field with
        | none =>
          cases h
          exact ⟨_, _, rfl⟩
        | some field =>
          obtain ⟨d₁, -, h⟩ := bind_eq_ok.mp h
          cases h
          exact ⟨_, _, rfl⟩
      | _ =>
        obtain ⟨d₁, -, h⟩ := bind_eq_ok.mp h
        cases h
        refine .inl ⟨?_, rfl⟩
        rintro ⟨id', opcode, operands, hload⟩
        rw [hadj] at hload
        cases hload
    | _ =>
      cases hpointer
      cases h
      refine .inl ⟨?_, rfl⟩
      rintro ⟨id', opcode, operands, hload⟩
      rw [hadj] at hload
      cases hload

theorem ite_before {c : Bool} {P : Prop} {x : Except Crash (Detector × List Instruction)}
    (hx : x = .ok (d', before') → (¬P ∧ before' = before) ∨
      (P ∧ ∃ opcode operands, before' = .expression opcode operands :: before))
    (h : (if c then x else .ok (d, before)) = .ok (d', before')) :
    (¬(c ∧ P) ∧ before' = before) ∨
      ((c ∧ P) ∧ ∃ opcode operands, before' = .expression opcode operands :: before) := by
  cases c with
  | true => simpa using hx h
  | false =>
    cases h
    exact .inl ⟨by simp, rfl⟩

/-- **What one instruction puts in before itself**: something exactly if it is one of the
calls. -/
theorem visit_before (h : visit i before rest d = .ok (d', before')) :
    (¬Splices before i rest ∧ before' = before) ∨
      (Splices before i rest ∧ before.length < before'.length) := by
  cases i with
  | call id callee args =>
    cases callee with
    | none => cases h
    | some name =>
      obtain ⟨d₁, -, h⟩ := bind_eq_ok.mp h
      obtain ⟨⟨d₂, before₂⟩, hmalloc, hfree⟩ := bind_eq_ok.mp h
      rcases ite_before visitMalloc_before hmalloc with ⟨hnot, rfl⟩ | ⟨hyes, opcode, operands, rfl⟩
      · rcases ite_before visitFree_before hfree with ⟨hnot', rfl⟩ | ⟨hyes', opcode, operands, rfl⟩
        · exact .inl ⟨not_or.mpr ⟨hnot, hnot'⟩, rfl⟩
        · exact .inr ⟨.inr hyes', Nat.lt_succ_self _⟩
      · refine .inr ⟨.inl hyes, ?_⟩
        rcases ite_before visitFree_before hfree with ⟨-, rfl⟩ | ⟨-, opcode', operands', rfl⟩
        · simp
        · simp only [List.length_cons]
          omega
  | _ =>
    cases h
    exact .inl ⟨id, rfl⟩

/-- **What a block is left as**: as it was, or longer. -/
theorem visitBlock_before {l l' : List Instruction} (h : visitBlock d before l = .ok (d', l')) :
    (¬SplicesFrom before l ∧ l' = before.reverse ++ l) ∨
      (SplicesFrom before l ∧ before.length + l.length < l'.length) := by
  induction l generalizing d before with
  | nil =>
    cases h
    exact .inl ⟨not_splicesFrom_nil before, by simp⟩
  | cons i rest ih =>
    obtain ⟨⟨d₁, before₁⟩, hi, h⟩ := bind_eq_ok.mp h
    rw [splicesFrom_cons]
    have hrest := ih h
    rcases visit_before hi with ⟨hnot, rfl⟩ | ⟨hyes, hlt⟩
    · rcases hrest with ⟨hnot', rfl⟩ | ⟨hyes', hlt⟩
      · exact .inl ⟨not_or.mpr ⟨hnot, hnot'⟩, by simp⟩
      · refine .inr ⟨.inr hyes', ?_⟩
        simp only [List.length_cons] at hlt ⊢
        omega
    · refine .inr ⟨.inl hyes, ?_⟩
      rcases hrest with ⟨-, rfl⟩ | ⟨-, hlt'⟩
      · simp only [List.length_append, List.length_reverse, List.length_cons]
        omega
      · simp only [List.length_cons] at hlt' ⊢
        omega

end Visit

/-! ### The branches stay -/

section Branches

variable {i : Instruction} {before before' rest : List Instruction} {d d' : Detector}

/-- The instruction made of an expression is no branch. -/
theorem branches_of_before {P : Prop} (h : (¬P ∧ before' = before) ∨
      (P ∧ ∃ opcode operands, before' = .expression opcode operands :: before)) :
    before'.filterMap Instruction.branch? = before.filterMap Instruction.branch? := by
  rcases h with ⟨-, rfl⟩ | ⟨-, opcode, operands, rfl⟩
  · rfl
  · exact List.filterMap_cons_none rfl

theorem visit_branches (h : visit i before rest d = .ok (d', before')) :
    before'.filterMap Instruction.branch? = before.filterMap Instruction.branch? := by
  cases i with
  | call id callee args =>
    cases callee with
    | none => cases h
    | some name =>
      obtain ⟨d₁, -, h⟩ := bind_eq_ok.mp h
      obtain ⟨⟨d₂, before₂⟩, hmalloc, hfree⟩ := bind_eq_ok.mp h
      rw [branches_of_before (ite_before visitFree_before hfree),
        branches_of_before (ite_before visitMalloc_before hmalloc)]
  | _ =>
    cases h
    rfl

theorem visitBlock_branches {l l' : List Instruction} (h : visitBlock d before l = .ok (d', l')) :
    l'.filterMap Instruction.branch? =
      (before.reverse ++ l).filterMap Instruction.branch? := by
  induction l generalizing d before with
  | nil =>
    cases h
    rw [List.append_nil]
  | cons i rest ih =>
    obtain ⟨⟨d₁, before₁⟩, hi, h⟩ := bind_eq_ok.mp h
    rw [ih h]
    simp only [List.filterMap_append, List.filterMap_reverse, List.reverse_cons, visit_branches hi,
      List.append_assoc, List.singleton_append]

/-- **The successors of the blocks stay** when a path is analysed. -/
theorem memoryLeakDetection_branches {blocks blocks' : Blocks} {path : List BasicBlock}
    {verdict : Bool} (h : memoryLeakDetection blocks path = .ok (verdict, blocks')) :
    branchOf blocks' = branchOf blocks := by
  obtain ⟨⟨d, blocks₁⟩, hrun, h⟩ := bind_eq_ok.mp h
  obtain ⟨-, rfl⟩ := Prod.mk.inj (Except.ok.inj h)
  have hstep : ∀ bb ∈ path, ∀ s s', branchOf s.2 = branchOf blocks → visitAt s bb = .ok s' →
      branchOf s'.2 = branchOf blocks := by
    intro bb _ s s' hs h
    obtain ⟨⟨d, l⟩, hl, h⟩ := bind_eq_ok.mp h
    obtain rfl := Except.ok.inj h
    rw [← hs]
    funext bb'
    rcases eq_or_ne bb' bb with rfl | hne
    · have hbranches := visitBlock_branches hl
      rw [List.reverse_nil, List.nil_append] at hbranches
      simp only [branchOf, Function.update_self, ← List.head?_filterMap, hbranches]
    · simp only [branchOf, Function.update_of_ne hne]
  exact run_preserves (I := fun s => branchOf s.2 = branchOf blocks) hstep rfl hrun

end Branches

/-! ### What a path puts in -/

/-- No block is shorter, and one is longer. -/
def Longer (blocks blocks' : Blocks) : Prop :=
  (∀ bb, (blocks bb).length ≤ (blocks' bb).length) ∧
    ∃ bb, (blocks bb).length < (blocks' bb).length

theorem Longer.trans {x y z : Blocks} (hxy : Longer x y) (hyz : Longer y z) : Longer x z := by
  obtain ⟨bb, hlt⟩ := hxy.2
  exact ⟨fun bb => (hxy.1 bb).trans (hyz.1 bb), bb, hlt.trans_le (hyz.1 bb)⟩

theorem Longer.ne {x y : Blocks} (hxy : Longer x y) : y ≠ x := by
  rintro rfl
  obtain ⟨bb, hlt⟩ := hxy.2
  exact lt_irrefl _ hlt

theorem longer_update {blocks : Blocks} {bb : BasicBlock} {l : List Instruction}
    (h : (blocks bb).length < l.length) : Longer blocks (Function.update blocks bb l) := by
  refine ⟨fun bb' => ?_, bb, by rwa [Function.update_self]⟩
  rcases eq_or_ne bb' bb with rfl | hne
  · rw [Function.update_self]
    exact h.le
  · rw [Function.update_of_ne hne]

/-- **What a visit of a block leaves of the module.** -/
theorem visitAt_blocks {s s' : Detector × Blocks} {bb : BasicBlock}
    (h : visitAt s bb = .ok s') :
    (¬HasSplice (s.2 bb) ∧ s'.2 = s.2) ∨ (HasSplice (s.2 bb) ∧ Longer s.2 s'.2) := by
  obtain ⟨⟨d, l⟩, hl, h⟩ := bind_eq_ok.mp h
  obtain rfl := Except.ok.inj h
  rcases visitBlock_before hl with ⟨hnot, rfl⟩ | ⟨hyes, hlt⟩
  · exact .inl ⟨hnot, Function.update_eq_self bb s.2⟩
  · exact .inr ⟨hyes, longer_update (by simpa using hlt)⟩

/-- There is one of the calls on a path. -/
def SplicesOn (path : List BasicBlock) (blocks : Blocks) : Prop :=
  ∃ bb ∈ path, HasSplice (blocks bb)

/-- **What the analysis of a path leaves of the module.** -/
theorem memoryLeakDetection_blocks {blocks blocks' : Blocks} {path : List BasicBlock}
    {verdict : Bool} (h : memoryLeakDetection blocks path = .ok (verdict, blocks')) :
    (¬SplicesOn path blocks ∧ blocks' = blocks) ∨
      (SplicesOn path blocks ∧ Longer blocks blocks') := by
  obtain ⟨⟨d, blocks₁⟩, hrun, h⟩ := bind_eq_ok.mp h
  obtain ⟨-, rfl⟩ := Prod.mk.inj (Except.ok.inj h)
  rcases run_kept_or_grown Prod.snd (fun bb b => HasSplice (b bb)) Longer
    (fun _ _ _ => Longer.trans) (fun _ _ _ => visitAt_blocks) hrun with ⟨hnone, heq⟩ | ⟨hsome, hlt⟩
  · exact .inl ⟨fun ⟨bb, hbb, h⟩ => hnone bb hbb h, heq⟩
  · exact .inr ⟨hsome, hlt⟩

theorem detectNext_blocks {s s' : List Bool × Blocks} {path : List BasicBlock}
    (h : detectNext s path = .ok s') :
    (¬SplicesOn path s.2 ∧ s'.2 = s.2) ∨ (SplicesOn path s.2 ∧ Longer s.2 s'.2) := by
  obtain ⟨⟨verdict, blocks⟩, hpath, h⟩ := bind_eq_ok.mp h
  obtain rfl := Except.ok.inj h
  exact memoryLeakDetection_blocks hpath

/-! ### Where there is no such call -/

/-- A block of the path, as it stands in the module. -/
def visitGiven (blocks : Blocks) (d : Detector) (bb : BasicBlock) : Except Crash Detector := do
  let (d, _) ← visitBlock d [] (blocks bb)
  .ok d

/-- The verdict on a path when every visit of a block finds it as it stands in the module. -/
def verdictOf (blocks : Blocks) (path : List BasicBlock) : Except Crash Bool := do
  let d ← run (visitGiven blocks) Detector.init path
  .ok d.leaks

theorem visitAt_lockstep {blocks : Blocks} {bb : BasicBlock} (hbb : ¬HasSplice (blocks bb))
    (d : Detector) :
    Lockstep (fun s d => s = (d, blocks)) (visitAt (d, blocks) bb) (visitGiven blocks d bb) := by
  rw [visitAt, visitGiven]
  cases hl : visitBlock d [] (blocks bb) with
  | error e => exact .error e
  | ok r =>
    obtain ⟨d', l⟩ := r
    rcases visitBlock_before hl with ⟨-, rfl⟩ | ⟨hyes, -⟩
    · refine .ok (Prod.ext rfl ?_)
      exact Function.update_eq_self bb blocks
    · exact absurd hyes hbb

theorem memoryLeakDetection_eq {blocks : Blocks} {path : List BasicBlock}
    (hpath : ¬SplicesOn path blocks) :
    memoryLeakDetection blocks path =
      verdictOf blocks path >>= fun verdict => .ok (verdict, blocks) := by
  have hstep : ∀ bb ∈ path, ∀ s d, s = (d, blocks) →
      Lockstep (fun s d => s = (d, blocks)) (visitAt s bb) (visitGiven blocks d bb) := by
    rintro bb hbb s d rfl
    exact visitAt_lockstep (fun h => hpath ⟨bb, hbb, h⟩) d
  have hrun := run_lockstep hstep (s := (Detector.init, blocks)) rfl
  rw [memoryLeakDetection, verdictOf]
  cases hd : run (visitGiven blocks) Detector.init path with
  | error e =>
    rw [hd] at hrun
    rw [hrun.error_left]
    rfl
  | ok d =>
    obtain ⟨s, hs, rfl⟩ := hrun.ok_left hd
    rw [hs]
    rfl

/-- **Without such a call, the analyses are independent**: each finds the module as given. -/
theorem detectAll_eq {blocks : Blocks} {paths : List (List BasicBlock)}
    (hpaths : ∀ path ∈ paths, ¬SplicesOn path blocks) (verdicts : List Bool) :
    run detectNext (verdicts, blocks) paths =
      paths.mapM (verdictOf blocks) >>= fun vs => .ok (verdicts ++ vs, blocks) := by
  induction paths generalizing verdicts with
  | nil => simp [pure, Except.pure]
  | cons path paths ih =>
    rw [run_cons, detectNext, memoryLeakDetection_eq (hpaths path List.mem_cons_self),
      List.mapM_cons]
    cases verdictOf blocks path with
    | error e => rfl
    | ok verdict =>
      simp only [ok_bind]
      rw [ih fun p hp => hpaths p (List.mem_cons_of_mem path hp)]
      cases paths.mapM (verdictOf blocks) with
      | error e => rfl
      | ok vs => simp [pure, Except.pure]

/-! ### Purity -/

/-- **When analyses are pure.** Whatever paths are analysed one after the other: the module
is left as it was, and the verdicts are those that each visit of each block finding the
module as given would lead to, exactly if there is no call of `malloc` on the paths that is
followed by a store to a constant expression, and no call of `free` that is preceded by a
load from one. -/
theorem detectAll_pure_iff {blocks blocks' : Blocks} {paths : List (List BasicBlock)}
    {verdicts : List Bool} (h : detectAll blocks paths = .ok (verdicts, blocks')) :
    (blocks' = blocks ∧ paths.mapM (verdictOf blocks) = .ok verdicts) ↔
      ∀ path ∈ paths, ¬SplicesOn path blocks := by
  constructor
  · rintro ⟨heq, -⟩
    rcases run_kept_or_grown Prod.snd SplicesOn Longer (fun _ _ _ => Longer.trans)
      (fun _ _ _ => detectNext_blocks) h with ⟨hnone, -⟩ | ⟨-, hlonger⟩
    · exact hnone
    · exact absurd heq hlonger.ne
  · intro hpaths
    rw [detectAll, detectAll_eq hpaths] at h
    obtain ⟨vs, hvs, h⟩ := bind_eq_ok.mp h
    obtain ⟨rfl, rfl⟩ := Prod.mk.inj (Except.ok.inj h)
    exact ⟨rfl, hvs⟩

/-- The second field of a structure. -/
def field : Value := .constantExpr .getElementPtr [.global "s", .constantInt 0, .constantInt 1]

/-- Two returns after a block in which `location` gets a block that is freed. -/
def roundThenBranch (location : Value) : Blocks := fun bb =>
  if bb = 0 then
    [.call 0 (some "malloc") [.constantInt 8], .store (.result 0 "") location,
      .load 1 location, .call 2 (some "free") [.result 1 ""], .br [1, 2]]
  else [.terminator []]

theorem detectAll_pure_iff_variable : ∃ verdicts blocks,
    detectAll (roundThenBranch (.global "v")) [[0, 1], [0, 2]] = .ok (verdicts, blocks) ∧
      blocks = roundThenBranch (.global "v") ∧
      [[0, 1], [0, 2]].mapM (verdictOf (roundThenBranch (.global "v"))) = .ok verdicts := by
  refine ⟨_, _, rfl, (detectAll_pure_iff rfl).mpr ?_⟩
  simp [SplicesOn, roundThenBranch, HasSplice, splicesFrom_cons, not_splicesFrom_nil, Splices,
    StoresToExpr, LoadsFromExpr, adjacent, Instruction.isDebug]

/-- **Analysing a path is not pure.** The field of a structure gets a block that is freed:
there is no leak on the first path, but on the second, which shares that block with it, the
call of `free` no longer follows the load. -/
theorem not_detectAll_pure : ¬∀ blocks blocks' paths verdicts,
    detectAll blocks paths = .ok (verdicts, blocks') →
      blocks' = blocks ∧ paths.mapM (verdictOf blocks) = .ok verdicts := by
  intro hpure
  have hverdicts : [[0, 1], [0, 2]].mapM (verdictOf (roundThenBranch field)) =
      .ok [false, false] := rfl
  have h := (hpure (roundThenBranch field) _ [[0, 1], [0, 2]] [false, true] rfl).2
  rw [hverdicts] at h
  exact absurd (Except.ok.inj h) (by decide)

end DepLeak

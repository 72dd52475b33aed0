import DepLeak.Leak.Keys

/-!
# The detector, one instruction after the other

`DepLeak.memoryLeakDetection` goes over a path block by block. Here is the same as a machine
that goes over it instruction by instruction: a `DepLeak.Point` is where the detector stands,
`DepLeak.Point.next` moves on, and the points that are reached are those the detector comes
to (`DepLeak.Reached`). From each of them it comes to the verdict of the path
(`DepLeak.Reached.verdict_eq`), and what every effect of an instruction preserves holds at all
of them (`DepLeak.Leads.preserves`).
-/

namespace DepLeak

open Runs Detector

/-- **Where the detector stands** on a path. -/
structure Point where
  /-- The local variables. -/
  d : Detector
  /-- The instructions of the current block before this point, nearest first. -/
  before : List Instruction
  /-- Those after it. -/
  rest : List Instruction
  /-- The current block, once there is one. -/
  here : Option BasicBlock
  /-- The module, but for the current block. -/
  blocks : Blocks
  /-- The blocks of the path that are left. -/
  path : List BasicBlock

namespace Point

/-- Before the path. -/
def start (blocks : Blocks) (path : List BasicBlock) : Point where
  d := Detector.init
  before := []
  rest := []
  here := none
  blocks := blocks
  path := path

/-- The module with the current block as it is left. -/
def leave (p : Point) (instructions : List Instruction) : Blocks :=
  match p.here with
  | some bb => Function.update p.blocks bb instructions
  | none => p.blocks

/-- The module as it stands. -/
def module (p : Point) : Blocks := p.leave (p.before.reverse ++ p.rest)

/-- **One step**: over an instruction, or into the next block of the path. -/
def next (p : Point) : Except Crash (Option Point) :=
  match p.rest with
  | i :: rest => do
    let (d, before) ← visit i p.before rest p.d
    .ok (some { p with d := d, before := i :: before, rest := rest })
  | [] =>
    match p.path with
    | [] => .ok none
    | bb :: path =>
      let blocks := p.leave p.before.reverse
      .ok (some
        { d := p.d, before := [], rest := blocks bb, here := some bb, blocks := blocks,
          path := path })

/-- What the detector comes to from here: its variables in the end, and the module it
leaves. -/
def finish (p : Point) : Except Crash (Detector × Blocks) := do
  let (d, instructions) ← visitBlock p.d p.before p.rest
  run visitAt (d, p.leave instructions) p.path

/-- **The verdict** from here. -/
def verdict (p : Point) : Except Crash Bool := do
  let (d, _) ← p.finish
  .ok d.leaks

variable {p q : Point}

/-- A step is over an instruction or into the next block. -/
theorem next_cases (h : p.next = .ok (some q)) :
    (∃ i rest d before, p.rest = i :: rest ∧ visit i p.before rest p.d = .ok (d, before) ∧
      q = { p with d := d, before := i :: before, rest := rest }) ∨
    ∃ bb path, p.rest = [] ∧ p.path = bb :: path ∧
      q = { d := p.d, before := [], rest := p.leave p.before.reverse bb, here := some bb,
            blocks := p.leave p.before.reverse, path := path } := by
  obtain ⟨d, before, rest, here, blocks, path⟩ := p
  rcases rest with _ | ⟨i, rest⟩
  · rcases path with _ | ⟨bb, path⟩
    · cases h
    · exact .inr ⟨bb, path, rfl, rfl, (Option.some.inj (Except.ok.inj h)).symm⟩
  · obtain ⟨⟨d', before'⟩, hvisit, h⟩ := bind_eq_ok.mp h
    exact .inl ⟨i, rest, d', before', rfl, hvisit, (Option.some.inj (Except.ok.inj h)).symm⟩

/-- A step over an instruction that is at hand. -/
theorem exists_visit {i : Instruction} {rest : List Instruction} (h : p.next = .ok (some q))
    (hrest : p.rest = i :: rest) : ∃ before, visit i p.before rest p.d = .ok (q.d, before) ∧
      q = { p with d := q.d, before := i :: before, rest := rest } := by
  rcases next_cases h with ⟨j, rest', d, before, hcons, hvisit, rfl⟩ | ⟨_, _, hnil, -, -⟩
  · obtain ⟨rfl, rfl⟩ := List.cons.inj (hrest.symm.trans hcons)
    exact ⟨before, hvisit, rfl⟩
  · rw [hrest] at hnil
    cases hnil

/-- **A step leads to the same end.** -/
theorem finish_eq_of_next (h : p.next = .ok (some q)) : p.finish = q.finish := by
  rcases next_cases h with ⟨i, rest, d, before, hrest, hvisit, rfl⟩ | ⟨bb, path, hrest, hpath, rfl⟩
  · simp only [finish, hrest, visitBlock, hvisit, ok_bind, leave]
  · simp only [finish, hrest, hpath, visitBlock, ok_bind, run_cons, visitAt]
    cases visitBlock p.d [] _ with
    | error c => rfl
    | ok r => rfl

/-- The detector stops at an instruction. -/
theorem next_eq_error_iff_visit {c : Crash} : p.next = .error c ↔
    ∃ i rest, p.rest = i :: rest ∧ visit i p.before rest p.d = .error c := by
  obtain ⟨d, before, rest, here, blocks, path⟩ := p
  rcases rest with _ | ⟨i, rest⟩
  · have hnext : next ⟨d, before, [], here, blocks, path⟩ ≠ .error c := by
      rcases path with _ | ⟨bb, path⟩ <;> exact fun h => by cases h
    exact iff_of_false hnext (by simp)
  · simp only [next, List.cons.injEq, exists_and_left, and_assoc, exists_eq_left']
    cases visit i before rest d with
    | error c' => simp only [error_bind, Except.error.injEq]
    | ok r => exact iff_of_false (fun h => by cases h) fun h => by cases h

theorem next_eq_error {c : Crash} (h : p.next = .error c) : p.finish = .error c := by
  obtain ⟨i, rest, hrest, hvisit⟩ := next_eq_error_iff_visit.mp h
  simp only [finish, hrest, visitBlock, hvisit, error_bind]

/-- The detector is done at the end of the last block. -/
theorem next_eq_none_iff : p.next = .ok none ↔ p.rest = [] ∧ p.path = [] := by
  obtain ⟨d, before, rest, here, blocks, path⟩ := p
  rcases rest with _ | ⟨i, rest⟩
  · rcases path with _ | ⟨bb, path⟩ <;> simp [next]
  · simp only [next, reduceCtorEq, false_and, iff_false]
    intro h
    obtain ⟨r, -, h⟩ := bind_eq_ok.mp h
    cases h

theorem finish_start (blocks : Blocks) (path : List BasicBlock) :
    (start blocks path).finish = run visitAt (Detector.init, blocks) path := rfl

theorem verdict_start (blocks : Blocks) (path : List BasicBlock) :
    (start blocks path).verdict = (memoryLeakDetection blocks path).map Prod.fst := by
  rw [verdict, finish_start, memoryLeakDetection]
  cases run visitAt (Detector.init, blocks) path <;> rfl

end Point

/-- Some steps lead from one point to another. -/
def Leads : Point → Point → Prop := Relation.ReflTransGen fun p q => p.next = .ok (some q)

/-- **The points that the detector comes to** on a path. -/
def Reached (blocks : Blocks) (path : List BasicBlock) : Point → Prop :=
  Leads (.start blocks path)

section Reached

variable {blocks : Blocks} {path : List BasicBlock} {p q : Point}

protected theorem Leads.rfl : Leads p p := .refl

theorem Leads.next {r : Point} (h : Leads p q) (hnext : q.next = .ok (some r)) : Leads p r :=
  h.tail hnext

theorem Reached.start : Reached blocks path (.start blocks path) := .refl

theorem Reached.next (h : Reached blocks path p) (hnext : p.next = .ok (some q)) :
    Reached blocks path q :=
  h.tail hnext

theorem Leads.finish_eq (h : Leads p q) : p.finish = q.finish := by
  induction h with
  | refl => rfl
  | tail _ hnext ih => exact ih.trans (Point.finish_eq_of_next hnext)

/-- From every point the detector comes to the verdict of the path. -/
theorem Reached.verdict_eq (h : Reached blocks path p) :
    p.verdict = (memoryLeakDetection blocks path).map Prod.fst := by
  rw [← Point.verdict_start, Point.verdict, Point.verdict, Leads.finish_eq h]

/-- From every point the detector comes to one from which there is no step. -/
theorem exists_end (p : Point) : ∃ q, Leads p q ∧ ∀ r, q.next ≠ .ok (some r) := by
  obtain ⟨d, before, rest, here, blocks, path⟩ := p
  -- an instruction is gone over, or there is no step
  have hstep : ∀ {d : Detector} {before rest : List Instruction} {here : Option BasicBlock}
      {blocks : Blocks} {path : List BasicBlock} {i : Instruction},
      (∀ d' before', ∃ q, Leads ⟨d', before', rest, here, blocks, path⟩ q ∧
        ∀ r, q.next ≠ .ok (some r)) →
      ∃ q, Leads ⟨d, before, i :: rest, here, blocks, path⟩ q ∧ ∀ r, q.next ≠ .ok (some r) := by
    intro d before rest here blocks path i ih
    by_cases hnext : ∃ r, Point.next ⟨d, before, i :: rest, here, blocks, path⟩ = .ok (some r)
    · obtain ⟨r, hnext⟩ := hnext
      rcases Point.next_cases hnext with ⟨j, rest', d', before', hrest, -, rfl⟩ |
        ⟨bb, path', hrest, -, -⟩
      · obtain ⟨rfl, rfl⟩ := List.cons.inj hrest
        obtain ⟨q, hq, hend⟩ := ih d' (i :: before')
        exact ⟨q, hq.head hnext, hend⟩
      · cases hrest
    · exact ⟨_, .refl, fun r hr => hnext ⟨r, hr⟩⟩
  induction path generalizing d before rest here blocks with
  | nil =>
    induction rest generalizing d before with
    | nil => exact ⟨_, .refl, fun r hr => by cases hr⟩
    | cons i rest ih => exact hstep ih
  | cons bb path ihpath =>
    induction rest generalizing d before with
    | nil =>
      have hnext : Point.next ⟨d, before, [], here, blocks, bb :: path⟩ = .ok (some _) := rfl
      obtain ⟨q, hq, hend⟩ := ihpath _ _ _ _ _
      exact ⟨q, hq.head hnext, hend⟩
    | cons i rest ih => exact hstep ih

/-- Where no instruction follows, the detector is done or stops. -/
theorem finish_of_end {p : Point} (hend : ∀ q, p.next ≠ .ok (some q)) :
    (p.next = .ok none ∧ ∃ blocks', p.finish = .ok (p.d, blocks')) ∨
      ∃ c, p.next = .error c ∧ p.finish = .error c := by
  cases hnext : p.next with
  | error c => exact .inr ⟨c, rfl, Point.next_eq_error hnext⟩
  | ok r =>
    cases r with
    | some q => exact absurd hnext (hend q)
    | none =>
      obtain ⟨hrest, hpath⟩ := Point.next_eq_none_iff.mp hnext
      refine .inl ⟨rfl, ?_⟩
      simp only [Point.finish, hrest, hpath, visitBlock, ok_bind, run_nil]
      exact ⟨_, rfl⟩

/-- A path that is gone over to its end is gone over step by step. -/
theorem exists_last {p : Point} {d : Detector} {blocks' : Blocks}
    (h : p.finish = .ok (d, blocks')) : ∃ q, Leads p q ∧ q.next = .ok none ∧ q.d = d := by
  obtain ⟨q, hq, hend⟩ := exists_end p
  rw [hq.finish_eq] at h
  rcases finish_of_end hend with ⟨hnext, blocks'', hfinish⟩ | ⟨c, -, hfinish⟩
  · rw [hfinish] at h
    exact ⟨q, hq, hnext, congrArg Prod.fst (Except.ok.inj h)⟩
  · rw [hfinish] at h
    cases h

/-- A verdict is given at the last point. -/
theorem exists_last_of_verdict {p : Point} {v : Bool} (h : p.verdict = .ok v) :
    ∃ q, Leads p q ∧ q.next = .ok none ∧ q.d.leaks = v := by
  obtain ⟨⟨d, blocks'⟩, hfinish, hd⟩ := bind_eq_ok.mp h
  obtain ⟨q, hq, hdone, rfl⟩ := exists_last hfinish
  exact ⟨q, hq, hdone, Except.ok.inj hd⟩

/-- One that stops the detector does so at an instruction it comes to. -/
theorem exists_crash {p : Point} {c : Crash} (h : p.finish = .error c) :
    ∃ q, Leads p q ∧ q.next = .error c := by
  obtain ⟨q, hq, hend⟩ := exists_end p
  rw [hq.finish_eq] at h
  rcases finish_of_end hend with ⟨-, blocks', hfinish⟩ | ⟨c', hnext, hfinish⟩
  · rw [hfinish] at h
    cases h
  · rw [hfinish] at h
    obtain rfl := Except.error.inj h
    exact ⟨q, hq, hnext⟩

/-- **The invariant rule**: what the effects of the instructions gone over preserve holds of
the detector at the end. -/
theorem Leads.preserves {P : Detector → Prop} (h : Leads p q)
    (hP : ∀ r, Leads p r → ∀ i rest, r.rest = i :: rest → ∀ d d',
      Effect i r.before rest d d' → P d → P d') (hp : P p.d) : P q.d := by
  induction h with
  | refl => exact hp
  | @tail q r hq hnext ih =>
    rcases Point.next_cases hnext with ⟨i, rest, d, before, hrest, hvisit, rfl⟩ |
      ⟨bb, path, -, -, rfl⟩
    · exact visit_preserves hvisit (hP q hq i rest hrest) ih
    · exact ih

theorem Leads.inRange (h : Leads p q) (hp : p.d.InRange) : q.d.InRange :=
  h.preserves (fun _ _ _ _ _ _ _ heffect => heffect.inRange) hp

theorem Reached.inRange (h : Reached blocks path p) : p.d.InRange :=
  Leads.inRange h inRange_init

/-- **What stays in the blocks**: whatever is not made of an address. -/
theorem Leads.filterMap_module {α : Type} {f : Instruction → Option α} (h : Leads p q)
    (hf : ∀ opcode operands, f (.expression opcode operands) = none) (bb : BasicBlock) :
    (q.module bb).filterMap f = (p.module bb).filterMap f := by
  induction h with
  | refl => rfl
  | @tail q r _ hnext ih =>
    rw [← ih]
    rcases Point.next_cases hnext with ⟨i, rest, d, before, hrest, hvisit, rfl⟩ |
      ⟨bb', path, hrest, hpath, rfl⟩
    · obtain ⟨new, rfl, hnew⟩ := visit_new hvisit
      have hnone : new.filterMap f = [] := by
        refine List.filterMap_eq_nil_iff.mpr fun j hj => ?_
        obtain ⟨opcode, operands, rfl⟩ := hnew j hj
        exact hf opcode operands
      have hlist : ((i :: (new ++ q.before)).reverse ++ rest).filterMap f =
          (q.before.reverse ++ q.rest).filterMap f := by
        simp [hrest, List.filterMap_append, List.filterMap_cons, hnone]
      simp only [Point.module, Point.leave]
      rcases hhere : q.here with _ | bb'
      · rfl
      · rcases eq_or_ne bb bb' with rfl | hne
        · simpa using hlist
        · simp [hne]
    · simp [Point.module, Point.leave, hrest]

/-- The detector stays on the path. -/
theorem Leads.on_path (h : Leads p q) (hp : p.rest = []) :
    (∀ bb ∈ q.path, bb ∈ p.path) ∧ (q.rest ≠ [] → ∃ bb ∈ p.path, q.here = some bb) := by
  induction h with
  | refl => exact ⟨fun bb hbb => hbb, fun hne => absurd hp hne⟩
  | @tail q r _ hnext ih =>
    obtain ⟨hpath, hhere⟩ := ih
    rcases Point.next_cases hnext with ⟨i, rest, d, before, hrest, -, rfl⟩ |
      ⟨bb, path', -, hcons, rfl⟩
    · exact ⟨hpath, fun _ => hhere (by simp [hrest])⟩
    · rw [hcons] at hpath
      exact ⟨fun bb' hbb' => hpath bb' (List.mem_cons_of_mem bb hbb'),
        fun _ => ⟨bb, hpath bb List.mem_cons_self, rfl⟩⟩

/-- On a path of one block the instructions that are left are those it was given with. -/
theorem Reached.suffix {bb : BasicBlock} (h : Reached blocks [bb] p) :
    p = .start blocks [bb] ∨ p.path = [] ∧ p.rest <:+ blocks bb := by
  induction h with
  | refl => exact .inl rfl
  | @tail q r _ hnext ih =>
    rcases ih with rfl | ⟨hpath, hsuffix⟩
    · obtain rfl := Option.some.inj (Except.ok.inj hnext)
      exact .inr ⟨rfl, List.suffix_rfl⟩
    · rcases Point.next_cases hnext with ⟨i, rest, d, before, hrest, -, rfl⟩ |
        ⟨bb', path', -, hcons, -⟩
      · exact .inr ⟨hpath, (List.suffix_cons i rest).trans (hrest ▸ hsuffix)⟩
      · rw [hpath] at hcons
        cases hcons

/-- An instruction, unless it is made of an address. -/
def Instruction.given : Instruction → Option Instruction
  | .expression _ _ => none
  | i => some i

/-- Such an instruction was in its block before if it is there now. -/
theorem Leads.mem_module (h : Leads p q) {i : Instruction} {bb : BasicBlock}
    (hi : i ∈ q.module bb) (hgiven : i.given = some i) : i ∈ p.module bb := by
  have hfilter : i ∈ (q.module bb).filterMap Instruction.given :=
    List.mem_filterMap.mpr ⟨i, hi, hgiven⟩
  rw [h.filterMap_module fun _ _ => rfl] at hfilter
  obtain ⟨j, hj, heq⟩ := List.mem_filterMap.mp hfilter
  -- what is kept of an instruction is the instruction itself
  have hji : j = i := by
    cases j with
    | expression opcode operands => cases heq
    | _ => exact Option.some.inj heq
  exact hji ▸ hj

/-- The instructions that are left of a block are those of the module, but for what is made
of addresses. -/
theorem Leads.mem_of_mem_rest (h : Leads p q) (hp : p.rest = []) {i : Instruction}
    (hi : i ∈ q.rest) (hgiven : i.given = some i) : ∃ bb ∈ p.path, i ∈ p.module bb := by
  obtain ⟨bb, hbb, hhere⟩ := (h.on_path hp).2 (List.ne_nil_of_mem hi)
  have hmodule : i ∈ q.module bb := by
    simp [Point.module, Point.leave, hhere, hi]
  exact ⟨bb, hbb, h.mem_module hmodule hgiven⟩

theorem Reached.mem_of_mem_rest (h : Reached blocks path p) {i : Instruction} (hi : i ∈ p.rest)
    (hgiven : i.given = some i) : ∃ bb ∈ path, i ∈ blocks bb :=
  Leads.mem_of_mem_rest h rfl hi hgiven

end Reached

end DepLeak

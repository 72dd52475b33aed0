import DepLeak.Leak.Safety

/-!
# The numbers and the slots

The numbers that are noted for variables and fields are those of slots of `mallocs`, so that
`mallocs[id] = NULL` always has something to assign to, and a slot that is empty stays empty.
What a path comes to therefore changes in one direction only when it goes on through blocks
that call no `malloc`, and in the other when they call no `free`. All this is so as long as an
`int` can count the slots (`DepLeak.numbersDenote_iff`), and so on every path on which fewer
than `2 ^ 31` are counted (`DepLeak.not_tooMany_of_countedOn`).
-/

namespace DepLeak

open Runs Detector

/-! ### What else the detector stops at -/

section Error

variable {c : Crash} {i : Instruction} {before rest l : List Instruction} {d : Detector}

theorem bind_ne_error {α β : Type} {x : Except Crash α} {f : α → Except Crash β}
    (hx : x ≠ .error c) (hf : ∀ a, x = .ok a → f a ≠ .error c) : x >>= f ≠ .error c := by
  cases x with
  | error c' =>
    intro h
    obtain rfl : c' = c := Except.error.inj h
    exact hx rfl
  | ok a => exact hf a rfl

theorem getOperand_ne_error (hc : c ≠ .operand) (operands : List Value) (n : ℕ) :
    getOperand operands n ≠ .error c := by
  unfold getOperand
  split
  · simp
  · simpa using hc.symm

theorem gepField_ne_error (hc : c ≠ .operand) (opcode : Opcode) (operands : List Value) :
    gepField opcode operands ≠ .error c := by
  unfold gepField
  split
  · refine bind_ne_error (getOperand_ne_error hc _ _) fun var _ => ?_
    refine bind_ne_error (getOperand_ne_error hc _ _) fun index _ => ?_
    split <;> simp
  · simp

/-- An address can be taken apart, unless an operand is missing. -/
theorem locate_ne_error (hc : c ≠ .operand) (v : Value) : v.locate ≠ .error c := by
  cases v with
  | constantExpr opcode operands =>
    intro h
    rw [Value.locate] at h
    cases hfield : gepField opcode operands with
    | error c' =>
      rw [hfield] at h
      obtain rfl : c' = c := Except.error.inj h
      exact gepField_ne_error hc opcode operands hfield
    | ok field =>
      rw [hfield] at h
      cases h
  | _ => exact fun h => by cases h

/-- A copy of a structure stops at a missing operand, if at all. -/
theorem memcpyCall_ne_error (hc : c ≠ .operand) (name : String) (args : List Value) :
    memcpyCall name args d ≠ .error c := by
  unfold memcpyCall
  split
  · refine bind_ne_error (getOperand_ne_error hc _ _) fun lhs _ => ?_
    refine bind_ne_error (getOperand_ne_error hc _ _) fun rhs _ => ?_
    split
    · refine bind_ne_error (getOperand_ne_error hc _ _) fun lhsOp _ => ?_
      refine bind_ne_error (getOperand_ne_error hc _ _) fun rhsOp _ => ?_
      simp
    · simp
  · simp

theorem store?_eq_error {x : Option Location} : d.store? i x = .error c ↔
    c = .overflow ∧ x.isSome ∧ 2 ^ 31 ≤ d.malloc_id + 1 := by
  cases x with
  | none => simp [store?]
  | some x =>
    rcases Nat.lt_or_ge (d.malloc_id + 1) (2 ^ 31) with hlt | hle
    · rw [store?_of_lt hlt]
      exact iff_of_false (fun h => by cases h) fun h => absurd hlt h.2.2.not_gt
    · rw [store?_of_le hle]
      exact ⟨fun h => ⟨(Except.error.inj h).symm, rfl, hle⟩, fun h => h.1 ▸ rfl⟩

/-- **A call of `malloc`** stops at a block that is one too many. -/
theorem visitMalloc_eq_error (hnull : c ≠ .null) (hoperand : c ≠ .operand) :
    visitMalloc i before rest d = .error c ↔
      c = .overflow ∧ (storedTo (adjacent rest)).isSome ∧ 2 ^ 31 ≤ d.malloc_id + 1 := by
  cases hadj : adjacent rest with
  | none =>
    have hvisit : visitMalloc i before rest d = .error .null := by
      rw [visitMalloc, hadj]
      rfl
    rw [hvisit]
    exact iff_of_false (fun h => hnull (Except.error.inj h).symm) fun h => by cases h.2.1
  | some j =>
    rcases j.store_or_ne with ⟨value, pointer, rfl⟩ | hne
    · rw [visitMalloc_eq hadj, storedTo]
      cases hlocate : pointer.locate with
      | error c' =>
        have hkey : pointer.key = none := by
          by_contra hkey
          obtain ⟨x, hx⟩ := Option.ne_none_iff_exists'.mp hkey
          rw [Value.locate_of_key hx] at hlocate
          cases hlocate
        have hne := locate_ne_error hoperand pointer
        rw [hkey, error_bind]
        rw [hlocate] at hne
        exact iff_of_false (fun h => hne (congrArg _ (Except.error.inj h))) fun h => by cases h.2.1
      | ok x =>
        rw [Value.key_of_locate hlocate, ok_bind, ← store?_eq_error (i := i)]
        cases d.store? i x with
        | error c' => simp only [error_bind, Except.error.injEq]
        | ok d' => exact iff_of_false (fun h => by cases h) fun h => by cases h
    · rw [visitMalloc_skip hadj hne, storedTo_of_ne hne]
      exact iff_of_false (fun h => by cases h) fun h => by cases h.2.1

/-- **A call of `free`** has always a slot to clear. -/
theorem visitFree_ne_error (hnull : c ≠ .null) (hoperand : c ≠ .operand) (hd : d.InRange) :
    visitFree before d ≠ .error c := by
  cases hadj : adjacent before with
  | none =>
    have hvisit : visitFree before d = .error .null := by
      rw [visitFree, hadj]
      rfl
    rw [hvisit]
    exact fun h => hnull (Except.error.inj h).symm
  | some j =>
    rcases j.load_or_ne with ⟨id, pointer, rfl⟩ | hne
    · rw [visitFree_eq hadj]
      refine bind_ne_error (locate_ne_error hoperand pointer) fun x _ => ?_
      refine bind_ne_error ?_ fun d' _ => by simp
      cases x with
      | none => exact fun h => by cases h
      | some x =>
        obtain ⟨d', hfree⟩ := hd.freeId x
        exact fun h => by cases hfree.symm.trans h
    · rw [visitFree_skip hadj hne]
      simp

/-- **One block too many**: the instruction is counted, and the counter is as large as an `int`
can be. -/
def TooMany (i : Instruction) (rest : List Instruction) (d : Detector) : Prop :=
  ∃ id name args, i = .call id (some name) args ∧ i.counts (adjacent rest) ∧
    (∃ d', memcpyCall name args d = .ok d') ∧ 2 ^ 31 ≤ d.mallocs.length + 1

/-- **An instruction** stops at nothing else: but for null pointers and missing operands, the
detector stops at one block too many. -/
theorem visit_eq_error (hnull : c ≠ .null) (hoperand : c ≠ .operand) (hd : d.InRange) :
    visit i before rest d = .error c ↔ c = .overflow ∧ TooMany i rest d := by
  have hnot : (∀ id name args, i ≠ .call id (some name) args) →
      ¬(c = .overflow ∧ TooMany i rest d) := by
    rintro hi ⟨-, id, name, args, rfl, -⟩
    exact hi id name args rfl
  cases i with
  | call id callee args =>
    rcases callee with _ | name
    · exact iff_of_false (fun h => hnull (Except.error.inj h).symm) (hnot (by simp))
    have hvisit : visit (.call id (some name) args) before rest d =
        memcpyCall name args d >>= fun d =>
          mallocCall name (.call id (some name) args) before rest d >>= fun r =>
            freeCall name r.2 r.1 := rfl
    rw [hvisit]
    cases hmemcpy : memcpyCall name args d with
    | error c' =>
      have hne := memcpyCall_ne_error (d := d) hoperand name args
      rw [hmemcpy] at hne
      refine iff_of_false (fun h => hne (congrArg _ (Except.error.inj h))) ?_
      rintro ⟨-, id', name', args', heq, -, ⟨d', hd'⟩, -⟩
      obtain ⟨-, hname, rfl⟩ := Instruction.call.inj heq
      obtain rfl := Option.some.inj hname
      cases hmemcpy.symm.trans hd'
    | ok d₁ =>
      have hd₁ : d₁.malloc_id = d.mallocs.length := by
        obtain ⟨m, rfl⟩ := memcpyCall_eq_ok hmemcpy
        exact hd.malloc_id
      have htoo : TooMany (.call id (some name) args) rest d ↔
          (finds name "malloc" && (storedTo (adjacent rest)).isSome) ∧
            2 ^ 31 ≤ d₁.malloc_id + 1 := by
        rw [hd₁]
        constructor
        · rintro ⟨id', name', args', heq, hcounts, -, hle⟩
          exact ⟨hcounts, hle⟩
        · rintro ⟨hcounts, hle⟩
          exact ⟨id, name, args, rfl, hcounts, ⟨d₁, hmemcpy⟩, hle⟩
      rw [htoo, ok_bind]
      have hmalloc : mallocCall name (.call id (some name) args) before rest d₁ = .error c ↔
          c = .overflow ∧ (finds name "malloc" && (storedTo (adjacent rest)).isSome) ∧
            2 ^ 31 ≤ d₁.malloc_id + 1 := by
        unfold mallocCall
        split
        · rename_i hname
          rw [visitMalloc_eq_error hnull hoperand, hname, Bool.true_and]
        · rename_i hname
          exact iff_of_false (fun h => by cases h) fun h => hname (Bool.and_eq_true_iff.mp h.2.1).1
      rw [← hmalloc]
      cases hr : mallocCall name (.call id (some name) args) before rest d₁ with
      | error c' => rfl
      | ok r =>
        refine iff_of_false ?_ fun h => by cases h
        obtain ⟨d₂, before₂⟩ := r
        have h₁ : Relation.ReflTransGen (Effect (.call id (some name) args) before rest) d d₁ :=
          memcpyCall_effects rfl hmemcpy
        have h₂ : Relation.ReflTransGen (Effect (.call id (some name) args) before rest) d₁ d₂ :=
          mallocCall_effects rfl hr
        rw [ok_bind]
        unfold freeCall
        split
        · exact visitFree_ne_error hnull hoperand (effects_inRange (h₁.trans h₂) hd)
        · simp
  | _ => exact iff_of_false (fun h => by cases h) (hnot (by simp))

/-- And so does a step. -/
theorem Point.next_eq_error_iff {p : Point} (hnull : c ≠ .null) (hoperand : c ≠ .operand)
    (hp : p.d.InRange) : p.next = .error c ↔
      c = .overflow ∧ ∃ i rest, p.rest = i :: rest ∧ TooMany i rest p.d := by
  rw [Point.next_eq_error_iff_visit]
  constructor
  · rintro ⟨i, rest, hrest, hvisit⟩
    obtain ⟨hc, hmany⟩ := (visit_eq_error hnull hoperand hp).mp hvisit
    exact ⟨hc, i, rest, hrest, hmany⟩
  · rintro ⟨hc, i, rest, hrest, hmany⟩
    exact ⟨i, rest, hrest, (visit_eq_error hnull hoperand hp).mpr ⟨hc, hmany⟩⟩

end Error

/-! ### Slots -/

/-- **No slot is lost, and none is filled again.** -/
structure SlotsKept (mallocs mallocs' : List (Option Instruction)) : Prop where
  /-- There may be more slots, but no fewer. -/
  length : mallocs.length ≤ mallocs'.length
  /-- Each of them is as it was, or empty now. -/
  slots : ∀ id < mallocs.length, mallocs'[id]? = mallocs[id]? ∨ mallocs'[id]? = some none

namespace SlotsKept

variable {mallocs mallocs' mallocs'' : List (Option Instruction)}

protected theorem refl (mallocs : List (Option Instruction)) : SlotsKept mallocs mallocs :=
  ⟨le_rfl, fun _ _ => .inl rfl⟩

protected theorem trans (h : SlotsKept mallocs mallocs') (h' : SlotsKept mallocs' mallocs'') :
    SlotsKept mallocs mallocs'' := by
  refine ⟨h.length.trans h'.length, fun id hid => ?_⟩
  rcases h'.slots id (hid.trans_le h.length) with heq | hnone
  · rw [heq]
    exact h.slots id hid
  · exact .inr hnone

theorem append (mallocs new : List (Option Instruction)) : SlotsKept mallocs (mallocs ++ new) := by
  refine ⟨by simp, fun id hid => .inl ?_⟩
  rw [List.getElem?_append_left hid]

theorem set (mallocs : List (Option Instruction)) (n : ℕ) :
    SlotsKept mallocs (mallocs.set n none) := by
  refine ⟨by simp, fun id hid => ?_⟩
  rw [List.getElem?_set]
  split
  · exact .inr (by simp_all)
  · exact .inl rfl

end SlotsKept

section Effect

variable {i : Instruction} {before rest : List Instruction} {d d' : Detector}

theorem Detector.Effect.slotsKept (h : Effect i before rest d d') :
    SlotsKept d.mallocs d'.mallocs := by
  cases h with
  | copy | memcpy => exact .refl _
  | malloc => exact mallocAt_mallocs .. ▸ .append _ _
  | free => exact .set _ _

theorem Leads.slotsKept {p q : Point} (h : Leads p q) : SlotsKept p.d.mallocs q.d.mallocs :=
  h.preserves (P := fun d => SlotsKept p.d.mallocs d.mallocs)
    (fun _ _ _ _ _ _ _ heffect hkept => hkept.trans heffect.slotsKept) (.refl _)

/-- A call of a function with this in its name. -/
def Instruction.callsLike (s : String) : Instruction → Bool
  | .call _ (some name) _ => finds name s
  | _ => false

/-- Only a call of a function with `malloc` in its name makes a leak. -/
theorem Detector.Effect.leaks_eq_false (h : Effect i before rest d d')
    (hi : ¬i.callsLike "malloc") (hd : d.leaks = false) : d'.leaks = false := by
  cases h with
  | copy | memcpy => exact hd
  | malloc hcall hname =>
    subst hcall
    exact absurd hname hi
  | free =>
    rw [leaks, List.any_eq_false] at hd ⊢
    intro slot hslot
    rcases List.mem_or_eq_of_mem_set hslot with hslot | rfl
    · exact hd slot hslot
    · exact Bool.false_ne_true

/-- And only one with `free` in its name makes it good. -/
theorem Detector.Effect.leaks_eq_true (h : Effect i before rest d d')
    (hi : ¬i.callsLike "free") (hd : d.leaks = true) : d'.leaks = true := by
  cases h with
  | copy | memcpy => exact hd
  | malloc => rw [leaks, mallocAt_mallocs, List.any_append, ← leaks, hd, Bool.true_or]
  | free hcall hname =>
    subst hcall
    exact absurd hname hi

/-- What has an effect was in the module. -/
theorem Detector.Effect.given (h : Effect i before rest d d') : i.given = some i := by
  cases h with
  | copy hi => exact hi ▸ rfl
  | memcpy dst src hi => exact hi ▸ rfl
  | malloc hi => exact hi ▸ rfl
  | free hi => exact hi ▸ rfl

end Effect

/-! ### A path that goes on -/

section More

variable {blocks : Blocks} {path more : List BasicBlock} {p q : Point} {v w : Bool}

/-- The same point of a longer path. -/
def Point.append (p : Point) (more : List BasicBlock) : Point := { p with path := p.path ++ more }

theorem Point.next_append (h : p.next = .ok (some q)) (more : List BasicBlock) :
    (p.append more).next = .ok (some (q.append more)) := by
  rcases Point.next_cases h with ⟨i, rest, d, before, hrest, hvisit, rfl⟩ |
    ⟨bb, path, hrest, hpath, rfl⟩
  · simp only [Point.next, Point.append, hrest, hvisit, ok_bind]
  · simp only [Point.next, Point.append, hrest, hpath, List.cons_append, Point.leave]

theorem Leads.append (h : Leads p q) (more : List BasicBlock) :
    Leads (p.append more) (q.append more) := by
  induction h with
  | refl => exact .refl
  | tail _ hnext ih => exact ih.next (Point.next_append hnext more)

theorem verdict?_eq_some : verdict? blocks path = some v ↔
    (memoryLeakDetection blocks path).map Prod.fst = .ok v := by
  rw [verdict?]
  cases memoryLeakDetection blocks path with
  | error c => simp [Except.toOption, Except.map]
  | ok r => simp [Except.toOption, Except.map]

/-- A path that goes on is gone over as it is without that, first. -/
theorem exists_reached_append (h : verdict? blocks path = some v) (more : List BasicBlock) :
    ∃ q, Reached blocks (path ++ more) q ∧ q.rest = [] ∧ q.path = more ∧ q.d.leaks = v := by
  rw [verdict?_eq_some, ← Reached.start.verdict_eq] at h
  obtain ⟨q, hq, hdone, hd⟩ := exists_last_of_verdict h
  obtain ⟨hrest, hpath⟩ := Point.next_eq_none_iff.mp hdone
  exact ⟨q.append more, hq.append more, hrest, by simp [Point.append, hpath], hd⟩

/-- **The verdict stays** if nothing that comes in addition changes it. -/
theorem verdict?_append (hv : verdict? blocks path = some v)
    (hmore : ∀ bb ∈ more, ∀ i ∈ blocks bb, ∀ before rest d d', Effect i before rest d d' →
      d.leaks = v → d'.leaks = v)
    (hw : verdict? blocks (path ++ more) = some w) : w = v := by
  obtain ⟨q, hq, hrest, hpath, hleaks⟩ := exists_reached_append hv more
  rw [verdict?_eq_some, ← hq.verdict_eq] at hw
  obtain ⟨r, hr, -, rfl⟩ := exists_last_of_verdict hw
  refine hr.preserves (P := fun d => d.leaks = v) ?_ hleaks
  intro r hr i rest hcons d d' heffect
  obtain ⟨bb, hbb, hi⟩ := hr.mem_of_mem_rest hrest (hcons ▸ List.mem_cons_self) heffect.given
  have hblocks : i ∈ blocks bb := Leads.mem_module hq hi heffect.given
  exact hmore bb (hpath ▸ hbb) i hblocks _ _ _ _ heffect

end More

/-! ### The numbers denote the slots -/

/-- **The numbers denote the slots** on a path. -/
structure NumbersDenote (blocks : Blocks) (path : List BasicBlock) : Prop where
  /-- The counter does not overflow. -/
  counter : ∀ p, Reached blocks path p → p.next ≠ .error .overflow
  /-- It is the number of slots. -/
  malloc_id : ∀ p, Reached blocks path p → p.d.malloc_id = p.d.mallocs.length
  /-- What is noted for a variable is the number of a slot. -/
  malloc_vars : ∀ p, Reached blocks path p → ∀ var id, p.d.malloc_vars var = some id →
    id < p.d.mallocs.length
  /-- And so is what is noted for a field. -/
  malloc_structs : ∀ p, Reached blocks path p → ∀ var fields index id,
    p.d.malloc_structs var = some fields → fields index = some id → id < p.d.mallocs.length
  /-- No instruction assigns to a slot that is not there. -/
  assigned : ∀ p, Reached blocks path p → p.next ≠ .error .index
  /-- Nor does the path. -/
  detected : memoryLeakDetection blocks path ≠ .error .index
  /-- Slots only become empty. -/
  slots : ∀ p q, Reached blocks path p → Leads p q → SlotsKept p.d.mallocs q.d.mallocs
  /-- Where the path goes on without a call of `malloc`, there is no leak if there was none. -/
  noMalloc : ∀ more, (∀ bb ∈ more, ∀ i ∈ blocks bb, ¬i.callsLike "malloc") →
    verdict? blocks path = some false → verdict? blocks (path ++ more) ≠ some true
  /-- And where it does so without a call of `free`, there is one if there was. -/
  noFree : ∀ more, (∀ bb ∈ more, ∀ i ∈ blocks bb, ¬i.callsLike "free") →
    verdict? blocks path = some true → verdict? blocks (path ++ more) ≠ some false

section Denote

variable {blocks : Blocks} {path : List BasicBlock} {p : Point}

theorem Point.next_ne_index (hp : p.d.InRange) : p.next ≠ .error .index := fun h => by
  cases ((Point.next_eq_error_iff (by decide) (by decide) hp).mp h).1

theorem memoryLeakDetection_ne_index (blocks : Blocks) (path : List BasicBlock) :
    memoryLeakDetection blocks path ≠ .error .index := by
  intro h
  have hfinish : (Point.start blocks path).finish = .error .index := by
    rw [memoryLeakDetection] at h
    rw [Point.finish_start]
    cases hrun : run visitAt (Detector.init, blocks) path with
    | error c =>
      rw [hrun] at h
      exact congrArg _ (Except.error.inj h)
    | ok s =>
      rw [hrun] at h
      cases h
  obtain ⟨q, hq, hcrash⟩ := exists_crash hfinish
  exact Point.next_ne_index (Reached.inRange hq) hcrash

/-- **When numbers denote slots** on a path: exactly if no instruction that is counted comes after
`2 ^ 31 - 1` slots or more. -/
theorem numbersDenote_iff : NumbersDenote blocks path ↔
    ∀ p i rest, Reached blocks path p → p.rest = i :: rest → ¬TooMany i rest p.d := by
  have hcounter : (∀ p, Reached blocks path p → p.next ≠ .error .overflow) ↔
      ∀ p i rest, Reached blocks path p → p.rest = i :: rest → ¬TooMany i rest p.d := by
    refine forall_congr' fun p => ⟨fun h i rest hp hrest htoo => ?_, fun h hp hnext => ?_⟩
    · exact h hp ((Point.next_eq_error_iff (by decide) (by decide) hp.inRange).mpr
        ⟨rfl, i, rest, hrest, htoo⟩)
    · obtain ⟨-, i, rest, hrest, htoo⟩ :=
        (Point.next_eq_error_iff (by decide) (by decide) hp.inRange).mp hnext
      exact h i rest hp hrest htoo
  rw [← hcounter]
  refine ⟨NumbersDenote.counter, fun hcounter => ?_⟩
  exact
    { counter := hcounter
      malloc_id := fun p hp => hp.inRange.malloc_id
      malloc_vars := fun p hp var id hid => hp.inRange.numbers (.var var) id hid
      malloc_structs := by
        intro p hp var fields index id hfields hid
        refine hp.inRange.numbers (.field var index) id ?_
        simp [numberAt, fieldId, hfields, hid]
      assigned := fun p hp => Point.next_ne_index hp.inRange
      detected := memoryLeakDetection_ne_index blocks path
      slots := fun p q _ hpq => hpq.slotsKept
      noMalloc := by
        intro more hmore hfalse htrue
        have hsame := verdict?_append hfalse
          (fun bb hbb i hi _ _ _ _ heffect => heffect.leaks_eq_false (hmore bb hbb i hi)) htrue
        cases hsame
      noFree := by
        intro more hmore htrue hfalse
        have hsame := verdict?_append htrue
          (fun bb hbb i hi _ _ _ _ heffect => heffect.leaks_eq_true (hmore bb hbb i hi)) hfalse
        cases hsame }

/-- It is enough that an `int` can count the blocks of the path. -/
theorem not_tooMany_of_countedOn (hcount : countedOn blocks path < 2 ^ 31)
    (hp : Reached blocks path p) {i : Instruction} {rest : List Instruction}
    (hrest : p.rest = i :: rest) : ¬TooMany i rest p.d := by
  rintro ⟨id, name, args, -, hcounts, -, hle⟩
  have htally := hp.counted_add
  rw [hrest, counted, hcounts, hp.inRange.malloc_id, Bool.toNat_true] at htally
  omega

/-- `p = malloc(10);`, so many times. -/
def mallocsAgain : ℕ → List Instruction
  | 0 => [.terminator []]
  | n + 1 => .call 0 (some "malloc") [.constantInt 10] :: .store (.result 0 "") (.global "p") ::
      mallocsAgain n

/-- As many as an `int` cannot count. -/
theorem exists_overflow (n : ℕ) (d : Detector) (before : List Instruction)
    (here : Option BasicBlock) (blocks : Blocks) (hd : d.malloc_id < 2 ^ 31)
    (hn : 2 ^ 31 ≤ d.malloc_id + n) :
    ∃ q, Leads ⟨d, before, mallocsAgain n, here, blocks, []⟩ q ∧ q.next = .error .overflow := by
  induction n generalizing d before with
  | zero => exact absurd hd hn.not_gt
  | succ n ih =>
    have hstore : adjacent (.store (.result 0 "") (.global "p") :: mallocsAgain n) =
        some (.store (.result 0 "") (.global "p")) := rfl
    have hkey : (Value.global "p").key = some (.var "p") := rfl
    have hvisit := visit_malloc_store hstore hkey 0 [.constantInt 10] before d
    rcases Nat.lt_or_ge (d.malloc_id + 1) (2 ^ 31) with hlt | hle
    · rw [store?_of_lt hlt] at hvisit
      obtain ⟨q, hq, hoverflow⟩ := ih
        (d.mallocAt (.call 0 (some "malloc") [.constantInt 10]) (.var "p"))
        (.store (.result 0 "") (.global "p") :: .call 0 (some "malloc") [.constantInt 10] :: before)
        hlt (by rw [mallocAt_malloc_id]; omega)
      have hstored : Leads ⟨d.mallocAt (.call 0 (some "malloc") [.constantInt 10]) (.var "p"),
          .call 0 (some "malloc") [.constantInt 10] :: before,
          .store (.result 0 "") (.global "p") :: mallocsAgain n, here, blocks, []⟩ q :=
        hq.head rfl
      refine ⟨q, hstored.head ?_, hoverflow⟩
      simp only [mallocsAgain, Point.next, hvisit, ok_bind, Value.spliced, List.nil_append]
    · rw [store?_of_le hle] at hvisit
      exact ⟨_, .refl, by simp only [mallocsAgain, Point.next, hvisit, error_bind]⟩

/-- **The counter overflows** when a block of the function allocates `2 ^ 31` times. -/
theorem not_numbersDenote : ¬∀ blocks path, NumbersDenote blocks path := by
  intro h
  obtain ⟨q, hq, hoverflow⟩ := exists_overflow (2 ^ 31) Detector.init [] (some 0)
    (fun _ => mallocsAgain (2 ^ 31)) (Nat.two_pow_pos 31) (Nat.le_add_left _ _)
  refine (h (fun _ => mallocsAgain (2 ^ 31)) [0]).counter q ?_ hoverflow
  exact .head rfl hq

end Denote

end DepLeak

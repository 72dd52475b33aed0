import DepLeak.Leak.Safety

/-!
# Calls that could be left out

The detector takes every call of a function for a call of `malloc`, `free` or `llvm.memcpy`
that has one of these names somewhere in its own. A call can be left out of its block, with
no verdict on any path changed, exactly if the detector overlooks it where it stands, and
takes what is left around it for nothing new (`DepLeak.invisible_iff`).

That the detector overlooks a call is preserved from one visit of its block to the next
(`DepLeak.Without`), so that with the call and without it the detector goes over a path in
lockstep.
-/

namespace DepLeak

open Runs Detector

/-! ### What is around a call -/

/-- What is directly before a call, calls for debug information apart. -/
inductive Before
  /-- Nothing: the call is the first of its block. -/
  | nothing
  /-- A load. -/
  | load
  /-- A call of a function with `malloc` in its name. -/
  | malloc
  /-- Any other instruction. -/
  | other
  deriving DecidableEq

/-- What is directly after it. -/
inductive After
  /-- A store. -/
  | store
  /-- A call of a function with `free` in its name. -/
  | free
  /-- Any other instruction. -/
  | other
  deriving DecidableEq

/-- The instruction that is directly before a call, if there is one. -/
def Before.of : Option Instruction → Before
  | none => .nothing
  | some (.load _ _) => .load
  | some (.call _ (some name) _) => if finds name "malloc" then .malloc else .other
  | some _ => .other

/-- The instruction that is directly after it. -/
def After.of : Instruction → After
  | .store _ _ => .store
  | .call _ (some name) _ => if finds name "free" then .free else .other
  | _ => .other

/-- Two instructions are a load and a store, a call of `malloc` and a store, or a load and a
call of `free`. -/
def Pair : Option Instruction → Instruction → Prop
  | some (.load _ _), .store _ _ => True
  | some (.call _ (some "malloc") _), .store _ _ => True
  | some (.load _ _), .call _ (some "free") _ => True
  | _, _ => False

/-- **A call of the function is invisible** in such a place: no verdict changes when it is
removed, on any path through any module, unless what was around it is a new pair then. (What
is around a call for debug information is adjacent as it is.) -/
def Invisible (name : String) (b : Before) (a : After) : Prop :=
  ∀ (blocks : Blocks) (path : List BasicBlock) (bb : BasicBlock) (pre post : List Instruction)
    (id : ℕ) (args : List Value) (next : Instruction),
    blocks bb = pre ++ .call id (some name) args :: post → adjacent post = some next →
      Before.of (adjacent pre.reverse) = b → After.of next = a →
        (Pair (adjacent pre.reverse) next → (Instruction.call id (some name) args).isDebug) →
          verdict? (Function.update blocks bb (pre ++ post)) path = verdict? blocks path

/-- **The detector overlooks the call**, and sees nothing new when it is gone. -/
structure Overlooked (name : String) (b : Before) (a : After) : Prop where
  /-- It is not taken for a copy of a structure. -/
  memcpy : ¬finds name "llvm.memcpy.p0i8.p0i8.i64"
  /-- If it is taken for a call of `malloc`, its result is not stored. -/
  malloc : finds name "malloc" → a ≠ .store
  /-- If it is taken for a call of `free`, there is something before it, and no load. -/
  free : finds name "free" → b ≠ .nothing ∧ b ≠ .load
  /-- What is around it is no load or call of `malloc` and a store to the detector. -/
  stored : a = .store → b ≠ .load ∧ b ≠ .malloc
  /-- And no call of `free` comes to stand behind a load, or behind nothing. -/
  freed : a = .free → b ≠ .nothing ∧ b ≠ .load

/-! ### One instruction between others -/

section Visit

variable {i : Instruction} {before before' rest rest' : List Instruction} {d : Detector}

/-- The next instruction is the same, or none that is stored to. -/
def SameNext (rest rest' : List Instruction) : Prop :=
  adjacent rest = adjacent rest' ∨ ∃ j j', adjacent rest = some j ∧ adjacent rest' = some j' ∧
    (∀ value pointer, j ≠ .store value pointer) ∧ ∀ value pointer, j' ≠ .store value pointer

/-- The instruction before is the same, or none that loads. -/
def SamePrev (before before' : List Instruction) : Prop :=
  adjacent before = adjacent before' ∨ ∃ j j', adjacent before = some j ∧
    adjacent before' = some j' ∧ (∀ id pointer, j ≠ .load id pointer) ∧
      ∀ id pointer, j' ≠ .load id pointer

/-- The same is noted, and the same is put into the block. -/
def SameVisit (before before' : List Instruction)
    (r r' : Detector × List Instruction) : Prop :=
  r'.1 = r.1 ∧ ∃ new, r.2 = new ++ before ∧ r'.2 = new ++ before'

theorem visitLoad_sameNext (h : SameNext rest rest') (pointer : Value) :
    visitLoad pointer rest d = visitLoad pointer rest' d := by
  rcases h with h | ⟨j, j', hj, hj', hne, hne'⟩
  · rw [visitLoad, visitLoad, h]
  · have hother : ∀ {k : Instruction} {l : List Instruction}, adjacent l = some k →
        (∀ value pointer, k ≠ .store value pointer) → visitLoad pointer l d = d := by
      intro k l hk hk'
      rw [visitLoad, hk]
      cases k with
      | store value pointer => exact absurd rfl (hk' value pointer)
      | _ => rfl
    rw [hother hj hne, hother hj' hne']

theorem visitMalloc_sameNext (h : SameNext rest rest') (before before' : List Instruction) :
    Lockstep (SameVisit before before') (visitMalloc i before rest d)
      (visitMalloc i before' rest' d) := by
  rcases h with h | ⟨j, j', hj, hj', hne, hne'⟩
  · cases hadj : adjacent rest' with
    | none =>
      rw [visitMalloc, visitMalloc, h, hadj]
      exact .error _
    | some j =>
      rcases j.store_or_ne with ⟨value, pointer, rfl⟩ | hne
      · rw [visitMalloc_eq (h.trans hadj), visitMalloc_eq hadj]
        cases pointer.locate with
        | error c => exact .error c
        | ok l =>
          rw [ok_bind, ok_bind]
          cases d.store? i l with
          | error c => exact .error c
          | ok d' => exact .ok ⟨rfl, pointer.spliced, rfl, rfl⟩
      · rw [visitMalloc_skip (h.trans hadj) hne, visitMalloc_skip hadj hne]
        exact .ok ⟨rfl, [], rfl, rfl⟩
  · rw [visitMalloc_skip hj hne, visitMalloc_skip hj' hne']
    exact .ok ⟨rfl, [], rfl, rfl⟩

theorem visitFree_samePrev (h : SamePrev before before') :
    Lockstep (SameVisit before before') (visitFree before d) (visitFree before' d) := by
  rcases h with h | ⟨j, j', hj, hj', hne, hne'⟩
  · cases hadj : adjacent before' with
    | none =>
      rw [visitFree, visitFree, h, hadj]
      exact .error _
    | some j =>
      rcases j.load_or_ne with ⟨id, pointer, rfl⟩ | hne
      · rw [visitFree_eq (h.trans hadj), visitFree_eq hadj]
        cases pointer.locate with
        | error c => exact .error c
        | ok l =>
          rw [ok_bind, ok_bind]
          cases d.freeId (l.bind d.numberAt) with
          | error c => exact .error c
          | ok d' => exact .ok ⟨rfl, pointer.spliced, rfl, rfl⟩
      · rw [visitFree_skip (h.trans hadj) hne, visitFree_skip hadj hne]
        exact .ok ⟨rfl, [], rfl, rfl⟩
  · rw [visitFree_skip hj hne, visitFree_skip hj' hne']
    exact .ok ⟨rfl, [], rfl, rfl⟩

/-- What stands between an instruction and the one before it is seen instead of that. -/
theorem SamePrev.append (h : SamePrev before before') (new : List Instruction) :
    SamePrev (new ++ before) (new ++ before') := by
  cases hnew : adjacent new with
  | some j => exact .inl (by simp [adjacent_append, hnew])
  | none =>
    simp only [SamePrev, adjacent_append, hnew, Option.none_or]
    exact h

/-- **An instruction between others**: it does the same if what it looks at next to it is the
same, or nothing to it. -/
theorem visit_lockstep (hnext : Before.of (some i) ≠ .other → SameNext rest rest')
    (hprev : After.of i = .free → SamePrev before before') :
    Lockstep (SameVisit before before') (visit i before rest d) (visit i before' rest' d) := by
  cases i with
  | load id pointer =>
    rw [visit, visit, visitLoad_sameNext (hnext (by simp [Before.of])) pointer]
    exact .ok ⟨rfl, [], rfl, rfl⟩
  | call id callee args =>
    rcases callee with _ | name
    · exact .error _
    rw [visit, visit]
    cases memcpyCall name args d with
    | error c => exact .error c
    | ok d₁ =>
      have hmalloc : Lockstep (SameVisit before before')
          (mallocCall name (.call id (some name) args) before rest d₁)
          (mallocCall name (.call id (some name) args) before' rest' d₁) := by
        rw [mallocCall, mallocCall]
        split
        · next hname =>
          exact visitMalloc_sameNext (hnext (by simp [Before.of, hname])) before before'
        · exact .ok ⟨rfl, [], rfl, rfl⟩
      refine hmalloc.bind ?_
      rintro ⟨d₂, -⟩ ⟨-, -⟩ ⟨rfl, new, rfl, rfl⟩
      simp only [freeCall]
      split
      · next hname =>
        have hsame := (hprev (by simp [After.of, hname])).append new
        refine (visitFree_samePrev hsame).mono ?_
        rintro ⟨d₃, -⟩ ⟨-, -⟩ ⟨rfl, new', rfl, rfl⟩
        exact ⟨rfl, new' ++ new, (List.append_assoc ..).symm, (List.append_assoc ..).symm⟩
      · exact .ok ⟨rfl, new, rfl, rfl⟩
  | _ => exact .ok ⟨rfl, [], rfl, rfl⟩

theorem SameNext.append {others others' : List Instruction} (h : SameNext others others')
    (l : List Instruction) : SameNext (l ++ others) (l ++ others') := by
  cases hl : adjacent l with
  | some j => exact .inl (by simp [adjacent_append, hl])
  | none =>
    simp only [SameNext, adjacent_append, hl, Option.none_or]
    exact h

theorem visit_sameNext (h : SameNext rest rest') :
    visit i before rest d = visit i before rest' d := by
  have hvisit : Lockstep (SameVisit before before) (visit i before rest d)
      (visit i before rest' d) := visit_lockstep (fun _ => h) fun _ => .inl rfl
  cases hr : visit i before rest' d with
  | error c => exact (hr ▸ hvisit).error_left
  | ok r' =>
    obtain ⟨r, hr', hd, new, hnew, hnew'⟩ := hvisit.ok_left hr
    rw [hr', Prod.ext hd.symm (hnew.trans hnew'.symm)]

end Visit

/-! ### A block with the call and without it -/

section Block

variable {c i : Instruction} {before rest pre post l x : List Instruction} {d : Detector}

theorem Before.of_ne_other (h : Before.of (some i) ≠ .other) : ¬i.isDebug := by
  intro hi
  obtain ⟨id, name, args, rfl⟩ := exists_call_of_isDebug hi
  exact h (by simp [Before.of, (not_finds_of_isDebug hi).2.1])

theorem After.of_eq_free (h : After.of i = .free) : ¬i.isDebug := by
  intro hi
  obtain ⟨id, name, args, rfl⟩ := exists_call_of_isDebug hi
  simp [After.of, (not_finds_of_isDebug hi).2.2] at h

/-- **The detector overlooks the call** between these instructions. -/
def Overlooks (c : Instruction) (before rest : List Instruction) : Prop :=
  c.isDebug ∨ ∃ id name args next, c = .call id (some name) args ∧ adjacent rest = some next ∧
    Overlooked name (Before.of (adjacent before)) (After.of next)

/-- It does so whatever is put in front of the instructions around the call. -/
theorem Overlooks.kept {before' rest' : List Instruction} (h : Overlooks c before rest)
    (hprev : adjacent before' = adjacent before)
    (hnext : NextKept (adjacent rest) (adjacent rest')) : Overlooks c before' rest' := by
  rcases h with h | ⟨id, name, args, next, rfl, hadj, h⟩
  · exact .inl h
  · right
    rcases hnext with hnext | ⟨-, opcode, operands, hnext⟩
    · exact ⟨id, name, args, next, rfl, hnext.trans hadj, hprev ▸ h⟩
    · refine ⟨id, name, args, _, rfl, hnext, ?_⟩
      rw [hprev]
      exact ⟨h.memcpy, fun _ => After.noConfusion, h.free, fun h => After.noConfusion h,
        fun h => After.noConfusion h⟩

theorem Overlooks.visit (h : Overlooks c before rest) :
    visit c before rest d = .ok (d, before) := by
  rcases h with h | ⟨id, name, args, next, rfl, hadj, h⟩
  · exact visit_debug h
  have hmalloc : mallocCall name (.call id (some name) args) before rest d = .ok (d, before) := by
    rw [mallocCall]
    split
    · next hname =>
      refine visitMalloc_skip hadj fun value pointer heq => h.malloc hname ?_
      rw [heq]
      rfl
    · rfl
  have hfree : freeCall name before d = .ok (d, before) := by
    rw [freeCall]
    split
    · next hname =>
      obtain ⟨hsome, hload⟩ := h.free hname
      cases hprev : adjacent before with
      | none => exact absurd (by rw [hprev]; rfl) hsome
      | some j =>
        refine visitFree_skip hprev fun id pointer heq => hload ?_
        rw [hprev, heq]
        rfl
    · rfl
  rw [Detector.visit, memcpyCall, if_neg h.memcpy, ok_bind, hmalloc, ok_bind]
  exact hfree

/-- The instruction before the call sees the one after it. -/
theorem Overlooks.sameNext (h : Overlooks c (i :: before) post) (hi : Before.of (some i) ≠ .other) :
    SameNext (c :: post) post := by
  rcases h with h | ⟨id, name, args, next, rfl, hadj, h⟩
  · exact .inl (by rw [adjacent_cons, if_pos h])
  by_cases hdebug : (Instruction.call id (some name) args).isDebug
  · exact .inl (by rw [adjacent_cons, if_pos hdebug])
  refine .inr ⟨_, next, by rw [adjacent_cons, if_neg hdebug], hadj,
    fun _ _ => Instruction.noConfusion, ?_⟩
  rintro value pointer rfl
  rw [adjacent_cons, if_neg (Before.of_ne_other hi)] at h
  obtain ⟨hload, hmalloc⟩ := h.stored rfl
  cases hkind : Before.of (some i) with
  | nothing =>
    unfold Before.of at hkind
    split at hkind <;> first | cases hkind | skip
    · rename_i heq
      cases heq
    · split at hkind <;> cases hkind
  | load => exact hload hkind
  | malloc => exact hmalloc hkind
  | other => exact hi hkind

/-- The call of `free` after the call sees the one before it. -/
theorem Overlooks.samePrev {next : Instruction} (h : Overlooks c before post)
    (hadj : adjacent post = some next) (hfree : After.of next = .free) :
    SamePrev (c :: before) before := by
  rcases h with h | ⟨id, name, args, next', rfl, hadj', h⟩
  · exact .inl (by rw [adjacent_cons, if_pos h])
  by_cases hdebug : (Instruction.call id (some name) args).isDebug
  · exact .inl (by rw [adjacent_cons, if_pos hdebug])
  obtain rfl : next' = next := Option.some.inj (hadj'.symm.trans hadj)
  obtain ⟨hsome, hload⟩ := h.freed hfree
  cases hprev : adjacent before with
  | none => exact absurd (by rw [hprev]; rfl) hsome
  | some j =>
    refine .inr ⟨_, j, by rw [adjacent_cons, if_neg hdebug], hprev,
      fun _ _ => Instruction.noConfusion, fun id pointer heq => hload ?_⟩
    rw [hprev, heq]
    rfl

/-- **The instructions behind the call**, of which `x` have been gone over. -/
theorem visitBlock_behind (h : adjacent x = none → ∀ next, adjacent l = some next →
      After.of next = .free → SamePrev (c :: before) before) :
    Lockstep (fun r r' => r'.1 = r.1 ∧ ∃ left, r.2 = (x ++ c :: before).reverse ++ left ∧
        r'.2 = (x ++ before).reverse ++ left)
      (visitBlock d (x ++ c :: before) l) (visitBlock d (x ++ before) l) := by
  induction l generalizing d x with
  | nil => exact .ok ⟨rfl, [], (List.append_nil _).symm, (List.append_nil _).symm⟩
  | cons i rest ih =>
    have hprev : After.of i = .free → SamePrev (x ++ c :: before) (x ++ before) := by
      intro hfree
      cases hx : adjacent x with
      | some j => exact .inl (by simp [adjacent_append, hx])
      | none =>
        refine (h hx i ?_ hfree).append x
        rw [adjacent_cons, if_neg (After.of_eq_free hfree)]
    have hvisit : Lockstep (SameVisit (x ++ c :: before) (x ++ before))
        (visit i (x ++ c :: before) rest d) (visit i (x ++ before) rest d) :=
      visit_lockstep (fun _ => .inl rfl) hprev
    refine hvisit.bind ?_
    rintro ⟨d₁, -⟩ ⟨d₁', -⟩ ⟨hd₁, new, rfl, rfl⟩
    obtain rfl : d₁' = d₁ := hd₁
    have hrest := ih (d := d₁') (x := i :: (new ++ x)) fun hx next hnext => by
      rw [adjacent_cons] at hx
      split at hx
      · next hi =>
        rw [adjacent_append, Option.or_eq_none_iff] at hx
        exact h hx.2 next (by rw [adjacent_cons, if_pos hi]; exact hnext)
      · cases hx
    rw [List.cons_append, List.append_assoc, List.cons_append, List.append_assoc] at hrest
    refine hrest.mono ?_
    rintro r r' ⟨hd, left, hr, hr'⟩
    refine ⟨hd, new.reverse ++ i :: left, ?_, ?_⟩
    · rw [hr]
      simp
    · rw [hr']
      simp

/-- A block with the call, and the same without it. -/
def Without (c : Instruction) (l l' : List Instruction) : Prop :=
  ∃ pre post, l = pre ++ c :: post ∧ l' = pre ++ post ∧ Overlooks c pre.reverse post

/-- **A visit with the call and one without it**: the same is noted, and what is left of the
block is the same with the call and without it. -/
theorem visitBlock_without (h : Overlooks c (pre.reverse ++ before) post) :
    Lockstep (fun r r' => r'.1 = r.1 ∧ Without c r.2 r'.2)
      (visitBlock d before (pre ++ c :: post)) (visitBlock d before (pre ++ post)) := by
  induction pre generalizing d before with
  | nil =>
    have hbehind := (visitBlock_behind (x := []) (d := d)
      fun _ next hnext => Overlooks.samePrev h hnext).ends
    have hvisit : visit c before post d = .ok (d, before) := Overlooks.visit h
    rw [List.nil_append, visitBlock, hvisit, ok_bind]
    refine hbehind.mono ?_
    rintro r r' ⟨⟨hd, left, hr, hr'⟩, -, hblock⟩
    obtain ⟨left', heq, hnext⟩ := visitBlock_left hblock
    rw [hr'] at heq
    obtain rfl := List.append_cancel_left heq
    refine ⟨hd, before.reverse, left, by simpa using hr, hr', ?_⟩
    exact Overlooks.kept h (by rw [List.reverse_reverse]; rfl) hnext
  | cons i pre ih =>
    have hnext : Before.of (some i) ≠ .other → SameNext (pre ++ c :: post) (pre ++ post) := by
      intro hi
      cases hpre : adjacent pre with
      | some j => exact .inl (by simp [adjacent_append, hpre])
      | none =>
        have hadj : adjacent ((i :: pre).reverse ++ before) = adjacent (i :: before) := by
          have hrev : adjacent pre.reverse = none := by
            rw [adjacent, List.find?_eq_none] at hpre ⊢
            exact fun j hj => hpre j (List.mem_reverse.mp hj)
          rw [List.reverse_cons, List.append_assoc, adjacent_append, hrev]
          rfl
        have hsame := (h.kept hadj.symm (.inl rfl)).sameNext hi
        simpa only [SameNext, adjacent_append, hpre, Option.none_or] using hsame
    have hvisit : Lockstep (SameVisit before before) (visit i before (pre ++ c :: post) d)
        (visit i before (pre ++ post) d) := visit_lockstep hnext fun _ => .inl rfl
    refine hvisit.ends.bind ?_
    rintro ⟨d₁, before₁⟩ ⟨d₁', before₁'⟩ ⟨⟨hd₁, new, hnew, hnew'⟩, hok, -⟩
    obtain rfl : d₁' = d₁ := hd₁
    obtain rfl : before₁' = before₁ := hnew'.trans hnew.symm
    refine ih (h.kept ?_ (.inl rfl))
    have hadj := adjacent_visit hok
    rw [← adjacent_cons] at hadj
    rw [List.reverse_cons, List.append_assoc, adjacent_append, hadj, adjacent_append]
    rfl

end Block

/-! ### A path with the call and without it -/

section Path

variable {name : String} {b : Before} {a : After}

/-- **Along a path** the detector notes the same with the call and without it. -/
theorem run_visitAt_without {c : Instruction} {bb : BasicBlock} {blocks blocks' : Blocks}
    (hother : ∀ bb', bb' ≠ bb → blocks bb' = blocks' bb') (h : Without c (blocks bb) (blocks' bb))
    (d : Detector) (path : List BasicBlock) :
    Lockstep (fun s s' => s'.1 = s.1) (run visitAt (d, blocks) path)
      (run visitAt (d, blocks') path) := by
  let R : Detector × Blocks → Detector × Blocks → Prop := fun s s' =>
    s'.1 = s.1 ∧ (∀ bb', bb' ≠ bb → s.2 bb' = s'.2 bb') ∧ Without c (s.2 bb) (s'.2 bb)
  have hstep : ∀ bb' ∈ path, ∀ s s', R s s' → Lockstep R (visitAt s bb') (visitAt s' bb') := by
    rintro bb' - ⟨d, blocks⟩ ⟨d', blocks'⟩ ⟨hd, hother, h⟩
    dsimp only at hd hother h
    subst hd
    rw [visitAt, visitAt]
    by_cases hbb : bb' = bb
    · subst hbb
      obtain ⟨pre, post, hl, hl', hcall⟩ := h
      simp only [hl, hl']
      have hcall' : Overlooks c (pre.reverse ++ []) post := by rwa [List.append_nil]
      refine (visitBlock_without hcall').bind ?_
      rintro ⟨d₁, l⟩ ⟨d₁', l'⟩ ⟨hd₁, hleft⟩
      refine .ok ⟨hd₁, fun bb hne => ?_, by simpa using hleft⟩
      simp only [Function.update_of_ne hne, hother bb hne]
    · simp only [hother bb' hbb]
      cases visitBlock d' [] (blocks' bb') with
      | error e => exact .error e
      | ok r =>
        refine .ok ⟨rfl, fun bb₁ hne => ?_, ?_⟩
        · rcases eq_or_ne bb₁ bb' with rfl | hne'
          · simp
          · simp only [Function.update_of_ne hne', hother bb₁ hne]
        · simpa only [Function.update_of_ne (Ne.symm hbb)] using h
  have hrun : Lockstep R (run visitAt (d, blocks) path) (run visitAt (d, blocks') path) :=
    run_lockstep hstep ⟨rfl, hother, h⟩
  exact hrun.mono fun s s' hs => hs.1

theorem verdict?_without {c : Instruction} {blocks : Blocks} {bb : BasicBlock}
    {pre post : List Instruction} (hbb : blocks bb = pre ++ c :: post)
    (h : Overlooks c pre.reverse post) (path : List BasicBlock) :
    verdict? blocks path = verdict? (Function.update blocks bb (pre ++ post)) path := by
  have hrun : Lockstep (fun s s' => s'.1 = s.1) (run visitAt (Detector.init, blocks) path)
      (run visitAt (Detector.init, Function.update blocks bb (pre ++ post)) path) :=
    run_visitAt_without (fun bb' hne => (Function.update_of_ne hne _ _).symm)
      ⟨pre, post, hbb, Function.update_self .., h⟩ Detector.init path
  rw [verdict?, verdict?, memoryLeakDetection, memoryLeakDetection]
  generalize run visitAt (Detector.init, blocks) path = r at hrun ⊢
  generalize run visitAt (Detector.init, Function.update blocks bb (pre ++ post)) path = r'
    at hrun ⊢
  cases hrun with
  | @ok s s' hd =>
    obtain ⟨d, blocks⟩ := s
    obtain ⟨d', blocks'⟩ := s'
    obtain rfl : d' = d := hd
    rfl
  | error e => rfl

/-- **A call that is overlooked is invisible.** -/
theorem Overlooked.invisible (h : Overlooked name b a) : Invisible name b a := by
  rintro blocks path bb pre post id args next hbb hnext rfl rfl -
  exact (verdict?_without hbb (.inr ⟨id, name, args, next, rfl, hnext, h⟩) path).symm

/-- Calls for debug information are invisible everywhere. -/
theorem invisible_of_isDebug (h : (Instruction.call 0 (some name) []).isDebug) :
    Invisible name b a := by
  rintro blocks path bb pre post id args next hbb - - - -
  exact (verdict?_without hbb (.inl h) path).symm

end Path

/-! ### Calls that are seen -/

/-- The verdict on a path that visits one block once. -/
def blockVerdict? (l : List Instruction) : Option Bool :=
  (visitBlock Detector.init [] l).toOption.map fun r => r.1.leaks

theorem verdict?_singleton (blocks : Blocks) (bb : BasicBlock) :
    verdict? blocks [bb] = blockVerdict? (blocks bb) := by
  rw [verdict?, blockVerdict?, memoryLeakDetection, run_cons, visitAt]
  cases visitBlock Detector.init [] (blocks bb) <;> rfl

/-- Going over the first instructions of a block, before the others. -/
def goOver (others : List Instruction) (d : Detector) (before : List Instruction) :
    List Instruction → Except Crash (Detector × List Instruction)
  | [] => .ok (d, before)
  | i :: rest => do
    let (d, before) ← visit i before (rest ++ others) d
    goOver others d (i :: before) rest

theorem visitBlock_append (d : Detector) (before l others : List Instruction) :
    visitBlock d before (l ++ others) =
      goOver others d before l >>= fun r => visitBlock r.1 r.2 others := by
  induction l generalizing d before with
  | nil => rfl
  | cons i l ih =>
    rw [List.cons_append, visitBlock, goOver, bind_assoc]
    exact congrArg _ (funext fun r : Detector × List Instruction => ih r.1 (i :: r.2))

/-- It matters what comes next only if that is a store. -/
theorem goOver_sameNext {others others' : List Instruction} (h : SameNext others others')
    (d : Detector) (before l : List Instruction) :
    goOver others d before l = goOver others' d before l := by
  induction l generalizing d before with
  | nil => rfl
  | cons i l ih =>
    have hvisit : visit i before (l ++ others) d = visit i before (l ++ others') d :=
      visit_sameNext (h.append l)
    rw [goOver, goOver, hvisit]
    exact congrArg _ (funext fun r : Detector × List Instruction => ih r.1 (i :: r.2))

section Seen

variable {name : String} {b : Before} {a : After} {before before' pre post : List Instruction}
  {next : Instruction}

/-- What comes next is visited alike behind instructions that are alike to it. -/
theorem visitBlock_samePrev (h : SamePrev before before') (d : Detector) (l : List Instruction) :
    Lockstep (fun r r' => r'.1 = r.1) (visitBlock d before l) (visitBlock d before' l) := by
  induction l generalizing d before before' with
  | nil => exact .ok rfl
  | cons i l ih =>
    have hvisit : Lockstep (SameVisit before before') (visit i before l d)
        (visit i before' l d) := visit_lockstep (fun _ => .inl rfl) fun _ => h
    refine hvisit.bind ?_
    rintro ⟨d₁, -⟩ ⟨d₁', -⟩ ⟨hd, new, rfl, rfl⟩
    obtain rfl : d₁' = d₁ := hd
    exact ih (h.append (i :: new)) d₁'

/-- A call that is taken for one of `malloc`, of `free`, or of both, is seen between these
instructions. -/
def seen (malloc free : Bool) (i : Instruction) (pre post : List Instruction) :
    Except Crash (Detector × List Instruction) :=
  goOver [.other 0] Detector.init [] pre >>= fun r =>
    (if malloc then visitMalloc i r.2 post r.1 else .ok r) >>= fun r =>
      (if free then visitFree r.2 r.1 else .ok r) >>= fun r =>
        visitBlock r.1 (.other 0 :: r.2) post

theorem blockVerdict?_eq_seen (hdebug : ¬(Instruction.call 0 (some name) []).isDebug)
    (hmemcpy : ¬finds name "llvm.memcpy.p0i8.p0i8.i64") :
    blockVerdict? (pre ++ .call 0 (some name) [] :: post) =
      (seen (finds name "malloc") (finds name "free") (.call 0 (some name) []) pre
        post).toOption.map fun r => r.1.leaks := by
  have hcall : SameNext (.call 0 (some name) [] :: post) [.other 0] :=
    .inr ⟨_, _, by rw [adjacent_cons, if_neg hdebug], rfl, fun _ _ => Instruction.noConfusion,
      fun _ _ => Instruction.noConfusion⟩
  rw [blockVerdict?, visitBlock_append, goOver_sameNext hcall, seen]
  cases goOver [.other 0] Detector.init [] pre with
  | error c => rfl
  | ok r =>
    have hvisit : visit (.call 0 (some name) []) r.2 post r.1 =
        mallocCall name (.call 0 (some name) []) r.2 post r.1 >>= fun r =>
          freeCall name r.2 r.1 := by
      rw [visit, memcpyCall, if_neg hmemcpy, ok_bind]
    rw [ok_bind, ok_bind, visitBlock, hvisit, bind_assoc]
    change Option.map _ (Except.toOption (mallocCall name _ r.2 post r.1 >>= _)) =
      Option.map _ (Except.toOption (mallocCall name _ r.2 post r.1 >>= _))
    cases mallocCall name (.call 0 (some name) []) r.2 post r.1 with
    | error c => rfl
    | ok r =>
      change Option.map _ (Except.toOption (freeCall name r.2 r.1 >>= _)) =
        Option.map _ (Except.toOption (freeCall name r.2 r.1 >>= _))
      cases freeCall name r.2 r.1 with
      | error c => rfl
      | ok r =>
        obtain ⟨d, before⟩ := r
        have hprev : SamePrev (.call 0 (some name) [] :: before) (.other 0 :: before) :=
          .inr ⟨_, _, by rw [adjacent_cons, if_neg hdebug], rfl,
            fun _ _ => Instruction.noConfusion, fun _ _ => Instruction.noConfusion⟩
        have hpost := visitBlock_samePrev hprev d post
        change Option.map _ (Except.toOption (visitBlock d (_ :: before) post)) =
          Option.map _ (Except.toOption (visitBlock d (_ :: before) post))
        generalize visitBlock d (.call 0 (some name) [] :: before) post = x at hpost ⊢
        generalize visitBlock d (.other 0 :: before) post = y at hpost ⊢
        cases hpost with
        | ok hd => exact congrArg (fun d : Detector => some d.leaks) hd.symm
        | error c => rfl

/-- A copy of nothing to nowhere stops the detector. -/
theorem blockVerdict?_of_memcpy (hmemcpy : finds name "llvm.memcpy.p0i8.p0i8.i64") :
    blockVerdict? (pre ++ .call 0 (some name) [] :: post) = none := by
  rw [blockVerdict?, visitBlock_append]
  cases goOver (.call 0 (some name) [] :: post) Detector.init [] pre with
  | error c => rfl
  | ok r =>
    have hvisit : visit (.call 0 (some name) []) r.2 post r.1 = .error .operand := by
      simp [visit, memcpyCall, hmemcpy, visitMemcpy, getOperand]
    rw [ok_bind, visitBlock, hvisit]
    rfl

theorem Invisible.verdict (h : Invisible name b a) (hnext : adjacent post = some next)
    (hb : Before.of (adjacent pre.reverse) = b) (ha : After.of next = a)
    (hpair : ¬Pair (adjacent pre.reverse) next) :
    blockVerdict? (pre ++ post) = blockVerdict? (pre ++ .call 0 (some name) [] :: post) := by
  have hsame := h (fun _ => pre ++ .call 0 (some name) [] :: post) [0] 0 pre post 0 [] next rfl
    hnext hb ha fun hp => absurd hp hpair
  rwa [verdict?_singleton, verdict?_singleton, Function.update_self] at hsame

/-- Instructions of each kind to stand before a call. -/
def Before.sample : Before → List Instruction
  | .nothing => []
  | .load => [.load 0 (.global "x")]
  | .malloc => [.call 0 (some "xmalloc") []]
  | .other => [.other 0]

/-- The address of a field. -/
def fieldAddress : Value := (Location.field "s" 0).address

/-- A call that is taken for one of `malloc` and for one of `free`. -/
def mallocOrFree : Instruction := .call 3 (some "malloc_or_free") []

/-- And instructions of each kind to stand after it. -/
def After.sample : After → List Instruction
  | .store => [.store (.result 0 "") (.global "x"), .terminator []]
  | .free => [mallocOrFree, .store (.result 3 "") fieldAddress, .terminator []]
  | .other => [.terminator []]

theorem Before.of_sample (b : Before) : Before.of (adjacent b.sample.reverse) = b := by
  cases b <;> decide

theorem After.of_sample (a : After) :
    ∃ next, adjacent a.sample = some next ∧ After.of next = a ∧
      ∀ b : Before, (a = .store → b ≠ .load) → ¬Pair (adjacent b.sample.reverse) next := by
  cases a with
  | store =>
    refine ⟨_, rfl, rfl, fun b hne => ?_⟩
    cases b with
    | load => exact absurd rfl (hne rfl)
    | nothing | malloc | other => exact not_false
  | free =>
    refine ⟨_, rfl, by decide, fun b _ => ?_⟩
    cases b <;> exact not_false
  | other =>
    refine ⟨_, rfl, rfl, fun b _ => ?_⟩
    cases b <;> exact not_false

theorem blockVerdict?_sample (b : Before) (a : After) :
    (blockVerdict? (b.sample ++ a.sample)).isSome := by
  cases b <;> cases a <;> decide

/-- A call that is taken for a copy is seen everywhere. -/
theorem Invisible.memcpy (h : Invisible name b a) (hne : a = .store → b ≠ .load) :
    ¬finds name "llvm.memcpy.p0i8.p0i8.i64" := by
  intro hmemcpy
  obtain ⟨next, hnext, ha, hpair⟩ := a.of_sample
  have hsame := h.verdict hnext b.of_sample ha (hpair b hne)
  have hsome := blockVerdict?_sample b a
  rw [hsame, blockVerdict?_of_memcpy hmemcpy] at hsome
  cases hsome

/-- What a call comes to that is invisible, and taken for no copy. -/
theorem Invisible.eq_seen (h : Invisible name b a)
    (hdebug : ¬(Instruction.call 0 (some name) []).isDebug) (hne : a = .store → b ≠ .load)
    (pre post : List Instruction) (next : Instruction) (hnext : adjacent post = some next)
    (hb : Before.of (adjacent pre.reverse) = b) (ha : After.of next = a)
    (hpair : ¬Pair (adjacent pre.reverse) next) :
    blockVerdict? (pre ++ post) =
      (seen (finds name "malloc") (finds name "free") (.call 0 (some name) []) pre
        post).toOption.map fun r => r.1.leaks :=
  (h.verdict hnext hb ha hpair).trans (blockVerdict?_eq_seen hdebug (h.memcpy hne))

/-- The result of a call of `malloc`, stored to a variable and loaded from it. -/
def loadStored : List Instruction :=
  [.call 1 (some "malloc") [], .store (.result 1 "") (.global "x"), .load 2 (.global "x")]

/-- The result of a call, stored to a field, loaded from there and freed. -/
def freeField : List Instruction :=
  [.store (.result 3 "") fieldAddress, .load 4 fieldAddress,
    .call 5 (some "free") [.result 4 ""], .terminator []]

/-- A call that is taken for one of `malloc` is seen in front of a store. -/
theorem Invisible.malloc (h : Invisible name b a)
    (hdebug : ¬(Instruction.call 0 (some name) []).isDebug) (hne : a = .store → b ≠ .load)
    (hmalloc : finds name "malloc") : a ≠ .store := by
  rintro rfl
  have hsame := h.eq_seen hdebug hne
  rw [hmalloc] at hsame
  generalize finds name "free" = free at hsame
  generalize Instruction.call 0 (some name) [] = i at hsame
  cases b with
  | load => exact hne rfl rfl
  | nothing =>
    have hnothing := hsame [] After.store.sample _ rfl rfl rfl not_false
    cases free with
    | false =>
      have hleak : some false = some true := hnothing
      cases hleak
    | true =>
      -- there is nothing before the call to ask whether it is a load
      have hcrash : some false = none := hnothing
      cases hcrash
  | malloc =>
    -- the call before is one of `malloc` without this one, and one of `free` with it
    have hboth := hsame (loadStored ++ [mallocOrFree]) freeField _ rfl (by decide) rfl not_false
    cases free with
    | false | true =>
      have hleak : some true = some false := hboth
      cases hleak
  | other =>
    have hother := hsame [.other 0] After.store.sample _ rfl rfl rfl not_false
    cases free with
    | false | true =>
      have hleak : some false = some true := hother
      cases hleak

/-- A call that is taken for one of `free` is seen behind a load, or behind nothing. -/
theorem Invisible.free (h : Invisible name b a)
    (hdebug : ¬(Instruction.call 0 (some name) []).isDebug) (hne : a = .store → b ≠ .load)
    (hfree : finds name "free") : b ≠ .nothing ∧ b ≠ .load := by
  have hmalloc := h.malloc hdebug hne
  have hsame := h.eq_seen hdebug hne
  rw [hfree] at hsame
  generalize finds name "malloc" = malloc at hmalloc hsame
  generalize Instruction.call 0 (some name) [] = i at hsame
  constructor
  · rintro rfl
    obtain ⟨next, hnext, ha, hpair⟩ := a.of_sample
    have hsome := blockVerdict?_sample .nothing a
    rw [Before.sample, hsame [] a.sample next hnext rfl ha (hpair .nothing hne)] at hsome
    cases malloc with
    | false => cases hsome
    | true =>
      cases a with
      | store => exact hmalloc rfl rfl
      | free | other => cases hsome
  · rintro rfl
    have hleak : some true = some false := by
      cases a with
      | store => exact absurd rfl (hne rfl)
      | free =>
        have hload := hsame loadStored (mallocOrFree :: freeField) _ rfl rfl (by decide) not_false
        cases malloc with
        | false | true => exact hload
      | other =>
        have hload := hsame loadStored [.terminator []] _ rfl rfl rfl not_false
        cases malloc with
        | false | true => exact hload
    cases hleak

/-- A call keeps one of `malloc` before it from a store after it. -/
theorem Invisible.stored (h : Invisible name .malloc .store)
    (hdebug : ¬(Instruction.call 0 (some name) []).isDebug) : False := by
  have hne : After.store = .store → Before.malloc ≠ .load := fun _ => Before.noConfusion
  have hmalloc : finds name "malloc" = false :=
    Bool.eq_false_iff.mpr fun hmalloc => h.malloc hdebug hne hmalloc rfl
  have hsame := h.eq_seen hdebug hne Before.malloc.sample After.store.sample _ rfl
    Before.malloc.of_sample rfl not_false
  rw [hmalloc] at hsame
  generalize finds name "free" = free at hsame
  generalize Instruction.call 0 (some name) [] = i at hsame
  have hleak : some true = some false := by
    cases free with
    | false | true => exact hsame
  cases hleak

/-- And one of `free` after it from a load before it, or from the start of the block. -/
theorem Invisible.freed (h : Invisible name b .free)
    (hdebug : ¬(Instruction.call 0 (some name) []).isDebug) : b ≠ .nothing ∧ b ≠ .load := by
  have hne : After.free = .store → b ≠ .load := After.noConfusion
  have hfree : finds name "free" → b ≠ .nothing ∧ b ≠ .load := h.free hdebug hne
  have hsame := h.eq_seen hdebug hne
  generalize finds name "malloc" = malloc at hsame
  generalize finds name "free" = free at hfree hsame
  generalize Instruction.call 0 (some name) [] = i at hsame
  cases free with
  | true => exact hfree rfl
  | false =>
    constructor
    · rintro rfl
      have hstart := hsame [] [.call 3 (some "free") [], .terminator []] _ rfl rfl (by decide)
        not_false
      have hcrash : none = some false := by
        cases malloc with
        | false | true => exact hstart
      cases hcrash
    · rintro rfl
      have hload := hsame loadStored [.call 3 (some "xfree") [], .terminator []] _ rfl rfl
        (by decide) not_false
      have hleak : some false = some true := by
        cases malloc with
        | false | true => exact hload
      cases hleak

end Seen

/-- A load and a store are a pair. -/
theorem pair_of_load_store {prev : Option Instruction} {next : Instruction}
    (hprev : Before.of prev = .load) (hnext : After.of next = .store) : Pair prev next := by
  have hload : ∃ id pointer, prev = some (.load id pointer) := by
    unfold Before.of at hprev
    split at hprev
    · cases hprev
    · exact ⟨_, _, rfl⟩
    · split at hprev <;> cases hprev
    · cases hprev
  have hstore : ∃ value pointer, next = .store value pointer := by
    unfold After.of at hnext
    split at hnext
    · exact ⟨_, _, rfl⟩
    · split at hnext <;> cases hnext
    · cases hnext
  obtain ⟨id, pointer, rfl⟩ := hload
  obtain ⟨value, pointer', rfl⟩ := hstore
  exact trivial

/-- **Exactly the calls that are overlooked are invisible**, and those for debug information;
of a call between a load and a store, which are a pair without it, nothing is asked. -/
theorem invisible_iff (name : String) (b : Before) (a : After) :
    Invisible name b a ↔ (Instruction.call 0 (some name) []).isDebug ∨
      (b = .load ∧ a = .store) ∨ Overlooked name b a := by
  constructor
  · intro h
    by_cases hdebug : (Instruction.call 0 (some name) []).isDebug
    · exact .inl hdebug
    by_cases hpair : b = .load ∧ a = .store
    · exact .inr (.inl hpair)
    have hne : a = .store → b ≠ .load := fun ha hb => hpair ⟨hb, ha⟩
    refine .inr (.inr ⟨h.memcpy hne, h.malloc hdebug hne, h.free hdebug hne, ?_, ?_⟩)
    · rintro rfl
      refine ⟨hne rfl, ?_⟩
      rintro rfl
      exact h.stored hdebug
    · rintro rfl
      exact h.freed hdebug
  · rintro (hdebug | ⟨rfl, rfl⟩ | h)
    · exact invisible_of_isDebug hdebug
    · intro blocks path bb pre post id args next hbb _ hb ha hnew
      have hdebug := hnew (pair_of_load_store hb ha)
      exact (verdict?_without hbb (.inl hdebug) path).symm
    · exact h.invisible

/-- The statistics of the allocator are printed, and what the function returns is stored:
the detector takes the call for one of `malloc`. -/
theorem not_invisible_malloc_stats :
    ¬∀ (name : String) (b : Before) (a : After),
      name ∉ ["malloc", "free", "llvm.memcpy.p0i8.p0i8.i64"] → Invisible name b a := by
  intro h
  have hsame := h "malloc_stats" .other .store (by decide)
    (fun _ => [.other 0, .call 1 (some "malloc_stats") [],
      .store (.global "one") (.global "x"), .terminator []]) [0] 0 [.other 0]
    [.store (.global "one") (.global "x"), .terminator []] 1 [] _ rfl rfl rfl rfl not_false.elim
  revert hsame
  decide

end DepLeak

import DepLeak.Leak.Counted

/-!
# Slots that are taken for one another

The detector does not know the slots that pointers are kept in by themselves, but by names,
and the elements of an aggregate by one of their indices: all unnamed slots are one to it, and
so are a local and a global slot of one name, or the elements of an aggregate that differ only
behind the first index into it. Nor does it look at what is stored after a load, so that a
block may be noted for a slot that no pointer was copied to. Where a block has come in this way
is a relation along the path (`DepLeak.Come`), and two slots are tracked separately exactly if
the block of the one has not come to what the other is taken for at any point where that
matters (`DepLeak.separate_iff`).
-/

namespace DepLeak

open Runs Detector

/-- **A slot** for a pointer. -/
inductive PointerSlot
  /-- The result of an `alloca`, or of a `getelementptr` into one; its name may be empty. -/
  | alloca (id : ℕ) (name : String)
  /-- A global variable. -/
  | global (name : String)
  /-- What the indices lead to in a global structure or array: a field, a field of a field, an
  element of an array of structures and so on. -/
  | element (base : String) (index : BitVec 64) (indices : List (BitVec 64))
  deriving DecidableEq

namespace PointerSlot

/-- The operand of a load from the slot, or of a store to it. -/
def address : PointerSlot → Value
  | .alloca id name => .result id name
  | .global name => .global name
  | .element base index indices =>
    .constantExpr .getElementPtr
      (.global base :: .constantInt 0 :: .constantInt index :: indices.map .constantInt)

/-- What the detector knows the slot by. -/
def key : PointerSlot → Location
  | .alloca _ name => .var name
  | .global name => .var name
  | .element base index _ => .field base (index.setWidth 32)

@[simp] theorem key_address (a : PointerSlot) : a.address.key = some a.key := by
  cases a <;> rfl

end PointerSlot

/-! ### Mallocs and frees on a path -/

/-- The detector is at a call of `malloc` whose result is stored to the slot. -/
def AtMalloc (p : Point) (a : PointerSlot) : Prop :=
  ∃ id name args rest, p.rest = .call id (some "malloc") args :: rest ∧
    adjacent rest = some (.store (.result id name) a.address)

/-- The detector is at a call of `free` for the value loaded from the slot. -/
def AtFree (p : Point) (a : PointerSlot) : Prop :=
  ∃ id id' name rest, p.rest = .call id (some "free") [.result id' name] :: rest ∧
    adjacent p.before = some (.load id' a.address)

/-- A call of `memcpy` from one structure to another, given their names: both operands are
pointers to structures that are cast. -/
structure MemcpyBetween (name : String) (args : List Value) (src dst : String) : Prop where
  calls : finds name "llvm.memcpy.p0i8.p0i8.i64"
  operands : ∃ lhs rhs l r,
    getOperand (args ++ [.global name]) 0 = .ok (.constantExpr .bitCast lhs) ∧
    getOperand (args ++ [.global name]) 1 = .ok (.constantExpr .bitCast rhs) ∧
    getOperand lhs 0 = .ok l ∧ getOperand rhs 0 = .ok r ∧ dst = l.getName ∧ src = r.getName

/-- **The detector is at a copy**: what is noted for the one location will be noted for the
other. -/
inductive Copies (p : Point) : Location → Location → Prop
  /-- A load that is directly followed by a store, whatever is stored, if something is noted
  under the name of the address loaded from. -/
  | load {id : ℕ} {pointer value target : Value} {rest : List Instruction} :
    p.rest = .load id pointer :: rest → adjacent rest = some (.store value target) →
      (p.d.malloc_vars pointer.getName).isSome →
        Copies p (.var pointer.getName) (.var target.getName)
  /-- A call of `memcpy`. -/
  | memcpy {id : ℕ} {name : String} {args : List Value} {rest : List Instruction}
    {src dst : String} (k : BitVec 32) :
    p.rest = .call id (some name) args :: rest → MemcpyBetween name args src dst →
      Copies p (.field src k) (.field dst k)

/-- **Where a block has come**, after it was stored into a slot at the one point, and the
detector has gone on to the other: into the location that the slot is taken for, if nothing was
noted there, and from one location to the next by copies, until something else is copied
there. -/
inductive Come (p q : Point) (a : PointerSlot) : Point → Location → Prop
  | stored : p.d.numberAt a.key = none → Come p q a q a.key
  | copied {r s : Point} {l l' : Location} : Come p q a r l → r.next = .ok (some s) →
      Copies r l l' → Come p q a s l'
  | kept {r s : Point} {l : Location} : Come p q a r l → r.next = .ok (some s) →
      (∀ l', ¬Copies r l' l) → Come p q a s l

/-- **A block is tracked** that was stored to the slot: it has a new element in `mallocs`, and a
free of the value loaded from the slot clears that element and no other. -/
structure Tracked (d d' : Detector) (b : PointerSlot) : Prop where
  element : ∃ i, d'.mallocs = d.mallocs ++ [some i]
  freed : ∀ p, p.d = d' → AtFree p b → ∃ q, p.next = .ok (some q) ∧
    q.d.mallocs = d.mallocs ++ [none]

/-- **Two slots are tracked separately** on a path: after a block with the number
`mallocs.size()` was stored into the one,

* no free of the value loaded from the other one marks it as freed;
* a block that is stored into the other one is tracked, unless a number is noted there already,
  which is not that of the first one's block. -/
structure Separate (blocks : Blocks) (path : List BasicBlock) (a b : PointerSlot) : Prop where
  frees : ∀ p q r s, Reached blocks path p → AtMalloc p a → p.next = .ok (some q) → Leads q r →
    AtFree r b → r.next = .ok (some s) →
      s.d.mallocs[p.d.mallocs.length]? = r.d.mallocs[p.d.mallocs.length]?
  mallocs : ∀ p q r s, Reached blocks path p → AtMalloc p a → p.next = .ok (some q) →
    Leads q r → AtMalloc r b → r.next = .ok (some s) →
      (∃ n, n ≠ p.d.mallocs.length ∧ r.d.numberAt b.key = some n) ∨ Tracked r.d s.d b

variable {blocks : Blocks} {path : List BasicBlock} {p q r : Point} {a b : PointerSlot}

theorem AtMalloc.next_d (h : AtMalloc p a) (hnext : p.next = .ok (some q)) :
    ∃ i, q.d = p.d.mallocAt i a.key := by
  obtain ⟨id, name, args, rest, hrest, hstore⟩ := h
  obtain ⟨before, hvisit, -⟩ := Point.exists_visit hnext hrest
  rw [visit_malloc_store hstore a.key_address] at hvisit
  obtain ⟨d, hd, heq⟩ := bind_eq_ok.mp hvisit
  obtain ⟨rfl, -⟩ := Prod.mk.inj (Except.ok.inj heq)
  exact ⟨_, (store?_eq_ok.mp hd).2⟩

theorem AtFree.next_eq (h : AtFree p a) : ∃ before rest, p.next =
    p.d.freeId (p.d.numberAt a.key) >>= fun d =>
      .ok (some { p with d := d, before := before, rest := rest }) := by
  obtain ⟨id, id', name, rest, hrest, hload⟩ := h
  refine ⟨.call id (some "free") [.result id' name] :: (a.address.spliced ++ p.before), rest, ?_⟩
  simp only [Point.next, hrest, visit_call_free, visitFree_load hload a.key_address]
  cases p.d.freeId (p.d.numberAt a.key) <;> rfl

theorem AtFree.next_d (h : AtFree p a) (hnext : p.next = .ok (some q)) :
    p.d.freeId (p.d.numberAt a.key) = .ok q.d := by
  obtain ⟨before, rest, heq⟩ := h.next_eq
  obtain ⟨d, hd, hq⟩ := bind_eq_ok.mp (heq.symm.trans hnext)
  obtain rfl := Option.some.inj (Except.ok.inj hq)
  exact hd

/-! ### Where a number comes from -/

section Visit

variable {i : Instruction} {before before' rest : List Instruction} {d d' : Detector}
  {id : ℕ} {name src dst : String} {args : List Value}

/-- What is noted after a load. -/
theorem visitLoad_numberAt {pointer value target : Value}
    (hstore : adjacent rest = some (.store value target)) (l : Location) :
    (visitLoad pointer rest d).numberAt l =
      if l = .var target.getName then (d.malloc_vars pointer.getName).or (d.numberAt l)
      else d.numberAt l := by
  cases hn : d.malloc_vars pointer.getName with
  | none => simp [visitLoad, hstore, hn]
  | some n =>
    cases l with
    | var v => simp [visitLoad, hstore, hn, numberAt, Function.update_apply]
    | field x k => simp [visitLoad, hstore, hn, numberAt, fieldId]

theorem visitLoad_of_ne {pointer : Value}
    (hstore : ∀ value target, adjacent rest ≠ some (.store value target)) :
    visitLoad pointer rest d = d := by
  unfold visitLoad
  split
  · rename_i value target hadj
    exact absurd hadj (hstore value target)
  · rfl

/-- **A call of `memcpy`** between two structures. -/
theorem memcpyCall_of_between (hcopy : MemcpyBetween name args src dst) :
    memcpyCall name args d = .ok
      { d with
        malloc_structs :=
          Function.update (Function.update d.malloc_structs src (some (d.structMap src))) dst
            (some (d.structMap src)) } := by
  obtain ⟨hname, lhs, rhs, l, r, hlhs, hrhs, hl, hr, rfl, rfl⟩ := hcopy
  simp only [memcpyCall, hname, if_true, visitMemcpy, hlhs, hrhs, hl, hr, ok_bind]

/-- What is noted after it. -/
theorem memcpyCall_fieldId (hcopy : MemcpyBetween name args src dst)
    (h : memcpyCall name args d = .ok d') (x : String) (k : BitVec 32) :
    d'.fieldId x k = d.fieldId (if x = dst then src else x) k := by
  rw [memcpyCall_of_between hcopy] at h
  obtain rfl := Except.ok.inj h
  by_cases hdst : x = dst
  · simp [fieldId, hdst, Notes.structMap_apply]
  · rcases eq_or_ne x src with rfl | hsrc
    · simp [fieldId, hdst, Notes.structMap_apply]
    · simp [fieldId, hdst, hsrc]

/-- It changes nothing that is noted for variables. -/
theorem memcpyCall_malloc_vars (h : memcpyCall name args d = .ok d') :
    d'.malloc_vars = d.malloc_vars := by
  obtain ⟨m, rfl⟩ := memcpyCall_eq_ok h
  rfl

/-- And another call nothing at all, when it is looked at for one of `memcpy`. -/
theorem memcpyCall_cases (h : memcpyCall name args d = .ok d') :
    d' = d ∨ ∃ src dst, MemcpyBetween name args src dst := by
  unfold memcpyCall at h
  split at h
  · rename_i hname
    obtain ⟨lhs, hlhs, h⟩ := bind_eq_ok.mp h
    obtain ⟨rhs, hrhs, h⟩ := bind_eq_ok.mp h
    split at h
    · obtain ⟨l, hl, h⟩ := bind_eq_ok.mp h
      obtain ⟨r, hr, -⟩ := bind_eq_ok.mp h
      exact .inr ⟨r.getName, l.getName, hname, _, _, l, r, hlhs, hrhs, hl, hr, rfl, rfl⟩
    · exact .inl (Except.ok.inj h).symm
  · exact .inl (Except.ok.inj h).symm

/-- **A call of `malloc` notes the next number**, where there is none. -/
theorem mallocCall_numberAt (h : mallocCall name i before rest d = .ok (d', before'))
    (l : Location) : d'.numberAt l = d.numberAt l ∨
      d.numberAt l = none ∧ d'.numberAt l = some d.malloc_id := by
  unfold mallocCall at h
  split at h
  · have hd := visitMalloc_eq_ok h
    cases hstored : storedTo (adjacent rest) with
    | none =>
      rw [hstored] at hd
      obtain rfl := Except.ok.inj hd
      exact .inl rfl
    | some x =>
      rw [hstored] at hd
      obtain ⟨-, rfl⟩ := store?_eq_ok.mp hd
      rw [mallocAt_numberAt]
      split
      · rename_i heq
        subst heq
        cases hn : d.numberAt l with
        | none => exact .inr ⟨rfl, rfl⟩
        | some n => exact .inl rfl
      · exact .inl rfl
  · obtain ⟨rfl, -⟩ := Prod.mk.inj (Except.ok.inj h)
    exact .inl rfl

/-- And one of `free` none. -/
theorem freeCall_numberAt (h : freeCall name before d = .ok (d', before')) (l : Location) :
    d'.numberAt l = d.numberAt l := by
  unfold freeCall at h
  split at h
  · rw [freeId_eq_ok (visitFree_eq_ok h)]
    cases l <;> rfl
  · obtain ⟨rfl, -⟩ := Prod.mk.inj (Except.ok.inj h)
    rfl

end Visit

/-- **What a call does to the numbers** after it was looked at for one of `memcpy`: nothing to
those of the blocks there are. -/
theorem Point.numberAt_next_call {id : ℕ} {name : String} {args : List Value}
    {rest : List Instruction} (hnext : p.next = .ok (some q))
    (hrest : p.rest = .call id (some name) args :: rest) : ∃ d, memcpyCall name args p.d = .ok d ∧
      ∀ n < p.d.malloc_id, ∀ l, q.d.numberAt l = some n ↔ d.numberAt l = some n := by
  obtain ⟨before, hvisit, -⟩ := Point.exists_visit hnext hrest
  obtain ⟨d₁, hmemcpy, h⟩ := bind_eq_ok.mp hvisit
  obtain ⟨⟨d₂, before₂⟩, hmalloc, hfree⟩ := bind_eq_ok.mp h
  have hfree : freeCall name before₂ d₂ = .ok (q.d, before) := hfree
  have hid : d₁.malloc_id = p.d.malloc_id := by
    obtain ⟨m, rfl⟩ := memcpyCall_eq_ok hmemcpy
    rfl
  refine ⟨d₁, hmemcpy, fun n hlt l => ?_⟩
  rw [freeCall_numberAt hfree]
  rcases mallocCall_numberAt hmalloc l with heq | ⟨hnone, hnew⟩
  · rw [heq]
  -- the number of a new block is a greater one
  · rw [hnew, hnone, hid]
    simpa using hlt.ne'

/-- **A copy** puts the number there. -/
theorem Copies.numberAt_next {src l : Location} {n : ℕ} (h : Copies p src l)
    (hnext : p.next = .ok (some q)) (hlt : n < p.d.malloc_id) :
    q.d.numberAt l = some n ↔ p.d.numberAt src = some n := by
  cases h with
  | @load id pointer value target rest hrest hstore hsome =>
    obtain ⟨before, hvisit, -⟩ := Point.exists_visit hnext hrest
    obtain ⟨hq, -⟩ := Prod.mk.inj (Except.ok.inj hvisit)
    obtain ⟨m, hm⟩ := Option.isSome_iff_exists.mp hsome
    rw [← hq, visitLoad_numberAt hstore, if_pos rfl, hm, Option.some_or, numberAt, hm]
  | @memcpy id name args rest src dst k hrest hcopy =>
    obtain ⟨d, hmemcpy, hcall⟩ := Point.numberAt_next_call hnext hrest
    rw [hcall n hlt, numberAt, memcpyCall_fieldId hcopy hmemcpy, if_pos rfl, numberAt]

/-- **What is not copied there** stays. -/
theorem Point.numberAt_next {l : Location} {n : ℕ} (hnext : p.next = .ok (some q))
    (hnot : ∀ src, ¬Copies p src l) (hlt : n < p.d.malloc_id) :
    q.d.numberAt l = some n ↔ p.d.numberAt l = some n := by
  rcases Point.next_cases hnext with ⟨i, rest, d, before, hrest, hvisit, rfl⟩ |
    ⟨bb, path, -, -, rfl⟩
  · cases i with
    | load id pointer =>
      obtain ⟨rfl, -⟩ := Prod.mk.inj (Except.ok.inj hvisit)
      by_cases hstore : ∃ value target, adjacent rest = some (.store value target)
      · obtain ⟨value, target, hstore⟩ := hstore
        simp only [visitLoad_numberAt hstore]
        split
        · rename_i heq
          subst heq
          have hnone : p.d.malloc_vars pointer.getName = none := by
            rw [← Option.not_isSome_iff_eq_none]
            exact fun hsome => hnot _ (.load hrest hstore hsome)
          rw [hnone, Option.none_or]
        · rfl
      · simp only [visitLoad_of_ne fun value target hadj => hstore ⟨value, target, hadj⟩]
    | call id callee args =>
      rcases callee with _ | name
      · cases hvisit
      obtain ⟨d₁, hmemcpy, hcall⟩ := Point.numberAt_next_call hnext hrest
      rw [hcall n hlt]
      rcases memcpyCall_cases hmemcpy with rfl | ⟨src, dst, hcopy⟩
      · rfl
      cases l with
      | var v => rw [numberAt, memcpyCall_malloc_vars hmemcpy, numberAt]
      | field x k =>
        have hx : x ≠ dst := by
          rintro rfl
          exact hnot _ (.memcpy k hrest hcopy)
        rw [numberAt, memcpyCall_fieldId hcopy hmemcpy, if_neg hx, numberAt]
    | _ =>
      obtain ⟨rfl, -⟩ := Prod.mk.inj (Except.ok.inj hvisit)
      rfl
  · rfl

/-! ### When slots are tracked separately -/

/-- After a block was stored into a slot, it is noted for no other location than that, if for
any. -/
theorem AtMalloc.numberAt_next (hmalloc : AtMalloc p a) (hp : p.d.InRange)
    (hnext : p.next = .ok (some q)) (l : Location) :
    q.d.numberAt l = some p.d.mallocs.length ↔ l = a.key ∧ p.d.numberAt a.key = none := by
  obtain ⟨i, hd⟩ := hmalloc.next_d hnext
  rw [hd, mallocAt_numberAt, ← hp.malloc_id]
  constructor
  · intro hn
    split at hn
    · rename_i heq
      cases hold : p.d.numberAt a.key with
      | none => exact ⟨heq, rfl⟩
      | some m =>
        obtain rfl : m = p.d.malloc_id := by simpa [hold] using hn
        exact absurd (hp.numbers _ _ hold) (by simp [hp.malloc_id])
    · exact absurd (hp.numbers l _ hn) (by simp [hp.malloc_id])
  · rintro ⟨rfl, hnone⟩
    simp [hnone]

/-- **When a block is tracked.** -/
theorem AtMalloc.tracked (hmalloc : AtMalloc p a) (hp : p.d.InRange)
    (hnext : p.next = .ok (some q)) (hnone : p.d.numberAt a.key = none) : Tracked p.d q.d a := by
  have hn := (hmalloc.numberAt_next hp hnext a.key).mpr ⟨rfl, hnone⟩
  obtain ⟨i, hd⟩ := hmalloc.next_d hnext
  have hmallocs : q.d.mallocs = p.d.mallocs ++ [some i] := hd ▸ mallocAt_mallocs
  refine ⟨⟨i, hmallocs⟩, fun r hr hfree => ?_⟩
  obtain ⟨before, rest, heq⟩ := hfree.next_eq
  rw [hr, hn, freeId, hmallocs, if_pos (by simp)] at heq
  exact ⟨_, heq, by simp⟩

/-- From then on the block is one of those there are. -/
theorem AtMalloc.lt (hmalloc : AtMalloc p a) (hp : p.d.InRange) (hnext : p.next = .ok (some q))
    (hr : Leads q r) : p.d.mallocs.length < r.d.malloc_id := by
  obtain ⟨i, hd⟩ := hmalloc.next_d hnext
  refine lt_of_lt_of_le ?_ (Leads.malloc_id_le hr)
  simp [hd, hp.malloc_id]

/-- **Where a block has come it is noted**, and nowhere else. -/
theorem come_iff (hmalloc : AtMalloc p a) (hp : p.d.InRange) (hnext : p.next = .ok (some q))
    (hr : Leads q r) (l : Location) :
    Come p q a r l ↔ r.d.numberAt l = some p.d.mallocs.length := by
  have hlt : ∀ {r}, Leads q r → p.d.mallocs.length < r.d.malloc_id := fun hr =>
    hmalloc.lt hp hnext hr
  constructor
  · intro hcome
    have hboth : Leads q r ∧ r.d.numberAt l = some p.d.mallocs.length := by
      clear hr
      induction hcome with
      | stored hnone => exact ⟨.refl, (hmalloc.numberAt_next hp hnext _).mpr ⟨rfl, hnone⟩⟩
      | copied _ hstep hcopies ih =>
        exact ⟨ih.1.next hstep, (hcopies.numberAt_next hstep (hlt ih.1)).mpr ih.2⟩
      | kept _ hstep hnot ih =>
        exact ⟨ih.1.next hstep, (Point.numberAt_next hstep hnot (hlt ih.1)).mpr ih.2⟩
    exact hboth.2
  · intro hn
    induction hr generalizing l with
    | refl =>
      obtain ⟨rfl, hnone⟩ := (hmalloc.numberAt_next hp hnext l).mp hn
      exact .stored hnone
    | @tail r s hr hstep ih =>
      by_cases hcopied : ∃ src, Copies r src l
      · obtain ⟨src, hcopies⟩ := hcopied
        exact .copied (ih src ((hcopies.numberAt_next hstep (hlt hr)).mp hn)) hstep hcopies
      · rw [not_exists] at hcopied
        exact .kept (ih l ((Point.numberAt_next hstep hcopied (hlt hr)).mp hn)) hstep hcopied

/-- **When a free marks a block.** -/
theorem AtFree.mallocs_next (hfree : AtFree r b) (hnext : r.next = .ok (some q)) {n : ℕ}
    (hlt : n < r.d.mallocs.length) : q.d.mallocs[n]? = r.d.mallocs[n]? ↔
      r.d.mallocs[n]? = some none ∨ r.d.numberAt b.key ≠ some n := by
  rw [freeId_eq_ok (hfree.next_d hnext)]
  cases hn : r.d.numberAt b.key with
  | none => simp
  | some m =>
    rcases eq_or_ne m n with rfl | hne
    · simp [hlt, eq_comm]
    · simp [hne]

/-- A block is not tracked where the number of another one is noted. -/
theorem AtMalloc.not_tracked (hmalloc : AtMalloc r b) (hr : r.d.InRange)
    (hnext : r.next = .ok (some q)) {n : ℕ} (hn : r.d.numberAt b.key = some n) :
    ¬Tracked r.d q.d b := by
  intro htracked
  obtain ⟨i, hd⟩ := hmalloc.next_d hnext
  -- the value loaded from there is freed next
  let p : Point :=
    ⟨q.d, [.load 0 b.address], [.call 1 (some "free") [.result 0 ""]], none, q.blocks, []⟩
  have hfree : AtFree p b := ⟨1, 0, "", [], rfl, rfl⟩
  obtain ⟨s, hs, hmallocs⟩ := htracked.freed p rfl hfree
  have hnumber : p.d.numberAt b.key = some n := by
    rw [show p.d = r.d.mallocAt i b.key from hd, mallocAt_numberAt, if_pos rfl, hn]
    rfl
  rw [freeId_eq_ok (hfree.next_d hs), hnumber] at hmallocs
  have hlast := congrArg (fun l => l[r.d.mallocs.length]?) hmallocs
  have hlt := hr.numbers _ _ hn
  simp [p, hd, hlt.ne] at hlast

/-- **When two slots are tracked separately** on a path: exactly if the block of the one has not
come to what the other is taken for, neither when the value loaded from there is freed, unless
the block is marked already, nor when another block is stored there. -/
theorem separate_iff : Separate blocks path a b ↔
    ∀ p q r s, Reached blocks path p → AtMalloc p a → p.next = .ok (some q) → Leads q r →
      r.next = .ok (some s) → Come p q a r b.key →
        (AtFree r b → r.d.mallocs[p.d.mallocs.length]? = some none) ∧ ¬AtMalloc r b := by
  constructor
  · intro h p q r s hp hmalloc hnext hr hstep hcome
    have hreached : Reached blocks path r := (hp.next hnext).trans hr
    have hlt := hmalloc.lt hp.inRange hnext hr
    rw [hreached.inRange.malloc_id] at hlt
    rw [come_iff hmalloc hp.inRange hnext hr] at hcome
    constructor
    · intro hfree
      have hsame := h.frees p q r s hp hmalloc hnext hr hfree hstep
      exact ((hfree.mallocs_next hstep hlt).mp hsame).resolve_right (not_not_intro hcome)
    · intro hmalloc'
      rcases h.mallocs p q r s hp hmalloc hnext hr hmalloc' hstep with ⟨n, hne, hn⟩ | htracked
      · exact hne (Option.some.inj (hn.symm.trans hcome))
      · exact hmalloc'.not_tracked hreached.inRange hstep hcome htracked
  · intro h
    refine ⟨?_, ?_⟩
    · intro p q r s hp hmalloc hnext hr hfree hstep
      have hreached : Reached blocks path r := (hp.next hnext).trans hr
      have hlt := hmalloc.lt hp.inRange hnext hr
      rw [hreached.inRange.malloc_id] at hlt
      refine (hfree.mallocs_next hstep hlt).mpr ?_
      by_cases hcome : Come p q a r b.key
      · exact .inl ((h p q r s hp hmalloc hnext hr hstep hcome).1 hfree)
      · exact .inr fun hn => hcome ((come_iff hmalloc hp.inRange hnext hr _).mpr hn)
    · intro p q r s hp hmalloc hnext hr hmalloc' hstep
      have hreached : Reached blocks path r := (hp.next hnext).trans hr
      cases hn : r.d.numberAt b.key with
      | none => exact .inr (hmalloc'.tracked hreached.inRange hstep hn)
      | some n =>
        refine .inl ⟨n, ?_, rfl⟩
        rintro rfl
        have hcome := (come_iff hmalloc hp.inRange hnext hr _).mpr hn
        exact (h p q r s hp hmalloc hnext hr hstep hcome).2 hmalloc'

/-- `int *a, *b; a = malloc(10); free(b);`, where neither variable has a name. -/
def mallocThenFree : Blocks := fun _ =>
  [.call 2 (some "malloc") [.constantInt 10], .store (.result 2 "") (.result 0 ""),
    .load 3 (.result 1 ""), .call 4 (some "free") [.result 3 ""], .terminator []]

/-- **One slot is freed and the block of the other one marked**, when neither has a name. -/
theorem not_separate : ¬∀ blocks path (a b : PointerSlot), a ≠ b → Separate blocks path a b := by
  intro h
  have hmalloc : Reached mallocThenFree [0] _ := Reached.start.next rfl
  have hmarked := (h mallocThenFree [0] (.alloca 0 "") (.alloca 1 "") (by decide)).frees
    _ _ _ _ hmalloc ⟨_, _, _, _, rfl, rfl⟩ rfl (.head rfl (.head rfl .refl))
    ⟨_, _, _, _, rfl, rfl⟩ rfl
  cases hmarked

end DepLeak

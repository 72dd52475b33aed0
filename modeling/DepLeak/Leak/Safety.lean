import DepLeak.Leak.Counted

/-!
# Operands that are missing

The detector asks a call for its callee, the call of `malloc` for the instruction after it,
the call of `free` for the one before it, and a `getelementptr` for its third operand, and
looks at none of them for whether it is there. The analysis of a path of verified blocks ends
exactly if no block on it has one of the calls that make it stop, and it can count what is
allocated (`DepLeak.VerifiedPath.safe_iff`): what earlier visits have put into a block does no
harm (`DepLeak.visitBlock_harmless`).
-/

namespace DepLeak

open Runs Detector

/-! ### One instruction -/

/-- **An instruction does no harm**, given those next to it, but that it may be one too many to
count. -/
def Harmless (prev next : Option Instruction) : Instruction → Prop
  | .call _ none _ => False
  | .call _ (some name) args =>
    (finds name "llvm.memcpy.p0i8.p0i8.i64" → ∃ lhs rhs,
      (args ++ [.global name])[0]? = some lhs ∧ (args ++ [.global name])[1]? = some rhs ∧
      ∀ l r, lhs = .constantExpr .bitCast l → rhs = .constantExpr .bitCast r → l ≠ [] ∧ r ≠ []) ∧
    (finds name "malloc" → ∃ j, next = some j ∧ ∀ value operands,
      j = .store value (.constantExpr .getElementPtr operands) → 2 < operands.length) ∧
    (finds name "free" →
      (finds name "malloc" ∧ ∃ value opcode operands,
        next = some (.store value (.constantExpr opcode operands))) ∨
      ∃ j, prev = some j ∧ ∀ id operands,
        j = .load id (.constantExpr .getElementPtr operands) → 2 < operands.length)
  | _ => True

section Visit

variable {i : Instruction} {before before' rest : List Instruction} {d d' : Detector}

theorem getOperand_eq_ok {operands : List Value} {n : ℕ} {v : Value} :
    getOperand operands n = .ok v ↔ operands[n]? = some v := by
  unfold getOperand
  split
  · rename_i w hw
    simp [hw]
  · rename_i hnone
    simp [hnone]

theorem exists_getOperand {operands : List Value} {n : ℕ} :
    (∃ v, getOperand operands n = .ok v) ↔ n < operands.length := by
  simp only [getOperand_eq_ok, List.getElem?_eq_some_iff]
  exact ⟨fun ⟨_, h, _⟩ => h, fun h => ⟨_, h, rfl⟩⟩

/-- An address can be taken apart unless it is a `getelementptr` with a single index. -/
theorem exists_gepField {opcode : Opcode} {operands : List Value} :
    (∃ field, gepField opcode operands = .ok field) ↔
      (opcode = .getElementPtr → 2 < operands.length) := by
  cases opcode with
  | getElementPtr =>
    rw [← exists_getOperand]
    constructor
    · rintro ⟨field, h⟩ -
      obtain ⟨var, -, h⟩ := bind_eq_ok.mp h
      obtain ⟨index, hindex, -⟩ := bind_eq_ok.mp h
      exact ⟨index, hindex⟩
    · intro h
      obtain ⟨index, hindex⟩ := h rfl
      have hlt := exists_getOperand.mp ⟨index, hindex⟩
      obtain ⟨var, hvar⟩ := exists_getOperand.mpr (show 0 < operands.length by omega)
      simp only [gepField, hvar, hindex, ok_bind]
      cases index <;> exact ⟨_, rfl⟩
  | bitCast => exact iff_of_true ⟨none, rfl⟩ (by simp)
  | other => exact iff_of_true ⟨none, rfl⟩ (by simp)

theorem visitMemcpy_ok_iff {operands : List Value} : (∃ d', visitMemcpy operands d = .ok d') ↔
    ∃ lhs rhs, operands[0]? = some lhs ∧ operands[1]? = some rhs ∧
      ∀ l r, lhs = .constantExpr .bitCast l → rhs = .constantExpr .bitCast r → l ≠ [] ∧ r ≠ [] := by
  have hfirst : ∀ {l : List Value}, l ≠ [] ↔ ∃ v, getOperand l 0 = .ok v := by
    intro l
    rw [exists_getOperand, List.length_pos_iff]
  constructor
  · rintro ⟨d', h⟩
    obtain ⟨lhs, hlhs, h⟩ := bind_eq_ok.mp h
    obtain ⟨rhs, hrhs, h⟩ := bind_eq_ok.mp h
    refine ⟨lhs, rhs, getOperand_eq_ok.mp hlhs, getOperand_eq_ok.mp hrhs, ?_⟩
    rintro l r rfl rfl
    obtain ⟨lhsOp, hl, h⟩ := bind_eq_ok.mp h
    obtain ⟨rhsOp, hr, -⟩ := bind_eq_ok.mp h
    exact ⟨hfirst.mpr ⟨lhsOp, hl⟩, hfirst.mpr ⟨rhsOp, hr⟩⟩
  · rintro ⟨lhs, rhs, hlhs, hrhs, h⟩
    rw [visitMemcpy, getOperand_eq_ok.mpr hlhs, getOperand_eq_ok.mpr hrhs, ok_bind, ok_bind]
    split
    · rename_i l r
      obtain ⟨hl, hr⟩ := h l r rfl rfl
      obtain ⟨lhsOp, hl⟩ := hfirst.mp hl
      obtain ⟨rhsOp, hr⟩ := hfirst.mp hr
      exact ⟨_, by rw [hl, hr]; rfl⟩
    · exact ⟨d, rfl⟩

/-- The same of any address. -/
theorem exists_locate {v : Value} : (∃ l, v.locate = .ok l) ↔
    ∀ operands, v = .constantExpr .getElementPtr operands → 2 < operands.length := by
  cases v with
  | constantExpr opcode operands =>
    have hfield : (∃ l, (Value.constantExpr opcode operands).locate = .ok l) ↔
        ∃ field, gepField opcode operands = .ok field := by
      rw [Value.locate]
      cases gepField opcode operands <;> simp [Except.map]
    rw [hfield, exists_gepField]
    constructor
    · intro h operands' heq
      obtain ⟨hop, rfl⟩ := Value.constantExpr.inj heq
      exact h hop
    · exact fun h hop => h operands (by rw [hop])
  | _ => exact iff_of_true ⟨_, rfl⟩ fun operands heq => by cases heq

/-- A block that is stored is one too many, or not. -/
theorem exists_store? (hd : d.InRange) {l : Option Location} :
    (∃ d', d.store? i l = .ok d') ↔ d.malloc_id + l.isSome.toNat < 2 ^ 31 := by
  cases l with
  | none => exact iff_of_true ⟨d, rfl⟩ hd.lt
  | some l =>
    constructor
    · rintro ⟨d', h⟩
      exact (store?_eq_ok.mp h).1
    · exact fun h => ⟨_, store?_of_lt h⟩

theorem visitMalloc_ok_iff (hd : d.InRange) : (∃ r, visitMalloc i before rest d = .ok r) ↔
    (∃ j, adjacent rest = some j ∧ ∀ value operands,
      j = .store value (.constantExpr .getElementPtr operands) → 2 < operands.length) ∧
    d.malloc_id + (storedTo (adjacent rest)).isSome.toNat < 2 ^ 31 := by
  cases hadj : adjacent rest with
  | none => simp [visitMalloc, hadj, storePointer?]
  | some j =>
    rcases j.store_or_ne with ⟨value, pointer, rfl⟩ | hne
    · have hlocate : (∃ r, visitMalloc i before rest d = .ok r) ↔
          (∃ l, pointer.locate = .ok l) ∧ d.malloc_id + pointer.key.isSome.toNat < 2 ^ 31 := by
        rw [visitMalloc_eq hadj]
        cases hl : pointer.locate with
        | error c => simp
        | ok l =>
          rw [Value.key_of_locate hl, and_iff_right ⟨l, rfl⟩, ← exists_store? hd (i := i), ok_bind]
          cases d.store? i l <;> simp
      rw [hlocate, exists_locate, storedTo]
      refine and_congr_left fun _ => ?_
      constructor
      · exact fun h => ⟨_, rfl, fun value' operands heq =>
          h operands (Instruction.store.inj heq).2⟩
      · rintro ⟨j, hj, h⟩ operands rfl
        exact h value operands (Option.some.inj hj).symm
    · refine iff_of_true ⟨_, visitMalloc_skip hadj hne⟩
        ⟨⟨j, rfl, fun value operands heq => absurd heq (hne _ _)⟩, ?_⟩
      rw [storedTo_of_ne hne]
      exact hd.lt

/-- `mallocs[id] = NULL` is in range. -/
theorem Detector.InRange.freeId (hd : d.InRange) (l : Location) :
    ∃ d', d.freeId (d.numberAt l) = .ok d' := by
  cases hn : d.numberAt l with
  | none => exact ⟨d, rfl⟩
  | some n => exact ⟨_, if_pos (hd.numbers l n hn)⟩

theorem visitFree_ok_iff (hd : d.InRange) : (∃ r, visitFree before d = .ok r) ↔
    ∃ j, adjacent before = some j ∧ ∀ id operands,
      j = .load id (.constantExpr .getElementPtr operands) → 2 < operands.length := by
  cases hadj : adjacent before with
  | none => simp [visitFree, hadj, loadPointer?]
  | some j =>
    rcases j.load_or_ne with ⟨id, pointer, rfl⟩ | hne
    · have hlocate : (∃ r, visitFree before d = .ok r) ↔ ∃ l, pointer.locate = .ok l := by
        rw [visitFree_eq hadj]
        constructor
        · rintro ⟨r, h⟩
          obtain ⟨l, hl, -⟩ := bind_eq_ok.mp h
          exact ⟨l, hl⟩
        · rintro ⟨l, hl⟩
          rw [hl, ok_bind]
          cases l with
          | none => exact ⟨_, rfl⟩
          | some l =>
            obtain ⟨d', hd'⟩ := hd.freeId l
            exact ⟨_, by rw [Option.bind_some, hd', ok_bind]⟩
      rw [hlocate, exists_locate]
      constructor
      · exact fun h => ⟨_, rfl, fun id' operands heq =>
          h operands (Instruction.load.inj heq).2⟩
      · rintro ⟨j, hj, h⟩ operands rfl
        exact h id operands (Option.some.inj hj).symm
    · exact iff_of_true ⟨_, visitFree_skip hadj hne⟩
        ⟨j, rfl, fun id operands heq => absurd heq (hne _ _)⟩

/-- **When an instruction is gone over**: exactly if it does no harm, and is not one too many
to count. -/
theorem visit_ok_iff (hd : d.InRange) : (∃ r, visit i before rest d = .ok r) ↔
    Harmless (adjacent before) (adjacent rest) i ∧
      d.malloc_id + (i.counts (adjacent rest)).toNat < 2 ^ 31 := by
  cases i with
  | call id callee args =>
    rcases callee with _ | name
    · simp [visit, Harmless]
    have hmemcpy : (∃ d', memcpyCall name args d = .ok d') ↔
        (finds name "llvm.memcpy.p0i8.p0i8.i64" →
          ∃ d', visitMemcpy (args ++ [.global name]) d = .ok d') := by
      unfold memcpyCall
      split <;> simp_all
    have hmalloc : ∀ d₁, (∃ r, mallocCall name (.call id (some name) args) before rest d₁ = .ok r) ↔
        (finds name "malloc" →
          ∃ r, visitMalloc (.call id (some name) args) before rest d₁ = .ok r) := by
      intro d₁
      unfold mallocCall
      split <;> simp_all
    have hfree : ∀ before₂ d₂, (∃ r, freeCall name before₂ d₂ = .ok r) ↔
        (finds name "free" → ∃ r, visitFree before₂ d₂ = .ok r) := by
      intro before₂ d₂
      unfold freeCall
      split <;> simp_all
    let i : Instruction := .call id (some name) args
    have hrange₁ : ∀ {d₁}, memcpyCall name args d = .ok d₁ → d₁.InRange := by
      intro d₁ h₁
      have heffects : Relation.ReflTransGen (Effect i before rest) d d₁ :=
        memcpyCall_effects rfl h₁
      exact effects_inRange heffects hd
    have hrange₂ : ∀ {d₁ d₂ before₂}, d₁.InRange →
        mallocCall name i before rest d₁ = .ok (d₂, before₂) → d₂.InRange := by
      intro d₁ d₂ before₂ hd₁ h₂
      have heffects : Relation.ReflTransGen (Effect i before rest) d₁ d₂ :=
        mallocCall_effects rfl h₂
      exact effects_inRange heffects hd₁
    constructor
    · rintro ⟨⟨d', before'⟩, h⟩
      refine ⟨?_, (visit_malloc_id h).symm ▸ (visit_inRange h hd).lt⟩
      obtain ⟨d₁, h₁, h⟩ := bind_eq_ok.mp h
      obtain ⟨⟨d₂, before₂⟩, h₂, h₃⟩ := bind_eq_ok.mp h
      have hd₁ := hrange₁ h₁
      have hd₂ := hrange₂ hd₁ h₂
      refine ⟨fun hname => visitMemcpy_ok_iff.mp (hmemcpy.mp ⟨d₁, h₁⟩ hname),
        fun hname => ((visitMalloc_ok_iff hd₁).mp ((hmalloc d₁).mp ⟨_, h₂⟩ hname)).1,
        fun hname => ?_⟩
      have hvisit := (hfree before₂ d₂).mp ⟨_, h₃⟩ hname
      rcases ite_before visitMalloc_before h₂ with ⟨-, rfl⟩ | ⟨hsplice, -⟩
      · exact .inr ((visitFree_ok_iff hd₂).mp hvisit)
      · exact .inl hsplice
    · rintro ⟨⟨hharm₁, hharm₂, hharm₃⟩, hcount⟩
      obtain ⟨d₁, h₁⟩ := hmemcpy.mpr fun hname => visitMemcpy_ok_iff.mpr (hharm₁ hname)
      have hd₁ := hrange₁ h₁
      obtain ⟨⟨d₂, before₂⟩, h₂⟩ := (hmalloc d₁).mpr fun hname => by
        refine (visitMalloc_ok_iff hd₁).mpr ⟨hharm₂ hname, ?_⟩
        obtain ⟨m, rfl⟩ := memcpyCall_eq_ok h₁
        rwa [← Bool.true_and (storedTo _).isSome, ← hname]
      have hd₂ := hrange₂ hd₁ h₂
      obtain ⟨r, h₃⟩ := (hfree before₂ d₂).mpr fun hname => by
        rw [visitFree_ok_iff hd₂]
        rcases ite_before visitMalloc_before h₂ with ⟨hnot, rfl⟩ | ⟨-, opcode, operands, rfl⟩
        · exact (hharm₃ hname).resolve_left hnot
        -- what the call has put before itself is no load
        · exact ⟨.expression opcode operands, rfl, fun _ _ heq => by cases heq⟩
      exact ⟨r, bind_eq_ok.mpr ⟨d₁, h₁, bind_eq_ok.mpr ⟨(d₂, before₂), h₂, h₃⟩⟩⟩
  | _ => exact iff_of_true ⟨_, rfl⟩ ⟨trivial, hd.lt⟩

end Visit

/-! ### A block -/

/-- No instruction does harm, from here on, when the one before is `prev`. -/
def HarmlessFrom : Option Instruction → List Instruction → Prop
  | _, [] => True
  | prev, i :: rest =>
    Harmless prev (adjacent rest) i ∧ HarmlessFrom (if i.isDebug then prev else some i) rest

section Block

variable {i : Instruction} {before before' rest l l' : List Instruction} {d d' : Detector}
  {prev next : Option Instruction}

/-- What comes before the next instruction does not depend on what was put into the block. -/
theorem adjacent_visit (h : visit i before rest d = .ok (d', before')) :
    adjacent (i :: before') = if i.isDebug then adjacent before else some i := by
  rw [adjacent_cons]
  by_cases hi : i.isDebug
  · obtain ⟨-, rfl⟩ := Prod.mk.inj (Except.ok.inj ((visit_debug hi).symm.trans h))
    rfl
  · rw [if_neg hi, if_neg hi]

theorem visitBlock_inRange (h : visitBlock d before l = .ok (d', l')) (hd : d.InRange) :
    d'.InRange := by
  induction l generalizing d before with
  | nil =>
    obtain ⟨rfl, -⟩ := Prod.mk.inj (Except.ok.inj h)
    exact hd
  | cons i rest ih =>
    obtain ⟨⟨d₁, before₁⟩, hvisit, h⟩ := bind_eq_ok.mp h
    exact ih h (visit_inRange hvisit hd)

/-- **When a block is gone over.** -/
theorem visitBlock_ok_iff (hd : d.InRange) : (∃ r, visitBlock d before l = .ok r) ↔
    HarmlessFrom (adjacent before) l ∧ d.malloc_id + counted l < 2 ^ 31 := by
  induction l generalizing d before with
  | nil => exact iff_of_true ⟨_, rfl⟩ ⟨trivial, hd.lt⟩
  | cons i rest ih =>
    rw [HarmlessFrom, counted]
    constructor
    · rintro ⟨r, h⟩
      obtain ⟨⟨d₁, before₁⟩, hvisit, h⟩ := bind_eq_ok.mp h
      have hi := (visit_ok_iff hd).mp ⟨_, hvisit⟩
      have hrest := (ih (visit_inRange hvisit hd)).mp ⟨r, h⟩
      rw [adjacent_visit hvisit, visit_malloc_id hvisit, Nat.add_assoc] at hrest
      exact ⟨⟨hi.1, hrest.1⟩, hrest.2⟩
    · rintro ⟨⟨hi, hrest⟩, hcount⟩
      have hlt : d.malloc_id + (i.counts (adjacent rest)).toNat < 2 ^ 31 := by omega
      obtain ⟨⟨d₁, before₁⟩, hvisit⟩ := (visit_ok_iff hd).mpr ⟨hi, hlt⟩
      rw [← adjacent_visit hvisit] at hrest
      rw [← Nat.add_assoc, ← visit_malloc_id hvisit] at hcount
      obtain ⟨r, h⟩ := (ih (visit_inRange hvisit hd)).mpr ⟨hrest, hcount⟩
      exact ⟨r, bind_eq_ok.mpr ⟨_, hvisit, h⟩⟩

/-! ### What is put into a block does no harm -/

/-- An instruction that is made of an address. -/
def IsExpression (o : Option Instruction) : Prop :=
  ∃ opcode operands, o = some (.expression opcode operands)

/-- The instruction before is the same, or is made of an address now. -/
def PrevKept (prev prev' : Option Instruction) : Prop := prev' = prev ∨ IsExpression prev'

/-- The instruction after is the same, or was a call and is made of an address now. -/
def NextKept (next next' : Option Instruction) : Prop :=
  next' = next ∨ (∃ id name args, next = some (.call id name args)) ∧ IsExpression next'

/-- **What was put next to an instruction** does not make it do harm. -/
theorem Harmless.kept {prev' next' : Option Instruction} (h : Harmless prev next i)
    (hprev : PrevKept prev prev') (hnext : NextKept next next') : Harmless prev' next' i := by
  cases i with
  | call id callee args =>
    rcases callee with _ | name
    · exact h
    obtain ⟨hmemcpy, hmalloc, hfree⟩ := h
    refine ⟨hmemcpy, fun hname => ?_, fun hname => ?_⟩
    · rcases hnext with rfl | ⟨-, opcode, operands, rfl⟩
      · exact hmalloc hname
      · exact ⟨_, rfl, fun _ _ heq => by cases heq⟩
    · rcases hfree hname with ⟨hm, value, opcode, operands, rfl⟩ | hload
      · rcases hnext with rfl | ⟨⟨_, _, _, hcall⟩, -⟩
        · exact .inl ⟨hm, value, opcode, operands, rfl⟩
        · cases hcall
      · rcases hprev with rfl | ⟨opcode, operands, rfl⟩
        · exact .inr hload
        · exact .inr ⟨_, rfl, fun _ _ heq => by cases heq⟩
  | _ => trivial

/-- Instructions made of addresses do no harm. -/
theorem harmlessFrom_expressions {new : List Instruction}
    (hnew : ∀ j ∈ new, ∃ opcode operands, j = .expression opcode operands) (hne : new ≠ [])
    (h : ∀ prev', IsExpression prev' → HarmlessFrom prev' l) : HarmlessFrom prev (new ++ l) := by
  induction new generalizing prev with
  | nil => exact absurd rfl hne
  | cons j new ih =>
    obtain ⟨opcode, operands, rfl⟩ := hnew j List.mem_cons_self
    refine ⟨trivial, ?_⟩
    rcases eq_or_ne new [] with rfl | hne'
    · exact h _ ⟨opcode, operands, rfl⟩
    · exact ih (fun j hj => hnew j (List.mem_cons_of_mem _ hj)) hne'

theorem adjacent_expressions {new : List Instruction}
    (hnew : ∀ j ∈ new, ∃ opcode operands, j = .expression opcode operands) (hne : new ≠ []) :
    IsExpression (adjacent (new ++ l)) := by
  obtain ⟨j, new, rfl⟩ := List.exists_cons_of_ne_nil hne
  obtain ⟨opcode, operands, rfl⟩ := hnew j List.mem_cons_self
  exact ⟨opcode, operands, rfl⟩

/-- **What is left of a block**: what comes first in it is the same, or was a call and has
an instruction in front of it now. -/
theorem visitBlock_left (h : visitBlock d before l = .ok (d', l')) :
    ∃ left, l' = before.reverse ++ left ∧ NextKept (adjacent l) (adjacent left) := by
  induction l generalizing d before with
  | nil =>
    obtain ⟨-, rfl⟩ := Prod.mk.inj (Except.ok.inj h)
    exact ⟨[], (List.append_nil _).symm, .inl rfl⟩
  | cons i rest ih =>
    obtain ⟨⟨d₁, before₁⟩, hvisit, h⟩ := bind_eq_ok.mp h
    obtain ⟨left, rfl, hnext⟩ := ih h
    obtain ⟨new, rfl, hnew⟩ := visit_new hvisit
    refine ⟨new.reverse ++ i :: left, by simp, ?_⟩
    rcases eq_or_ne new [] with rfl | hne
    · rw [List.reverse_nil, List.nil_append, adjacent_cons, adjacent_cons]
      split
      · exact hnext
      · exact .inl rfl
    · obtain ⟨hcall, hdebug⟩ := visit_new_of_ne hvisit (by simpa using hne)
      obtain ⟨id, name, args, rfl⟩ := hcall
      refine .inr ⟨⟨id, name, args, by rw [adjacent_cons, if_neg hdebug]⟩, ?_⟩
      exact adjacent_expressions (fun j hj => hnew j (List.mem_reverse.mp hj))
        (by simpa using hne)

/-- **A block that did no harm does none as it is left.** -/
theorem visitBlock_harmless (h : visitBlock d before l = .ok (d', l'))
    (hl : HarmlessFrom (adjacent before) l) : ∃ left, l' = before.reverse ++ left ∧
      HarmlessFrom (adjacent before) left := by
  induction l generalizing d before with
  | nil =>
    obtain ⟨-, rfl⟩ := Prod.mk.inj (Except.ok.inj h)
    exact ⟨[], (List.append_nil _).symm, trivial⟩
  | cons i rest ih =>
    obtain ⟨⟨d₁, before₁⟩, hvisit, h⟩ := bind_eq_ok.mp h
    obtain ⟨hi, hrest⟩ := hl
    rw [← adjacent_visit hvisit] at hrest
    obtain ⟨left, rfl, hleft⟩ := ih h hrest
    obtain ⟨left', heq, hnext⟩ := visitBlock_left h
    obtain rfl := List.append_cancel_left heq
    rw [adjacent_visit hvisit] at hleft
    obtain ⟨new, rfl, hnew⟩ := visit_new hvisit
    refine ⟨new.reverse ++ i :: left, by simp, ?_⟩
    rcases eq_or_ne new [] with rfl | hne
    · exact ⟨hi.kept (.inl rfl) hnext, hleft⟩
    · obtain ⟨-, hdebug⟩ := visit_new_of_ne hvisit (by simpa using hne)
      refine harmlessFrom_expressions (fun j hj => hnew j (List.mem_reverse.mp hj))
        (by simpa using hne) fun prev' hprev' => ⟨hi.kept (.inr hprev') hnext, ?_⟩
      -- behind the call it makes no difference
      rw [if_neg hdebug] at hleft ⊢
      exact hleft

end Block

/-! ### A path -/

section Path

variable {blocks : Blocks} {path : List BasicBlock}

/-- A visit of a block that does no harm leaves one that does none, in which as much is
counted. -/
theorem visitAt_harmless {d : Detector} {current : Blocks} {bb : BasicBlock} (hd : d.InRange)
    (h : HarmlessFrom none (current bb)) (hcount : d.malloc_id + counted (current bb) < 2 ^ 31) :
    ∃ d' left, visitAt (d, current) bb = .ok (d', Function.update current bb left) ∧
      d'.InRange ∧ d'.malloc_id = d.malloc_id + counted (current bb) ∧
        HarmlessFrom none left ∧ counted left = counted (current bb) := by
  obtain ⟨⟨d', l⟩, hvisit⟩ : ∃ r, visitBlock d [] (current bb) = .ok r :=
    (visitBlock_ok_iff hd).mpr ⟨h, hcount⟩
  obtain ⟨left, hleft, hharm⟩ := visitBlock_harmless hvisit h
  obtain rfl : l = left := hleft
  obtain ⟨hid, hcounted⟩ := visitBlock_counted hvisit
  exact ⟨d', l, by rw [visitAt, hvisit]; rfl, visitBlock_inRange hvisit hd, hid, hharm, hcounted⟩

theorem run_visitAt_harmless {d : Detector} {current : Blocks} (hd : d.InRange)
    (h : ∀ bb ∈ path, HarmlessFrom none (current bb))
    (hcount : d.malloc_id + countedOn current path < 2 ^ 31) :
    ∃ s, run visitAt (d, current) path = .ok s := by
  induction path generalizing d current with
  | nil => exact ⟨_, rfl⟩
  | cons bb path ih =>
    rw [countedOn, List.map_cons, List.sum_cons, ← countedOn] at hcount
    obtain ⟨d', left, hvisit, hd', hid, hleft, hcounted⟩ :=
      visitAt_harmless hd (h bb List.mem_cons_self) (by omega)
    have hpath : ∀ bb' ∈ path, HarmlessFrom none (Function.update current bb left bb') := by
      intro bb' hbb'
      rcases eq_or_ne bb' bb with rfl | hne
      · rwa [Function.update_self]
      · rw [Function.update_of_ne hne]
        exact h bb' (List.mem_cons_of_mem bb hbb')
    have hsame : countedOn (Function.update current bb left) path = countedOn current path := by
      refine congrArg List.sum (List.map_congr_left fun bb' _ => ?_)
      rcases eq_or_ne bb' bb with rfl | hne
      · rw [Function.update_self, hcounted]
      · rw [Function.update_of_ne hne]
    obtain ⟨s, hs⟩ := ih hd' hpath (by omega)
    exact ⟨s, run_cons_eq_ok.mpr ⟨_, hvisit, hs⟩⟩

/-- A block that does harm does so on its first visit, when it is as it was given. -/
theorem harmless_of_run {d : Detector} {current : Blocks} {s : Detector × Blocks}
    (hd : d.InRange) (hcurrent : ∀ bb, current bb = blocks bb ∨ HarmlessFrom none (blocks bb))
    (h : run visitAt (d, current) path = .ok s) : ∀ bb ∈ path, HarmlessFrom none (blocks bb) := by
  induction path generalizing d current with
  | nil => exact fun bb hbb => absurd hbb List.not_mem_nil
  | cons bb path ih =>
    obtain ⟨s₁, hvisit, h⟩ := run_cons_eq_ok.mp h
    obtain ⟨⟨d₁, l⟩, hl, hs₁⟩ := bind_eq_ok.mp hvisit
    obtain rfl := Except.ok.inj hs₁
    have hbb : HarmlessFrom none (blocks bb) := by
      rcases hcurrent bb with heq | hharm
      · exact heq ▸ ((visitBlock_ok_iff hd).mp ⟨_, hl⟩).1
      · exact hharm
    refine List.forall_mem_cons.mpr ⟨hbb, ih (visitBlock_inRange hl hd) (fun bb' => ?_) h⟩
    rcases eq_or_ne bb' bb with rfl | hne
    · exact .inr hbb
    · rw [Function.update_of_ne hne]
      exact hcurrent bb'

/-- **When the analysis of a path ends**: exactly if no instruction on it does harm, and no more
are counted than an `int` can. -/
theorem memoryLeakDetection_ok_iff : (∃ r, memoryLeakDetection blocks path = .ok r) ↔
    (∀ bb ∈ path, HarmlessFrom none (blocks bb)) ∧ countedOn blocks path < 2 ^ 31 := by
  constructor
  · rintro ⟨r, h⟩
    obtain ⟨⟨d, blocks'⟩, hs, -⟩ := bind_eq_ok.mp h
    refine ⟨harmless_of_run inRange_init (fun bb => .inl rfl) hs, ?_⟩
    obtain ⟨q, hq, hdone, -⟩ := exists_last (p := .start blocks path) hs
    obtain ⟨hrest, hpath⟩ := Point.next_eq_none_iff.mp hdone
    have htally : q.d.malloc_id + counted q.rest + countedOn blocks q.path =
        countedOn blocks path := Reached.counted_add hq
    rw [hrest, hpath] at htally
    exact htally ▸ (Reached.inRange hq).lt
  · rintro ⟨h, hcount⟩
    have hstart : Detector.init.malloc_id + countedOn blocks path < 2 ^ 31 := by
      simpa [Detector.init] using hcount
    obtain ⟨s, hs⟩ := run_visitAt_harmless inRange_init h hstart
    exact ⟨_, by rw [memoryLeakDetection, hs]; rfl⟩

/-- No instruction does harm, place by place. -/
theorem harmlessFrom_iff {before l : List Instruction} : HarmlessFrom (adjacent before) l ↔
    ∀ pre i post, l = pre ++ i :: post →
      Harmless (adjacent (pre.reverse ++ before)) (adjacent post) i := by
  induction l generalizing before with
  | nil => simp [HarmlessFrom]
  | cons j l ih =>
    rw [HarmlessFrom, ← adjacent_cons, ih]
    constructor
    · rintro ⟨hj, hl⟩ pre i post heq
      rcases pre with _ | ⟨k, pre⟩
      · obtain ⟨rfl, rfl⟩ := List.cons.inj heq
        exact hj
      · obtain ⟨rfl, rfl⟩ := List.cons.inj heq
        simpa using hl pre i post rfl
    · intro h
      refine ⟨h [] j l rfl, fun pre i post heq => ?_⟩
      simpa using h (j :: pre) i post (by rw [heq]; rfl)

end Path

/-! ### Verified blocks -/

/-- The operands of an instruction that are values. -/
def Instruction.operands : Instruction → List Value
  | .load _ pointer => [pointer]
  | .store value pointer => [value, pointer]
  | .call _ _ args => args
  | _ => []

/-- A constant expression has the operands that it needs: a `bitcast` one, and a
`getelementptr` at least the pointer. -/
def Value.Valid : Value → Prop
  | .constantExpr .bitCast operands => operands.length = 1
  | .constantExpr .getElementPtr operands => operands ≠ []
  | _ => True

/-- **What the verifier checks of a block**, as far as it matters here. -/
structure Verified (l : List Instruction) : Prop where
  /-- A block ends in its only terminator. -/
  terminated : ∃ init last, l = init ++ [last] ∧ last.isTerminator ∧
    ∀ i ∈ init, !i.isTerminator
  valid : ∀ i ∈ l, ∀ v ∈ i.operands, v.Valid

/-- There is something after whatever does not end its block. -/
theorem Verified.adjacent_ne_none {l pre post : List Instruction} {i : Instruction}
    (h : Verified l) (heq : l = pre ++ i :: post) (hi : ¬i.isTerminator) :
    adjacent post ≠ none := by
  obtain ⟨init, last, hl, hlast, -⟩ := h.terminated
  have hlast' : (pre ++ i :: post).getLast? = some last := by
    rw [← heq, hl, List.getLast?_concat]
  have hmem : last ∈ post := by
    rcases List.eq_nil_or_concat post with rfl | ⟨post', j, rfl⟩
    · rw [List.getLast?_concat] at hlast'
      obtain rfl := Option.some.inj hlast'
      exact absurd hlast hi
    · rw [List.concat_eq_append, ← List.cons_append, ← List.append_assoc,
        List.getLast?_concat] at hlast'
      obtain rfl := Option.some.inj hlast'
      simp
  intro hnone
  have hdebug := List.find?_eq_none.mp hnone last hmem
  cases last <;> simp_all [Instruction.isTerminator, Instruction.isDebug]

/-- **What makes the detector stop** in verified blocks, given the instructions next to it. -/
def Hazard (prev next : Option Instruction) : Instruction → Prop
  -- an indirect call
  | .call _ none _ => True
  | .call _ (some name) args =>
    -- a call of something like `memcpy` that has no arguments
    (finds name "llvm.memcpy.p0i8.p0i8.i64" ∧ args = []) ∨
    -- the block is stored to an address with a single index
    (finds name "malloc" ∧ ∃ value operands,
      next = some (.store value (.constantExpr .getElementPtr operands)) ∧
        operands.length ≤ 2) ∨
    -- the call is the first in its block, or what it frees is loaded from such an address
    (finds name "free" ∧
      ¬(finds name "malloc" ∧ ∃ value opcode operands,
        next = some (.store value (.constantExpr opcode operands))) ∧
      (prev = none ∨ ∃ id operands,
        prev = some (.load id (.constantExpr .getElementPtr operands)) ∧ operands.length ≤ 2))
  | _ => False

theorem harmless_iff_not_hazard {prev next : Option Instruction} {i : Instruction}
    (hvalid : ∀ v ∈ i.operands, v.Valid) (hnext : ¬i.isTerminator → next ≠ none) :
    Harmless prev next i ↔ ¬Hazard prev next i := by
  cases i with
  | call id callee args =>
    rcases callee with _ | name
    · simp [Harmless, Hazard]
    obtain ⟨j, rfl⟩ := Option.ne_none_iff_exists'.mp (hnext (by simp [Instruction.isTerminator]))
    have hmemcpy : (∃ lhs rhs,
        (args ++ [.global name])[0]? = some lhs ∧ (args ++ [.global name])[1]? = some rhs ∧
        ∀ l r, lhs = .constantExpr .bitCast l → rhs = .constantExpr .bitCast r →
          l ≠ [] ∧ r ≠ []) ↔ args ≠ [] := by
      rcases args with _ | ⟨v, args⟩
      · simp
      · have hcast : ∀ w ∈ v :: args, ∀ l, w = .constantExpr .bitCast l → l ≠ [] := by
          rintro w hw l rfl rfl
          exact absurd (hvalid _ hw) (by simp [Value.Valid])
        refine iff_of_true ?_ (List.cons_ne_nil v args)
        rcases args with _ | ⟨w, args⟩
        · exact ⟨v, .global name, rfl, rfl, fun l r _ hr => by cases hr⟩
        · exact ⟨v, w, rfl, rfl, fun l r hl hr =>
            ⟨hcast v (by simp) l hl, hcast w (by simp) r hr⟩⟩
    have hmalloc : (∃ k, some j = some k ∧ ∀ value operands,
        k = .store value (.constantExpr .getElementPtr operands) → 2 < operands.length) ↔
        ¬∃ value operands, some j = some (.store value (.constantExpr .getElementPtr operands)) ∧
          operands.length ≤ 2 := by
      simp
    have hfree : (∃ k, prev = some k ∧ ∀ id operands,
        k = .load id (.constantExpr .getElementPtr operands) → 2 < operands.length) ↔
        ¬(prev = none ∨ ∃ id operands,
          prev = some (.load id (.constantExpr .getElementPtr operands)) ∧
            operands.length ≤ 2) := by
      cases prev with
      | none => simp
      | some k => simp
    rw [Harmless, Hazard, hmemcpy, hmalloc, hfree]
    refine (and_congr not_and.symm (and_congr not_and.symm ?_)).trans
      (not_or.trans (and_congr_right fun _ => not_or)).symm
    constructor
    · rintro h ⟨hname, hnot, hprev⟩
      exact (h hname).elim hnot fun hload => hload hprev
    · intro h hname
      by_contra hcon
      rw [not_or, not_not] at hcon
      exact h ⟨hname, hcon.1, hcon.2⟩
  | _ => simp [Harmless, Hazard]

/-- **A path of verified blocks.** -/
structure VerifiedPath where
  /-- The module. -/
  blocks : Blocks
  /-- The path. -/
  path : List BasicBlock
  verified : ∀ bb ∈ path, Verified (blocks bb)

namespace VerifiedPath

variable (p : VerifiedPath)

/-- **Nothing is missing**: no null pointer is dereferenced on the path, no operand is asked for
that is not there, and nothing comes before that after which anything may happen. -/
def Safe : Prop := ∃ r, memoryLeakDetection p.blocks p.path = .ok r

/-- **When nothing is missing** on a path of verified blocks. -/
theorem safe_iff : p.Safe ↔ (∀ bb ∈ p.path, ∀ pre i post, p.blocks bb = pre ++ i :: post →
    ¬Hazard (adjacent pre.reverse) (adjacent post) i) ∧ countedOn p.blocks p.path < 2 ^ 31 := by
  rw [Safe, memoryLeakDetection_ok_iff]
  refine and_congr_left fun _ => forall₂_congr fun bb hbb => ?_
  rw [show none = adjacent [] from rfl, harmlessFrom_iff]
  refine forall₃_congr fun pre i post => forall_congr' fun heq => ?_
  rw [List.append_nil]
  have hverified := p.verified bb hbb
  exact harmless_iff_not_hazard (hverified.valid i (heq ▸ by simp)) fun hi =>
    hverified.adjacent_ne_none heq hi

end VerifiedPath

/-- A call of `free` at the start of the block, with an argument of its function. -/
def freeFirst : VerifiedPath where
  blocks := fun _ => [.call 1 (some "free") [.result 0 "p"], .terminator []]
  path := [0]
  verified := fun _ _ =>
    { terminated := ⟨[.call 1 (some "free") [.result 0 "p"]], .terminator [], rfl, rfl, by
        simp [Instruction.isTerminator]⟩
      valid := by simp [Instruction.operands, Value.Valid] }

/-- **The instruction before is missing** for a call of `free` that is the first. -/
theorem not_safe : ¬∀ p : VerifiedPath, p.Safe := by
  intro h
  obtain ⟨r, hr⟩ := h freeFirst
  have hcrash : memoryLeakDetection freeFirst.blocks freeFirst.path = .error .null := rfl
  rw [hcrash] at hr
  cases hr

end DepLeak

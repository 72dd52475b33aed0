import DepLeak.Dep.Frame
import DepLeak.Dep.Vex
import DepLeak.Flow

/-!
# The tool against a reference machine

The reference machine has a cell for every temporary, every register offset and every
slot of the shadow table, and each statement of a superblock replaces the set of its
destination by the union of the sets of its sources (`Flow.flow`, at the assignments
`DepLeak.assignmentOf`). What the tool tracks of a cell is what its own lookup returns
(`DepLeak.tracked`).

In a superblock that assigns every temporary once, started with an empty `var_deps`, the
erasing that comes with an assignment to a temporary finds nothing to erase. Every
helper then does exactly what the assignment does (`DepLeak.DepState.call_follows`), with one
exception: `instrument_store_tmp` and `instrument_put_tmp` return without touching
their destination if there is nothing to store, where `instrument_store_const` and
`instrument_put_cnst` clear it. Such a step keeps what should have gone
(`DepLeak.Stale`), and loses nothing.
-/

namespace DepLeak

open LinkedHeap Runs Flow

/-! ### The reference machine -/

/-- A cell of the reference machine. -/
inductive Cell
  /-- A temporary. -/
  | tmp (t : IRTemp)
  /-- A register, by its offset. -/
  | reg (offset : BitVec 32)
  /-- A slot of the shadow table, by the low 32 bits of its addresses. -/
  | mem (low : BitVec 32)
  deriving DecidableEq

/-- The cell of an address. -/
def memCell (addr : UWord) : Cell := .mem (addr.truncate 32)

/-- The cells of an atom. -/
def atomCells : IRExpr → List Cell
  | .rdTmp t => [.tmp t]
  | _ => []

/-- The cells a handled expression is computed from. -/
def exprCells (ρ : IRTemp → UWord) : IRExpr → List Cell
  | .rdTmp t => [.tmp t]
  | .get offset => [.reg offset]
  | .load addr => [memCell (evalAtom ρ addr)]
  | .unop e => atomCells e
  | .binop e₁ e₂ => atomCells e₁ ++ atomCells e₂
  | .triop e₁ e₂ e₃ => atomCells e₁ ++ (atomCells e₂ ++ atomCells e₃)
  | .qop e₁ e₂ e₃ e₄ => atomCells e₁ ++ (atomCells e₂ ++ (atomCells e₃ ++ atomCells e₄))
  | _ => []

/-- The assignment a handled statement is. -/
def assignmentOf (ρ : IRTemp → UWord) : IRStmt → Assignment Cell
  | .wrTmp t data => ⟨.tmp t, exprCells ρ data⟩
  | .store addr data => ⟨memCell (evalAtom ρ addr), atomCells data⟩
  | .put offset data => ⟨.reg offset, atomCells data⟩
  -- not a handled statement
  | _ => ⟨.tmp 0, [.tmp 0]⟩

/-- The reference machine on a list of statements. -/
def reference (ρ : IRTemp → UWord) (x : Cell → Set ℤ) (B : List IRStmt) : Cell → Set ℤ :=
  flow x (B.map (assignmentOf ρ))

/-! ### What the tool tracks -/

/-- The pointer the tool looks up for a cell. -/
def lookup (s : State) : Cell → Exec Ptr
  | .tmp t => findReadDepTmp s t
  | .reg offset => findReadDepReg s offset
  | .mem low => getShadowMem s (low.zeroExtend 64)

/-- **The tracked set of a cell**: the numbers in the list the tool looks up for it. -/
def tracked (s : State) (c : Cell) : Set ℤ :=
  {v | ∃ q vs, lookup s c = .ok q ∧ s.ints.toList q = .ok vs ∧ v ∈ vs}

namespace DepState

/-- The same lookup on lists. -/
def lookup (a : DepState) : Cell → Exec (List ℤ)
  | .tmp t => a.findTmp t
  | .reg offset => .ok (a.findReg offset)
  | .mem low => a.getShadow (low.zeroExtend 64)

/-- The tracked sets of a state on lists. -/
def view (a : DepState) (c : Cell) : Set ℤ := {v | ∃ vs, a.lookup c = .ok vs ∧ v ∈ vs}

end DepState

variable {s s' : State} {a a' : DepState}

/-- What the tool looks up is there. -/
theorem lookup_lockstep (hr : Rep s a) (c : Cell) :
    Lockstep (ListAt s.ints) (lookup s c) (a.lookup c) := by
  cases c with
  | tmp t => exact findReadDepTmp_lockstep hr t
  | reg r =>
    obtain ⟨q, hq, hat⟩ := findReadDepReg_spec hr r
    rw [lookup, hq]
    exact .ok hat
  | mem w => exact getShadowMem_lockstep hr _

theorem tracked_eq_view (hr : Rep s a) : tracked s = a.view := by
  funext c
  ext v
  have hl := lookup_lockstep hr c
  constructor
  · rintro ⟨q, vs, hq, hvs, hv⟩
    obtain ⟨ws, hws, hat⟩ := hl.ok_right hq
    rw [hat.toList] at hvs
    exact ⟨vs, by rw [hws, Except.ok.inj hvs], hv⟩
  · rintro ⟨vs, hvs, hv⟩
    obtain ⟨q, hq, hat⟩ := hl.ok_left hvs
    exact ⟨q, vs, hq, hat.toList, hv⟩

/-! ### Cells and slots -/

theorem lowIndex_low (addr : UWord) :
    lowIndex ((addr.truncate 32 : BitVec 32).zeroExtend 64) = lowIndex addr := by
  rw [lowIndex_eq, lowIndex_eq]
  simp only [BitVec.truncate_eq_setWidth, BitVec.toNat_setWidth]
  omega

theorem upIndex_low (addr : UWord) :
    upIndex ((addr.truncate 32 : BitVec 32).zeroExtend 64) = upIndex addr := by
  rw [upIndex_eq, upIndex_eq]
  simp only [BitVec.truncate_eq_setWidth, BitVec.toNat_setWidth]
  omega

/-- An address with these indices. -/
theorem eq_low_iff {addr : UWord} {w : BitVec 32} :
    w = addr.truncate 32 ↔ upIndex (w.zeroExtend 64) = upIndex addr ∧
      lowIndex (w.zeroExtend 64) = lowIndex addr := by
  constructor
  · rintro rfl
    exact ⟨upIndex_low addr, lowIndex_low addr⟩
  · rintro ⟨hu, hl⟩
    apply BitVec.eq_of_toNat_eq
    rw [upIndex_eq, upIndex_eq] at hu
    rw [lowIndex_eq, lowIndex_eq] at hl
    have hw := w.isLt
    simp only [BitVec.truncate_eq_setWidth, BitVec.toNat_setWidth] at hu hl ⊢
    omega

namespace DepState

theorem get_low {β : Type} (null : β) (tb : Table β) (addr : UWord) :
    tb.get null ((addr.truncate 32 : BitVec 32).zeroExtend 64) = tb.get null addr := by
  simp only [Table.get, upIndex_low, lowIndex_low]

@[simp] theorem lookup_memCell (addr : UWord) : a.lookup (memCell addr) = a.getShadow addr :=
  get_low [] a.shadow addr

/-! ### What the updates do to the tracked sets -/

theorem view_of_ok {c : Cell} {vs : List ℤ} (h : a.lookup c = .ok vs) :
    a.view c = {v | v ∈ vs} := by
  ext v
  constructor
  · rintro ⟨ws, hws, hv⟩
    rwa [← Except.ok.inj (h.symm.trans hws)] at hv
  · exact fun hv => ⟨vs, h, hv⟩

/-- What is tracked of a register. -/
theorem view_reg (r : BitVec 32) : a.view (.reg r) = {v | v ∈ a.findReg r} :=
  view_of_ok (c := .reg r) rfl

theorem view_of_error {c : Cell} {f : Fault} (h : a.lookup c = .error f) : a.view c = ∅ := by
  ext v
  simp [view, h]

/-- There is nothing outside the table. -/
theorem view_of_notInTable {w : BitVec 32} (hw : ¬InTable (w.zeroExtend 64)) :
    a.view (.mem w) = ∅ := by
  cases h : a.lookup (.mem w) with
  | error f => exact view_of_error h
  | ok vs =>
    rw [view_of_ok h]
    have hget : a.shadow.get [] (w.zeroExtend 64) = .ok vs := h
    by_cases hu : upIndex (w.zeroExtend 64) < tableSize
    · rw [Table.get_of_low hu fun hl => hw ⟨hu, hl⟩] at hget
      split at hget
      · cases hget
      · simp [← Except.ok.inj hget]
    · rw [Table.get_of_up hu] at hget
      cases hget

theorem view_of_inTable {w : BitVec 32} (hw : InTable (w.zeroExtend 64)) :
    a.view (.mem w) = {v | v ∈ a.shadow.slot [] (slotOf _ hw)} :=
  view_of_ok (getShadow_of_inTable hw)

/-- A change that only `lookup` could see at one cell. -/
theorem view_update {c : Cell} {deps : List ℤ} (hc : a'.lookup c = .ok deps)
    (hrest : ∀ c', c' ≠ c → a'.view c' = a.view c') :
    a'.view = Function.update a.view c {v | v ∈ deps} := by
  funext c'
  rcases eq_or_ne c' c with rfl | hne
  · rw [Function.update_self, view_of_ok hc]
  · rw [Function.update_of_ne hne, hrest c' hne]

theorem view_congr {c : Cell} (h : a'.lookup c = a.lookup c) : a'.view c = a.view c := by
  simp only [view, h]

theorem view_setShadow {addr : UWord} {deps : List ℤ} (h : a.setShadow addr deps = .ok a') :
    a'.view = Function.update a.view (memCell addr) {v | v ∈ deps} := by
  obtain ⟨ha, tb, rfl, htb⟩ := setShadow_eq_ok h
  refine view_update ?_ fun c' hne => ?_
  · rw [lookup_memCell, getShadow_of_inTable ha]
    simp [htb]
  · cases c' with
    | tmp t => exact view_congr rfl
    | reg r => exact view_congr rfl
    | mem w =>
      by_cases hw : InTable (w.zeroExtend 64)
      · have hslot : slotOf _ hw ≠ slotOf addr ha := fun he => hne (congrArg Cell.mem
          (eq_low_iff.mpr ⟨congrArg (fun k => k.1.val) he, congrArg (fun k => k.2.val) he⟩))
        rw [view_of_inTable hw, view_of_inTable hw]
        simp [htb, Function.update_of_ne hslot]
      · rw [view_of_notInTable hw, view_of_notInTable hw]

/-- There is no entry for the temporary. -/
def Fresh (a : DepState) (t : IRTemp) : Prop := ∀ e ∈ a.vars, e.isTemp t = false

/-- There is none after it has been erased. -/
theorem fresh_of_eraseTmp {t : IRTemp} (h : a.eraseTmp t = .ok a') : a'.Fresh t := by
  obtain ⟨-, ⟨-, rfl⟩ | ⟨-, rfl⟩⟩ := eraseTmp_eq_ok h
  · exact fun e he => by simpa using (List.mem_filter.mp he).2
  · exact fun e he => absurd he List.not_mem_nil

section Temporaries

variable {t t' : IRTemp} {deps : List ℤ}

theorem isTemp_eq_false (hne : t' ≠ t) (i : ℕ) :
    (⟨i, .temp t, deps⟩ : Entry).isTemp t' = false := by
  simp [Entry.isTemp, hne.symm]

theorem findTmp_prependVar : (a.prependVar t deps).findTmp t = .ok deps := by
  simp [findTmp, prependVar, Entry.isTemp]

theorem findTmp_prependVar_of_ne (hne : t' ≠ t) :
    (a.prependVar t deps).findTmp t' = a.findTmp t' := by
  simp only [findTmp, prependVar, List.find?_cons, isTemp_eq_false hne]
  rfl

theorem findTmp_appendVar (hfresh : a.Fresh t) (h : a.appendVar t deps = .ok a') :
    a'.findTmp t = .ok deps := by
  obtain ⟨-, rfl⟩ := appendVar_eq_ok h
  have hnone : a.vars.find? (Entry.isTemp t) = none :=
    List.find?_eq_none.mpr fun e he => by simp [hfresh e he]
  simp [findTmp, List.find?_append, hnone, Entry.isTemp]

theorem findTmp_appendVar_of_ne (hne : t' ≠ t) (h : a.appendVar t deps = .ok a') :
    a'.findTmp t' = a.findTmp t' := by
  obtain ⟨-, rfl⟩ := appendVar_eq_ok h
  simp only [findTmp, List.find?_append, List.find?_cons, isTemp_eq_false hne, List.find?_nil,
    Option.or_none]

/-- A change that only `findTmp` could see, at one temporary. -/
theorem view_findTmp (hregs : a'.regs = a.regs) (hshadow : a'.shadow = a.shadow)
    (ht : a'.findTmp t = .ok deps) (hrest : ∀ t', t' ≠ t → a'.findTmp t' = a.findTmp t') :
    a'.view = Function.update a.view (.tmp t) {v | v ∈ deps} := by
  refine view_update ht fun c' hne => view_congr ?_
  cases c' with
  | tmp t' => exact hrest t' fun heq => hne (congrArg Cell.tmp heq)
  | reg r => simp only [lookup, findReg, hregs]
  | mem w => simp only [lookup, getShadow, hshadow]

theorem view_prependVar (t : IRTemp) (deps : List ℤ) :
    (a.prependVar t deps).view = Function.update a.view (.tmp t) {v | v ∈ deps} :=
  view_findTmp rfl rfl findTmp_prependVar fun _ => findTmp_prependVar_of_ne

theorem view_appendVar (hfresh : a.Fresh t) (h : a.appendVar t deps = .ok a') :
    a'.view = Function.update a.view (.tmp t) {v | v ∈ deps} := by
  have hfind := findTmp_appendVar hfresh h
  have hrest : ∀ t', t' ≠ t → a'.findTmp t' = a.findTmp t' := fun _ hne =>
    findTmp_appendVar_of_ne hne h
  obtain ⟨-, rfl⟩ := appendVar_eq_ok h
  exact view_findTmp rfl rfl hfind hrest

end Temporaries

/-- Erasing a temporary without an entry. -/
theorem eraseTmp_of_fresh {t : IRTemp} (hd : a.dangling = false) (hfresh : a.Fresh t) :
    a.eraseTmp t = .ok a := by
  have hkept : a.vars.filter (fun e => !e.isTemp t) = a.vars :=
    List.filter_eq_self.mpr fun e he => by simp [hfresh e he]
  rw [eraseTmp, if_neg (by simp [hd])]
  cases hv : a.vars with
  | nil => rfl
  | cons e es =>
    have he : e.isTemp t = false := hfresh e (by rw [hv]; exact List.mem_cons_self)
    rw [hv] at hkept
    simp only [he, Bool.false_eq_true, if_false, hkept]
    rw [← hv]

theorem findReg_eraseReg (r r' : BitVec 32) :
    (a.eraseReg r).findReg r' = if r' = r then [] else a.findReg r' := by
  split
  · next heq =>
    have hnone : (a.eraseReg r).regs.find? (Entry.isReg r') = none :=
      List.find?_eq_none.mpr fun e he => by simpa [heq] using (List.mem_filter.mp he).2
    rw [findReg, hnone, Option.elim_none]
  · next hne =>
    simp only [findReg, eraseReg, List.find?_filter]
    refine congrArg (fun p => (a.regs.find? p).elim [] Entry.deps) (funext fun e => ?_)
    by_cases he : e.isReg r <;> simp only [Entry.isReg, decide_eq_true_eq] at he <;>
      simp [Entry.isReg, he]
    exact fun hr => hne hr.symm

theorem findReg_prependReg (r : BitVec 32) (deps : List ℤ) (r' : BitVec 32) :
    (a.prependReg r deps).findReg r' = if r' = r then deps else a.findReg r' := by
  split
  · next heq => simp [findReg, prependReg, Entry.isReg, heq]
  · next hne =>
    have hr : (⟨a.nextId, .reg r, deps⟩ : Entry).isReg r' = false := by
      simp only [Entry.isReg, decide_eq_false_iff_not, DepVal.reg.injEq]
      exact fun heq => hne heq.symm
    simp only [findReg, prependReg, List.find?_cons, hr]

/-- A change that only `findReg` could see, at one register. -/
theorem view_findReg {r : BitVec 32} {deps : List ℤ} (hvars : a'.vars = a.vars)
    (hdang : a'.dangling = a.dangling) (hshadow : a'.shadow = a.shadow)
    (hregs : ∀ r', a'.findReg r' = if r' = r then deps else a.findReg r') :
    a'.view = Function.update a.view (.reg r) {v | v ∈ deps} := by
  refine view_update ?_ fun c' hne => view_congr ?_
  · rw [lookup, hregs, if_pos rfl]
  · cases c' with
    | tmp t => simp only [lookup, findTmp, hvars, hdang]
    | reg r' => rw [lookup, lookup, hregs, if_neg fun heq => hne (congrArg Cell.reg heq)]
    | mem w => simp only [lookup, getShadow, hshadow]

theorem view_eraseReg (r : BitVec 32) :
    (a.eraseReg r).view = Function.update a.view (.reg r) ∅ := by
  have hview : (a.eraseReg r).view =
      Function.update a.view (.reg r) {v | v ∈ ([] : List ℤ)} :=
    view_findReg rfl rfl rfl (findReg_eraseReg r)
  simpa using hview

theorem view_prependReg (r : BitVec 32) (deps : List ℤ) :
    (a.prependReg r deps).view = Function.update a.view (.reg r) {v | v ∈ deps} :=
  view_findReg rfl rfl rfl (findReg_prependReg r deps)

/-! ### A helper call as an assignment -/

theorem view_tmp_of_fresh {t : IRTemp} (hd : a.dangling = false) (hfresh : a.Fresh t) :
    a.view (.tmp t) = ∅ := by
  have hnone : a.vars.find? (Entry.isTemp t) = none :=
    List.find?_eq_none.mpr fun e he => by simp [hfresh e he]
  have hfind : a.lookup (.tmp t) = .ok [] := by simp [lookup, findTmp, hnone, hd]
  simp [view_of_ok hfind]

/-- Where an assignment to a temporary without an entry leads. -/
structure Assigned (a a' : DepState) (t : IRTemp) (deps : List ℤ) : Prop where
  /-- Nothing dangles. -/
  dangling : a'.dangling = false
  /-- Only the temporary can have a new entry. -/
  vars : ∀ e ∈ a'.vars, e ∈ a.vars ∨ e.val = .temp t
  /-- The temporary has the list. -/
  view : a'.view = Function.update a.view (.tmp t) {v | v ∈ deps}

theorem assigned_nil {t : IRTemp} (hd : a.dangling = false) (hfresh : a.Fresh t) :
    Assigned a a t [] where
  dangling := hd
  vars _ he := Or.inl he
  view := by simp [← view_tmp_of_fresh hd hfresh]

theorem assigned_prependVar {t : IRTemp} (hd : a.dangling = false) (deps : List ℤ) :
    Assigned a (a.prependVar t deps) t deps where
  dangling := hd
  vars e he := by
    rcases List.mem_cons.mp he with rfl | he
    · exact Or.inr rfl
    · exact Or.inl he
  view := view_prependVar t deps

theorem assigned_appendVar {t : IRTemp} {deps : List ℤ} (hfresh : a.Fresh t)
    (h : a.appendVar t deps = .ok a') : Assigned a a' t deps := by
  have hview := view_appendVar hfresh h
  obtain ⟨hd, rfl⟩ := appendVar_eq_ok h
  refine ⟨hd, fun e he => ?_, hview⟩
  rcases List.mem_append.mp he with he | he
  · exact Or.inl he
  · exact Or.inr (by rw [List.mem_singleton.mp he])

/-- The helpers that put their entry in front. -/
theorem recordFront_fresh {t : IRTemp} (hd : a.dangling = false) (hfresh : a.Fresh t)
    (deps : List ℤ) : ∃ a', a.recordFront t deps = .ok a' ∧ Assigned a a' t deps := by
  rw [recordFront]
  by_cases hdeps : deps = []
  · rw [if_pos hdeps, hdeps]
    exact ⟨a, rfl, assigned_nil hd hfresh⟩
  · rw [if_neg hdeps, eraseTmp_of_fresh hd hfresh]
    exact ⟨_, rfl, assigned_prependVar hd deps⟩

/-- The helpers that put their entry at the end. -/
theorem recordBack_fresh {t : IRTemp} (hd : a.dangling = false) (hfresh : a.Fresh t)
    (deps : List ℤ) : ∃ a', a.recordBack t deps = .ok a' ∧ Assigned a a' t deps := by
  rw [recordBack]
  by_cases hdeps : deps = []
  · rw [if_pos hdeps, hdeps]
    exact ⟨a, rfl, assigned_nil hd hfresh⟩
  · have happ := appendVar_eq hd t deps
    rw [if_neg hdeps, eraseTmp_of_fresh hd hfresh]
    exact ⟨_, happ, assigned_appendVar hfresh happ⟩

/-- The lookups of a helper, where they are done. -/
theorem depsOf_union {ts : List IRTemp} {deps : List ℤ} (h : a.depsOf ts = .ok deps) :
    {v | v ∈ deps} = union a.view (ts.map .tmp) := by
  have hmerge : ∀ {ts : List IRTemp} {vs deps : List ℤ}, a.mergeTmps vs ts = .ok deps →
      {v | v ∈ deps} = {v | v ∈ vs} ∪ union a.view (ts.map .tmp) := by
    intro ts
    induction ts with
    | nil =>
      intro vs deps h
      simp [union, Except.ok.inj h]
    | cons t ts ih =>
      intro vs deps h
      obtain ⟨ws, hws, h⟩ := bind_eq_ok.mp h
      rw [ih h]
      ext v
      simp only [Set.mem_union, mem_mergeVals, mem_union, Set.mem_ofPred_eq, List.map_cons,
        List.mem_cons, exists_eq_or_imp, view_of_ok (c := .tmp t) hws]
      tauto
  cases ts with
  | nil => simp [union, ← Except.ok.inj h]
  | cons t ts =>
    obtain ⟨ws, hws, h⟩ := bind_eq_ok.mp h
    rw [hmerge h]
    ext v
    simp only [Set.mem_union, mem_union, Set.mem_ofPred_eq, List.map_cons, List.mem_cons,
      exists_eq_or_imp, view_of_ok (c := .tmp t) hws]

/-- Lookups of temporaries succeed where nothing dangles. -/
theorem depsOf_ok (hd : a.dangling = false) (ts : List IRTemp) :
    ∃ deps, a.depsOf ts = .ok deps := by
  cases h : a.depsOf ts with
  | ok deps => exact ⟨deps, rfl⟩
  | error f =>
    have hfind : ∀ t, ∃ vs, a.findTmp t = .ok vs := by
      intro t
      simp only [findTmp, hd]
      split
      · exact ⟨_, rfl⟩
      · exact ⟨_, rfl⟩
    have hmerge : ∀ (ts : List IRTemp) (vs : List ℤ), ∃ deps, a.mergeTmps vs ts = .ok deps := by
      intro ts
      induction ts with
      | nil => exact fun vs => ⟨vs, rfl⟩
      | cons t ts ih =>
        intro vs
        obtain ⟨ws, hws⟩ := hfind t
        rw [mergeTmps, hws]
        exact ih _
    exfalso
    cases ts with
    | nil => cases h
    | cons t ts =>
      obtain ⟨ws, hws⟩ := hfind t
      obtain ⟨deps, hm⟩ := hmerge ts ws
      rw [depsOf, hws, ok_bind, hm] at h
      cases h

end DepState

theorem tracked_reg_eq_empty_iff (hr : Rep s a) {r : BitVec 32} :
    tracked s (.reg r) = ∅ ↔ a.findReg r = [] := by
  rw [tracked_eq_view hr, DepState.view_reg, Set.eq_empty_iff_forall_notMem]
  exact List.eq_nil_iff_forall_not_mem.symm

/-- The assignment a helper call stands for. -/
def HelperCall.assignment : HelperCall → Option (Assignment Cell)
  | .assgnTmpLoad t addr => some ⟨.tmp t, [memCell addr]⟩
  | .exit => none
  | .assgnTmpConst t => some ⟨.tmp t, []⟩
  | .assgnTmpUnop t t₁ => some ⟨.tmp t, [.tmp t₁]⟩
  | .assgnTmpBinop t t₁ t₂ => some ⟨.tmp t, [.tmp t₁, .tmp t₂]⟩
  | .assgnTmpTriop t t₁ t₂ t₃ => some ⟨.tmp t, [.tmp t₁, .tmp t₂, .tmp t₃]⟩
  | .assgnTmpQop t t₁ t₂ t₃ t₄ => some ⟨.tmp t, [.tmp t₁, .tmp t₂, .tmp t₃, .tmp t₄]⟩
  | .storeConst addr => some ⟨memCell addr, []⟩
  | .storeTmp addr t => some ⟨memCell addr, [.tmp t]⟩
  | .putTmp r t => some ⟨.reg r, [.tmp t]⟩
  | .putCnst r => some ⟨.reg r, []⟩
  | .assgnTmpGet t r => some ⟨.tmp t, [.reg r]⟩

/-- A helper that assigns a temporary stands for an assignment to it. -/
theorem HelperCall.assignment_dst {c : HelperCall} {asg : Assignment Cell} {t : IRTemp}
    (hasg : c.assignment = some asg) (hdst : c.dst? = some t) : asg.dst = .tmp t := by
  cases c <;> cases hasg <;> cases hdst <;> rfl

/-- **The helper of a handled statement stands for its assignment.** -/
theorem stmtCall_handled (ρ : IRTemp → UWord) {st : IRStmt} (h : st.handled) :
    ∃ c, stmtCall ρ st = some c ∧ c.assignment = some (assignmentOf ρ st) := by
  cases st with
  | wrTmp tmp data =>
    cases data with
    | rdTmp | get | load =>
      refine ⟨_, rfl, ?_⟩
      simp [HelperCall.assignment, assignmentOf, exprCells, evalAtom, constTmp, constReg]
    | unop e =>
      obtain ⟨t, rfl⟩ | ⟨c, rfl⟩ := isAtom_iff.mp h <;> refine ⟨_, rfl, ?_⟩ <;>
        simp [HelperCall.assignment, assignmentOf, exprCells, atomCells, evalAtom, constTmp]
    | binop e₁ e₂ =>
      simp only [IRStmt.handled, IRExpr.handled, Bool.and_eq_true] at h
      obtain ⟨t₁, rfl⟩ | ⟨c₁, rfl⟩ := isAtom_iff.mp h.1 <;>
        obtain ⟨t₂, rfl⟩ | ⟨c₂, rfl⟩ := isAtom_iff.mp h.2 <;> refine ⟨_, rfl, ?_⟩ <;>
        simp [HelperCall.assignment, assignmentOf, exprCells, atomCells, evalAtom, constTmp]
    | triop e₁ e₂ e₃ =>
      simp only [IRStmt.handled, IRExpr.handled, IRExpr.wide, Bool.and_eq_true, isTmp_iff] at h
      obtain ⟨⟨⟨t₁, rfl⟩, t₂, rfl⟩, t₃, rfl⟩ := h
      refine ⟨_, rfl, ?_⟩
      simp [HelperCall.assignment, assignmentOf, exprCells, atomCells, evalAtom, constTmp]
    | qop e₁ e₂ e₃ e₄ =>
      simp only [IRStmt.handled, IRExpr.handled, IRExpr.wide, Bool.and_eq_true, isTmp_iff] at h
      obtain ⟨⟨⟨⟨t₁, rfl⟩, t₂, rfl⟩, t₃, rfl⟩, t₄, rfl⟩ := h
      refine ⟨_, rfl, ?_⟩
      simp [HelperCall.assignment, assignmentOf, exprCells, atomCells, evalAtom, constTmp]
    | getI | const | ite | ccall => simp [IRStmt.handled, IRExpr.handled, IRExpr.wide] at h
  | store addr data =>
    simp only [IRStmt.handled, Bool.and_eq_true] at h
    obtain ⟨t, rfl⟩ | ⟨c, rfl⟩ := isAtom_iff.mp h.2 <;> refine ⟨_, rfl, ?_⟩ <;>
      simp [HelperCall.assignment, assignmentOf, atomCells, evalAtom, constTmp]
  | put offset data =>
    obtain ⟨t, rfl⟩ | ⟨c, rfl⟩ := isAtom_iff.mp h <;> refine ⟨_, rfl, ?_⟩ <;>
      simp [HelperCall.assignment, assignmentOf, atomCells, evalAtom, constTmp, constReg]
  | _ => simp [IRStmt.handled] at h

namespace DepState

/-- The helper leaves something behind: it stores a temporary without dependencies where
there are some. -/
def StaleCall (a : DepState) : HelperCall → Prop
  | .storeTmp addr t => a.view (.tmp t) = ∅ ∧ a.view (memCell addr) ≠ ∅
  | .putTmp r t => a.view (.tmp t) = ∅ ∧ a.view (.reg r) ≠ ∅
  | _ => False

/-- A step that does what an assignment does. -/
structure Follows (a a' : DepState) (asg : Assignment Cell) : Prop where
  /-- Nothing dangles. -/
  dangling : a'.dangling = false
  /-- Only a temporary that is assigned can have a new entry. -/
  vars : ∀ e ∈ a'.vars, e ∈ a.vars ∨ ∃ t, asg.dst = .tmp t ∧ e.val = .temp t
  /-- The tracked sets are those after the assignment. -/
  view : a'.view = asg.apply a.view

theorem Assigned.follows {t : IRTemp} {deps : List ℤ} {srcs : List Cell}
    (h : Assigned a a' t deps) (hdeps : {v | v ∈ deps} = union a.view srcs) :
    Follows a a' ⟨.tmp t, srcs⟩ where
  dangling := h.dangling
  vars e he := (h.vars e he).imp_right fun hv => ⟨t, rfl, hv⟩
  view := by rw [h.view, hdeps, Assignment.apply]

/-- A step that changes no entry of `var_deps`. -/
theorem follows_of_view {asg : Assignment Cell} (deps : List ℤ) (hd : a.dangling = false)
    (hdang : a'.dangling = a.dangling) (hvars : a'.vars = a.vars)
    (hview : a'.view = Function.update a.view asg.dst {v | v ∈ deps})
    (hdeps : {v | v ∈ deps} = union a.view asg.srcs) : Follows a a' asg where
  dangling := hdang.trans hd
  vars e he := Or.inl (hvars ▸ he)
  view := by rw [hview, hdeps, Assignment.apply]

/-- A store of nothing follows its assignment only where there was nothing. -/
theorem skip_follows {dst : Cell} {t : IRTemp} (hd : a.dangling = false)
    (ht : a.view (.tmp t) = ∅) (hdst : a.view dst = ∅) : Follows a a ⟨dst, [.tmp t]⟩ :=
  follows_of_view [] hd rfl rfl (by simp [← hdst]) (by simp [union, ht])

theorem setShadow_same {addr : UWord} {deps : List ℤ} (h : a.setShadow addr deps = .ok a') :
    a'.dangling = a.dangling ∧ a'.vars = a.vars := by
  obtain ⟨-, tb, rfl, -⟩ := setShadow_eq_ok h
  exact ⟨rfl, rfl⟩

/-- What a helper looks up is the union of the sources of its assignment. -/
theorem source_union {c : HelperCall} {asg : Assignment Cell} {deps : List ℤ}
    (hasg : c.assignment = some asg) (hs : a.source c = .ok deps) :
    {v | v ∈ deps} = union a.view asg.srcs := by
  cases c with
  | exit => cases hasg
  | assgnTmpLoad t addr =>
    cases hasg
    have hview := view_of_ok ((lookup_memCell addr).trans hs)
    simp [union, hview]
  | assgnTmpGet t r =>
    cases hasg
    have hview := view_of_ok (c := .reg r) hs
    simp [union, hview]
  | assgnTmpConst | storeConst | putCnst =>
    cases hasg
    cases hs
    simp [union]
  | assgnTmpUnop | assgnTmpBinop | assgnTmpTriop | assgnTmpQop | storeTmp | putTmp =>
    cases hasg
    rw [source] at hs
    exact depsOf_union hs

/-- **What a helper does to the tracked sets**: what its assignment does, unless it leaves
something behind. -/
theorem call_follows {c : HelperCall} {asg : Assignment Cell} (hasg : c.assignment = some asg)
    (hd : a.dangling = false) (hfresh : ∀ t, asg.dst = .tmp t → a.Fresh t)
    (h : a.call c = .ok a') : Follows a a' asg ∨ (a.StaleCall c ∧ a' = a) := by
  obtain ⟨deps, hs, h⟩ := bind_eq_ok.mp h
  have hdeps := source_union hasg hs
  -- there is nothing to erase
  have herase : ∀ {t a₁}, c.dst? = some t → a.eraseTmp t = .ok a₁ → a₁ = a := fun hdst he =>
    Except.ok.inj (he.symm.trans
      (eraseTmp_of_fresh hd (hfresh _ (HelperCall.assignment_dst hasg hdst))))
  cases assign_outcome h with
  | exit => cases hasg
  | @skip c hrec hnil =>
    rw [hnil] at hdeps
    cases c with
    | exit | assgnTmpConst | storeConst | putCnst => cases hrec
    | assgnTmpLoad t | assgnTmpUnop t | assgnTmpBinop t | assgnTmpTriop t | assgnTmpQop t
    | assgnTmpGet t =>
      cases hasg
      exact Or.inl ((assigned_nil hd (hfresh t rfl)).follows hdeps)
    | storeTmp addr t =>
      cases hasg
      have ht : a.view (.tmp t) = ∅ := by simpa [union] using hdeps.symm
      by_cases hdst : a.view (memCell addr) = ∅
      · exact Or.inl (skip_follows hd ht hdst)
      · exact Or.inr ⟨⟨ht, hdst⟩, rfl⟩
    | putTmp r t =>
      cases hasg
      have ht : a.view (.tmp t) = ∅ := by simpa [union] using hdeps.symm
      by_cases hdst : a.view (.reg r) = ∅
      · exact Or.inl (skip_follows hd ht hdst)
      · exact Or.inr ⟨⟨ht, hdst⟩, rfl⟩
  | erase he =>
    cases hasg
    obtain rfl := herase rfl he
    exact Or.inl ((assigned_nil hd (hfresh _ rfl)).follows (by simp [union]))
  | front hdst _ _ he =>
    obtain rfl := herase hdst he
    obtain ⟨dst, srcs⟩ := asg
    obtain rfl := HelperCall.assignment_dst hasg hdst
    exact Or.inl ((assigned_prependVar hd deps).follows hdeps)
  | back hdst _ _ he =>
    obtain rfl := herase hdst he
    obtain ⟨dst, srcs⟩ := asg
    obtain rfl := HelperCall.assignment_dst hasg hdst
    have hf := (assigned_appendVar (hfresh _ rfl) (appendVar_eq hd _ deps)).follows hdeps
    exact Or.inl ⟨hf.dangling, hf.vars, hf.view⟩
  | get =>
    cases hasg
    exact Or.inl ((assigned_prependVar hd deps).follows hdeps)
  | clear hset =>
    cases hasg
    cases hs
    obtain ⟨hdang, hvars⟩ := setShadow_same hset
    exact Or.inl (follows_of_view _ hd hdang hvars (view_setShadow hset) hdeps)
  | store _ hset =>
    cases hasg
    obtain ⟨hdang, hvars⟩ := setShadow_same hset
    exact Or.inl (follows_of_view _ hd hdang hvars (view_setShadow hset) hdeps)
  | put =>
    cases hasg
    refine Or.inl (follows_of_view _ hd rfl rfl ?_ hdeps)
    rw [view_prependReg, view_eraseReg, Function.update_idem]
  | drop =>
    cases hasg
    cases hs
    refine Or.inl (follows_of_view _ hd rfl rfl ?_ hdeps)
    rw [view_eraseReg]
    simp

/-- A helper that leaves nothing dangling does not fault inside the table. -/
theorem call_ok {c : HelperCall} {asg : Assignment Cell} (hasg : c.assignment = some asg)
    (hd : a.dangling = false) (hfresh : ∀ t, asg.dst = .tmp t → a.Fresh t)
    (hin : ∀ addr, c.addr? = some addr → InTable addr) : ∃ a', a.call c = .ok a' := by
  have hset : ∀ {addr deps}, c.addr? = some addr → ∃ a', a.setShadow addr deps = .ok a' := by
    intro addr deps haddr
    obtain ⟨tb, h, -⟩ := a.setShadow_of_inTable (hin addr haddr) deps
    exact ⟨_, h⟩
  cases c with
  | exit => cases hasg
  | assgnTmpLoad t addr =>
    cases hasg
    obtain ⟨a', h, -⟩ := recordBack_fresh hd (hfresh t rfl)
      (a.shadow.slot [] (slotOf addr (hin addr rfl)))
    exact ⟨a', by rw [call, source, getShadow_of_inTable (hin addr rfl)]; exact h⟩
  | assgnTmpConst t =>
    cases hasg
    exact ⟨a, eraseTmp_of_fresh hd (hfresh t rfl)⟩
  | assgnTmpUnop t t₁ | assgnTmpBinop t t₁ t₂ | assgnTmpTriop t t₁ t₂ t₃ =>
    cases hasg
    obtain ⟨deps, hs⟩ := depsOf_ok hd _
    obtain ⟨a', h, -⟩ := recordFront_fresh hd (hfresh t rfl) deps
    exact ⟨a', by rw [call, source, hs]; exact h⟩
  | assgnTmpQop t t₁ t₂ t₃ t₄ =>
    cases hasg
    obtain ⟨deps, hs⟩ := depsOf_ok hd [t₁, t₂, t₃, t₄]
    obtain ⟨a', h, -⟩ := recordBack_fresh hd (hfresh t rfl) deps
    exact ⟨_, by rw [call, source, hs, ok_bind, assign, h]; rfl⟩
  | storeConst addr => exact hset rfl
  | storeTmp addr t =>
    obtain ⟨deps, hs⟩ := depsOf_ok hd [t]
    rw [call, source, hs, ok_bind, assign]
    split
    · exact ⟨_, rfl⟩
    · exact hset rfl
  | putTmp r t =>
    obtain ⟨deps, hs⟩ := depsOf_ok hd [t]
    rw [call, source, hs, ok_bind, assign]
    split <;> exact ⟨_, rfl⟩
  | putCnst r => exact ⟨_, rfl⟩
  | assgnTmpGet t r =>
    rw [call, source, ok_bind, assign]
    split <;> exact ⟨_, rfl⟩

end DepState

end DepLeak

import DepLeak.Dep.Refine
import DepLeak.Dep.Vex

/-!
# What one step changes

The facts about single steps on lists that the results about runs are built from:
which parts of a state a step leaves alone, with which faults it can stop, and
which properties of the recorded lists it keeps.

A property of lists that holds of the empty list and is kept by merging
(`DepLeak.ListProp`) is kept by every helper (`DepLeak.DepState.call_forallDeps`): what a
helper records is put together from what was recorded before.
-/

namespace DepLeak

open LinkedHeap Runs

/-- The helper records what it has found, if that is anything. -/
def HelperCall.records : HelperCall → Bool
  | .exit | .assgnTmpConst _ | .storeConst _ | .putCnst _ => false
  | _ => true

/-- It records a copy, and keeps no pointer to the list itself. -/
def HelperCall.copies : HelperCall → Bool
  | .assgnTmpQop _ _ _ _ _ => true
  | _ => false

namespace DepState

variable {a a' : DepState} {addr : UWord} {deps vs ws : List ℤ}

/-! ### The shadow table -/

theorem getShadow_of_inTable (ha : InTable addr) :
    a.getShadow addr = .ok (a.shadow.slot [] (slotOf addr ha)) := Table.get_of_inTable ha

/-- A lookup returns a slot, or nothing where the page is not there. -/
theorem getShadow_eq_ok (h : a.getShadow addr = .ok vs) :
    vs = [] ∨ ∃ k, vs = a.shadow.slot [] k := by
  by_cases ha : InTable addr
  · rw [getShadow_of_inTable ha] at h
    exact Or.inr ⟨_, (Except.ok.inj h).symm⟩
  · rw [getShadow] at h
    by_cases hu : upIndex addr < tableSize
    · rw [Table.get_of_low hu fun hl => ha ⟨hu, hl⟩] at h
      split at h
      · cases h
      · exact Or.inl (Except.ok.inj h).symm
    · rw [Table.get_of_up hu] at h
      cases h

theorem getShadow_error {f : Fault} (h : a.getShadow addr = .error f) :
    f = .bounds ∧ ¬InTable addr := by
  by_cases ha : InTable addr
  · rw [getShadow_of_inTable ha] at h
    cases h
  · refine ⟨?_, ha⟩
    rw [getShadow] at h
    by_cases hu : upIndex addr < tableSize
    · rw [Table.get_of_low hu fun hl => ha ⟨hu, hl⟩] at h
      split at h
      · exact (Except.error.inj h).symm
      · cases h
    · rw [Table.get_of_up hu] at h
      exact (Except.error.inj h).symm

/-- Inside the table an assignment changes the one slot of its address. -/
theorem setShadow_of_inTable (ha : InTable addr) (deps : List ℤ) :
    ∃ tb, a.setShadow addr deps = .ok { a with shadow := tb } ∧
      tb.slot [] = Function.update (a.shadow.slot []) (slotOf addr ha) deps := by
  obtain ⟨tb, page, htb, hpage, hslot, -⟩ :=
    Table.demand_of_inTable [] a.shadow ha
  obtain ⟨tb', hput, hslot', -⟩ := Table.put_of_inTable [] ha hpage deps
  refine ⟨tb', ?_, by rw [hslot', hslot]⟩
  simp only [setShadow, htb, ok_bind, Table.get_of_inTable ha, hput]

/-- Outside the table there is no assignment. -/
theorem setShadow_of_notInTable (ha : ¬InTable addr) (deps : List ℤ) :
    a.setShadow addr deps = .error .bounds := by
  rw [setShadow]
  by_cases hu : upIndex addr < tableSize
  · cases htb : a.shadow.demand [] addr with
    | error f =>
      rw [Table.demand, dif_pos hu] at htb
      split at htb <;> cases htb
    | ok tb =>
      rw [ok_bind, Table.get_of_low hu fun hl => ha ⟨hu, hl⟩,
        if_pos (Table.isSome_of_demand hu htb), error_bind]
  · rw [Table.demand_of_up hu, error_bind]

/-- What an assignment that succeeds has done. -/
theorem setShadow_eq_ok (h : a.setShadow addr deps = .ok a') :
    ∃ ha : InTable addr, ∃ tb, a' = { a with shadow := tb } ∧
      tb.slot [] = Function.update (a.shadow.slot []) (slotOf addr ha) deps := by
  by_cases ha : InTable addr
  · obtain ⟨tb, hset, hslot⟩ := a.setShadow_of_inTable ha deps
    exact ⟨ha, tb, (Except.ok.inj (hset.symm.trans h)).symm, hslot⟩
  · rw [setShadow_of_notInTable ha] at h
    cases h

/-! ### What a helper leaves alone -/

/-- The parts of a state that only the hooks change. -/
structure SameHooks (a a' : DepState) : Prop where
  writes : a'.writes = a.writes
  readN : a'.readN = a.readN
  writeN : a'.writeN = a.writeN
  trace : a'.trace = a.trace

theorem SameHooks.refl (a : DepState) : SameHooks a a := ⟨rfl, rfl, rfl, rfl⟩

theorem SameHooks.trans {a'' : DepState} (h : SameHooks a a') (h' : SameHooks a' a'') :
    SameHooks a a'' :=
  ⟨h'.writes.trans h.writes, h'.readN.trans h.readN, h'.writeN.trans h.writeN,
    h'.trace.trans h.trace⟩

/-- What `read_dep_node_erase_tmp` can do, where it does not fault. -/
theorem eraseTmp_eq_ok {t : BitVec 32} (h : a.eraseTmp t = .ok a') :
    a.dangling = false ∧
      ((a.vars.head?.any (Entry.isTemp t) = false ∧
          a' = { a with vars := a.vars.filter fun e => !e.isTemp t }) ∨
        (a.vars.head?.any (Entry.isTemp t) = true ∧
          a' = { a with vars := [], dangling := true, lost := true,
                        regs := a.vars.filter fun e => !e.isTemp t })) := by
  rw [eraseTmp] at h
  cases hd : a.dangling with
  | true => simp [hd] at h
  | false =>
    refine ⟨rfl, ?_⟩
    cases hv : a.vars with
    | nil =>
      simp only [hd, hv, Bool.false_eq_true, if_false] at h
      cases h
      simp only [List.head?_nil, Option.any_none, List.filter_nil, true_and]
      exact Or.inl (by rw [← hv, ← hd])
    | cons e es =>
      simp only [hd, hv, Bool.false_eq_true, if_false] at h
      by_cases he : e.isTemp t
      · rw [if_pos he] at h
        exact Or.inr ⟨by simpa using he, (Except.ok.inj h).symm⟩
      · rw [if_neg he] at h
        exact Or.inl ⟨by simpa using he, (Except.ok.inj h).symm⟩

theorem eraseTmp_sameHooks {t : BitVec 32} (h : a.eraseTmp t = .ok a') : SameHooks a a' := by
  obtain ⟨-, ⟨-, rfl⟩ | ⟨-, rfl⟩⟩ := eraseTmp_eq_ok h <;> exact ⟨rfl, rfl, rfl, rfl⟩

theorem eraseTmp_shadow {t : BitVec 32} (h : a.eraseTmp t = .ok a') : a'.shadow = a.shadow := by
  obtain ⟨-, ⟨-, rfl⟩ | ⟨-, rfl⟩⟩ := eraseTmp_eq_ok h <;> rfl

theorem appendVar_eq_ok {t : BitVec 32} (h : a.appendVar t deps = .ok a') :
    a.dangling = false ∧
      a' = { a with vars := a.vars ++ [⟨a.nextId, .temp t, deps⟩], nextId := a.nextId + 1 } := by
  rw [appendVar] at h
  cases hd : a.dangling with
  | true => simp [hd] at h
  | false => exact ⟨rfl, by simpa [hd] using h.symm⟩

/-! ### What a helper can do -/

/-- The entries of a temporary are taken out. -/
def dropTmp (a : DepState) (t : IRTemp) : DepState :=
  { a with vars := a.vars.filter fun e => !e.isTemp t }

/-- An entry is put at the end. -/
def pushVar (a : DepState) (t : IRTemp) (deps : List ℤ) : DepState :=
  { a with vars := a.vars ++ [⟨a.nextId, .temp t, deps⟩], nextId := a.nextId + 1 }

theorem appendVar_eq (hd : a.dangling = false) (t : IRTemp) (deps : List ℤ) :
    a.appendVar t deps = .ok (a.pushVar t deps) := by
  simp [appendVar, hd, pushVar]

theorem recordFront_eq_ok {t : BitVec 32} (h : a.recordFront t deps = .ok a') :
    (deps = [] ∧ a' = a) ∨
      (deps ≠ [] ∧ ∃ a₁, a.eraseTmp t = .ok a₁ ∧ a' = a₁.prependVar t deps) := by
  rw [recordFront] at h
  split at h
  · next hnil => exact .inl ⟨hnil, (Except.ok.inj h).symm⟩
  · next hne =>
    obtain ⟨a₁, h₁, h⟩ := bind_eq_ok.mp h
    exact .inr ⟨hne, a₁, h₁, (Except.ok.inj h).symm⟩

theorem recordBack_eq_ok {t : BitVec 32} (h : a.recordBack t deps = .ok a') :
    (deps = [] ∧ a' = a) ∨ (deps ≠ [] ∧
      ∃ a₁, a.eraseTmp t = .ok a₁ ∧ a₁.dangling = false ∧ a' = a₁.pushVar t deps) := by
  rw [recordBack] at h
  split at h
  · next hnil => exact .inl ⟨hnil, (Except.ok.inj h).symm⟩
  · next hne =>
    obtain ⟨a₁, h₁, h⟩ := bind_eq_ok.mp h
    exact .inr ⟨hne, a₁, h₁, appendVar_eq_ok h⟩

/-- **What a helper can have done** with the list `deps` that it has found. -/
inductive Outcome (a : DepState) (deps : List ℤ) : HelperCall → DepState → Prop
  /-- `var_deps` is freed. -/
  | exit : a.dangling = false → Outcome a deps .exit { a with vars := [] }
  /-- There is nothing to record. -/
  | skip {c : HelperCall} : c.records → deps = [] → Outcome a deps c a
  /-- The entries of a temporary are erased. -/
  | erase {t : IRTemp} {a' : DepState} : a.eraseTmp t = .ok a' →
      Outcome a deps (.assgnTmpConst t) a'
  /-- The entries of a temporary are replaced by one in front. -/
  | front {c : HelperCall} {t : IRTemp} {a₁ : DepState} : c.dst? = some t →
      (∀ r, c ≠ .assgnTmpGet t r) → deps ≠ [] → a.eraseTmp t = .ok a₁ →
      Outcome a deps c (a₁.prependVar t deps)
  /-- They are replaced by one at the end. -/
  | back {c : HelperCall} {t : IRTemp} {a₁ : DepState} : c.dst? = some t →
      (∀ r, c ≠ .assgnTmpGet t r) → deps ≠ [] → a.eraseTmp t = .ok a₁ → a₁.dangling = false →
      Outcome a deps c { a₁.pushVar t deps with lost := a₁.lost || c.copies }
  /-- One is put in front, and none is erased. -/
  | get {t r : IRTemp} : deps ≠ [] → Outcome a deps (.assgnTmpGet t r) (a.prependVar t deps)
  /-- A slot is emptied. -/
  | clear {addr : UWord} {a' : DepState} : a.setShadow addr [] = .ok a' →
      Outcome a deps (.storeConst addr) a'
  /-- A slot is set. -/
  | store {addr : UWord} {t : IRTemp} {a' : DepState} : deps ≠ [] →
      a.setShadow addr deps = .ok a' → Outcome a deps (.storeTmp addr t) a'
  /-- The entry of a register is replaced. -/
  | put {r t : IRTemp} : deps ≠ [] →
      Outcome a deps (.putTmp r t) ((a.eraseReg r).prependReg r deps)
  /-- It is erased. -/
  | drop {r : IRTemp} : Outcome a deps (.putCnst r) (a.eraseReg r)

/-- **A helper that gets through has done one of these things.** -/
theorem assign_outcome {c : HelperCall} (h : a.assign deps c = .ok a') : Outcome a deps c a' := by
  cases c with
  | exit =>
    rw [assign] at h
    split at h
    · cases h
    · next hd =>
      cases h
      exact .exit (by simpa using hd)
  | assgnTmpConst t => exact .erase h
  | assgnTmpUnop | assgnTmpBinop | assgnTmpTriop =>
    obtain ⟨hnil, rfl⟩ | ⟨hne, a₁, h₁, rfl⟩ := recordFront_eq_ok h
    · exact .skip rfl hnil
    · exact .front rfl (by simp) hne h₁
  | assgnTmpLoad t addr =>
    obtain ⟨hnil, rfl⟩ | ⟨hne, a₁, h₁, hd₁, rfl⟩ := recordBack_eq_ok h
    · exact .skip rfl hnil
    · have hback := Outcome.back (c := .assgnTmpLoad t addr) rfl (by simp) hne h₁ hd₁
      simpa [HelperCall.copies, pushVar] using hback
  | assgnTmpQop t t₁ t₂ t₃ t₄ =>
    obtain ⟨a₂, h₂, h⟩ := bind_eq_ok.mp h
    obtain rfl := Except.ok.inj h
    obtain ⟨hnil, rfl⟩ | ⟨hne, a₁, h₁, hd₁, rfl⟩ := recordBack_eq_ok h₂
    · simpa [hnil] using Outcome.skip (a := a₂) rfl hnil
    · have hback := Outcome.back (c := .assgnTmpQop t t₁ t₂ t₃ t₄) rfl (by simp) hne h₁ hd₁
      simpa [HelperCall.copies, hne] using hback
  | storeConst addr => exact .clear h
  | storeTmp addr t =>
    rw [assign] at h
    split at h
    · next hnil => exact Except.ok.inj h ▸ .skip rfl hnil
    · next hne => exact .store hne h
  | putTmp r t =>
    rw [assign] at h
    split at h
    · next hnil => exact Except.ok.inj h ▸ .skip rfl hnil
    · next hne => exact Except.ok.inj h ▸ .put hne
  | putCnst r => exact Except.ok.inj h ▸ .drop
  | assgnTmpGet t r =>
    rw [assign] at h
    split at h
    · next hnil => exact Except.ok.inj h ▸ .skip rfl hnil
    · next hne => exact Except.ok.inj h ▸ .get hne

/-- **A helper changes nothing that belongs to the hooks.** -/
theorem call_sameHooks {c : HelperCall} (h : a.call c = .ok a') : SameHooks a a' := by
  obtain ⟨deps, -, h⟩ := bind_eq_ok.mp h
  cases assign_outcome h with
  | exit | skip | get | put | drop => exact ⟨rfl, rfl, rfl, rfl⟩
  | erase he => exact eraseTmp_sameHooks he
  | front _ _ _ he => exact (eraseTmp_sameHooks he).trans ⟨rfl, rfl, rfl, rfl⟩
  | back _ _ _ he => exact (eraseTmp_sameHooks he).trans ⟨rfl, rfl, rfl, rfl⟩
  | clear hset | store _ hset =>
    obtain ⟨-, tb, rfl, -⟩ := setShadow_eq_ok hset
    exact ⟨rfl, rfl, rfl, rfl⟩

/-! ### What the recorded lists are like -/

/-- Every list that is recorded has the property. -/
structure ForallDeps (P : List ℤ → Prop) (a : DepState) : Prop where
  /-- The list of every entry. -/
  all : ∀ e ∈ a.all, P e.deps
  /-- The list of every slot. -/
  shadow : ∀ k, P (a.shadow.slot [] k)

variable {P : List ℤ → Prop}

/-- A step that records nothing new, or what has the property. -/
theorem ForallDeps.of_all (h : ForallDeps P a) (hall : ∀ e ∈ a'.all, e ∈ a.all ∨ P e.deps)
    (hsh : a'.shadow = a.shadow) : ForallDeps P a' where
  all e he := (hall e he).elim (h.all e) id
  shadow k := by rw [hsh]; exact h.shadow k

/-- A step that sets slots to what has the property. -/
theorem ForallDeps.of_shadow (h : ForallDeps P a) (hall : a'.all = a.all)
    (hsh : ∀ k, a'.shadow.slot [] k = a.shadow.slot [] k ∨ P (a'.shadow.slot [] k)) :
    ForallDeps P a' where
  all e he := h.all e (by rwa [hall] at he)
  shadow k := (hsh k).elim (fun hk => by rw [hk]; exact h.shadow k) id

/-- A property of lists that holds of nothing and is kept by merging. -/
structure ListProp (P : List ℤ → Prop) : Prop where
  /-- It holds of the empty list. -/
  nil : P []
  /-- Merging keeps it. -/
  merge : ∀ {vs ws}, P vs → P ws → P (mergeVals vs ws)

section ForallDeps

variable (hP : ListProp P) (h : ForallDeps P a)

include hP h

theorem findTmp_forall {t : BitVec 32} (hf : a.findTmp t = .ok vs) : P vs := by
  rw [findTmp] at hf
  split at hf
  · next e he =>
    rw [← Except.ok.inj hf]
    exact h.all e (mem_all.mpr (Or.inl (List.mem_of_find?_eq_some he)))
  · split at hf
    · cases hf
    · rw [← Except.ok.inj hf]
      exact hP.nil

theorem findReg_forall (r : BitVec 32) : P (a.findReg r) := by
  rw [findReg]
  cases he : a.regs.find? (Entry.isReg r) with
  | none => exact hP.nil
  | some e => exact h.all e (mem_all.mpr (Or.inr (Or.inl (List.mem_of_find?_eq_some he))))

theorem getShadow_forall (hg : a.getShadow addr = .ok vs) : P vs := by
  rcases getShadow_eq_ok hg with rfl | ⟨k, rfl⟩
  · exact hP.nil
  · exact h.shadow k

theorem mergeTmps_forall {ts : List (BitVec 32)} (hvs : P vs) (hm : a.mergeTmps vs ts = .ok ws) :
    P ws := by
  induction ts generalizing vs with
  | nil => rwa [← Except.ok.inj hm]
  | cons t ts ih =>
    obtain ⟨us, hus, hm⟩ := bind_eq_ok.mp hm
    exact ih (hP.merge hvs (findTmp_forall hP h hus)) hm

theorem depsOf_forall {ts : List (BitVec 32)} (hd : a.depsOf ts = .ok vs) : P vs := by
  cases ts with
  | nil =>
    rw [← Except.ok.inj hd]
    exact hP.nil
  | cons t ts =>
    obtain ⟨us, hus, hm⟩ := bind_eq_ok.mp hd
    exact mergeTmps_forall hP h (findTmp_forall hP h hus) hm

/-- **What a helper looks up has the property.** -/
theorem source_forall {c : HelperCall} (hs : a.source c = .ok vs) : P vs := by
  cases c with
  | assgnTmpLoad => exact getShadow_forall hP h hs
  | assgnTmpGet t r =>
    rw [← Except.ok.inj hs]
    exact findReg_forall hP h r
  | exit | assgnTmpConst | storeConst | putCnst =>
    rw [← Except.ok.inj hs]
    exact hP.nil
  | assgnTmpUnop | assgnTmpBinop | assgnTmpTriop | assgnTmpQop | storeTmp | putTmp =>
    rw [source] at hs
    exact depsOf_forall hP h hs

end ForallDeps

theorem ForallDeps.eraseTmp {t : BitVec 32} (h : ForallDeps P a) (he : a.eraseTmp t = .ok a') :
    ForallDeps P a' := by
  obtain ⟨-, ⟨-, rfl⟩ | ⟨-, rfl⟩⟩ := eraseTmp_eq_ok he
  all_goals
    refine h.of_all (fun e hmem => Or.inl ?_) rfl
    simp only [mem_all, List.mem_filter, List.not_mem_nil, false_or] at hmem ⊢
    tauto

theorem ForallDeps.eraseReg (h : ForallDeps P a) (r : BitVec 32) : ForallDeps P (a.eraseReg r) := by
  refine h.of_all (fun e hmem => Or.inl ?_) rfl
  simp only [mem_all, DepState.eraseReg, List.mem_filter] at hmem ⊢
  tauto

theorem ForallDeps.prependVar (h : ForallDeps P a) (t : BitVec 32) (hdeps : P deps) :
    ForallDeps P (a.prependVar t deps) := by
  refine h.of_all (fun e hmem => ?_) rfl
  rcases List.mem_cons.mp hmem with rfl | hmem
  · exact Or.inr hdeps
  · exact Or.inl hmem

theorem ForallDeps.prependReg (h : ForallDeps P a) (r : BitVec 32) (hdeps : P deps) :
    ForallDeps P (a.prependReg r deps) := by
  refine h.of_all (fun e hmem => ?_) rfl
  simp only [mem_all, DepState.prependReg, List.mem_cons] at hmem ⊢
  rcases hmem with hmem | (rfl | hmem) | hmem
  · tauto
  · exact Or.inr hdeps
  · tauto
  · tauto

theorem ForallDeps.pushVar (h : ForallDeps P a) (t : IRTemp) (hdeps : P deps) :
    ForallDeps P (a.pushVar t deps) := by
  refine h.of_all (fun e hmem => ?_) rfl
  simp only [mem_all, DepState.pushVar, List.mem_append, List.mem_singleton] at hmem ⊢
  rcases hmem with (hmem | rfl) | hmem | hmem
  · tauto
  · exact Or.inr hdeps
  · tauto
  · tauto

theorem ForallDeps.setShadow (h : ForallDeps P a) (hdeps : P deps)
    (hs : a.setShadow addr deps = .ok a') : ForallDeps P a' := by
  obtain ⟨ha, tb, rfl, hslot⟩ := setShadow_eq_ok hs
  refine h.of_shadow rfl fun k => ?_
  simp only [hslot, Function.update_apply]
  split
  · exact Or.inr hdeps
  · exact Or.inl rfl

/-- **What a helper records has the property.** -/
theorem call_forallDeps (hP : ListProp P) {c : HelperCall} (h : ForallDeps P a)
    (hc : a.call c = .ok a') : ForallDeps P a' := by
  obtain ⟨deps, hsource, hc⟩ := bind_eq_ok.mp hc
  have hdeps := source_forall hP h hsource
  cases assign_outcome hc with
  | exit =>
    exact h.of_all (fun e hmem => Or.inl (List.mem_append.mpr
      ((List.mem_append.mp hmem).imp_left (List.mem_append_right _)))) rfl
  | skip => exact h
  | erase he => exact h.eraseTmp he
  | @front _ t _ _ _ _ he => exact (h.eraseTmp he).prependVar t hdeps
  | @back _ t _ _ _ _ he =>
    exact ((h.eraseTmp he).pushVar t hdeps).of_all (fun e hmem => Or.inl hmem) rfl
  | get => exact h.prependVar _ hdeps
  | clear hs => exact h.setShadow hP.nil hs
  | store _ hs => exact h.setShadow hdeps hs
  | put => exact (h.eraseReg _).prependReg _ hdeps
  | drop => exact h.eraseReg _

/-! ### The faults of a helper -/

theorem findTmp_error {t : BitVec 32} {f : Fault} (h : a.findTmp t = .error f) : f = .dangling := by
  rw [findTmp] at h
  split at h
  · cases h
  · split at h
    · exact (Except.error.inj h).symm
    · cases h

theorem depsOf_error {ts : List (BitVec 32)} {f : Fault} (h : a.depsOf ts = .error f) :
    f = .dangling := by
  have hmerge : ∀ {ts vs}, a.mergeTmps vs ts = .error f → f = .dangling := by
    intro ts
    induction ts with
    | nil => exact fun h => by cases h
    | cons t ts ih =>
      intro vs h
      rw [mergeTmps] at h
      cases hf : a.findTmp t with
      | error f' =>
        rw [hf] at h
        exact findTmp_error (hf.trans h)
      | ok ws =>
        rw [hf] at h
        exact ih h
  cases ts with
  | nil => cases h
  | cons t ts =>
    rw [depsOf] at h
    cases hf : a.findTmp t with
    | error f' =>
      rw [hf] at h
      exact findTmp_error (hf.trans h)
    | ok ws =>
      rw [hf] at h
      exact hmerge h

theorem eraseTmp_error {t : BitVec 32} {f : Fault} (h : a.eraseTmp t = .error f) :
    f = .dangling := by
  simp only [eraseTmp] at h
  split at h
  · exact (Except.error.inj h).symm
  · split at h
    · cases h
    · split at h <;> cases h

theorem recordFront_error {t : BitVec 32} {f : Fault} (h : a.recordFront t deps = .error f) :
    f = .dangling := by
  rw [recordFront] at h
  split at h
  · cases h
  · cases he : a.eraseTmp t with
    | error f' =>
      rw [he] at h
      exact eraseTmp_error (he.trans h)
    | ok a₁ =>
      rw [he] at h
      cases h

theorem recordBack_error {t : BitVec 32} {f : Fault} (h : a.recordBack t deps = .error f) :
    f = .dangling := by
  rw [recordBack] at h
  split at h
  · cases h
  · cases he : a.eraseTmp t with
    | error f' =>
      rw [he] at h
      exact eraseTmp_error (he.trans h)
    | ok a₁ =>
      rw [he, ok_bind, appendVar] at h
      split at h
      · exact (Except.error.inj h).symm
      · cases h

/-- **A helper stops only at a freed node or outside the shadow table.** -/
theorem call_error {c : HelperCall} {f : Fault} (h : a.call c = .error f) :
    f = .dangling ∨ f = .bounds ∧ ∃ addr, c.addr? = some addr ∧ ¬InTable addr := by
  have hset : ∀ {addr deps}, a.setShadow addr deps = .error f → f = .bounds ∧ ¬InTable addr := by
    intro addr deps h
    by_cases ha : InTable addr
    · obtain ⟨tb, hok, -⟩ := a.setShadow_of_inTable ha deps
      rw [hok] at h
      cases h
    · rw [setShadow_of_notInTable ha] at h
      exact ⟨(Except.error.inj h).symm, ha⟩
  rw [call] at h
  cases hs : a.source c with
  | error f' =>
    rw [hs] at h
    obtain rfl : f' = f := Except.error.inj h
    cases c with
    | assgnTmpLoad t addr =>
      obtain ⟨hf, ha⟩ := getShadow_error hs
      exact Or.inr ⟨hf, addr, rfl, ha⟩
    | exit | assgnTmpConst | storeConst | putCnst | assgnTmpGet => cases hs
    | assgnTmpUnop | assgnTmpBinop | assgnTmpTriop | assgnTmpQop | storeTmp | putTmp =>
      rw [source] at hs
      exact Or.inl (depsOf_error hs)
  | ok deps =>
    rw [hs, ok_bind] at h
    cases c with
    | exit =>
      simp only [assign] at h
      split at h
      · exact Or.inl (Except.error.inj h).symm
      · cases h
    | assgnTmpConst t => exact Or.inl (eraseTmp_error h)
    | assgnTmpLoad => exact Or.inl (recordBack_error h)
    | assgnTmpQop t =>
      rw [assign] at h
      cases hr : a.recordBack t deps with
      | error f' =>
        rw [hr] at h
        exact Or.inl (recordBack_error (hr.trans h))
      | ok a₁ =>
        rw [hr] at h
        cases h
    | assgnTmpUnop | assgnTmpBinop | assgnTmpTriop => exact Or.inl (recordFront_error h)
    | storeConst addr =>
      obtain ⟨hf, ha⟩ := hset h
      exact Or.inr ⟨hf, addr, rfl, ha⟩
    | storeTmp addr t =>
      simp only [assign] at h
      split at h
      · cases h
      · obtain ⟨hf, ha⟩ := hset h
        exact Or.inr ⟨hf, addr, rfl, ha⟩
    | putTmp | assgnTmpGet =>
      simp only [assign] at h
      split at h <;> cases h
    | putCnst => cases h

end DepState

end DepLeak

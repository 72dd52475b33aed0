import DepLeak.Dep.Locality

/-!
# Helper calls that spare the head of the list

`read_dep_node_erase_tmp` goes wrong in one place: where the first entry of `var_deps` is
one it erases. A helper call that does not get there (`DepLeak.ErasesHead`) does, in a state
in which nothing dangles, what it is written to do: it takes the old entries of its
temporary out and puts the new one in. Said once here, with what comes out of it
(`DepLeak.DepState.exists_assign`), for the results about runs of such calls.
-/

namespace DepLeak

open LinkedHeap Runs Flow

/-! ### Erasing calls -/

/-- The helper erases the entries of the temporary it assigns. -/
def Erases (s : State) : HelperCall → Prop
  | .assgnTmpConst _ => True
  | .assgnTmpGet _ _ => False
  | c => ∃ asg, c.assignment = some asg ∧ union (tracked s) asg.srcs ≠ ∅

/-- **The helper erases the first entry of `var_deps`.** -/
def ErasesHead (s : State) (c : HelperCall) : Prop :=
  ∃ t, c.dst? = some t ∧ Erases s c ∧ HeadIs s t

/-- The address whose slot a helper sets that has found `deps`, with what it sets it to. -/
def HelperCall.stores? (deps : List ℤ) : HelperCall → Option (UWord × List ℤ)
  | .storeConst addr => some (addr, [])
  | .storeTmp addr _ => if deps = [] then none else some (addr, deps)
  | _ => none

/-- What it leaves at a register, if that is its register and it does anything. -/
def HelperCall.leaves? (deps : List ℤ) (offset : BitVec 32) : HelperCall → Option (List ℤ)
  | .putTmp r _ => if r = offset ∧ deps ≠ [] then some deps else none
  | .putCnst r => if r = offset then some [] else none
  | _ => none

/-- The helper keeps no pointer to a list that it has built. -/
def Loses (s : State) : HelperCall → Prop
  | .assgnTmpQop _ t₁ t₂ t₃ t₄ => union (tracked s) [.tmp t₁, .tmp t₂, .tmp t₃, .tmp t₄] ≠ ∅
  | _ => False

namespace DepState

variable {a a' : DepState} {t t' : IRTemp} {deps : List ℤ} {c : HelperCall}

/-- The same on lists, for a helper that has looked up `deps`. -/
def SparesHead (a : DepState) (deps : List ℤ) : HelperCall → Prop
  | .assgnTmpConst t => a.vars.head?.any (Entry.isTemp t) = false
  | .assgnTmpGet _ _ => True
  | c => deps ≠ [] → ∀ t, c.dst? = some t → a.vars.head?.any (Entry.isTemp t) = false

/-! ### What the updates come to -/

theorem recordFront_eq (hd : a.dangling = false)
    (hhead : deps ≠ [] → a.vars.head?.any (Entry.isTemp t) = false) :
    a.recordFront t deps = .ok (if deps = [] then a else (a.dropTmp t).prependVar t deps) := by
  rw [recordFront]
  split
  · rfl
  · next hne =>
    rw [eraseTmp_of_head hd (hhead hne)]
    rfl

theorem recordBack_eq (hd : a.dangling = false)
    (hhead : deps ≠ [] → a.vars.head?.any (Entry.isTemp t) = false) :
    a.recordBack t deps = .ok (if deps = [] then a else (a.dropTmp t).pushVar t deps) := by
  rw [recordBack]
  split
  · rfl
  · next hne =>
    rw [eraseTmp_of_head hd (hhead hne)]
    exact appendVar_eq (a := a.dropTmp t) hd t deps

/-- In a sound state a helper finds what it looks up, inside the table. -/
theorem source_ok (hd : a.dangling = false)
    (hin : ∀ addr, c.addr? = some addr → InTable addr) : ∃ deps, a.source c = .ok deps := by
  cases c with
  | assgnTmpLoad t addr => exact ⟨_, getShadow_of_inTable (hin addr rfl)⟩
  | exit | assgnTmpConst | storeConst | putCnst | assgnTmpGet => exact ⟨_, rfl⟩
  | assgnTmpUnop | assgnTmpBinop | assgnTmpTriop | assgnTmpQop | storeTmp | putTmp =>
    rw [source]
    exact depsOf_ok hd _

/-- A helper that erases and then records spares the head. -/
theorem SparesHead.head (h : a.SparesHead deps c) (hdst : c.dst? = some t)
    (hget : ∀ r, c ≠ .assgnTmpGet t r) (hne : deps ≠ []) :
    a.vars.head?.any (Entry.isTemp t) = false := by
  cases c with
  | assgnTmpConst t' =>
    cases hdst
    exact h
  | assgnTmpGet t' r =>
    cases hdst
    exact absurd rfl (hget r)
  | _ => exact h hne t hdst

/-- A helper that sets a slot does nothing else. -/
theorem assign_of_stores {addr : UWord} {vs : List ℤ} (h : c.stores? deps = some (addr, vs)) :
    a.assign deps c = a.setShadow addr vs := by
  cases c with
  | storeConst addr' =>
    cases h
    rfl
  | storeTmp addr' t =>
    simp only [HelperCall.stores?] at h
    split at h
    · cases h
    · next hne =>
      cases h
      rw [assign, if_neg hne]
  | _ => cases h

/-- The slot that is set is that of the address the helper is given. -/
theorem addr_of_stores {addr : UWord} {vs : List ℤ} (h : c.stores? deps = some (addr, vs)) :
    c.addr? = some addr := by
  cases c with
  | storeConst addr' =>
    cases h
    rfl
  | storeTmp addr' t =>
    simp only [HelperCall.stores?] at h
    split at h <;> cases h
    rfl
  | _ => cases h

/-- **A helper that spares the head** of a list gets through, if it sets no slot outside the
table. -/
theorem exists_assign (hd : a.dangling = false)
    (hin : ∀ addr vs, c.stores? deps = some (addr, vs) → InTable addr)
    (hhead : a.SparesHead deps c) : ∃ a', a.assign deps c = .ok a' := by
  have hset : ∀ {addr vs}, c.stores? deps = some (addr, vs) → ∃ a', a.assign deps c = .ok a' := by
    intro addr vs hs
    obtain ⟨tb, h, -⟩ := a.setShadow_of_inTable (hin addr vs hs) vs
    exact ⟨_, (assign_of_stores hs).trans h⟩
  cases c with
  | exit => exact ⟨{ a with vars := [] }, by rw [assign, hd]; rfl⟩
  | assgnTmpConst t => exact ⟨_, eraseTmp_of_head hd hhead⟩
  | assgnTmpLoad t => exact ⟨_, recordBack_eq hd fun h => hhead h t rfl⟩
  | assgnTmpUnop t | assgnTmpBinop t | assgnTmpTriop t =>
    exact ⟨_, recordFront_eq hd fun h => hhead h t rfl⟩
  | assgnTmpQop t =>
    rw [assign, recordBack_eq hd fun h => hhead h t rfl]
    exact ⟨_, rfl⟩
  | storeConst => exact hset rfl
  | storeTmp =>
    by_cases hnil : deps = []
    · exact ⟨a, by rw [assign, if_pos hnil]⟩
    · exact hset (by rw [HelperCall.stores?, if_neg hnil])
  | putTmp | assgnTmpGet =>
    rw [assign]
    split <;> exact ⟨_, rfl⟩
  | putCnst => exact ⟨_, rfl⟩

/-- What erasing comes to where it spares the head. -/
theorem eraseTmp_spared {a₁ : DepState} (hd : a.dangling = false)
    (hhead : a.vars.head?.any (Entry.isTemp t) = false) (h : a.eraseTmp t = .ok a₁) :
    a₁ = a.dropTmp t := Except.ok.inj (h.symm.trans (eraseTmp_of_head hd hhead))

/-- **It leaves a list**, and loses nothing but the list of which it records a copy. -/
theorem assign_kept (hd : a.dangling = false) (hhead : a.SparesHead deps c)
    (h : a.assign deps c = .ok a') :
    a'.dangling = false ∧ (a'.lost = true → a.lost = true ∨ deps ≠ [] ∧ c.copies = true) := by
  cases assign_outcome h with
  | exit | skip | get | put | drop => exact ⟨hd, .inl⟩
  | erase he =>
    obtain rfl := eraseTmp_spared hd hhead he
    exact ⟨hd, .inl⟩
  | front hdst hget hne he =>
    obtain rfl := eraseTmp_spared hd (hhead.head hdst hget hne) he
    exact ⟨hd, .inl⟩
  | back hdst hget hne he =>
    obtain rfl := eraseTmp_spared hd (hhead.head hdst hget hne) he
    refine ⟨hd, fun hlost => ?_⟩
    exact ((Bool.or_eq_true _ _).mp hlost).imp_right fun hcopies => ⟨hne, hcopies⟩
  | clear hset | store _ hset =>
    obtain ⟨-, tb, rfl, -⟩ := setShadow_eq_ok hset
    exact ⟨hd, .inl⟩

/-! ### What a helper does to the slots and the registers -/

theorem setShadow_congr {addr : UWord} {vs : List ℤ} (h : a.setShadow addr vs = .ok a')
    {b b' : DepState} (h' : b.setShadow addr vs = .ok b') (hsame : a.shadow = b.shadow) :
    a'.shadow = b'.shadow := by
  rw [setShadow, hsame] at h
  rw [setShadow] at h'
  obtain ⟨tb, htb, h⟩ := bind_eq_ok.mp h
  rw [htb, ok_bind] at h'
  obtain ⟨old, hold, h⟩ := bind_eq_ok.mp h
  rw [hold, ok_bind] at h'
  obtain ⟨tb', htb', h⟩ := bind_eq_ok.mp h
  rw [htb', ok_bind] at h'
  cases h
  cases h'
  rfl

theorem assign_shadow_of_none (hs : c.stores? deps = none) (h : a.assign deps c = .ok a') :
    a'.shadow = a.shadow := by
  cases assign_outcome h with
  | exit | skip | get | put | drop => rfl
  | erase he => exact eraseTmp_shadow he
  | front _ _ _ he =>
    have hsame := eraseTmp_shadow he
    exact hsame
  | back _ _ _ he =>
    have hsame := eraseTmp_shadow he
    exact hsame
  | clear => cases hs
  | store hne => simp [HelperCall.stores?, hne] at hs

/-- **What a helper does to the shadow table** is settled by the table and by what it has
found. -/
theorem assign_shadow (h : a.assign deps c = .ok a') {b b' : DepState}
    (h' : b.assign deps c = .ok b') (hsame : a.shadow = b.shadow) : a'.shadow = b'.shadow := by
  cases hs : c.stores? deps with
  | none => rw [assign_shadow_of_none hs h, assign_shadow_of_none hs h', hsame]
  | some x =>
    obtain ⟨addr, vs⟩ := x
    rw [assign_of_stores hs] at h h'
    exact setShadow_congr h h' hsame

/-- A slot that is set is inside the table. -/
theorem inTable_of_stores {addr : UWord} {vs : List ℤ} (hs : c.stores? deps = some (addr, vs))
    (h : a.assign deps c = .ok a') : InTable addr := by
  rw [assign_of_stores hs] at h
  exact (setShadow_eq_ok h).1

/-- **What a helper does to the registers.** -/
theorem findReg_assign (hspare : a.dangling = false → a.SparesHead deps c)
    (h : a.assign deps c = .ok a') (r : BitVec 32) :
    a'.findReg r = (c.leaves? deps r).getD (a.findReg r) := by
  -- where the first entry is spared, the others are what is erased
  have herase : ∀ {t a₁}, a.eraseTmp t = .ok a₁ →
      (a.dangling = false → a.vars.head?.any (Entry.isTemp t) = false) → a₁.regs = a.regs := by
    intro t a₁ he hhead
    obtain ⟨hd, ⟨-, rfl⟩ | ⟨htrue, -⟩⟩ := eraseTmp_eq_ok he
    · rfl
    · rw [hhead hd] at htrue
      cases htrue
  have hsame : c.leaves? deps r = none → a'.regs = a.regs →
      a'.findReg r = (c.leaves? deps r).getD (a.findReg r) := by
    intro hnone hregs
    rw [hnone, Option.getD_none, findReg, findReg, hregs]
  have htmp : ∀ {t}, c.dst? = some t → c.leaves? deps r = none := fun hdst => by
    cases c <;> first | rfl | cases hdst
  cases assign_outcome h with
  | exit => exact hsame rfl rfl
  | skip hrec hnil =>
    refine hsame ?_ rfl
    cases c with
    | putTmp => exact if_neg fun hne => hne.2 hnil
    | putCnst => cases hrec
    | _ => rfl
  | get => exact hsame rfl rfl
  | erase he => exact hsame rfl (herase he hspare)
  | front hdst hget hne he =>
    have hregs := herase he fun hd => (hspare hd).head hdst hget hne
    exact hsame (htmp hdst) hregs
  | back hdst hget hne he =>
    have hregs := herase he fun hd => (hspare hd).head hdst hget hne
    exact hsame (htmp hdst) hregs
  | clear hset | store _ hset =>
    obtain ⟨-, tb, rfl, -⟩ := setShadow_eq_ok hset
    exact hsame rfl rfl
  | @put r' t hne =>
    rw [findReg_prependReg, findReg_eraseReg, HelperCall.leaves?]
    rcases eq_or_ne r r' with rfl | hr
    · simp [hne]
    · simp [hr, hr.symm]
  | @drop r' =>
    rw [findReg_eraseReg, HelperCall.leaves?]
    rcases eq_or_ne r r' with rfl | hr
    · simp
    · simp [hr, hr.symm]

/-! ### What a helper does to the other temporaries -/

theorem findTmp_dropTmp_of_ne (hne : t ≠ t') : (a.dropTmp t').findTmp t = a.findTmp t :=
  findTmp_filter_of_ne hne

theorem findTmp_pushVar_of_ne (hne : t ≠ t') : (a.pushVar t' deps).findTmp t = a.findTmp t := by
  simp only [pushVar, findTmp, List.find?_append, List.find?_cons, isTemp_eq_false hne,
    List.find?_nil, Option.or_none]
  rfl

theorem call_exit_eq_ok (h : a.call .exit = .ok a') :
    a.dangling = false ∧ a' = { a with vars := [] } := by
  change (if a.dangling then Except.error Fault.dangling else .ok { a with vars := [] }) = _ at h
  cases hd : a.dangling with
  | true => simp [hd] at h
  | false => exact ⟨rfl, by simpa [hd] using h.symm⟩

/-- **A helper leaves the lists of the other temporaries alone**, if it spares the head and is
not that of an exit. -/
theorem assign_frame (hd : a.dangling = false) (hhead : a.SparesHead deps c) (hexit : c ≠ .exit)
    (h : a.assign deps c = .ok a') (ht : c.dst? ≠ some t) : a'.findTmp t = a.findTmp t := by
  have hne : ∀ {t'}, c.dst? = some t' → t ≠ t' := by
    rintro t' hdst rfl
    exact ht hdst
  cases assign_outcome h with
  | exit => exact absurd rfl hexit
  | skip | put | drop => rfl
  | get => exact findTmp_prependVar_of_ne (hne rfl)
  | erase he =>
    obtain rfl := eraseTmp_spared hd hhead he
    exact findTmp_dropTmp_of_ne (hne rfl)
  | front hdst hget hdeps he =>
    obtain rfl := eraseTmp_spared hd (hhead.head hdst hget hdeps) he
    rw [findTmp_prependVar_of_ne (hne hdst), findTmp_dropTmp_of_ne (hne hdst)]
  | back hdst hget hdeps he =>
    obtain rfl := eraseTmp_spared hd (hhead.head hdst hget hdeps) he
    exact (findTmp_pushVar_of_ne (hne hdst)).trans (findTmp_dropTmp_of_ne (hne hdst))
  | clear hset | store _ hset =>
    obtain ⟨hd', hv'⟩ := setShadow_same hset
    simp only [findTmp, hd', hv']

/-! ### What a helper does to its own temporary -/

/-- A temporary without an entry can be assigned anywhere. -/
theorem sparesHead_of_fresh (h : ∀ t, c.dst? = some t → a.Fresh t) : a.SparesHead deps c := by
  cases c with
  | assgnTmpConst t => exact (h t rfl).head
  | assgnTmpGet => trivial
  | _ => exact fun _ t ht => (h t ht).head

/-- **The temporary gets what was found**, if it has no entry. -/
theorem findTmp_assign (hd : a.dangling = false) (hs : a.source c = .ok deps)
    (hdst : c.dst? = some t) (hfresh : a.Fresh t) (h : a.assign deps c = .ok a') :
    a'.findTmp t = .ok deps := by
  have herase : ∀ {t' a₁}, c.dst? = some t' → a.eraseTmp t' = .ok a₁ → t' = t ∧ a₁ = a := by
    intro t' a₁ hdst' he
    obtain rfl := Option.some.inj (hdst'.symm.trans hdst)
    exact ⟨rfl, Except.ok.inj (he.symm.trans (eraseTmp_of_fresh hd hfresh))⟩
  cases assign_outcome h with
  | exit | clear | store | put | drop => cases hdst
  | skip _ hnil => rw [hnil, findTmp_of_fresh hd hfresh]
  | erase he =>
    obtain ⟨rfl, rfl⟩ := herase rfl he
    obtain rfl := Except.ok.inj hs
    exact findTmp_of_fresh hd hfresh
  | front hdst' _ _ he =>
    obtain ⟨rfl, rfl⟩ := herase hdst' he
    exact findTmp_prependVar
  | back hdst' _ _ he =>
    obtain ⟨rfl, rfl⟩ := herase hdst' he
    have hpush := findTmp_appendVar hfresh (appendVar_eq hd _ deps)
    exact hpush
  | get =>
    cases hdst
    exact findTmp_prependVar

/-- Another one gets no entry. -/
theorem Fresh.assign (hfresh : a.Fresh t) (h : a.assign deps c = .ok a') (ht : c.dst? ≠ some t) :
    a'.Fresh t := by
  have herase : ∀ {t' a₁}, a.eraseTmp t' = .ok a₁ → a₁.Fresh t := by
    intro t' a₁ he
    obtain ⟨-, ⟨-, rfl⟩ | ⟨-, rfl⟩⟩ := eraseTmp_eq_ok he
    · exact fun e he => hfresh e (List.mem_of_mem_filter he)
    · exact fun e he => absurd he List.not_mem_nil
  have hother : ∀ {t'} (i : ℕ), c.dst? = some t' →
      (⟨i, .temp t', deps⟩ : Entry).isTemp t = false := fun i hdst =>
    isTemp_eq_false (fun heq => ht (by rw [hdst, heq])) i
  cases assign_outcome h with
  | exit => exact fun e he => absurd he List.not_mem_nil
  | skip | put | drop => exact hfresh
  | erase he => exact herase he
  | front hdst _ _ he =>
    exact List.forall_mem_cons.mpr ⟨hother _ hdst, herase he⟩
  | back hdst _ _ he =>
    exact List.forall_mem_append.mpr
      ⟨herase he, List.forall_mem_singleton.mpr (hother _ hdst)⟩
  | get => exact List.forall_mem_cons.mpr ⟨hother _ rfl, hfresh⟩
  | clear hset | store _ hset =>
    obtain ⟨-, tb, rfl, -⟩ := setShadow_eq_ok hset
    exact hfresh

end DepState

/-! ### From the lists to the state -/

variable {s : State} {a : DepState} {c : HelperCall} {deps : List ℤ}

/-- A helper that has found something erases. -/
theorem Rep.sparesHead (hr : Rep s a) (hd : a.dangling = false) (hs : a.source c = .ok deps)
    (h : ¬ErasesHead s c) : a.SparesHead deps c := by
  have hhead : ∀ t, c.dst? = some t → Erases s c → a.vars.head?.any (Entry.isTemp t) = false :=
    fun t ht he => by
      rw [← Bool.not_eq_true, ← headIs_iff hr hd]
      exact fun hi => h ⟨t, ht, he, hi⟩
  have hne : ∀ {asg}, c.assignment = some asg → deps ≠ [] → union (tracked s) asg.srcs ≠ ∅ := by
    intro asg hasg hdeps hempty
    rw [tracked_eq_view hr, ← DepState.source_union hasg hs] at hempty
    exact hdeps (List.eq_nil_iff_forall_not_mem.mpr fun v hv => by
      have hv : v ∈ {v | v ∈ deps} := hv
      rw [hempty] at hv
      exact hv)
  cases c with
  | assgnTmpConst t => exact hhead t rfl trivial
  | assgnTmpGet t r => trivial
  | exit | storeConst | storeTmp | putTmp | putCnst => exact fun _ t ht => by cases ht
  | assgnTmpLoad | assgnTmpUnop | assgnTmpBinop | assgnTmpTriop | assgnTmpQop =>
    exact fun hdeps t ht => hhead t ht ⟨_, rfl, hne rfl hdeps⟩

end DepLeak

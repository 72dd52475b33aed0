import DepLeak.Dep.Report
import DepLeak.Dep.ShadowMap

/-!
# What a `read()` leaves on the bytes of memory

The hook before a `read()` marks every byte that was asked for, and the hook after it, where
the result is known, does nothing. So a byte ends up as it should exactly where what was
asked for and what was filled agree on it (`DepLeak.taintsExactly_iff`) – up to the upper
halves of addresses, which the shadow table forgets, and to the addresses it has no slot
for, which read as empty until their page is allocated.

That a byte has *not* been marked can be told from its list, since the number of this
`read()` is a new one (`DepLeak.Counted`).
-/

namespace DepLeak

open LinkedHeap Runs

/-! ### The property -/

/-- The list of a byte. -/
def byteDeps (s : State) (x : UWord) : Exec (List ℤ) := do
  let q ← getShadowMem s x
  s.ints.toList q

/-- A `read()`, as the tool is told of it: before the call and after it. -/
def taRead (s : State) (args : ℕ → UWord) : Exec State := do
  let s ← taPreCall s nrRead args
  taPostCall s nrRead args

/-- A `read()` asks for the byte. -/
def Asked (args : ℕ → UWord) (x : UWord) : Prop := InRange (args 1) (args 2).toNat x

/-- A `read()` that returns `r` has filled the byte: one of the first `r` of the buffer. It
has filled none if `r` is 0 or an error. -/
def Filled (args : ℕ → UWord) (r : ℤ) (x : UWord) : Prop := InRange (args 1) r.toNat x

/-- **The byte is as a `read()` should leave it**: with the number of this `read()` and no
other if it was filled, and else as it was. -/
def TaintsExactly (s : State) (args : ℕ → UWord) (r : ℤ) (x : UWord) : Prop :=
  ∃ s', taRead s args = .ok s' ∧ (Filled args r x → byteDeps s' x = .ok [s'.readN]) ∧
    (¬Filled args r x → byteDeps s' x = byteDeps s x)

/-- **What was asked for and what was filled agree on the byte.** -/
structure FilledAsAsked (s : State) (args : ℕ → UWord) (r : ℤ) (x : UWord) : Prop where
  /-- There is a number left for this `read()`. -/
  counts : s.readN + 1 < 2 ^ 31
  /-- The buffer is inside the shadow table. -/
  inTable : ∀ y, Asked args y → InTable y
  /-- The byte was filled exactly if it has a slot that was asked for. -/
  same : Filled args r x ↔ ∃ y, Asked args y ∧ y.truncate 32 = x.truncate 32
  /-- If the byte has no slot, and its page was not there, the page is not allocated. -/
  page : ¬InTable x → s.shadowMem.NoPage x → ∀ y, Asked args y → upIndex y ≠ upIndex x

/-! ### Numbers -/

variable {s s' : State} {A A' : DepState} {args : ℕ → UWord} {r : ℤ} {x : UWord}

/-- The numbers in the lists of the tool are those of the `read()`s there were. -/
structure Counted (A : DepState) : Prop where
  trace : A.trace = true
  nonneg : 0 ≤ A.readN
  issued : A.ForallDeps (Issued A.readN)

theorem Counted.step (h : Counted A) {e : Event} (he : A.step e = .ok A') : Counted A' := by
  have ht : A'.trace = true := (DepState.step_trace he).trans h.trace
  cases e with
  | helper c =>
    have hread := (DepState.call_sameHooks he).readN
    exact ⟨ht, hread ▸ h.nonneg, hread ▸ DepState.call_forallDeps (issued_listProp _) h.issued he⟩
  | preCall n args =>
    obtain rfl | ⟨-, -, he⟩ | ⟨-, -, he⟩ :=
      DepState.preCall_cases (show A.preCall n args = .ok A' from he)
    · exact h
    · have hissued := issued_preRead h.issued h.nonneg he
      obtain ⟨-, tb, rfl, -⟩ := DepState.preRead_eq_ok he
      exact ⟨ht, Int.add_nonneg h.nonneg (by decide), hissued⟩
    · have hissued := h.issued.preWrite (issued_listProp _) he
      obtain ⟨-, deps, -, rfl⟩ := DepState.preWrite_eq_ok he
      exact ⟨ht, h.nonneg, hissued⟩

theorem counted_init : Counted (.init true) where
  trace := rfl
  nonneg := Int.le_refl 0
  issued := logged_init.issued

theorem Reachable.counted (h : Reachable s) : ∃ A, Rep s A ∧ Counted A :=
  h.invariant counted_init fun _ _ _ hcounted hA => hcounted.step hA

/-- No byte has the next number yet. -/
theorem Counted.notMem (h : Counted A) (k : Slot) : A.readN + 1 ∉ A.shadow.slot [] k := by
  intro hmem
  have hle := (h.issued.shadow k _ hmem).2
  omega

/-! ### The bytes after the hook -/

theorem byteDeps_of_inTable (hr : Rep s A) (hx : InTable x) :
    byteDeps s x = .ok (A.shadow.slot [] (slotOf x hx)) :=
  (getShadowMem_toList hr x).trans (DepState.getShadow_of_inTable hx)

/-- An address without a slot reads as empty as long as its page is not there. -/
theorem byteDeps_of_notInTable (s : State) (hx : ¬InTable x) :
    byteDeps s x = .ok [] ∧ s.shadowMem.NoPage x ∨
      byteDeps s x = .error .bounds ∧ ¬s.shadowMem.NoPage x := by
  by_cases hno : s.shadowMem.NoPage x
  · refine .inl ⟨?_, hno⟩
    rw [byteDeps, getShadowMem, Table.get_of_noPage hno]
    rfl
  · refine .inr ⟨?_, hno⟩
    rw [byteDeps, getShadowMem]
    by_cases hu : upIndex x < tableSize
    · have hl : ¬lowIndex x < tableSize := fun hl => hx ⟨hu, hl⟩
      have hpage : (s.shadowMem ⟨upIndex x, hu⟩).isSome :=
        Option.isSome_iff_ne_none.mpr fun h => hno ⟨hu, h⟩
      rw [Table.get_of_low hu hl, if_pos hpage]
      rfl
    · rw [Table.get_of_up hu]
      rfl

/-- The pages after some rounds of the loop of the read hook. -/
theorem run_readByte_pages {p : UWord} {is : List ℕ} (h : run (readByte p) s is = .ok s')
    (u : Fin tableSize) : (s'.shadowMem u).isSome = true ↔
      (s.shadowMem u).isSome = true ∨ ∃ i ∈ is, upIndex (p + BitVec.ofNat 64 i) = u := by
  induction is generalizing s with
  | nil =>
    cases h
    simp
  | cons i is ih =>
    obtain ⟨s₁, h₁, h⟩ := run_cons_eq_ok.mp h
    obtain ⟨s₂, hset, h₁⟩ := bind_eq_ok.mp h₁
    obtain ⟨_, -, h₁⟩ := bind_eq_ok.mp h₁
    obtain rfl := Except.ok.inj h₁
    obtain ⟨ha, -, hpages⟩ := setShadowMem_table hset
    rw [ih h, hpages, Bool.or_eq_true, decide_eq_true_eq, Fin.ext_iff, List.exists_mem_cons_iff,
      or_assoc, eq_comm (a := u.val)]

/-- **The hook before a `read()`**, where it gets through. -/
structure ReadDone (s s' : State) (A A' : DepState) (args : ℕ → UWord) : Prop where
  rep : Rep s' A'
  call : A.preRead args = .ok A'
  pages : ∀ u, (s'.shadowMem u).isSome = true ↔
    (s.shadowMem u).isSome = true ∨ ∃ y, Asked args y ∧ upIndex y = u

theorem taPreCall_read (ht : s.trace = true) : taPreCall s nrRead args = taPreRead s args := by
  simp only [taPreCall, ht, if_true, nrRead, nrWrite, Nat.zero_ne_one, if_false]
  cases taPreRead s args <;> rfl

theorem ReadDone.of_ok (hr : Rep s A) (ht : A.trace = true) (h : taRead s args = .ok s') :
    ∃ A', ReadDone s s' A A' args := by
  obtain ⟨s₁, h₁, h⟩ := bind_eq_ok.mp h
  obtain rfl := Except.ok.inj h
  have hl := taPreCall_lockstep hr nrRead args
  rw [h₁, DepState.preCall_read ht] at hl
  obtain ⟨A', hA', hr'⟩ := hl.exists_right
  refine ⟨A', hr', hA', fun u => ?_⟩
  have hts : s.trace = true := hr.2.2.2.trans ht
  rw [taPreCall_read hts] at h₁
  obtain ⟨n, -, h₁⟩ := bind_eq_ok.mp h₁
  rw [run_readByte_pages h₁ u]
  refine or_congr_right ⟨?_, ?_⟩
  · rintro ⟨i, hi, hu⟩
    exact ⟨_, ⟨i, List.mem_range.mp hi, rfl⟩, hu⟩
  · rintro ⟨_, ⟨i, hi, rfl⟩, hu⟩
    exact ⟨i, List.mem_range.mpr hi, hu⟩

/-- The hook gets through a buffer inside the table. -/
theorem ReadDone.exists (hr : Rep s A) (ht : A.trace = true) (hn : s.readN + 1 < 2 ^ 31)
    (hin : ∀ y, Asked args y → InTable y) :
    ∃ s' A', taRead s args = .ok s' ∧ ReadDone s s' A A' args := by
  have hl := taPreCall_lockstep hr nrRead args
  rw [DepState.preCall_read ht] at hl
  cases hA : A.preRead args with
  | error f =>
    rw [DepState.preRead, DepState.incr_of_lt (hr.2.1 ▸ hn), ok_bind] at hA
    obtain ⟨-, i, hi, hout⟩ := DepState.readBytes_error hA
    exact absurd (hin _ ⟨i, hi, rfl⟩) hout
  | ok A' =>
    obtain ⟨s', hs', -⟩ := hl.ok_left hA
    have hread : taRead s args = .ok s' := by rw [taRead, hs']; rfl
    obtain ⟨A'', hdone⟩ := ReadDone.of_ok hr ht hread
    exact ⟨s', A'', hread, hdone⟩

namespace ReadDone

theorem readN (h : ReadDone s s' A A' args) : s'.readN = A.readN + 1 := by
  obtain ⟨-, tb, rfl, -⟩ := DepState.preRead_eq_ok h.call
  exact h.rep.2.1

theorem inTable (h : ReadDone s s' A A' args) {y : UWord} (hy : Asked args y) : InTable y := by
  obtain ⟨i, hi, rfl⟩ := hy
  exact DepState.preRead_inTable h.call hi

/-- A byte whose slot was asked for has the number of the `read()`. -/
theorem byteDeps_of_asked (h : ReadDone s s' A A' args) {y : UWord} (hy : Asked args y)
    (hxy : y.truncate 32 = x.truncate 32) : byteDeps s' x = .ok [A.readN + 1] := by
  have hcell : memCell y = memCell x := congrArg Cell.mem hxy
  have hx : InTable x := inTable_of_memCell_eq hcell.symm (h.inTable hy)
  obtain ⟨-, tb, rfl, htb⟩ := DepState.preRead_eq_ok h.call
  obtain ⟨i, hi, rfl⟩ := hy
  rw [byteDeps_of_inTable h.rep hx]
  simp only [htb]
  rw [if_pos ⟨i, hi, (slotOf?_eq_some_iff hx).mpr hcell⟩]

/-- A byte whose slot was not asked for has the list it had. -/
theorem byteDeps_of_not (h : ReadDone s s' A A' args) (hr : Rep s A) (hx : InTable x)
    (hnot : ¬∃ y, Asked args y ∧ y.truncate 32 = x.truncate 32) :
    byteDeps s' x = byteDeps s x := by
  obtain ⟨-, tb, rfl, htb⟩ := DepState.preRead_eq_ok h.call
  rw [byteDeps_of_inTable h.rep hx, byteDeps_of_inTable hr hx]
  simp only [htb]
  rw [if_neg]
  rintro ⟨i, hi, hs⟩
  exact hnot ⟨_, ⟨i, hi, rfl⟩, Cell.mem.inj ((slotOf?_eq_some_iff hx).mp hs)⟩

/-- The page of an address is there afterwards if it was before, or if an address in it was
asked for. -/
theorem noPage_iff (h : ReadDone s s' A A' args) : s'.shadowMem.NoPage x ↔
    s.shadowMem.NoPage x ∧ ∀ y, Asked args y → upIndex y ≠ upIndex x := by
  have hpage : ∀ hu, s'.shadowMem ⟨upIndex x, hu⟩ = none ↔
      s.shadowMem ⟨upIndex x, hu⟩ = none ∧ ∀ y, Asked args y → upIndex y ≠ upIndex x := by
    intro hu
    rw [← Option.not_isSome_iff_eq_none, h.pages, not_or, Option.not_isSome_iff_eq_none]
    simp only [not_exists, not_and, ne_eq]
  constructor
  · rintro ⟨hu, hno⟩
    exact ⟨⟨hu, ((hpage hu).mp hno).1⟩, ((hpage hu).mp hno).2⟩
  · rintro ⟨⟨hu, hno⟩, hall⟩
    exact ⟨hu, (hpage hu).mpr ⟨hno, hall⟩⟩

end ReadDone

/-! ### When a byte is as it should be -/

theorem TaintsExactly.filledAsAsked (h : TaintsExactly s args r x) (hs : Reachable s) :
    FilledAsAsked s args r x := by
  obtain ⟨A, hr, hc⟩ := hs.counted
  obtain ⟨s', hread, hfilled, hrest⟩ := h
  obtain ⟨A', hdone⟩ := ReadDone.of_ok hr hc.trace hread
  have hcounts : s.readN + 1 < 2 ^ 31 := by
    rw [hr.2.1]
    exact (DepState.preRead_eq_ok hdone.call).1
  rw [hdone.readN] at hfilled
  by_cases hx : InTable x
  · refine ⟨hcounts, fun y => hdone.inTable, ⟨fun hfill => ?_, ?_⟩, fun hnot => absurd hx hnot⟩
    · -- the new number is there, so the byte was marked
      by_contra hnot
      have hnew := hfilled hfill
      rw [hdone.byteDeps_of_not hr hx hnot, byteDeps_of_inTable hr hx] at hnew
      exact hc.notMem (slotOf x hx) (by rw [Except.ok.inj hnew]; exact List.mem_singleton_self _)
    · rintro ⟨y, hy, hxy⟩
      -- the byte was marked; had it not been filled, the new number would have been there before
      by_contra hnot
      have hold := hrest hnot
      rw [hdone.byteDeps_of_asked hy hxy, byteDeps_of_inTable hr hx] at hold
      exact hc.notMem (slotOf x hx) (by rw [← Except.ok.inj hold]; exact List.mem_singleton_self _)
  · have hnofill : ¬Filled args r x := by
      intro hfill
      rcases byteDeps_of_notInTable s' hx with ⟨hnew, -⟩ | ⟨hnew, -⟩
      all_goals
        rw [hfilled hfill] at hnew
        cases hnew
    have hnone : ¬∃ y, Asked args y ∧ y.truncate 32 = x.truncate 32 := by
      rintro ⟨y, hy, hxy⟩
      exact hx (inTable_of_memCell_eq (congrArg Cell.mem hxy.symm) (hdone.inTable hy))
    refine ⟨hcounts, fun y => hdone.inTable, iff_of_false hnofill hnone, fun _ hno => ?_⟩
    have hold := hrest hnofill
    rcases byteDeps_of_notInTable s hx with ⟨hb, -⟩ | ⟨-, hyes⟩
    · rcases byteDeps_of_notInTable s' hx with ⟨-, hno'⟩ | ⟨hb', -⟩
      · exact (hdone.noPage_iff.mp hno').2
      · rw [hb, hb'] at hold
        cases hold
    · exact absurd hno hyes

theorem FilledAsAsked.taintsExactly (h : FilledAsAsked s args r x) (hs : Reachable s) :
    TaintsExactly s args r x := by
  obtain ⟨A, hr, hc⟩ := hs.counted
  obtain ⟨s', A', hread, hdone⟩ := ReadDone.exists hr hc.trace h.counts h.inTable
  refine ⟨s', hread, fun hfill => ?_, fun hnot => ?_⟩
  · obtain ⟨y, hy, hxy⟩ := h.same.mp hfill
    rw [hdone.readN]
    exact hdone.byteDeps_of_asked hy hxy
  · by_cases hx : InTable x
    · exact hdone.byteDeps_of_not hr hx fun hasked => hnot (h.same.mpr hasked)
    · rcases byteDeps_of_notInTable s hx with ⟨hb, hno⟩ | ⟨hb, hyes⟩ <;>
        rcases byteDeps_of_notInTable s' hx with ⟨hb', hno'⟩ | ⟨hb', hyes'⟩
      · rw [hb, hb']
      · exact absurd (hdone.noPage_iff.mpr ⟨hno, h.page hx hno⟩) hyes'
      · exact absurd (hdone.noPage_iff.mp hno').1 hyes
      · rw [hb, hb']

/-- **When a `read()` taints exactly the bytes that were filled.** After a `read()` that
returned `r`, a byte is as it should be exactly if what was asked for and what was filled
agree on it. -/
theorem taintsExactly_iff (hs : Reachable s) (args : ℕ → UWord) (r : ℤ) (x : UWord) :
    TaintsExactly s args r x ↔ FilledAsAsked s args r x :=
  ⟨fun h => h.filledAsAsked hs, fun h => h.taintsExactly hs⟩

/-- A byte of a buffer that is filled to its end. -/
theorem taintsExactly_iff_full : TaintsExactly (.init true) (sysArgs 0 8 2) 2 9 := by
  refine (taintsExactly_iff ⟨[], rfl⟩ (sysArgs 0 8 2) 2 9).mpr ⟨by decide, ?_, ?_, ?_⟩
  · rintro y ⟨i, hi, rfl⟩
    obtain rfl | rfl : i = 0 ∨ i = 1 := by
      have hi : i < 2 := hi
      omega
    all_goals decide
  · exact iff_of_true ⟨1, by decide, rfl⟩ ⟨9, ⟨1, by decide, rfl⟩, rfl⟩
  · exact fun hx => absurd (by decide) hx

/-- **A short read** marks bytes that were not filled. -/
theorem not_taintsExactly :
    ¬∀ s args r x, Reachable s → r ≤ (args 2).toNat → TaintsExactly s args r x := by
  intro h
  have hs : Reachable (.init true) := ⟨[], rfl⟩
  have hagree := (h (.init true) (sysArgs 0 8 2) 1 9 hs (by decide)).filledAsAsked hs
  obtain ⟨i, hi, hx⟩ := hagree.same.mpr ⟨9, ⟨1, by decide, rfl⟩, rfl⟩
  obtain rfl : i = 0 := by
    have hi : i < 1 := hi
    omega
  exact absurd hx (by decide)

end DepLeak

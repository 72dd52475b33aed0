import DepLeak.Dep.Frame

/-!
# The system-call hooks, on lists

What the hooks do, said once. The read hook counts up and gives every byte of the
buffer the list of the new number (`DepLeak.DepState.preRead_eq_ok`). The write hook
counts up and records the union of the lists of the bytes
(`DepLeak.DepState.preWrite_eq_ok`). Neither can stop except outside the shadow table
or when a counter overflows (`DepLeak.DepState.preCall_error`).
-/

namespace DepLeak

open LinkedHeap Runs

namespace DepState

variable {a a' : DepState}

/-! ### The counters -/

theorem incr_eq_ok {x n : ℤ} : incr x = .ok n ↔ x + 1 < 2 ^ 31 ∧ n = x + 1 := by
  rw [incr]
  split
  · next h => simp only [Except.ok.injEq, h, true_and, eq_comm]
  · next h => simp only [h, false_and, reduceCtorEq]

theorem incr_of_lt {x : ℤ} (h : x + 1 < 2 ^ 31) : incr x = .ok (x + 1) := if_pos h

/-! ### The read hook -/

/-- The bytes of a buffer the read hook has gone over, and what it has left there. -/
theorem readBytes_eq_ok {p : UWord} {n : ℕ}
    (h : run (readByte p) a (List.range n) = .ok a') :
    (∀ i < n, InTable (p + BitVec.ofNat 64 i)) ∧ ∃ tb, a' = { a with shadow := tb } ∧
      ∀ k, tb.slot [] k = if ∃ i < n, slotOf? (p + BitVec.ofNat 64 i) = some k then [a.readN]
        else a.shadow.slot [] k := by
  induction n generalizing a' with
  | zero =>
    cases h
    exact ⟨fun i hi => absurd hi (Nat.not_lt_zero i), a.shadow, rfl, fun k => by simp⟩
  | succ n ih =>
    rw [List.range_succ] at h
    obtain ⟨a₁, h₁, h⟩ := run_append_eq_ok.mp h
    obtain ⟨hin, tb, rfl, htb⟩ := ih h₁
    obtain ⟨a₂, h₂, h⟩ := bind_eq_ok.mp h
    cases h
    obtain ⟨a₃, hset, h₂⟩ := bind_eq_ok.mp h₂
    obtain ⟨m, -, h₂⟩ := bind_eq_ok.mp h₂
    cases h₂
    obtain ⟨ha, tb', rfl, htb'⟩ := setShadow_eq_ok hset
    refine ⟨fun i hi => ?_, tb', rfl, fun k => ?_⟩
    · rcases Nat.lt_succ_iff_lt_or_eq.mp hi with hi | rfl
      · exact hin i hi
      · exact ha
    · have hlast : slotOf? (p + BitVec.ofNat 64 n) = some (slotOf _ ha) := slotOf?_of_inTable ha
      rw [htb', Function.update_apply, htb]
      by_cases hk : k = slotOf _ ha
      · rw [if_pos hk, if_pos ⟨n, Nat.lt_succ_self n, by rw [hlast, hk]⟩]
      · rw [if_neg hk]
        refine if_congr ⟨?_, ?_⟩ rfl rfl
        · exact fun ⟨i, hi, hs⟩ => ⟨i, Nat.lt_succ_of_lt hi, hs⟩
        · rintro ⟨i, hi, hs⟩
          rcases Nat.lt_succ_iff_lt_or_eq.mp hi with hi | rfl
          · exact ⟨i, hi, hs⟩
          · exact absurd (Option.some.inj (hlast.symm.trans hs)).symm hk

/-- The loop of the read hook stops only outside the shadow table. -/
theorem readBytes_error {p : UWord} {n : ℕ} {f : Fault}
    (h : run (readByte p) a (List.range n) = .error f) :
    f = .bounds ∧ ∃ i < n, ¬InTable (p + BitVec.ofNat 64 i) := by
  induction n with
  | zero => cases h
  | succ n ih =>
    rw [List.range_succ, run_append] at h
    cases h₁ : run (readByte p) a (List.range n) with
    | error f' =>
      rw [h₁] at h
      obtain rfl : f' = f := Except.error.inj h
      obtain ⟨hf, i, hi, ha⟩ := ih h₁
      exact ⟨hf, i, Nat.lt_succ_of_lt hi, ha⟩
    | ok a₁ =>
      obtain ⟨hin, -⟩ := readBytes_eq_ok h₁
      -- a buffer inside the table is short, so that the counter of the loop is small
      have hn : n < 65536 := by
        by_contra hcon
        obtain ⟨i, hi, ha⟩ := exists_not_inTable p (Nat.le_of_not_lt hcon)
        exact ha (hin i hi)
      rw [h₁, ok_bind, run_cons, readByte] at h
      by_cases ha : InTable (p + BitVec.ofNat 64 n)
      · obtain ⟨tb, hset, -⟩ := a₁.setShadow_of_inTable ha [a₁.readN]
        rw [hset, ok_bind, incr_of_lt (by omega)] at h
        cases h
      · rw [setShadow_of_notInTable ha] at h
        exact ⟨(Except.error.inj h).symm, n, Nat.lt_succ_self n, ha⟩

/-- **What the read hook has done**, where it has not faulted. -/
theorem preRead_eq_ok {args : ℕ → UWord} (h : a.preRead args = .ok a') :
    a.readN + 1 < 2 ^ 31 ∧ ∃ tb, a' = { a with readN := a.readN + 1, shadow := tb } ∧
      ∀ k, tb.slot [] k =
        if ∃ i < (args 2).toNat, slotOf? (args 1 + BitVec.ofNat 64 i) = some k then [a.readN + 1]
        else a.shadow.slot [] k := by
  obtain ⟨n, hn, h⟩ := bind_eq_ok.mp h
  obtain ⟨hlt, rfl⟩ := incr_eq_ok.mp hn
  obtain ⟨-, tb, rfl, htb⟩ := readBytes_eq_ok h
  exact ⟨hlt, tb, rfl, htb⟩

/-- The read hook has gone over a buffer inside the shadow table. -/
theorem preRead_inTable {args : ℕ → UWord} (h : a.preRead args = .ok a') {i : ℕ}
    (hi : i < (args 2).toNat) : InTable (args 1 + BitVec.ofNat 64 i) := by
  obtain ⟨n, -, h⟩ := bind_eq_ok.mp h
  exact (readBytes_eq_ok h).1 i hi

/-! ### The write hook -/

/-- The loop of the write hook merges the lists of the bytes. -/
theorem mergeBytes_eq {p : UWord} (is : List ℕ) (vs : List ℤ) :
    run (a.mergeByte p) vs is = (is.mapM fun i => a.getShadow (p + BitVec.ofNat 64 i)).map
      fun ls => mergeVals vs ls.flatten := by
  induction is generalizing vs with
  | nil => rfl
  | cons i is ih =>
    rw [run_cons, mergeByte, List.mapM_cons]
    cases a.getShadow (p + BitVec.ofNat 64 i) with
    | error f => rfl
    | ok ws =>
      rw [ok_bind, ok_bind, ok_bind, ih]
      cases is.mapM fun i => a.getShadow (p + BitVec.ofNat 64 i) with
      | error f => rfl
      | ok ls =>
        change Except.ok (mergeVals (mergeVals vs ws) ls.flatten) =
          Except.ok (mergeVals vs (ws :: ls).flatten)
        rw [List.flatten_cons, mergeVals_append]

/-- **The union of the lists of a buffer**: without repetitions, in the order in which
the numbers occur first. -/
theorem memDeps_eq (p size : UWord) :
    a.memDeps p size = ((List.range size.toNat).mapM fun i =>
      a.getShadow (p + BitVec.ofNat 64 i)).map fun ls => ls.flatten.eraseDups := by
  simp only [memDeps, mergeBytes_eq, mergeVals_nil_left]

theorem memDeps_error {p size : UWord} {f : Fault} (h : a.memDeps p size = .error f) :
    f = .bounds ∧ ∃ i < size.toNat, ¬InTable (p + BitVec.ofNat 64 i) := by
  rw [memDeps_eq] at h
  cases hm : (List.range size.toNat).mapM fun i => a.getShadow (p + BitVec.ofNat 64 i) with
  | error f' =>
    rw [hm] at h
    obtain rfl : f' = f := Except.error.inj h
    obtain ⟨i, hi, hg⟩ := mapM_eq_error hm
    obtain ⟨hf, ha⟩ := getShadow_error hg
    exact ⟨hf, i, List.mem_range.mp hi, ha⟩
  | ok ls =>
    rw [hm] at h
    cases h

theorem memDeps_forall {P : List ℤ → Prop} (hP : ListProp P) (h : ForallDeps P a) {p size : UWord}
    {vs : List ℤ} (hm : a.memDeps p size = .ok vs) : P vs := by
  refine run_preserves (I := P) (fun i _ us us' hus hi => ?_) hP.nil hm
  obtain ⟨ws, hws, hi⟩ := bind_eq_ok.mp hi
  rw [← Except.ok.inj hi]
  exact hP.merge hus (getShadow_forall hP h hws)

/-- **What the write hook has done**, where it has not faulted. -/
theorem preWrite_eq_ok {args : ℕ → UWord} (h : a.preWrite args = .ok a') :
    a.writeN + 1 < 2 ^ 31 ∧ ∃ deps, a.memDeps (args 1) (args 2) = .ok deps ∧
      a' = { a with
        writeN := a.writeN + 1, nextId := a.nextId + 1,
        writes := a.writes ++ [⟨a.nextId, .write (a.writeN + 1), deps⟩] } := by
  obtain ⟨n, hn, h⟩ := bind_eq_ok.mp h
  obtain ⟨hlt, rfl⟩ := incr_eq_ok.mp hn
  obtain ⟨deps, hdeps, h⟩ := bind_eq_ok.mp h
  exact ⟨hlt, deps, hdeps, (Except.ok.inj h).symm⟩

/-! ### The lists the hooks record -/

section ForallDeps

variable {P Q : List ℤ → Prop} {args : ℕ → UWord}

/-- The read hook records the list of the new number. -/
theorem ForallDeps.preRead (h : ForallDeps P a) (hmono : ∀ vs, P vs → Q vs)
    (hnew : Q [a.readN + 1]) (ha : a.preRead args = .ok a') : ForallDeps Q a' := by
  obtain ⟨-, tb, rfl, htb⟩ := preRead_eq_ok ha
  refine ⟨fun e he => hmono _ (h.all e he), fun k => ?_⟩
  simp only [htb]
  split
  · exact hnew
  · exact hmono _ (h.shadow k)

/-- The write hook records a union of lists that are there. -/
theorem ForallDeps.preWrite (hP : ListProp P) (h : ForallDeps P a)
    (ha : a.preWrite args = .ok a') : ForallDeps P a' := by
  obtain ⟨-, vs, hvs, rfl⟩ := preWrite_eq_ok ha
  refine ⟨fun e he => ?_, h.shadow⟩
  rw [mem_all] at he
  simp only [List.mem_append, List.mem_singleton] at he
  rcases he with he | he | he | rfl
  · exact h.all e (mem_all.mpr (Or.inl he))
  · exact h.all e (mem_all.mpr (Or.inr (Or.inl he)))
  · exact h.all e (mem_all.mpr (Or.inr (Or.inr he)))
  · exact memDeps_forall hP h hvs

end ForallDeps

/-! ### Both hooks -/

section PreCall

variable {args : ℕ → UWord} {n : ℕ}

theorem preCall_of_not_trace (ht : a.trace = false) : a.preCall n args = .ok a := by
  simp [preCall, ht]

theorem preCall_read (ht : a.trace = true) : a.preCall nrRead args = a.preRead args := by
  simp only [preCall, ht, if_true, nrRead, nrWrite, Nat.zero_ne_one, if_false]
  cases a.preRead args <;> rfl

theorem preCall_write (ht : a.trace = true) : a.preCall nrWrite args = a.preWrite args := by
  simp only [preCall, ht, if_true, nrRead, nrWrite, Nat.one_ne_zero, if_false, ok_bind]

theorem preCall_other (hr : n ≠ nrRead) (hw : n ≠ nrWrite) : a.preCall n args = .ok a := by
  simp only [preCall, if_neg hr, if_neg hw, ok_bind, ite_self]

/-- **What a hook can have done**: nothing, or it was the one of a traced `read()` or
`write()`. -/
theorem preCall_cases (h : a.preCall n args = .ok a') :
    a' = a ∨ (n = nrRead ∧ a.trace = true ∧ a.preRead args = .ok a') ∨
      (n = nrWrite ∧ a.trace = true ∧ a.preWrite args = .ok a') := by
  cases ht : a.trace with
  | false =>
    rw [preCall_of_not_trace ht] at h
    exact .inl (Except.ok.inj h).symm
  | true =>
    by_cases hr : n = nrRead
    · subst hr
      rw [preCall_read ht] at h
      exact .inr (.inl ⟨rfl, rfl, h⟩)
    · by_cases hw : n = nrWrite
      · subst hw
        rw [preCall_write ht] at h
        exact .inr (.inr ⟨rfl, rfl, h⟩)
      · rw [preCall_other hr hw] at h
        exact .inl (Except.ok.inj h).symm

/-- **A hook stops only outside the shadow table**, or when it would count too far. -/
theorem preCall_error {f : Fault} (h : a.preCall n args = .error f) :
    (f = .overflow ∧ (n = nrRead ∧ 2 ^ 31 ≤ a.readN + 1 ∨ n = nrWrite ∧ 2 ^ 31 ≤ a.writeN + 1)) ∨
      f = .bounds ∧ ∃ addr, (Event.preCall n args).Accesses addr ∧ ¬InTable addr := by
  cases ht : a.trace with
  | false =>
    rw [preCall_of_not_trace ht] at h
    cases h
  | true =>
    by_cases hr : n = nrRead
    · subst hr
      rw [preCall_read ht, preRead, incr] at h
      split at h
      · rw [ok_bind] at h
        obtain ⟨hf, i, hi, ha⟩ := readBytes_error h
        exact Or.inr ⟨hf, _, ⟨Or.inl rfl, i, hi, rfl⟩, ha⟩
      · next hn =>
        exact Or.inl ⟨(Except.error.inj h).symm, Or.inl ⟨rfl, by omega⟩⟩
    · by_cases hw : n = nrWrite
      · subst hw
        rw [preCall_write ht, preWrite, incr] at h
        split at h
        · rw [ok_bind] at h
          cases hm : a.memDeps (args 1) (args 2) with
          | error f' =>
            rw [hm] at h
            obtain rfl : f' = f := Except.error.inj h
            obtain ⟨hf, i, hi, ha⟩ := memDeps_error hm
            exact Or.inr ⟨hf, _, ⟨Or.inr rfl, i, hi, rfl⟩, ha⟩
          | ok deps =>
            rw [hm] at h
            cases h
        · next hn =>
          exact Or.inl ⟨(Except.error.inj h).symm, Or.inr ⟨rfl, by omega⟩⟩
      · rw [preCall_other hr hw] at h
        cases h

/-- A hook leaves nothing dangling, loses nothing and leaves the recording alone. -/
theorem preCall_frame (h : a.preCall n args = .ok a') :
    a'.dangling = a.dangling ∧ a'.lost = a.lost ∧ a'.trace = a.trace := by
  obtain rfl | ⟨-, -, h⟩ | ⟨-, -, h⟩ := preCall_cases h
  · exact ⟨rfl, rfl, rfl⟩
  · obtain ⟨-, tb, rfl, -⟩ := preRead_eq_ok h
    exact ⟨rfl, rfl, rfl⟩
  · obtain ⟨-, deps, -, rfl⟩ := preWrite_eq_ok h
    exact ⟨rfl, rfl, rfl⟩

/-- No event turns the recording on or off. -/
theorem step_trace {e : Event} (h : a.step e = .ok a') : a'.trace = a.trace := by
  cases e with
  | helper c => exact (call_sameHooks h).trace
  | preCall n args => exact (preCall_frame h).2.2

end PreCall

end DepState

end DepLeak

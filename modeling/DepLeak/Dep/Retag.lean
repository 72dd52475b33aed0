import DepLeak.Dep.Reads

/-!
# What the hook before a `read()` changes

The loop of the hook goes over the buffer byte by byte, frees the list that was in the slot
and puts a new one there. It changes the slots of the buffer and the counter, and nothing
else; each byte has a list of its own afterwards, which stays when another one is set
(`DepLeak.Retagged`). The counter has to have a number left for it
(`DepLeak.retags_iff`).
-/

namespace DepLeak

open LinkedHeap Runs

variable {s s' : State} {A A' : DepState} {args : ℕ → UWord} {a b x y : UWord}

/-! ### The property -/

/-- **The buffer is retagged**, and nothing else has changed. -/
structure Retagged (s s' : State) (args : ℕ → UWord) : Prop where
  /-- The counter has grown by one. -/
  readN : s'.readN = s.readN + 1
  /-- Every byte of the buffer has this number and no other, whatever it had before. -/
  bytes : ∀ y, Asked args y → byteDeps s' y = .ok [s'.readN]
  /-- The other slots are as they were. -/
  slots : ∀ k, (∀ y, Asked args y → slotOf? y ≠ some k) →
    s'.shadowMem.slot none k = s.shadowMem.slot none k
  /-- So are their lists. -/
  lists : ∀ k, (∀ y, Asked args y → slotOf? y ≠ some k) →
    s'.ints.toList (s'.shadowMem.slot none k) = s.ints.toList (s.shadowMem.slot none k)
  /-- So are `var_deps`, `reg_deps` and `write_deps`. -/
  heads : s'.varDeps = s.varDeps ∧ s'.regDeps = s.regDeps ∧ s'.writeDeps = s.writeDeps
  /-- So are all nodes. -/
  nodes : s'.nodes = s.nodes
  /-- And the lists of the entries. -/
  deps : ∀ head ∈ [s.varDeps, s.regDeps, s.writeDeps], ∀ l q, Seg s.nodes head l q →
    ∀ e ∈ l, s'.ints.toList e.2.readDeps = s.ints.toList e.2.readDeps
  /-- So is the other counter. -/
  writeN : s'.writeN = s.writeN
  /-- The lists of two bytes have no node in common. -/
  separate : ∀ y y' p p', Asked args y → Asked args y' → y ≠ y' → getShadowMem s' y = .ok p →
    getShadowMem s' y' = .ok p' → ∀ i, Reaches s'.ints p i → ¬Reaches s'.ints p' i
  /-- So that setting one of them leaves the others. -/
  overwritten : ∀ y y' deps, Asked args y → Asked args y' → y ≠ y' →
    ∃ s'', setShadowMem s' y deps = .ok s'' ∧ byteDeps s'' y' = .ok [s'.readN]

/-- The hook gets through, and retags the buffer. -/
def Retags (s : State) (args : ℕ → UWord) : Prop :=
  ∃ s', taPreCall s nrRead args = .ok s' ∧ Retagged s s' args

/-! ### The bytes of a buffer -/

/-- Two bytes of a buffer inside the table have different slots. -/
theorem Asked.truncate_ne {y' : UWord} (hin : ∀ y, Asked args y → InTable y)
    (hy : Asked args y) (hy' : Asked args y') (hne : y ≠ y') :
    y.truncate 32 ≠ y'.truncate 32 := by
  intro heq
  have hlow : lowIndex y = lowIndex y' := by
    have hmod := congrArg BitVec.toNat heq
    rw [BitVec.truncate_eq_setWidth, BitVec.truncate_eq_setWidth, BitVec.toNat_setWidth,
      BitVec.toNat_setWidth] at hmod
    rw [lowIndex_eq, lowIndex_eq]
    omega
  have hlen : (args 2).toNat < 65536 := by
    by_contra hcon
    obtain ⟨i, hi, hout⟩ := exists_not_inTable (args 1) (not_lt.mp hcon)
    exact hout (hin _ ⟨i, hi, rfl⟩)
  obtain ⟨i, hi, rfl⟩ := hy
  obtain ⟨j, hj, rfl⟩ := hy'
  rw [lowIndex_add, lowIndex_add] at hlow
  obtain rfl : i = j := by omega
  exact hne rfl

/-! ### The frame of the loop -/

/-- **Setting a list** changes no node, no list of them and no counter. -/
theorem setShadowMem_frame {deps : Ptr} (h : setShadowMem s a deps = .ok s') :
    s' = { s with shadowMem := s'.shadowMem, ints := s'.ints } := by
  obtain ⟨tb, -, h⟩ := bind_eq_ok.mp h
  obtain ⟨old, -, h⟩ := bind_eq_ok.mp h
  obtain ⟨ints, -, h⟩ := bind_eq_ok.mp h
  obtain ⟨tb', -, h⟩ := bind_eq_ok.mp h
  obtain rfl := Except.ok.inj h
  rfl

/-- A round of the loop sets the one slot of its byte. -/
theorem readByte_frame {p : UWord} {i : ℕ} (h : readByte p s i = .ok s') :
    s' = { s with shadowMem := s'.shadowMem, ints := s'.ints } ∧
      ∀ k, slotOf? (p + BitVec.ofNat 64 i) ≠ some k →
        s'.shadowMem.slot none k = s.shadowMem.slot none k := by
  obtain ⟨s₁, hset, h⟩ := bind_eq_ok.mp h
  obtain ⟨-, -, h⟩ := bind_eq_ok.mp h
  obtain rfl := Except.ok.inj h
  obtain ⟨ha, hslot, -⟩ := setShadowMem_table hset
  have hframe := setShadowMem_frame hset
  refine ⟨hframe, fun k hk => ?_⟩
  rw [hslot, Function.update_of_ne]
  rintro rfl
  exact hk (slotOf?_of_inTable ha)

/-- **The loop** sets the slots of the bytes it has gone over, and no others. -/
theorem run_readByte_frame {p : UWord} {is : List ℕ} (h : run (readByte p) s is = .ok s') :
    s' = { s with shadowMem := s'.shadowMem, ints := s'.ints } ∧
      ∀ k, (∀ i ∈ is, slotOf? (p + BitVec.ofNat 64 i) ≠ some k) →
        s'.shadowMem.slot none k = s.shadowMem.slot none k := by
  induction is generalizing s with
  | nil =>
    obtain rfl := Except.ok.inj h
    exact ⟨rfl, fun k _ => rfl⟩
  | cons i is ih =>
    obtain ⟨s₁, hstep, h⟩ := run_cons_eq_ok.mp h
    obtain ⟨hframe₁, hslot₁⟩ := readByte_frame hstep
    obtain ⟨hframe, hslot⟩ := ih h
    constructor
    · rw [hframe, hframe₁]
    · intro k hk
      rw [hslot k fun j hj => hk j (List.mem_cons_of_mem i hj),
        hslot₁ k (hk i List.mem_cons_self)]

theorem taPreRead_frame (h : taPreRead s args = .ok s') :
    s' = { s with readN := s'.readN, shadowMem := s'.shadowMem, ints := s'.ints } ∧
      ∀ k, (∀ y, Asked args y → slotOf? y ≠ some k) →
        s'.shadowMem.slot none k = s.shadowMem.slot none k := by
  obtain ⟨n, -, h⟩ := bind_eq_ok.mp h
  obtain ⟨hframe, hslot⟩ := run_readByte_frame h
  constructor
  · rw [hframe]
  · exact fun k hk => hslot k fun i hi => hk _ ⟨i, List.mem_range.mp hi, rfl⟩

/-! ### The lists of slots and entries -/

/-- The list in a slot. -/
theorem Rep.slot_toList (hr : Rep s A) (k : Slot) :
    s.ints.toList (s.shadowMem.slot none k) = .ok (A.shadow.slot [] k) := by
  obtain ⟨⟨P, D, -, hl⟩, -⟩ := hr
  exact (hl.listAt (.shadow k)).toList

/-- The list of an entry. -/
theorem Rep.entry_toList (hr : Rep s A) {head q : Ptr} {l : List (ℕ × ReadDep)}
    (hhead : head ∈ [s.varDeps, s.regDeps, s.writeDeps]) (hseg : Seg s.nodes head l q)
    {e : ℕ × ReadDep} (he : e ∈ l) :
    ∃ entry ∈ A.all, entry.id = e.1 ∧ s.ints.toList e.2.readDeps = .ok entry.deps := by
  obtain ⟨⟨P, D, hn, hl⟩, -⟩ := hr
  obtain ⟨q', hvars, -, hdead, -⟩ := hn.vars
  have hentry : ∀ {es : List Entry} {r : Ptr}, Seg s.nodes head (es.map (cellOf P)) r →
      s.nodes.Dead r → (∀ entry ∈ es, entry ∈ A.all) →
      ∃ entry ∈ A.all, entry.id = e.1 ∧ s.ints.toList e.2.readDeps = .ok entry.deps := by
    intro es r hes hr hall
    obtain ⟨entry, hmem, rfl⟩ := List.mem_map.mp ((hseg.isPrefix hes hr).subset he)
    refine ⟨entry, hall entry hmem, rfl, ?_⟩
    rw [← hl.deps entry (hall entry hmem)]
    exact (hl.listAt (.node entry.id)).toList
  simp only [List.mem_cons, List.not_mem_nil, or_false] at hhead
  rcases hhead with rfl | rfl | rfl
  · exact hentry hvars hdead fun entry h => mem_all.mpr (.inl h)
  · exact hentry hn.regs Heap.dead_none fun entry h => mem_all.mpr (.inr (.inl h))
  · exact hentry hn.writes Heap.dead_none fun entry h => mem_all.mpr (.inr (.inr h))

/-- No two entries are at one node. -/
theorem Rep.entry_unique (hr : Rep s A) {e e' : Entry} (he : e ∈ A.all) (he' : e' ∈ A.all)
    (hid : e.id = e'.id) : e = e' := by
  obtain ⟨⟨P, D, hn, -⟩, -⟩ := hr
  exact List.inj_on_of_nodup_map hn.nodup he he' hid

/-- The lists of two slots have no node in common. -/
theorem Rep.not_reaches (hr : Rep s A) {k k' : Slot} (hne : k ≠ k') {i : ℕ}
    (hi : Reaches s.ints (s.shadowMem.slot none k) i) :
    ¬Reaches s.ints (s.shadowMem.slot none k') i := by
  obtain ⟨⟨P, D, -, hl⟩, -⟩ := hr
  obtain ⟨own, hseg, -, hdis, -⟩ := hl.lists
  have hk : Seg s.ints (s.shadowMem.slot none k) (own (.shadow k)) none := hseg (.shadow k)
  have hk' : Seg s.ints (s.shadowMem.slot none k') (own (.shadow k')) none := hseg (.shadow k')
  rw [hk'.reaches_iff]
  exact hdis _ _ (fun h => hne (Place.shadow.inj h)) i (hk.reaches_iff.mp hi)

/-- **Setting the list of one slot leaves those of the others**, whatever is set. -/
theorem exists_setShadowMem_other (hr : Rep s A) (ha : InTable a) (hb : InTable b)
    (hne : a.truncate 32 ≠ b.truncate 32) (deps : Ptr) :
    ∃ s', setShadowMem s a deps = .ok s' ∧ byteDeps s' b = byteDeps s b := by
  obtain ⟨⟨P, D, -, hl⟩, -⟩ := id hr
  have hslots : slotOf b hb ≠ slotOf a ha := fun h => hne ((slotOf_eq_iff ha hb).mp h)
  obtain ⟨tb, page, hdemand, hpage, hslot, -⟩ := Table.demand_of_inTable none s.shadowMem ha
  obtain ⟨tb', hput, hslot', -⟩ := Table.put_of_inTable none ha hpage deps
  obtain ⟨ints, hfree, hlists⟩ := hl.lists.drop (.shadow (slotOf a ha))
  have hfree : freeIntNodeList s.ints (tb.slot none (slotOf a ha)) = .ok ints := by
    rw [hslot]
    exact hfree
  refine ⟨{ s with shadowMem := tb', ints := ints }, ?_, ?_⟩
  · rw [setShadowMem, hdemand, ok_bind, Table.get_of_inTable ha, ok_bind, hfree, ok_bind, hput,
      ok_bind]
  · rw [byteDeps_of_inTable hr hb, byteDeps, getShadowMem, Table.get_of_inTable hb, ok_bind, hslot',
      Function.update_of_ne hslots, hslot]
    have hlist := hlists.toList (.shadow (slotOf b hb))
    have hplace : Place.shadow (slotOf b hb) ≠ .shadow (slotOf a ha) := fun h =>
      hslots (Place.shadow.inj h)
    rw [Function.update_of_ne hplace, Function.update_of_ne hplace] at hlist
    exact hlist

/-! ### When the buffer is retagged -/

/-- **A hook that gets through retags the buffer.** -/
theorem ReadDone.retagged (h : ReadDone s s' A A' args) (hr : Rep s A)
    (hcall : taPreRead s args = .ok s') : Retagged s s' args := by
  obtain ⟨hframe, hslots⟩ := taPreRead_frame hcall
  obtain ⟨-, tb, hA', htb⟩ := DepState.preRead_eq_ok h.call
  have hin : ∀ y, Asked args y → InTable y := fun y => h.inTable
  have hreadN : s'.readN = s.readN + 1 := by rw [h.readN, hr.2.1]
  have hbytes : ∀ y, Asked args y → byteDeps s' y = .ok [s'.readN] := fun y hy =>
    h.readN ▸ h.byteDeps_of_asked hy rfl
  have hnodes : s'.nodes = s.nodes := by rw [hframe]
  refine ⟨hreadN, hbytes, hslots, fun k hk => ?_, ?_, hnodes, ?_, by rw [hframe], ?_, ?_⟩
  · rw [h.rep.slot_toList, hr.slot_toList, hA', htb, if_neg]
    rintro ⟨i, hi, hki⟩
    exact hk _ ⟨i, hi, rfl⟩ hki
  · rw [hframe]
    exact ⟨rfl, rfl, rfl⟩
  · intro head hhead l q hseg e he
    obtain ⟨entry, hmem, hid, hlist⟩ := hr.entry_toList hhead hseg he
    have hhead' : head ∈ [s'.varDeps, s'.regDeps, s'.writeDeps] := by rwa [hframe]
    obtain ⟨entry', hmem', hid', hlist'⟩ := h.rep.entry_toList hhead' (hnodes ▸ hseg) he
    obtain rfl : entry = entry' := by
      refine hr.entry_unique hmem ?_ (hid.trans hid'.symm)
      rw [hA'] at hmem'
      exact hmem'
    rw [hlist, hlist']
  · intro y y' p p' hy hy' hne hp hp' i hi
    rw [getShadowMem, Table.get_of_inTable (hin y hy)] at hp
    rw [getShadowMem, Table.get_of_inTable (hin y' hy')] at hp'
    obtain rfl := Except.ok.inj hp
    obtain rfl := Except.ok.inj hp'
    refine h.rep.not_reaches (fun heq => ?_) hi
    exact hy.truncate_ne hin hy' hne ((slotOf_eq_iff (hin y' hy') (hin y hy)).mp heq).symm
  · intro y y' deps hy hy' hne
    have hslot := hy.truncate_ne hin hy' hne
    obtain ⟨s'', hset, hother⟩ :=
      exists_setShadowMem_other h.rep (hin y hy) (hin y' hy') hslot deps
    exact ⟨s'', hset, hother.trans (hbytes y' hy')⟩

/-- **When the hook before a `read()` retags its buffer.** In every state between two hooks or
helpers that traces, for every buffer inside the shadow table: exactly if there is a number
left for the `read()`. -/
theorem retags_iff (hr : Rep s A) (ht : s.trace = true)
    (hin : ∀ y, Asked args y → InTable y) : Retags s args ↔ s.readN + 1 < 2 ^ 31 := by
  have htA : A.trace = true := hr.2.2.2.symm.trans ht
  constructor
  · rintro ⟨s', hcall, -⟩
    rw [taPreCall_read ht] at hcall
    obtain ⟨n, hn, -⟩ := bind_eq_ok.mp hcall
    exact (DepState.incr_eq_ok.mp hn).1
  · intro hcounts
    obtain ⟨s', A', hread, hdone⟩ := ReadDone.exists hr htA hcounts hin
    have hcall : taPreCall s nrRead args = .ok s' := by
      obtain ⟨s₁, hs₁, h⟩ := bind_eq_ok.mp hread
      rwa [← Except.ok.inj h]
    exact ⟨s', hcall, hdone.retagged hr (taPreCall_read ht ▸ hcall)⟩

/-- The first `read()`, of two bytes. -/
theorem retags_two_bytes : Retags (.init true) (sysArgs 0 8 2) := by
  refine (retags_iff (rep_init true) rfl ?_).mpr (by decide)
  rintro y ⟨i, hi, rfl⟩
  obtain rfl | rfl : i = 0 ∨ i = 1 := by
    have hi : i < 2 := hi
    omega
  all_goals decide

/-- As many `read()`s as there are numbers for can be made, if they ask for nothing. -/
theorem exists_reachable_readN {n : ℕ} (hn : n < 2 ^ 31) :
    ∃ s, Reachable s ∧ s.trace = true ∧ s.readN = n := by
  induction n with
  | zero => exact ⟨.init true, ⟨[], rfl⟩, rfl, rfl⟩
  | succ n ih =>
    obtain ⟨s, ⟨es, hes⟩, ht, hreadN⟩ := ih (by omega)
    have hincr : incr s.readN = .ok (s.readN + 1) := DepState.incr_of_lt (by omega)
    have hcall : taPreCall s nrRead (sysArgs 0 8 0) = .ok { s with readN := s.readN + 1 } := by
      rw [taPreCall_read ht, taPreRead, hincr]
      rfl
    refine ⟨{ s with readN := s.readN + 1 }, ⟨es ++ [.preCall nrRead (sysArgs 0 8 0)], ?_⟩, ht, ?_⟩
    · rw [run_append, hes, ok_bind, run_cons]
      exact congrArg (· >>= _) hcall
    · simp only [hreadN]
      push_cast
      rfl

/-- **The counter of `read()`s overflows** at the one that there is no number left for. -/
theorem not_retags : ¬∀ s args, Reachable s → s.trace = true →
    (∀ y, Asked args y → InTable y) → Retags s args := by
  intro h
  obtain ⟨s, hs, ht, hreadN⟩ := exists_reachable_readN (n := 2 ^ 31 - 1) (by omega)
  have hnone : ∀ y, Asked (sysArgs 0 8 0) y → InTable y := by
    rintro y ⟨i, hi, -⟩
    exact absurd hi (Nat.not_lt_zero i)
  obtain ⟨s', hcall, -⟩ := h s (sysArgs 0 8 0) hs ht hnone
  rw [taPreCall_read ht] at hcall
  obtain ⟨n, hn, -⟩ := bind_eq_ok.mp hcall
  have hlt := (DepState.incr_eq_ok.mp hn).1
  omega

end DepLeak

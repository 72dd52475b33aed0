import DepLeak.Dep.Bytes

/-!
# The shadow table as a map

`set_shadow_mem` and `get_shadow_mem` as the two operations of a map from addresses to
lists, on the state of the tool: an assignment frees the list that was there before, and
the lists of the other slots have to survive that.

The table has a slot for each pair of halves of the low 32 bits of an address, but for the
pairs with a half equal to `0xFFFF`. So it is a map only as far as addresses with different
upper halves are kept apart (`DepLeak.mapLaw_iff`), and an index leaves the table exactly
where a half is `0xFFFF` (`DepLeak.inBounds_iff`). The loops of `free_shadow_mem` go as far
as the table does (`DepLeak.freeShadowMem_spec`).
-/

namespace DepLeak

open LinkedHeap Runs

/-! ### The states a list is set in -/

/-- A state of the tool in the middle of a helper or of a hook that has built the list at
`deps`, or, if `deps` is `NULL`, between two of them. -/
def Holds (s : State) (deps : Ptr) : Prop := ∃ A vs, RepHand s A deps vs

/-- A list of one number can be built in every state. -/
theorem Rep.holds_alloc {s : State} {A : DepState} (hr : Rep s A) (v : ℤ) :
    Holds { s with ints := s.ints.alloc ⟨v, none⟩ } (some s.ints.top) :=
  ⟨A, [v], hr.hold ((Side.nil s.ints).copy (Grows.alloc s.ints v))⟩

namespace Table

variable {β : Type} {null : β} {tb : Table β} {addr : UWord}

/-- The page of an address is not there. -/
def NoPage (tb : Table β) (addr : UWord) : Prop :=
  ∃ hu : upIndex addr < tableSize, tb ⟨upIndex addr, hu⟩ = none

/-- A page that is not there reads as empty. -/
theorem get_of_noPage (h : tb.NoPage addr) : tb.get null addr = .ok null := by
  obtain ⟨hu, hpage⟩ := h
  rw [get, dif_pos hu, hpage]

/-- **Where a lookup stays inside the table.** -/
theorem exists_get_iff : (∃ v, tb.get null addr = .ok v) ↔ InTable addr ∨ tb.NoPage addr := by
  constructor
  · rintro ⟨v, hv⟩
    by_cases hu : upIndex addr < tableSize
    · by_cases hl : lowIndex addr < tableSize
      · exact .inl ⟨hu, hl⟩
      · rw [get_of_low hu hl] at hv
        refine .inr ⟨hu, ?_⟩
        cases hpage : tb ⟨upIndex addr, hu⟩ with
        | none => rfl
        | some page => simp [hpage] at hv
    · rw [get_of_up hu] at hv
      cases hv
  · rintro (ha | hno)
    · exact ⟨_, get_of_inTable ha⟩
    · exact ⟨_, get_of_noPage hno⟩

end Table

/-! ### What an assignment does to the table -/

variable {s s' : State} {A : DepState} {a b addr : UWord} {deps : Ptr} {vs : List ℤ}

/-- **An assignment** changes the one slot of its address, and makes its page. -/
theorem setShadowMem_table (h : setShadowMem s a deps = .ok s') :
    ∃ ha : InTable a,
      s'.shadowMem.slot none = Function.update (s.shadowMem.slot none) (slotOf a ha) deps ∧
      ∀ u, (s'.shadowMem u).isSome = ((s.shadowMem u).isSome ||
        decide (u = ⟨upIndex a, ha.1⟩)) := by
  obtain ⟨tb, hdemand, h⟩ := bind_eq_ok.mp h
  obtain ⟨old, hget, h⟩ := bind_eq_ok.mp h
  obtain ⟨ints, -, h⟩ := bind_eq_ok.mp h
  obtain ⟨tb', hput, h⟩ := bind_eq_ok.mp h
  obtain rfl := Except.ok.inj h
  have ha : InTable a := by
    rcases Table.exists_get_iff.mp ⟨old, hget⟩ with ha | ⟨hu, hpage⟩
    · exact ha
    · -- the page was allocated just before
      have hsome := Table.isSome_of_demand hu hdemand
      simp [hpage] at hsome
  obtain ⟨tb₁, page, hdemand₁, hpage, hslot, hpages⟩ :=
    Table.demand_of_inTable none s.shadowMem ha
  obtain rfl : tb₁ = tb := Except.ok.inj (hdemand₁.symm.trans hdemand)
  obtain ⟨tb₂, hput₂, hslot₂, hpages₂⟩ := Table.put_of_inTable none ha hpage deps
  obtain rfl : tb₂ = tb' := Except.ok.inj (hput₂.symm.trans hput)
  exact ⟨ha, by rw [hslot₂, hslot], fun u => by rw [hpages₂, hpages]⟩

/-- Inside the table an assignment goes through. -/
theorem exists_setShadowMem (hr : RepHand s A deps vs) (ha : InTable a) :
    ∃ s' A', setShadowMem s a deps = .ok s' ∧ Rep s' A' ∧
      A'.shadow.slot [] = Function.update (A.shadow.slot []) (slotOf a ha) vs := by
  have hl := setShadowMem_lockstep hr a
  obtain ⟨tb, hset, hslot⟩ := A.setShadow_of_inTable ha vs
  obtain ⟨s', hs', hr'⟩ := hl.ok_left hset
  exact ⟨s', _, hs', hr', hslot⟩

/-! ### The law of a map -/

/-- What `get_shadow_mem` finds: a pointer, and the numbers in the list at it. -/
def found (s : State) (addr : UWord) : Exec (Ptr × List ℤ) := do
  let q ← getShadowMem s addr
  let vs ← s.ints.toList q
  .ok (q, vs)

theorem found_of_inTable (hr : RepHand s A deps vs) (ha : InTable addr) :
    found s addr = .ok (s.shadowMem.slot none (slotOf addr ha),
      A.shadow.slot [] (slotOf addr ha)) := by
  obtain ⟨⟨P, D, -, hl⟩, -⟩ := hr
  have hat : ListAt s.ints (s.shadowMem.slot none (slotOf addr ha)) _ :=
    hl.listAt (.shadow (slotOf addr ha))
  rw [found, getShadowMem, Table.get_of_inTable ha, ok_bind, hat.toList]
  rfl

theorem found_of_noPage (h : s.shadowMem.NoPage addr) : found s addr = .ok (none, []) := by
  rw [found, getShadowMem, Table.get_of_noPage h]
  rfl

/-- **The law of a map**, for an assignment to `a` and a lookup of `b`: after
`set_shadow_mem(a, deps)`, the lookup finds `deps` if `b` is `a`, and else what it found
before. -/
def MapLaw (s : State) (a b : UWord) (deps : Ptr) : Prop :=
  ∃ s' vs old, setShadowMem s a deps = .ok s' ∧ s.ints.toList deps = .ok vs ∧
    found s b = .ok old ∧ found s' b = .ok (if a = b then (deps, vs) else old)

/-- The two addresses do not get into each other's way. -/
structure KeptApart (s : State) (a b : UWord) (deps : Ptr) : Prop where
  /-- The list is set inside the table. -/
  dst : InTable a
  /-- So is the lookup, or it stops at a page that is not there, then or now. -/
  src : InTable b ∨ s.shadowMem.NoPage b ∧ upIndex b ≠ upIndex a
  /-- Different addresses with the same low 32 bits have one slot: it may only be empty,
  and stay so. -/
  slots : a ≠ b → a.truncate 32 = b.truncate 32 →
    deps = none ∧ s.shadowMem.slot none (slotOf a dst) = none

theorem slotOf_eq_iff (ha : InTable a) (hb : InTable b) :
    slotOf b hb = slotOf a ha ↔ a.truncate 32 = b.truncate 32 := by
  rw [← Option.some.injEq, ← slotOf?_of_inTable hb, slotOf?_eq_some_iff, eq_comm, memCell, memCell,
    Cell.mem.injEq]

/-- The list in the hand is not in a slot. -/
theorem RepHand.eq_none_of_slot (hr : RepHand s A deps vs) {k : Slot}
    (h : s.shadowMem.slot none k = deps) : deps = none := by
  obtain ⟨⟨P, D, -, hl⟩, -⟩ := hr
  obtain ⟨own, hseg, -, hdis, -⟩ := hl.lists
  have hhand : Seg s.ints deps (own .hand) none := hseg .hand
  have hslot : Seg s.ints deps (own (.shadow k)) none := h ▸ hseg (.shadow k)
  -- two places never have a node in common, so that the list has no node
  have hsame := (hhand.unique hslot Heap.dead_none Heap.dead_none).1
  refine hhand.eq_none_iff.mpr (List.eq_nil_iff_forall_not_mem.mpr fun x hx => ?_)
  exact hdis .hand (.shadow k) (by simp) x.1 (List.mem_map_of_mem hx)
    (hsame ▸ List.mem_map_of_mem hx)

/-- A law that holds keeps the addresses apart. -/
theorem MapLaw.keptApart (h : MapLaw s a b deps) (hs : Holds s deps) : KeptApart s a b deps := by
  obtain ⟨A, vs, hr⟩ := hs
  obtain ⟨s', ws, old, hset, -, hold, hnew⟩ := h
  obtain ⟨ha, hslot, hpages⟩ := setShadowMem_table hset
  obtain ⟨q, hq, -⟩ := bind_eq_ok.mp hold
  obtain ⟨q', hq', -⟩ := bind_eq_ok.mp hnew
  refine ⟨ha, ?_, fun hne heq => ?_⟩
  · rcases Table.exists_get_iff.mp ⟨q, hq⟩ with hb | hno
    · exact .inl hb
    rcases Table.exists_get_iff.mp ⟨q', hq'⟩ with hb | ⟨hu, hno'⟩
    · exact .inl hb
    refine .inr ⟨hno, fun hup => ?_⟩
    have hpage := hpages ⟨upIndex b, hu⟩
    rw [hno'] at hpage
    simp [hup] at hpage
  · -- one slot for both: the lookup of `b` finds what was set at `a`
    have hb : InTable b := inTable_of_memCell_eq (congrArg Cell.mem heq.symm) ha
    have hsame := (slotOf_eq_iff ha hb).mpr heq
    obtain ⟨s₁, A', hset₁, hr', -⟩ := exists_setShadowMem hr ha
    obtain rfl : s₁ = s' := Except.ok.inj (hset₁.symm.trans hset)
    rw [found_of_inTable hr hb] at hold
    rw [found_of_inTable hr' hb, if_neg hne, ← Except.ok.inj hold] at hnew
    have hptr := congrArg Prod.fst (Except.ok.inj hnew)
    simp only [hsame, hslot, Function.update_self] at hptr
    have hnone := hr.eq_none_of_slot hptr.symm
    exact ⟨hnone, hptr.symm.trans hnone⟩

/-- Addresses that are kept apart obey the law. -/
theorem KeptApart.mapLaw (h : KeptApart s a b deps) (hs : Holds s deps) : MapLaw s a b deps := by
  obtain ⟨A, vs, hr⟩ := hs
  have hvs : s.ints.toList deps = .ok vs := by
    obtain ⟨⟨P, D, -, hl⟩, -⟩ := hr
    exact hl.lists.toList .hand
  obtain ⟨ha, hsrc, hclash⟩ := h
  obtain ⟨s', A', hset, hr', hslotA⟩ := exists_setShadowMem hr ha
  obtain ⟨ha', hslot, hpages⟩ := setShadowMem_table hset
  rcases hsrc with hb | ⟨hno, hup⟩
  · refine ⟨s', vs, _, hset, hvs, found_of_inTable hr hb, ?_⟩
    rw [found_of_inTable hr' hb, hslot, hslotA]
    by_cases hab : a = b
    · subst hab
      simp
    · rw [if_neg hab]
      by_cases hlow : a.truncate 32 = b.truncate 32
      · -- one slot for both: it was empty, and what is set is empty
        obtain ⟨rfl, hempty⟩ := hclash hab hlow
        obtain rfl := hr.eq_none_iff.mp rfl
        have hnil : A.shadow.slot [] (slotOf a ha) = [] := by
          obtain ⟨⟨P, D, -, hl⟩, -⟩ := hr
          exact (hl.lists.ptr_eq_none_iff (.shadow (slotOf a ha))).mp hempty
        rw [(slotOf_eq_iff ha hb).mpr hlow, Function.update_self, Function.update_self, hempty,
          hnil]
      · have hne : slotOf b hb ≠ slotOf a ha := fun h => hlow ((slotOf_eq_iff ha hb).mp h)
        rw [Function.update_of_ne hne, Function.update_of_ne hne]
  -- the page of `b` is another one, and is not made either
  · have hno' : s'.shadowMem.NoPage b := by
      obtain ⟨hu, hpage⟩ := hno
      refine ⟨hu, Option.not_isSome_iff_eq_none.mp ?_⟩
      rw [hpages, hpage]
      simpa using hup
    refine ⟨s', vs, _, hset, hvs, found_of_noPage hno, ?_⟩
    rw [found_of_noPage hno', if_neg fun hab => hup (congrArg upIndex hab.symm)]

/-- **When the shadow table is a map.** Whatever is in the table, an assignment and a lookup
obey the law of a map exactly if the two addresses are kept apart. -/
theorem mapLaw_iff (hs : Holds s deps) (a b : UWord) :
    MapLaw s a b deps ↔ KeptApart s a b deps :=
  ⟨fun h => h.keptApart hs, fun h => h.mapLaw hs⟩

/-- The state in the hook for the first `read()`, with the list for a byte built. -/
def oneList : State :=
  { State.init true with readN := 1, ints := (Heap.empty : IntHeap).alloc ⟨1, none⟩ }

theorem holds_oneList : Holds oneList (some 0) :=
  Rep.holds_alloc ((rep_init true).setReadN 1) 1

theorem mapLaw_iff_two_pages : MapLaw oneList 0x8 0x10008 (some 0) :=
  (mapLaw_iff holds_oneList 0x8 0x10008).mpr
    ⟨by decide, .inl (by decide), fun _ h => absurd h (by decide)⟩

/-- **The shadow table is no map**: an address above 4 GiB has the slot of one below. -/
theorem not_mapLaw : ¬∀ s deps, Holds s deps → ∀ a b, MapLaw s a b deps := by
  intro h
  have hapart := (h oneList (some 0) holds_oneList 0x8 0x100000008).keptApart holds_oneList
  exact absurd (hapart.slots (by decide) (by decide)).1 (by decide)

/-! ### The loops of `free_shadow_mem` -/

/-- The pointers in a page, if it is there. -/
def pagePtrs (tb : Table Ptr) (i : Fin tableSize) : List Ptr :=
  match tb i with
  | none => []
  | some page => (List.finRange tableSize).map page

/-- The slots of a page, if it is there. -/
def pageSlots (tb : Table Ptr) (i : Fin tableSize) : List Slot :=
  if (tb i).isSome then (List.finRange tableSize).map (i, ·) else []

theorem map_pageSlots (tb : Table Ptr) (i : Fin tableSize) :
    (pageSlots tb i).map (tb.slot none) = pagePtrs tb i := by
  rw [pageSlots, pagePtrs]
  cases hpage : tb i with
  | none => rfl
  | some page =>
    simp [Table.slot, hpage, Function.comp_def]

theorem mem_pageSlots {tb : Table Ptr} {i : Fin tableSize} {k : Slot} :
    k ∈ pageSlots tb i ↔ k.1 = i ∧ (tb i).isSome := by
  rw [pageSlots]
  split
  · next h =>
    simp only [List.mem_map, List.mem_finRange, true_and, h, and_true]
    exact ⟨by rintro ⟨j, rfl⟩; rfl, by rintro rfl; exact ⟨k.2, rfl⟩⟩
  · next h => simp [h]

/-- The slots of all pages that are there, in the order in which they are freed. -/
def pagesSlots (tb : Table Ptr) : List Slot := (List.finRange tableSize).flatMap (pageSlots tb)

theorem mem_pagesSlots {tb : Table Ptr} {k : Slot} : k ∈ pagesSlots tb ↔ (tb k.1).isSome := by
  simp [pagesSlots, mem_pageSlots]

theorem nodup_pagesSlots (tb : Table Ptr) : (pagesSlots tb).Nodup := by
  refine List.nodup_flatMap.mpr ⟨fun i _ => ?_, ?_⟩
  · rw [pageSlots]
    split
    · exact (List.nodup_finRange _).map fun _ _ h => congrArg Prod.snd h
    · exact List.nodup_nil
  · refine (List.nodup_finRange _).imp fun hne k hk hk' => hne ?_
    exact (mem_pageSlots.mp hk).1.symm.trans (mem_pageSlots.mp hk').1

theorem map_pagesSlots (tb : Table Ptr) :
    (pagesSlots tb).map (tb.slot none) = (List.finRange tableSize).flatMap (pagePtrs tb) := by
  rw [pagesSlots, List.map_flatMap]
  exact List.flatMap_congr fun i _ => map_pageSlots tb i

/-- A slot of a page that is not there is empty. -/
theorem slot_of_not_mem {tb : Table Ptr} {k : Slot} (hk : k ∉ pagesSlots tb) :
    tb.slot none k = none := by
  rw [mem_pagesSlots, Option.not_isSome_iff_eq_none] at hk
  rw [Table.slot, hk]

/-- The inner loop goes over the whole page. -/
theorem run_freeSlot (page : Page Ptr) (ints : IntHeap) :
    run (freeSlot page) ints (List.range 0x0000FFFF) =
      run freeIntNodeList ints ((List.finRange tableSize).map page) := by
  have hstep : (fun h (j : Fin tableSize) => freeSlot page h j) =
      fun h j => freeIntNodeList h (page j) := by
    funext h j
    rw [freeSlot, dif_pos j.isLt]
  rw [← List.map_coe_finRange_eq_range, run_map, run_map, hstep]

/-- The outer loop, over some of the pages. -/
theorem run_freePage {is : List (Fin tableSize)} (his : is.Nodup) {ints' : IntHeap} :
    ∀ {s : State}, run freeIntNodeList s.ints (is.flatMap (pagePtrs s.shadowMem)) = .ok ints' →
      ∃ tb, run freePage s (is.map Fin.val) = .ok { s with ints := ints', shadowMem := tb } ∧
        ∀ i, (i ∈ is → tb i = none) ∧ (i ∉ is → tb i = s.shadowMem i) := by
  induction is with
  | nil =>
    intro s hrun
    obtain rfl : s.ints = ints' := Except.ok.inj hrun
    exact ⟨s.shadowMem, rfl, fun i => ⟨fun h => absurd h List.not_mem_nil, fun _ => rfl⟩⟩
  | cons i is ih =>
    intro s hrun
    obtain ⟨hi, his⟩ := List.nodup_cons.mp his
    rw [List.flatMap_cons] at hrun
    obtain ⟨ints₁, hpage, hrun⟩ := run_append_eq_ok.mp hrun
    rw [List.map_cons, run_cons, freePage, dif_pos i.isLt]
    cases htb : s.shadowMem i with
    | none =>
      obtain rfl : s.ints = ints₁ := Except.ok.inj (by rwa [pagePtrs, htb] at hpage)
      obtain ⟨tb, hok, hin⟩ := ih his hrun
      refine ⟨tb, hok, fun k => ⟨fun hk => ?_, fun hk => ?_⟩⟩
      · rcases List.mem_cons.mp hk with rfl | hk
        · rw [(hin k).2 hi, htb]
        · exact (hin k).1 hk
      · exact (hin k).2 fun h => hk (List.mem_cons_of_mem i h)
    | some page =>
      rw [pagePtrs, htb, ← run_freeSlot] at hpage
      -- the pages that are left are as they were
      have hsame : ∀ k ∈ is, pagePtrs (Function.update s.shadowMem i none) k =
          pagePtrs s.shadowMem k := by
        intro k hk
        have hne : k ≠ i := fun he => hi (he ▸ hk)
        rw [pagePtrs, pagePtrs, Function.update_of_ne hne]
      rw [← List.flatMap_congr hsame] at hrun
      simp only [hpage, ok_bind]
      obtain ⟨tb, hok, hin⟩ :=
        ih (s := { s with ints := ints₁, shadowMem := Function.update s.shadowMem i none }) his hrun
      refine ⟨tb, hok, fun k => ⟨fun hk => ?_, fun hk => ?_⟩⟩
      · rcases List.mem_cons.mp hk with rfl | hk
        · exact ((hin k).2 hi).trans (Function.update_self ..)
        · exact (hin k).1 hk
      · rw [List.mem_cons, not_or] at hk
        obtain ⟨hne, hk⟩ := hk
        exact ((hin k).2 hk).trans (Function.update_of_ne hne _ _)

/-- **`free_shadow_mem`** frees the lists of all slots, and all pages. -/
theorem freeShadowMem_spec {s : State} {P : ℕ → Ptr} {D : ℕ → List ℤ} {tl : Table (List ℤ)}
    {p : Ptr} {lost : Bool}
    (hf : Family s.ints (placePtr s.shadowMem P p) (placeVals tl D vs) lost) :
    ∃ ints S, freeShadowMem s = .ok { s with ints := ints, shadowMem := .empty } ∧
      Shrinks s.ints ints S ∧
      (∀ i, i ∈ S ↔ ∃ k l, Seg s.ints (s.shadowMem.slot none k) l none ∧ i ∈ ids l) ∧
      Family ints (placePtr .empty P p) (placeVals .empty D vs) lost := by
  have hnd : ((pagesSlots s.shadowMem).map Place.shadow).Nodup :=
    (nodup_pagesSlots _).map fun _ _ h => Place.shadow.inj h
  have hmem : ∀ k, Place.shadow k ∈ (pagesSlots s.shadowMem).map Place.shadow ↔
      k ∈ pagesSlots s.shadowMem := fun k =>
    List.mem_map_of_injective fun _ _ h => Place.shadow.inj h
  obtain ⟨ints, S, hrun, hsh, hS, hf'⟩ := hf.dropAll hnd
  have hptrs : ((pagesSlots s.shadowMem).map Place.shadow).map (placePtr s.shadowMem P p) =
      (List.finRange tableSize).flatMap (pagePtrs s.shadowMem) := by
    rw [← map_pagesSlots, List.map_map]
    rfl
  rw [hptrs] at hrun
  refine ⟨ints, S, ?_, hsh, fun i => (hS i).trans ?_, ?_⟩
  · obtain ⟨tb, hok, hin⟩ := run_freePage (List.nodup_finRange _) hrun
    obtain rfl : tb = .empty := funext fun i => (hin i).1 (List.mem_finRange i)
    rw [freeShadowMem, ← List.map_coe_finRange_eq_range, hok]
  · constructor
    · rintro ⟨k, hk, l, hl, hi⟩
      obtain ⟨k, -, rfl⟩ := List.mem_map.mp hk
      exact ⟨k, l, hl, hi⟩
    · rintro ⟨k, l, hl, hi⟩
      refine ⟨.shadow k, (hmem k).mpr ?_, l, hl, hi⟩
      by_contra hno
      rw [slot_of_not_mem hno] at hl
      rw [hl.eq_nil_of_none] at hi
      exact absurd hi List.not_mem_nil
  · convert hf' using 1
    · funext k
      cases k with
      | shadow k =>
        simp only [hmem, placePtr, Table.slot_empty]
        split
        · rfl
        · next hk => exact (slot_of_not_mem hk).symm
      | _ => simp [placePtr]
    · funext k
      cases k with
      | shadow k =>
        simp only [hmem, placeVals, Table.slot_empty]
        split
        · rfl
        · next hk => exact ((hf.ptr_eq_none_iff (.shadow k)).mp (slot_of_not_mem hk)).symm
      | _ => simp [placeVals]

/-! ### The bounds of the table -/

/-- An access to the shadow table. -/
inductive ShadowAccess
  /-- A call of `get_shadow_mem`. -/
  | get
  /-- A call of `set_shadow_mem` with a list. -/
  | set (deps : Ptr)

/-- The list that is set. -/
def ShadowAccess.hand : ShadowAccess → Ptr
  | .get => none
  | .set deps => deps

/-- **The access stays inside what was allocated**, and a list that it sets is one that
`free_shadow_mem` gets to. -/
def ShadowAccess.InBounds (s : State) (addr : UWord) : ShadowAccess → Prop
  | .get => ∃ q, getShadowMem s addr = .ok q
  | .set deps => ∃ s' s'', setShadowMem s addr deps = .ok s' ∧ freeShadowMem s' = .ok s'' ∧
      ∀ l, Seg s'.ints deps l none → ∀ i ∈ ids l, s''.ints.cell i = none

/-- **When the indices stay inside the table**: in every state, exactly if neither half of
the low 32 bits of the address is `0xFFFF`, or if the access is a lookup and stops at a page
that is not there. -/
theorem inBounds_iff {x : ShadowAccess} (hs : Holds s x.hand) (addr : UWord) :
    x.InBounds s addr ↔ InTable addr ∨ x = .get ∧ s.shadowMem.NoPage addr := by
  cases x with
  | get => simpa [ShadowAccess.InBounds, getShadowMem] using Table.exists_get_iff
  | set deps =>
    simp only [ShadowAccess.InBounds, reduceCtorEq, false_and, or_false]
    constructor
    · rintro ⟨s', s'', hset, -⟩
      exact (setShadowMem_table hset).1
    · intro ha
      obtain ⟨A, vs, hr⟩ := hs
      obtain ⟨s', A', hset, ⟨⟨P, D, -, hl⟩, -⟩, -⟩ := exists_setShadowMem hr ha
      obtain ⟨ha', hslot, -⟩ := setShadowMem_table hset
      -- the loops go over every slot, also the one that was set
      obtain ⟨ints, S, hfree, hsh, hS, -⟩ := freeShadowMem_spec hl.lists
      refine ⟨s', _, hset, hfree, fun l hl i hi => hsh.gone i ((hS i).mpr ?_)⟩
      refine ⟨slotOf addr ha, l, ?_, hi⟩
      rw [hslot, Function.update_self]
      exact hl

theorem Reachable.holds (h : Reachable s) : Holds s none := by
  obtain ⟨A, hr⟩ := h.wellFormed
  exact ⟨A, [], hr⟩

/-- The list for a byte that was read is set, and then looked up. -/
theorem inBounds_iff_set_get : ShadowAccess.InBounds oneList 0x8 (.set (some 0)) ∧
    ∃ s, run stepTool (.init true) [.preCall nrRead (sysArgs 0 8 1)] = .ok s ∧
      (∃ q, getShadowMem s 0x8 = .ok (some q)) ∧ ShadowAccess.InBounds s 0x8 .get := by
  constructor
  · exact (inBounds_iff (x := .set (some 0)) holds_oneList 0x8).mpr (.inl (by decide))
  · obtain ⟨s, hs, hlist⟩ : ∃ s, run stepTool (.init true) [.preCall nrRead (sysArgs 0 8 1)] =
        .ok s ∧ ∃ q, getShadowMem s 0x8 = .ok (some q) := ⟨_, rfl, _, rfl⟩
    exact ⟨s, hs, hlist,
      (inBounds_iff (x := .get) (Reachable.holds ⟨_, hs⟩) 0x8).mpr (.inl (by decide))⟩

/-- **An index leaves the table**: a page has no entry for the last byte of its 64 KiB. -/
theorem not_inBounds : ¬∀ s (x : ShadowAccess), Holds s x.hand → ∀ addr, x.InBounds s addr := by
  intro h
  obtain ⟨s', s'', hset, -⟩ := h oneList (.set (some 0)) holds_oneList 0xFFFF
  exact absurd (setShadowMem_table hset).1 (by decide)

end DepLeak

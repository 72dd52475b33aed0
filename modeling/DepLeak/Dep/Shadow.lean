import DepLeak.LinkedHeap.Basic

/-!
# The shadow table

`shadow_mem` of `depAnalysis.c`: a two-level table indexed by the two 16-bit halves
of the low 32 bits of an address, its second level allocated on demand. Both
levels have `0xFFFF` entries, one less than a 16-bit half has values, so an
address with a half equal to `0xFFFF` is looked up outside the table
(`LinkedHeap.Fault.bounds`) – except that `get_shadow_mem` stops at a page that is
not there before it looks at the lower half.

The table is generic in what its slots hold: pointers to `int_node`s in the tool,
the lists of numbers themselves in the model the tool refines.
-/

namespace DepLeak

open LinkedHeap

/-- `UWord` of a 64-bit host. -/
abbrev UWord := BitVec 64

/-- The number of entries both levels are allocated with. -/
abbrev tableSize : ℕ := 0xFFFF

/-- A second-level page. -/
abbrev Page (β : Type) := Fin tableSize → β

/-- The first-level table; `none` is a page that was never allocated. -/
abbrev Table (β : Type) := Fin tableSize → Option (Page β)

/-- A slot of the table: its first-level and its second-level index. -/
abbrev Slot := Fin tableSize × Fin tableSize

/-- The first-level index of an address. -/
def upIndex (addr : UWord) : ℕ := ((addr &&& 0xFFFF0000#64) >>> 16).toNat

/-- The second-level index of an address. -/
def lowIndex (addr : UWord) : ℕ := (addr &&& 0x0000FFFF#64).toNat

/-- Neither half of the low 32 bits of the address is `0xFFFF`. -/
def InTable (addr : UWord) : Prop := upIndex addr < tableSize ∧ lowIndex addr < tableSize

instance (addr : UWord) : Decidable (InTable addr) := inferInstanceAs (Decidable (_ ∧ _))

/-- The slot of an address inside the table. -/
def slotOf (addr : UWord) (h : InTable addr) : Slot :=
  (⟨upIndex addr, h.1⟩, ⟨lowIndex addr, h.2⟩)

/-- The slot of an address, if it is inside the table. -/
def slotOf? (addr : UWord) : Option Slot :=
  if h : InTable addr then some (slotOf addr h) else none

theorem slotOf?_of_inTable {addr : UWord} (h : InTable addr) :
    slotOf? addr = some (slotOf addr h) :=
  dif_pos h

namespace Table

variable {β : Type}

/-- `get_shadow_mem`: a page that is not there reads as `NULL`. -/
def get (null : β) (tb : Table β) (addr : UWord) : Exec β :=
  if hu : upIndex addr < tableSize then
    match tb ⟨upIndex addr, hu⟩ with
    | none => .ok null
    | some page =>
      if hl : lowIndex addr < tableSize then .ok (page ⟨lowIndex addr, hl⟩) else .error .bounds
  else .error .bounds

/-- The on-demand allocation of `set_shadow_mem`: a new page is all `NULL`. -/
def demand (null : β) (tb : Table β) (addr : UWord) : Exec (Table β) :=
  if hu : upIndex addr < tableSize then
    match tb ⟨upIndex addr, hu⟩ with
    | none => .ok (Function.update tb ⟨upIndex addr, hu⟩ (some fun _ => null))
    | some _ => .ok tb
  else .error .bounds

/-- The assignment to `shadow_mem[up][low]`; a `NULL` page cannot be indexed. -/
def put (tb : Table β) (addr : UWord) (v : β) : Exec (Table β) :=
  if hu : upIndex addr < tableSize then
    match tb ⟨upIndex addr, hu⟩ with
    | none => .error .dangling
    | some page =>
      if hl : lowIndex addr < tableSize then
        .ok (Function.update tb ⟨upIndex addr, hu⟩
          (some (Function.update page ⟨lowIndex addr, hl⟩ v)))
      else .error .bounds
  else .error .bounds

/-- What a slot holds; a page that is not there holds `NULL` everywhere. -/
def slot (null : β) (tb : Table β) (k : Slot) : β :=
  match tb k.1 with
  | none => null
  | some page => page k.2

/-- The table before any page is allocated. -/
def empty : Table β := fun _ => none

@[simp] theorem slot_empty (null : β) (k : Slot) : (empty : Table β).slot null k = null := rfl

/-! ### Addresses inside the table -/

variable {null : β} {tb : Table β} {addr : UWord}

theorem get_of_inTable (ha : InTable addr) :
    tb.get null addr = .ok (tb.slot null (slotOf addr ha)) := by
  simp only [get, slot, slotOf, dif_pos ha.1]
  cases tb ⟨upIndex addr, ha.1⟩ with
  | none => rfl
  | some page => simp only [dif_pos ha.2]

/-- Allocating a page on demand changes no slot. -/
theorem demand_of_inTable (null : β) (tb : Table β) (ha : InTable addr) :
    ∃ tb' page, tb.demand null addr = .ok tb' ∧ tb' ⟨upIndex addr, ha.1⟩ = some page ∧
      tb'.slot null = tb.slot null ∧ ∀ u, (tb' u).isSome = ((tb u).isSome ||
        decide (u = ⟨upIndex addr, ha.1⟩)) := by
  rw [demand, dif_pos ha.1]
  cases htb : tb ⟨upIndex addr, ha.1⟩ with
  | none =>
    refine ⟨_, fun _ => null, rfl, Function.update_self .., ?_, fun u => ?_⟩
    · funext k
      rcases eq_or_ne k.1 ⟨upIndex addr, ha.1⟩ with hk | hk
      · simp [slot, hk, htb]
      · simp [slot, hk]
    · rcases eq_or_ne u ⟨upIndex addr, ha.1⟩ with rfl | hu
      · simp
      · simp [hu]
  | some page =>
    refine ⟨tb, page, rfl, htb, rfl, fun u => ?_⟩
    rcases eq_or_ne u ⟨upIndex addr, ha.1⟩ with rfl | hu
    · simp [htb]
    · simp [hu]

/-- An assignment changes the one slot of its address. -/
theorem put_of_inTable (null : β) (ha : InTable addr) {page : Page β}
    (hp : tb ⟨upIndex addr, ha.1⟩ = some page) (v : β) :
    ∃ tb', tb.put addr v = .ok tb' ∧
      tb'.slot null = Function.update (tb.slot null) (slotOf addr ha) v ∧
      ∀ u, (tb' u).isSome = (tb u).isSome := by
  refine ⟨Function.update tb ⟨upIndex addr, ha.1⟩
    (some (Function.update page ⟨lowIndex addr, ha.2⟩ v)), ?_, ?_, fun u => ?_⟩
  · simp only [put, dif_pos ha.1, hp, dif_pos ha.2]
  · funext k
    obtain ⟨u, w⟩ := k
    rcases eq_or_ne u ⟨upIndex addr, ha.1⟩ with rfl | hu
    · rcases eq_or_ne w ⟨lowIndex addr, ha.2⟩ with rfl | hw
      · simp [slot, slotOf]
      · have hne : ((⟨upIndex addr, ha.1⟩, w) : Slot) ≠ slotOf addr ha := fun he =>
          hw (congrArg Prod.snd he)
        simp [slot, hw, Function.update_of_ne hne, hp]
    · have hne : ((u, w) : Slot) ≠ slotOf addr ha := fun he => hu (congrArg Prod.fst he)
      simp [slot, hu, Function.update_of_ne hne]
  · rcases eq_or_ne u ⟨upIndex addr, ha.1⟩ with rfl | hu
    · simp [hp]
    · simp [hu]

/-! ### Addresses outside the table -/

/-- Outside the first level every access is out of bounds. -/
theorem get_of_up (hu : ¬upIndex addr < tableSize) : tb.get null addr = .error .bounds := by
  rw [get, dif_neg hu]

theorem demand_of_up (hu : ¬upIndex addr < tableSize) : tb.demand null addr = .error .bounds := by
  rw [demand, dif_neg hu]

/-- Outside the second level a read is out of bounds as soon as the page is
there. -/
theorem get_of_low (hu : upIndex addr < tableSize) (hl : ¬lowIndex addr < tableSize) :
    tb.get null addr = if (tb ⟨upIndex addr, hu⟩).isSome then .error .bounds else .ok null := by
  rw [get, dif_pos hu]
  cases tb ⟨upIndex addr, hu⟩ with
  | none => rfl
  | some page => simp only [dif_neg hl, Option.isSome_some, if_true]

/-- After the on-demand allocation the page is there. -/
theorem isSome_of_demand {tb' : Table β} (hu : upIndex addr < tableSize)
    (hd : tb.demand null addr = .ok tb') : (tb' ⟨upIndex addr, hu⟩).isSome := by
  rw [demand, dif_pos hu] at hd
  cases htb : tb ⟨upIndex addr, hu⟩ with
  | none =>
    rw [htb] at hd
    cases hd
    simp
  | some page =>
    rw [htb] at hd
    cases hd
    simp [htb]

end Table

/-! ### The indices as numbers -/

theorem lowIndex_eq (addr : UWord) : lowIndex addr = addr.toNat % 65536 := by
  have hmask : (0x0000FFFF#64).toNat = 2 ^ 16 - 1 := rfl
  rw [lowIndex, BitVec.toNat_and, hmask, Nat.and_two_pow_sub_one_eq_mod]

theorem upIndex_eq (addr : UWord) : upIndex addr = addr.toNat / 65536 % 65536 := by
  have hmask : 0xFFFF0000#64 = 0x0000FFFF#64 <<< 16 := by decide
  have hshift : (addr &&& 0xFFFF0000#64) >>> 16 = (addr >>> 16) &&& 0x0000FFFF#64 := by
    rw [BitVec.ushiftRight_and_distrib]
    rfl
  rw [upIndex, hshift]
  change lowIndex (addr >>> 16) = _
  rw [lowIndex_eq, BitVec.toNat_ushiftRight, Nat.shiftRight_eq_div_pow]

theorem lowIndex_add (addr : UWord) (i : ℕ) :
    lowIndex (addr + BitVec.ofNat 64 i) = (addr.toNat + i) % 65536 := by
  rw [lowIndex_eq, BitVec.toNat_add, BitVec.toNat_ofNat]
  omega

/-- A buffer of `0x10000` bytes or more has an address outside the table. -/
theorem exists_not_inTable (addr : UWord) {n : ℕ} (hn : 65536 ≤ n) :
    ∃ i < n, ¬InTable (addr + BitVec.ofNat 64 i) := by
  refine ⟨65535 - addr.toNat % 65536, by omega, fun h => ?_⟩
  have hlow : _ < 65535 := h.2
  rw [lowIndex_add] at hlow
  omega

end DepLeak

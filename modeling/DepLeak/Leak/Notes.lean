import DepLeak.Ledger
import DepLeak.Leak.Detector

/-!
# What the detector takes the locations to hold

The maps of `DepLeak.Detector` say which block each location holds, and the vector of
calls which blocks were freed: a `Ledger.State` that is kept by rules of its own
(`DepLeak.note`). A block that is stored is noted only if nothing is noted for the
location yet, and a copy from a location for which nothing is noted is not noted.

By these rules, every block is freed exactly if no location that was given a block is
allocated into, and every block is freed when the blank copies are left out
(`DepLeak.noted_allFreed_iff`). The functions of the detector that change its maps keep the
rules (`DepLeak.Notes`).
-/

namespace DepLeak

open Runs Ledger Detector

/-! ### Locations -/

/-- Where a pointer is kept. -/
inductive Location
  /-- A global variable. -/
  | var (name : String)
  /-- A field of a global structure. -/
  | field (struct : String) (index : BitVec 32)
  deriving DecidableEq

/-- The operand of a load from the location, or of a store to it. -/
def Location.address : Location → Value
  | .var name => .global name
  | .field struct index =>
    .constantExpr .getElementPtr
      [.global struct, .constantInt 0, .constantInt (index.setWidth 64)]

/-! ### The rules -/

/-- What the detector notes of one operation. -/
def note (s : State Location) : Op Location → State Location
  | .alloc l => ⟨s.count + 1, Detector.insert s.holds l s.count, s.freed⟩
  | .copy dst src =>
    match s.holds src with
    | some id => ⟨s.count, Function.update s.holds dst (some id), s.freed⟩
    | none => s
  | .free l => ⟨s.count, s.holds, (s.holds l).toList ++ s.freed⟩

/-- What it notes of a list of operations. -/
def noted (ops : List (Op Location)) : State Location := ops.foldl note State.init

@[simp] theorem noted_snoc (ops : List (Op Location)) (op : Op Location) :
    noted (ops ++ [op]) = note (noted ops) op := by
  simp [noted]

section Step

variable {s : State Location} {g : Location → Bool}

/-- Where something is noted for the locations that were given a block, one operation more
leaves it so. -/
theorem note_holds_isSome (h : ∀ l, (s.holds l).isSome = g l) (op : Op Location)
    (l : Location) : ((note s op).holds l).isSome = give g op l := by
  cases op with
  | alloc l' =>
    rcases eq_or_ne l l' with rfl | hne
    · simp [note, insert_apply, give]
    · simp [note, insert_apply, give, hne, h]
  | copy dst src =>
    cases hsrc : s.holds src with
    | none =>
      have hgiven : g src = false := by rw [← h, hsrc]; rfl
      simp [note, hsrc, give, hgiven, h]
    | some id =>
      have hgiven : g src = true := by rw [← h, hsrc]; rfl
      rcases eq_or_ne l dst with rfl | hne
      · simp [note, hsrc, give, hgiven]
      · simp [note, hsrc, give, hgiven, hne, h]
  | free l' => exact h l

/-- A blank copy is of a location that nothing is noted for, and is not noted either. -/
theorem note_of_isBlank (h : ∀ l, (s.holds l).isSome = g l) {op : Op Location}
    (hblank : isBlank g op) : note s op = s := by
  cases op with
  | copy dst src =>
    have hsrc : s.holds src = none := by
      rw [← Option.not_isSome_iff_eq_none, h]
      simpa [isBlank] using hblank
    simp [note, hsrc]
  | _ => cases hblank

/-- Any other operation is noted as it is, unless it allocates into a location that was given
a block. -/
theorem note_eq_step (h : ∀ l, (s.holds l).isSome = g l) {op : Op Location}
    (hblank : ¬isBlank g op) (halloc : ∀ l, op = .alloc l → ¬g l) : note s op = s.step op := by
  cases op with
  | alloc l =>
    -- nothing is noted for the location, so that `insert` takes the new number
    have hl : s.holds l = none := by
      rw [← Option.not_isSome_iff_eq_none, h]
      exact halloc l rfl
    simp only [note, State.step, Detector.insert, hl]
  | copy dst src =>
    have hsrc : (s.holds src).isSome := by
      rw [h]
      simpa [isBlank] using hblank
    obtain ⟨id, hid⟩ := Option.isSome_iff_exists.mp hsrc
    simp [note, State.step, hid]
  | free l => rfl

end Step

/-- Something is noted for the locations that were given a block. -/
theorem noted_holds_isSome (ops : List (Op Location)) (l : Location) :
    ((noted ops).holds l).isSome = given ops l := by
  induction ops using List.reverseRecOn generalizing l with
  | nil => rfl
  | append_singleton ops op ih =>
    rw [noted_snoc, given_snoc]
    exact note_holds_isSome ih op l

/-- **The notes are right about the operations without the blank copies**, as long as no
location that was given a block is allocated into. -/
theorem noted_eq {ops : List (Op Location)} (h : ¬Reallocates ops) :
    noted ops = exec (withoutBlanks ops) := by
  induction ops using List.reverseRecOn with
  | nil => rfl
  | append_singleton ops op ih =>
    rw [reallocates_snoc, not_or] at h
    obtain ⟨hops, hop⟩ := h
    rw [noted_snoc]
    by_cases hblank : isBlank (given ops) op
    · rw [withoutBlanks_snoc_of_blank hblank, ← ih hops]
      exact note_of_isBlank (noted_holds_isSome ops) hblank
    · rw [withoutBlanks_snoc_of_not hblank, exec_snoc, ← ih hops]
      exact note_eq_step (noted_holds_isSome ops) hblank fun l hl hgiven => hop ⟨l, hl, hgiven⟩

/-- A block that is not noted for any location, nor as freed. -/
def Orphan (s : State Location) (id : ℕ) : Prop :=
  id < s.count ∧ (∀ l, s.holds l ≠ some id) ∧ id ∉ s.freed

theorem Orphan.note {s : State Location} {id : ℕ} (h : Orphan s id) (op : Op Location) :
    Orphan (note s op) id := by
  obtain ⟨hlt, hholds, hfreed⟩ := h
  cases op with
  | alloc l =>
    refine ⟨Nat.lt_succ_of_lt hlt, fun l' => ?_, hfreed⟩
    rcases eq_or_ne l' l with rfl | hne
    · have hl := hholds l'
      cases hheld : s.holds l' with
      | none => simpa [DepLeak.note, insert_apply, hheld] using hlt.ne'
      | some id' =>
        rw [hheld] at hl
        simpa [DepLeak.note, insert_apply, hheld] using hl
    · simpa [DepLeak.note, insert_apply, hne] using hholds l'
  | copy dst src =>
    cases hsrc : s.holds src with
    | none => simpa [DepLeak.note, hsrc] using (show Orphan s id from ⟨hlt, hholds, hfreed⟩)
    | some id' =>
      have hne' : some id' ≠ some id := hsrc ▸ hholds src
      refine ⟨by simpa [DepLeak.note, hsrc] using hlt, fun l' => ?_, by
        simpa [DepLeak.note, hsrc] using hfreed⟩
      rcases eq_or_ne l' dst with rfl | hne
      · simpa [DepLeak.note, hsrc] using hne'
      · simpa [DepLeak.note, hsrc, hne] using hholds l'
  | free l =>
    refine ⟨hlt, hholds, ?_⟩
    simp only [DepLeak.note, List.mem_append, Option.mem_toList, not_or]
    exact ⟨hholds l, hfreed⟩

/-- Only blocks that were allocated are noted. -/
def Allocated (s : State Location) : Prop :=
  (∀ l id, s.holds l = some id → id < s.count) ∧ ∀ id ∈ s.freed, id < s.count

theorem Allocated.note {s : State Location} (h : Allocated s) (op : Op Location) :
    Allocated (note s op) := by
  obtain ⟨hholds, hfreed⟩ := h
  cases op with
  | alloc l =>
    refine ⟨fun l' id h => ?_, fun id hid => Nat.lt_succ_of_lt (hfreed id hid)⟩
    rcases eq_or_ne l' l with rfl | hne
    · cases hl : s.holds l' with
      | none =>
        obtain rfl : s.count = id := by simpa [DepLeak.note, insert_apply, hl] using h
        exact Nat.lt_succ_self _
      | some id' =>
        obtain rfl : id' = id := by simpa [DepLeak.note, insert_apply, hl] using h
        exact Nat.lt_succ_of_lt (hholds l' id' hl)
    · refine Nat.lt_succ_of_lt (hholds l' id ?_)
      simpa [DepLeak.note, insert_apply, hne] using h
  | copy dst src =>
    cases hsrc : s.holds src with
    | none => simpa [DepLeak.note, hsrc] using (show Allocated s from ⟨hholds, hfreed⟩)
    | some id' =>
      simp only [DepLeak.note, hsrc]
      refine ⟨fun l' id h => ?_, hfreed⟩
      rcases eq_or_ne l' dst with rfl | hne
      · exact hholds src id (by simpa [hsrc] using h)
      · exact hholds l' id (by simpa [hne] using h)
  | free l =>
    refine ⟨hholds, fun id hid => ?_⟩
    rcases List.mem_append.mp hid with hid | hid
    · exact hholds l id (Option.mem_toList.mp hid)
    · exact hfreed id hid

theorem allocated_noted (ops : List (Op Location)) : Allocated (noted ops) := by
  induction ops using List.reverseRecOn with
  | nil => exact ⟨fun _ _ h => (nomatch h), fun _ h => absurd h List.not_mem_nil⟩
  | append_singleton ops op ih =>
    rw [noted_snoc]
    exact ih.note op

/-- The block of an allocation into a location that something is noted for is noted nowhere:
`insert` has kept the old number, and none of those noted is as large. -/
theorem Allocated.orphan {s : State Location} (h : Allocated s) {l : Location}
    (hl : (s.holds l).isSome) : Orphan (DepLeak.note s (.alloc l)) s.count := by
  obtain ⟨id, hid⟩ := Option.isSome_iff_exists.mp hl
  refine ⟨Nat.lt_succ_self _, fun l' heq => ?_, fun hmem => lt_irrefl _ (h.2 _ hmem)⟩
  simp only [DepLeak.note, Detector.insert, hid] at heq
  exact lt_irrefl _ (h.1 l' _ heq)

/-- **An allocation into a location that was given a block** leaves a block that is never
noted as freed. -/
theorem not_allFreed_of_reallocates {ops : List (Op Location)} (h : Reallocates ops) :
    ¬(noted ops).AllFreed := by
  have horphan : ∃ id, Orphan (noted ops) id := by
    induction ops using List.reverseRecOn with
    | nil => exact absurd h not_reallocates_nil
    | append_singleton ops op ih =>
      rw [noted_snoc]
      rcases reallocates_snoc.mp h with hops | ⟨l, rfl, hl⟩
      · obtain ⟨id, hid⟩ := ih hops
        exact ⟨id, hid.note op⟩
      · rw [← noted_holds_isSome] at hl
        exact ⟨_, (allocated_noted ops).orphan hl⟩
  obtain ⟨id, hlt, -, hid⟩ := horphan
  exact fun hall => hid (hall id hlt)

/-- **When the notes find every block freed.** -/
theorem noted_allFreed_iff {ops : List (Op Location)} :
    (noted ops).AllFreed ↔ ¬Reallocates ops ∧ (exec (withoutBlanks ops)).AllFreed := by
  constructor
  · intro h
    have hre : ¬Reallocates ops := fun hre => not_allFreed_of_reallocates hre h
    exact ⟨hre, noted_eq hre ▸ h⟩
  · rintro ⟨hre, h⟩
    rwa [noted_eq hre]

/-- An allocation that is noted is counted. -/
theorem count_note (s : State Location) (op : Op Location) :
    (note s op).count = (s.step op).count := by
  cases op with
  | alloc l => rfl
  | copy dst src =>
    cases hsrc : s.holds src <;> simp [note, State.step, hsrc]
  | free l => rfl

theorem count_noted (ops : List (Op Location)) : (noted ops).count = (exec ops).count := by
  induction ops using List.reverseRecOn with
  | nil => rfl
  | append_singleton ops op ih =>
    rw [noted_snoc, exec_snoc, count_note]
    cases op <;> simp [State.step, ih]

/-- What is counted stays so. -/
theorem count_le_foldl_note (s : State Location) (ops : List (Op Location)) :
    s.count ≤ (ops.foldl note s).count := by
  induction ops generalizing s with
  | nil => exact le_rfl
  | cons op ops ih =>
    refine le_trans ?_ (ih (note s op))
    rw [count_note]
    cases op <;> simp [State.step]

/-! ### A block that is stored -/

namespace Detector

/-- What the detector keeps when a block is stored into a location, and the counter goes
on. -/
def mallocAt (d : Detector) (i : Instruction) : Location → Detector
  | .var v =>
    { malloc_id := d.malloc_id + 1
      mallocs := d.mallocs ++ [some i]
      malloc_vars := insert d.malloc_vars v d.malloc_id
      malloc_structs := d.malloc_structs }
  | .field x k =>
    { malloc_id := d.malloc_id + 1
      mallocs := d.mallocs ++ [some i]
      malloc_vars := d.malloc_vars
      malloc_structs :=
        Function.update d.malloc_structs x (some (insert (d.structMap x) k d.malloc_id)) }

theorem mallocVar_eq (d : Detector) (i : Instruction) (v : String) :
    d.mallocVar i v = increment d.malloc_id >>= fun _ => .ok (d.mallocAt i (.var v)) := by
  rw [mallocVar, increment]
  split <;> rfl

theorem mallocField_eq (d : Detector) (i : Instruction) (x : String) (k : BitVec 32) :
    d.mallocField i x k = increment d.malloc_id >>= fun _ => .ok (d.mallocAt i (.field x k)) := by
  rw [mallocField, increment]
  split <;> rfl

end Detector

/-! ### The detector keeps the notes -/

/-- The local variables of the detector hold the notes. -/
structure Notes (d : Detector) (s : State Location) : Prop where
  /-- An `int` holds the number of the blocks. -/
  count_lt : s.count < 2 ^ 31
  malloc_id : d.malloc_id = s.count
  length : d.mallocs.length = s.count
  mallocs : ∀ id < s.count, d.mallocs[id]? = some none ↔ id ∈ s.freed
  vars : ∀ v, d.malloc_vars v = s.holds (.var v)
  fields : ∀ x k, d.fieldId x k = s.holds (.field x k)
  allocated : Allocated s

theorem notes_init : Notes Detector.init State.init where
  count_lt := Nat.two_pow_pos 31
  malloc_id := rfl
  length := rfl
  mallocs := fun _ h => absurd h (Nat.not_lt_zero _)
  vars := fun _ => rfl
  fields := fun _ _ => rfl
  allocated := allocated_noted []

namespace Notes

variable {d : Detector} {s : State Location}

/-- **The verdict**: no leak if every block is noted as freed. -/
theorem leaks_eq_false (h : Notes d s) : d.leaks = false ↔ s.AllFreed := by
  rw [leaks, List.any_eq_false]
  constructor
  · intro hall id hid
    have hlt : id < d.mallocs.length := h.length.symm ▸ hid
    refine (h.mallocs id hid).mp ?_
    rw [List.getElem?_eq_getElem hlt, Option.some.injEq, ← Option.not_isSome_iff_eq_none]
    exact hall _ (List.getElem_mem _)
  · intro hall i hi
    obtain ⟨id, hid, rfl⟩ := List.getElem_of_mem hi
    have hnone := (h.mallocs id (h.length ▸ hid)).mpr (hall id (h.length ▸ hid))
    rw [List.getElem?_eq_getElem hid, Option.some.injEq] at hnone
    simp [hnone]

theorem mallocs_append (h : Notes d s) (i : Instruction) :
    ∀ id < s.count + 1, (d.mallocs ++ [some i])[id]? = some none ↔ id ∈ s.freed := by
  intro id hid
  rcases Nat.lt_succ_iff_lt_or_eq.mp hid with hlt | rfl
  · rw [List.getElem?_append_left (h.length ▸ hlt)]
    exact h.mallocs id hlt
  · rw [← h.length, List.getElem?_concat_length]
    refine iff_of_false (by simp) fun hmem => ?_
    exact lt_irrefl _ (h.allocated.2 _ (h.length ▸ hmem))

theorem mallocVar (h : Notes d s) (hlt : s.count + 1 < 2 ^ 31) (i : Instruction) (v : String) :
    Notes (d.mallocAt i (.var v)) (note s (.alloc (.var v))) where
  count_lt := hlt
  malloc_id := congrArg (· + 1) h.malloc_id
  length := by simp [Detector.mallocAt, note, h.length]
  mallocs := h.mallocs_append i
  vars := fun v' => by
    simp [Detector.mallocAt, note, insert_apply, h.vars, h.malloc_id]
  fields := fun x k => (h.fields x k).trans (by simp [note, insert_apply])
  allocated := h.allocated.note _

theorem structMap_apply (d : Detector) (x : String) (k : BitVec 32) :
    d.structMap x k = d.fieldId x k := by
  rw [structMap, fieldId]
  cases d.malloc_structs x <;> rfl

theorem mallocField (h : Notes d s) (hlt : s.count + 1 < 2 ^ 31) (i : Instruction) (x : String)
    (k : BitVec 32) : Notes (d.mallocAt i (.field x k)) (note s (.alloc (.field x k))) where
  count_lt := hlt
  malloc_id := congrArg (· + 1) h.malloc_id
  length := by simp [Detector.mallocAt, note, h.length]
  mallocs := h.mallocs_append i
  vars := fun v => by
    simpa [Detector.mallocAt, note, insert_apply] using h.vars v
  fields := fun x' k' => by
    rcases eq_or_ne x' x with rfl | hne
    · have hfield : (d.mallocAt i (.field x' k)).fieldId x' k' =
          Detector.insert (d.structMap x') k d.malloc_id k' := by
        simp [fieldId, Detector.mallocAt]
      simp [hfield, note, insert_apply, structMap_apply, h.fields, h.malloc_id]
    · have hfield : (d.mallocAt i (.field x k)).fieldId x' k' = d.fieldId x' k' := by
        simp [fieldId, Detector.mallocAt, hne]
      simp [hfield, note, insert_apply, hne, h.fields]
  allocated := h.allocated.note _

/-- `mallocs[id] = NULL`. -/
theorem freeId (h : Notes d s) (l : Location) :
    ∃ d', d.freeId (s.holds l) = .ok d' ∧ Notes d' (note s (.free l)) := by
  cases hl : s.holds l with
  | none =>
    refine ⟨d, rfl, ?_⟩
    have heq : note s (.free l) = s := by simp [note, hl]
    rwa [heq]
  | some id =>
    have hid : id < s.count := h.allocated.1 l id hl
    refine ⟨{ d with mallocs := d.mallocs.set id none }, if_pos (h.length ▸ hid), ?_⟩
    refine
      { count_lt := h.count_lt
        malloc_id := h.malloc_id
        length := by simpa [note] using h.length
        mallocs := fun id' hid' => ?_
        vars := h.vars
        fields := h.fields
        allocated := h.allocated.note _ }
    rcases eq_or_ne id' id with rfl | hne
    · simp [note, hl, h.length, hid]
    -- the other blocks are as they were
    · rw [List.getElem?_set_ne hne.symm, h.mallocs id' hid']
      simp [note, hl, hne]

/-- A load whose value is stored at once. -/
theorem visitLoad_store (h : Notes d s) (v w : String) (value : Value) (rest : List Instruction) :
    Notes (visitLoad (.global w) (.store value (.global v) :: rest) d)
      (note s (.copy (.var v) (.var w))) := by
  have hw := h.vars w
  cases hheld : s.holds (.var w) with
  | none =>
    rw [hheld] at hw
    have heq : note s (.copy (.var v) (.var w)) = s := by simp [note, hheld]
    rw [heq]
    simpa [visitLoad, adjacent, Instruction.isDebug, Value.getName, hw] using h
  | some id =>
    rw [hheld] at hw
    have hnote : note s (.copy (.var v) (.var w)) =
        ⟨s.count, Function.update s.holds (.var v) (some id), s.freed⟩ := by simp [note, hheld]
    have hvisit : visitLoad (.global w) (.store value (.global v) :: rest) d =
        { d with malloc_vars := Function.update d.malloc_vars v (some id) } := by
      simp [visitLoad, adjacent, Instruction.isDebug, Value.getName, hw]
    rw [hvisit]
    refine
      { count_lt := by rw [hnote]; exact h.count_lt
        malloc_id := by rw [hnote]; exact h.malloc_id
        length := by rw [hnote]; exact h.length
        mallocs := by rw [hnote]; exact h.mallocs
        vars := fun v' => ?_
        fields := fun x k => ?_
        allocated := h.allocated.note _ }
    · rw [hnote]
      rcases eq_or_ne v' v with rfl | hne
      · simp
      · simp [hne, h.vars]
    · rw [hnote]
      exact (h.fields x k).trans (by simp)

end Notes

end DepLeak

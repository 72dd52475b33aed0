import DepLeak.Leak.Steps

/-!
# Aliases that are no copies

A load that is directly followed by a store makes the address of the store an alias of the
address of the load, whatever is stored: the detector does not look at the stored value. Only
genuine copies make aliases exactly where, at every other such pair, nothing is noted under
the name of the first address, or the same number under that of the second one
(`DepLeak.onlyCopies_iff`).
-/

namespace DepLeak

open Runs Detector

/-- The value that the load with this number has loaded. -/
def IsLoaded (id : ℕ) (value : Value) : Prop := ∃ name, value = .result id name

/-- The store copies the pointer that was loaded, to an address that is not that pointer
itself. -/
def Genuine (id : ℕ) (value target : Value) : Prop := IsLoaded id value ∧ ¬IsLoaded id target

/-- The detector is at a load that is directly followed by a store. -/
structure AtPair (p : Point) (id : ℕ) (pointer value target : Value) : Prop where
  exists_rest : ∃ rest, p.rest = .load id pointer :: rest ∧
    adjacent rest = some (.store value target)

/-- **A pair leaves no alias**: what is noted for every location is as before, and so is the
verdict of whatever comes after (which is that of the path, at the points that the detector
comes to: `DepLeak.Reached.verdict_eq`). -/
structure LeavesNoAlias (d d' : Detector) : Prop where
  vars : d'.malloc_vars = d.malloc_vars
  locations : ∀ l, d'.numberAt l = d.numberAt l
  continuations : ∀ p : Point, Point.verdict { p with d := d' } = Point.verdict { p with d := d }

/-- **Only genuine pointer copies create aliases** on a path. -/
def OnlyCopies (blocks : Blocks) (path : List BasicBlock) : Prop :=
  ∀ p q id pointer value target, Reached blocks path p → AtPair p id pointer value target →
    p.next = .ok (some q) → ¬Genuine id value target → LeavesNoAlias p.d q.d

variable {blocks : Blocks} {path : List BasicBlock} {p q : Point} {d : Detector} {id : ℕ}
  {pointer value target : Value}

/-- A pair is gone over without a crash. -/
theorem AtPair.exists_next (h : AtPair p id pointer value target) :
    ∃ q, p.next = .ok (some q) ∧
      (p.d.malloc_vars pointer.getName = none → q.d = p.d) ∧
      ∀ n, p.d.malloc_vars pointer.getName = some n → q.d =
        { p.d with malloc_vars := Function.update p.d.malloc_vars target.getName (some n) } := by
  obtain ⟨rest, hrest, hstore⟩ := h.exists_rest
  refine ⟨_, by rw [Point.next, hrest]; rfl, fun hn => ?_, fun n hn => ?_⟩
  · simp only [visitLoad, hstore, hn]
  · simp only [visitLoad, hstore, hn]

/-- **When a pair leaves no alias.** -/
theorem AtPair.leavesNoAlias_iff (h : AtPair p id pointer value target)
    (hnext : p.next = .ok (some q)) : LeavesNoAlias p.d q.d ↔
      p.d.malloc_vars pointer.getName = none ∨
        p.d.malloc_vars target.getName = p.d.malloc_vars pointer.getName := by
  have hsame : q.d = p.d → LeavesNoAlias p.d q.d := fun heq =>
    heq ▸ ⟨rfl, fun _ => rfl, fun _ => rfl⟩
  obtain ⟨q', hnext', hnone, hsome⟩ := h.exists_next
  obtain rfl : q' = q := Option.some.inj (Except.ok.inj (hnext'.symm.trans hnext))
  cases hn : p.d.malloc_vars pointer.getName with
  | none => exact iff_of_true (hsame (hnone hn)) (.inl rfl)
  | some n =>
    have hq := hsome n hn
    constructor
    · intro hleaves
      have hvars := congrFun hleaves.vars target.getName
      rw [hq] at hvars
      exact .inr (by simpa using hvars.symm)
    · rintro (hnone | heq)
      · cases hnone
      -- the number that is noted is there already
      · refine hsame ?_
        rw [hq, ← heq, Function.update_eq_self]

/-- **When only genuine copies create aliases** on a path: exactly if at each load that is
directly followed by a store, unless that stores the loaded value, nothing is noted under the
name of the address loaded from, or the same as under the name of the address stored to. -/
theorem onlyCopies_iff : OnlyCopies blocks path ↔
    ∀ p id pointer value target, Reached blocks path p → AtPair p id pointer value target →
      ¬Genuine id value target → p.d.malloc_vars pointer.getName = none ∨
        p.d.malloc_vars target.getName = p.d.malloc_vars pointer.getName := by
  constructor
  · intro h p id pointer value target hp hpair hnot
    obtain ⟨q, hnext, -⟩ := hpair.exists_next
    exact (hpair.leavesNoAlias_iff hnext).mp (h p q id pointer value target hp hpair hnext hnot)
  · intro h p q id pointer value target hp hpair hnext hnot
    exact (hpair.leavesNoAlias_iff hnext).mpr (h p id pointer value target hp hpair hnot)

/-- `p = malloc(10); *p = 5;`. -/
def storedThrough : Blocks := fun _ =>
  [.call 0 (some "malloc") [.constantInt 10], .store (.result 0 "") (.global "p"),
    .load 1 (.global "p"), .store (.constantInt 5) (.result 1 ""), .terminator []]

/-- **A store through a pointer makes an alias**: the name of the address loaded, which is
empty, gets the number of the block. -/
theorem not_onlyCopies : ¬∀ blocks path, OnlyCopies blocks path := by
  intro h
  have hreached : Reached storedThrough [0] _ := ((Reached.start.next rfl).next rfl).next rfl
  have hleaves := h storedThrough [0] _ _ 1 (.global "p") (.constantInt 5) (.result 1 "") hreached
    ⟨_, rfl, rfl⟩ rfl fun ⟨⟨_, hvalue⟩, _⟩ => by cases hvalue
  have hvars := congrFun hleaves.vars ""
  cases hvars

end DepLeak

import DepLeak.Runs
import Mathlib.Data.Set.Lattice

/-!
# Sets flowing through assignments

A machine with cells, each of which holds a set – of labels, of sources, of whatever
is tracked – and whose only instruction is an assignment that replaces the set of its
destination by the union of the sets of its sources. `Flow.flow` is the run of a list
of assignments.

An assignment is monotone (`Flow.Assignment.apply_mono`), and that is what makes
step-by-step comparisons with another machine work: `Flow.flow_le_view` for a machine
that keeps at least what an assignment would, `Flow.view_eq_flow` for one that keeps
exactly that. In both, the invariant of the machine may depend on the assignments
still to come.
-/

namespace Flow

open Runs

variable {ι α : Type} [DecidableEq ι]

/-- `dst := ⋃ srcs`. -/
structure Assignment (ι : Type) where
  /-- The cell that is assigned. -/
  dst : ι
  /-- The cells whose union it is assigned. -/
  srcs : List ι

/-- The union of the sets of some cells. -/
def union (x : ι → Set α) (srcs : List ι) : Set α := ⋃ s ∈ srcs, x s

omit [DecidableEq ι] in
theorem mem_union {x : ι → Set α} {srcs : List ι} {v : α} :
    v ∈ union x srcs ↔ ∃ s ∈ srcs, v ∈ x s := by
  simp [union]

namespace Assignment

variable {x y : ι → Set α} (a : Assignment ι)

/-- The effect of an assignment. -/
def apply (x : ι → Set α) : ι → Set α := Function.update x a.dst (union x a.srcs)

/-- **An assignment is monotone.** -/
theorem apply_mono (hxy : x ≤ y) : a.apply x ≤ a.apply y := by
  intro i
  rcases eq_or_ne i a.dst with rfl | hi
  · simp only [apply, Function.update_self]
    exact Set.biUnion_mono (fun _ h => h) fun s _ => hxy s
  · simp only [apply, Function.update_of_ne hi]
    exact hxy i

/-- An assignment from nothing takes away what the destination held. -/
theorem apply_le_of_empty (hx : union x a.srcs = ∅) : a.apply x ≤ x := by
  intro i
  rcases eq_or_ne i a.dst with rfl | hi
  · simp [apply, hx]
  · simp [apply, hi]

end Assignment

/-- The run of a list of assignments. -/
def flow (x : ι → Set α) (as : List (Assignment ι)) : ι → Set α :=
  as.foldl (fun x a => a.apply x) x

section View

variable {σ ε φ : Type} {step : σ → ε → Except φ σ} {view : σ → ι → Set α}
  {asg : ε → Assignment ι} {I : List ε → σ → Prop}

/-- **A machine that keeps at least what an assignment would** is above the flow. -/
theorem flow_le_view
    (hstep : ∀ e es s s', I (e :: es) s → step s e = .ok s' →
      I es s' ∧ (asg e).apply (view s) ≤ view s') {es : List ε} :
    ∀ {s s' : σ} {x : ι → Set α}, I es s → x ≤ view s → run step s es = .ok s' →
      flow x (es.map asg) ≤ view s' := by
  induction es with
  | nil =>
    intro s s' x _ hx h
    cases h
    exact hx
  | cons e es ih =>
    intro s s' x hI hx h
    obtain ⟨s₁, h₁, h⟩ := run_cons_eq_ok.mp h
    obtain ⟨hI₁, hle⟩ := hstep e es s s₁ hI h₁
    exact ih hI₁ (((asg e).apply_mono hx).trans hle) h

/-- **A machine that keeps exactly what an assignment would** is the flow. -/
theorem view_eq_flow
    (hstep : ∀ e es s s', I (e :: es) s → step s e = .ok s' →
      I es s' ∧ view s' = (asg e).apply (view s)) {es : List ε} :
    ∀ {s s' : σ}, I es s → run step s es = .ok s' → view s' = flow (view s) (es.map asg) := by
  induction es with
  | nil =>
    intro s s' _ h
    cases h
    rfl
  | cons e es ih =>
    intro s s' hI h
    obtain ⟨s₁, h₁, h⟩ := run_cons_eq_ok.mp h
    obtain ⟨hI₁, heq⟩ := hstep e es s s₁ hI h₁
    rw [ih hI₁ h, heq]
    rfl

end View

end Flow

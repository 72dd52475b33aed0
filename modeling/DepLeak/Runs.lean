import Mathlib.Data.List.Basic

/-!
# Runs of a partial step function

A program that reacts to events is a step function `σ → ε → Except φ σ`: it
moves on, or it stops with a fault. This file has the rules by which one
step is lifted to a whole run, and nothing about any particular program:

* `Runs.run_preserves` – what every step preserves holds at the end of every
  run;
* `Runs.Along` – what holds of every event of a run in the state that it happens in, with
  the invariant rule and a rule of progress for runs whose events meet a condition;
* `Runs.run_kept_or_grown` – what a step leaves alone, or makes grow when a condition is
  met, tells at the end of a run whether the condition was ever met;
* `Runs.run_lockstep` – two step functions that move together, or stop together
  with the same fault, do so along every run;
* `Runs.run_endsOr` – where each step ends well, or stops with the one fault that a condition
  explains, so does every run.

The last two are stated through `Runs.Lockstep` and `Runs.EndsOr`, which compose along `>>=`
(`Runs.Lockstep.bind`, `Runs.EndsOr.bind`), so that what is to be said of a function is put
together from what is said of the functions it calls.
-/

namespace Runs

variable {σ τ ε φ : Type}

/-! ### Running a list of events -/

/-- The run of `step` along a list of events. -/
def run (step : σ → ε → Except φ σ) : σ → List ε → Except φ σ
  | s, [] => .ok s
  | s, e :: es => step s e >>= fun s' => run step s' es

section Run

variable {step : σ → ε → Except φ σ}

@[simp] theorem run_nil (s : σ) : run step s [] = .ok s := rfl

theorem run_cons (s : σ) (e : ε) (es : List ε) :
    run step s (e :: es) = step s e >>= fun s' => run step s' es := rfl

/-- A bind succeeds when both of its halves do. -/
theorem bind_eq_ok {α β : Type} {x : Except φ α} {f : α → Except φ β} {b : β} :
    (x >>= f) = .ok b ↔ ∃ a, x = .ok a ∧ f a = .ok b := by
  cases x with
  | error e => simp [bind, Except.bind]
  | ok a => simp [bind, Except.bind]

@[simp] theorem ok_bind {α β : Type} (a : α) (f : α → Except φ β) :
    (Except.ok a >>= f) = f a := rfl

@[simp] theorem error_bind {α β : Type} (e : φ) (f : α → Except φ β) :
    ((Except.error e : Except φ α) >>= f) = .error e := rfl

theorem run_cons_eq_ok {s t : σ} {e : ε} {es : List ε} :
    run step s (e :: es) = .ok t ↔ ∃ s', step s e = .ok s' ∧ run step s' es = .ok t :=
  bind_eq_ok

theorem run_append (s : σ) (es es' : List ε) :
    run step s (es ++ es') = run step s es >>= fun s' => run step s' es' := by
  induction es generalizing s with
  | nil => rfl
  | cons e es ih =>
    rw [List.cons_append, run_cons, run_cons]
    cases step s e with
    | error f => rfl
    | ok s' => exact ih s'

theorem run_append_eq_ok {s t : σ} {es es' : List ε} :
    run step s (es ++ es') = .ok t ↔ ∃ u, run step s es = .ok u ∧ run step u es' = .ok t := by
  rw [run_append]
  exact bind_eq_ok

theorem run_map {δ : Type} (g : δ → ε) (s : σ) (ds : List δ) :
    run step s (ds.map g) = run (fun s d => step s (g d)) s ds := by
  induction ds generalizing s with
  | nil => rfl
  | cons d ds ih => exact congrArg (step s (g d) >>= ·) (funext fun s' => ih s')

/-- A run stops where one of its steps does. -/
theorem run_eq_error {s : σ} {es : List ε} {f : φ} (h : run step s es = .error f) :
    ∃ e ∈ es, ∃ s', step s' e = .error f := by
  induction es generalizing s with
  | nil => cases h
  | cons e es ih =>
    rw [run_cons] at h
    cases hs : step s e with
    | error f' =>
      rw [hs] at h
      obtain rfl : f' = f := Except.error.inj h
      exact ⟨e, List.mem_cons_self, s, hs⟩
    | ok s' =>
      rw [hs] at h
      obtain ⟨e', he', h'⟩ := ih h
      exact ⟨e', List.mem_cons_of_mem e he', h'⟩

/-- **The invariant rule**: what the steps of a run preserve holds at its end. -/
theorem run_preserves {I : σ → Prop} {es : List ε}
    (hstep : ∀ e ∈ es, ∀ s s', I s → step s e = .ok s' → I s') :
    ∀ {s t : σ}, I s → run step s es = .ok t → I t := by
  induction es with
  | nil =>
    intro s t hs ht
    cases ht
    exact hs
  | cons e es ih =>
    intro s t hs ht
    obtain ⟨s', he, hes⟩ := run_cons_eq_ok.mp ht
    exact ih (fun e' he' => hstep e' (List.mem_cons_of_mem e he'))
      (hstep e List.mem_cons_self s s' hs he) hes

/-- **The growth rule**: where a step leaves a part of the state alone unless a condition on
that part is met, and makes it grow when it is met, a run leaves it alone exactly if the
condition is met by none of its events in the state it starts from. -/
theorem run_kept_or_grown (part : σ → τ) (C : ε → τ → Prop) (lt : τ → τ → Prop)
    (htrans : ∀ x y z, lt x y → lt y z → lt x z)
    (hstep : ∀ s e s', step s e = .ok s' →
      (¬C e (part s) ∧ part s' = part s) ∨ (C e (part s) ∧ lt (part s) (part s')))
    {es : List ε} : ∀ {s t : σ}, run step s es = .ok t →
      ((∀ e ∈ es, ¬C e (part s)) ∧ part t = part s) ∨
        ((∃ e ∈ es, C e (part s)) ∧ lt (part s) (part t)) := by
  induction es with
  | nil =>
    intro s t ht
    cases ht
    exact .inl ⟨by simp, rfl⟩
  | cons e es ih =>
    intro s t ht
    obtain ⟨s', he, hes⟩ := run_cons_eq_ok.mp ht
    rcases hstep s e s' he with ⟨hC, heq⟩ | ⟨hC, hlt⟩
    · rcases heq ▸ ih hes with ⟨hnone, heq'⟩ | ⟨⟨e', he', hC'⟩, hlt⟩
      · exact .inl ⟨List.forall_mem_cons.mpr ⟨hC, hnone⟩, heq'⟩
      · exact .inr ⟨⟨e', List.mem_cons_of_mem e he', hC'⟩, hlt⟩
    · refine .inr ⟨⟨e, List.mem_cons_self, hC⟩, ?_⟩
      rcases ih hes with ⟨-, heq⟩ | ⟨-, hlt'⟩
      · rwa [heq]
      · exact htrans _ _ _ hlt hlt'

/-- **Along a run**, every event meets `P` in the state that it happens in. -/
def Along (step : σ → ε → Except φ σ) (P : σ → ε → Prop) (s : σ) (es : List ε) : Prop :=
  ∀ pre e post, es = pre ++ e :: post → ∀ s', run step s pre = .ok s' → P s' e

theorem along_nil {P : σ → ε → Prop} (s : σ) : Along step P s [] := by
  intro pre e post h
  simp at h

theorem along_cons {P : σ → ε → Prop} {s : σ} {e : ε} {es : List ε} :
    Along step P s (e :: es) ↔ P s e ∧ ∀ s', step s e = .ok s' → Along step P s' es := by
  constructor
  · intro h
    refine ⟨h [] e es rfl s rfl, fun s' hs' pre e' post heq s'' hs'' => ?_⟩
    exact h (e :: pre) e' post (by rw [heq]; rfl) s'' (run_cons_eq_ok.mpr ⟨s', hs', hs''⟩)
  · rintro ⟨he, hes⟩ pre e' post heq s'' hs''
    rcases pre with _ | ⟨e₁, pre⟩
    · obtain ⟨rfl, rfl⟩ := List.cons.inj heq
      cases hs''
      exact he
    · obtain ⟨rfl, rfl⟩ := List.cons.inj heq
      obtain ⟨s', hs', hs''⟩ := run_cons_eq_ok.mp hs''
      exact hes s' hs' pre e' post rfl s'' hs''

theorem along_append {P : σ → ε → Prop} {s : σ} {es es' : List ε} :
    Along step P s (es ++ es') ↔
      Along step P s es ∧ ∀ s', run step s es = .ok s' → Along step P s' es' := by
  induction es generalizing s with
  | nil => simp [along_nil]
  | cons e es ih =>
    rw [List.cons_append, along_cons, along_cons, and_assoc]
    refine and_congr_right fun _ => ?_
    simp only [ih, run_cons_eq_ok]
    constructor
    · exact fun h => ⟨fun s' hs' => (h s' hs').1, fun s'' ⟨s', hs', hs''⟩ => (h s' hs').2 s'' hs''⟩
    · exact fun h s' hs' => ⟨h.1 s' hs', fun s'' hs'' => h.2 s'' ⟨s', hs', hs''⟩⟩

theorem Along.mono {P Q : σ → ε → Prop} {s : σ} {es : List ε} (h : Along step P s es)
    (hPQ : ∀ s e, P s e → Q s e) : Along step Q s es :=
  fun pre e post heq s' hs' => hPQ s' e (h pre e post heq s' hs')

/-- The invariant rule, where the events meet a condition. -/
theorem Along.run_preserves {P : σ → ε → Prop} {I : σ → Prop} {es : List ε}
    (hstep : ∀ e ∈ es, ∀ s s', I s → P s e → step s e = .ok s' → I s') :
    ∀ {s t : σ}, Along step P s es → I s → run step s es = .ok t → I t := by
  induction es with
  | nil =>
    intro s t _ hs ht
    cases ht
    exact hs
  | cons e es ih =>
    intro s t hP hs ht
    obtain ⟨he, hes⟩ := along_cons.mp hP
    obtain ⟨s', hs', ht⟩ := run_cons_eq_ok.mp ht
    exact ih (fun e' he' => hstep e' (List.mem_cons_of_mem e he')) (hes s' hs')
      (hstep e List.mem_cons_self s s' hs he hs') ht

/-- **The progress rule**: where every event that meets the condition gets through, the run
does. -/
theorem Along.run_ok {P : σ → ε → Prop} {I : σ → Prop} {es : List ε}
    (hstep : ∀ e ∈ es, ∀ s, I s → P s e → ∃ s', step s e = .ok s' ∧ I s') :
    ∀ {s : σ}, Along step P s es → I s → ∃ t, run step s es = .ok t ∧ I t := by
  induction es with
  | nil => exact fun {s} _ hs => ⟨s, rfl, hs⟩
  | cons e es ih =>
    intro s hP hs
    obtain ⟨he, hes⟩ := along_cons.mp hP
    obtain ⟨s', hs', hI⟩ := hstep e List.mem_cons_self s hs he
    obtain ⟨t, ht, hI⟩ := ih (fun e' he' => hstep e' (List.mem_cons_of_mem e he')) (hes s' hs') hI
    exact ⟨t, run_cons_eq_ok.mpr ⟨s', hs', ht⟩, hI⟩

end Run

/-! ### Going over a list -/

section MapM

variable {α β : Type} {g : α → Except φ β}

/-- A list is gone over to its end, or up to an element that faults. -/
theorem mapM_eq_error {l : List α} {f : φ} (h : l.mapM g = .error f) : ∃ x ∈ l, g x = .error f := by
  induction l with
  | nil => cases h
  | cons x l ih =>
    rw [List.mapM_cons] at h
    cases hx : g x with
    | error f' =>
      rw [hx] at h
      obtain rfl : f' = f := Except.error.inj h
      exact ⟨x, List.mem_cons_self, hx⟩
    | ok b =>
      rw [hx, ok_bind] at h
      cases hl : l.mapM g with
      | error f' =>
        rw [hl] at h
        obtain rfl : f' = f := Except.error.inj h
        obtain ⟨y, hy, hg⟩ := ih hl
        exact ⟨y, List.mem_cons_of_mem x hy, hg⟩
      | ok bs =>
        rw [hl] at h
        cases h

theorem mapM_cons_eq_ok {x : α} {l : List α} {cs : List β} :
    (x :: l).mapM g = .ok cs ↔ ∃ b bs, g x = .ok b ∧ l.mapM g = .ok bs ∧ cs = b :: bs := by
  rw [List.mapM_cons, bind_eq_ok]
  refine exists_congr fun b => ?_
  constructor
  · rintro ⟨hx, h⟩
    obtain ⟨bs, hl, h⟩ := bind_eq_ok.mp h
    exact ⟨bs, hx, hl, (Except.ok.inj h).symm⟩
  · rintro ⟨bs, hx, hl, rfl⟩
    exact ⟨hx, bind_eq_ok.mpr ⟨bs, hl, rfl⟩⟩

theorem mapM_eq_ok_map {l : List α} {f : α → β} (h : ∀ x ∈ l, g x = .ok (f x)) :
    l.mapM g = .ok (l.map f) := by
  induction l with
  | nil => rfl
  | cons x l ih =>
    exact mapM_cons_eq_ok.mpr ⟨f x, l.map f, h x List.mem_cons_self,
      ih fun y hy => h y (List.mem_cons_of_mem x hy), rfl⟩

/-- Every element has its result in the list of them. -/
theorem mem_of_mapM {l : List α} {bs : List β} (h : l.mapM g = .ok bs) {x : α} (hx : x ∈ l) :
    ∃ b, g x = .ok b ∧ b ∈ bs := by
  induction l generalizing bs with
  | nil => exact absurd hx List.not_mem_nil
  | cons y l ih =>
    obtain ⟨c, cs, hy, hl, rfl⟩ := mapM_cons_eq_ok.mp h
    rcases List.mem_cons.mp hx with rfl | hx
    · exact ⟨c, hy, List.mem_cons_self⟩
    · obtain ⟨b, hb, hmem⟩ := ih hl hx
      exact ⟨b, hb, List.mem_cons_of_mem c hmem⟩

theorem exists_of_mem_mapM {l : List α} {bs : List β} (h : l.mapM g = .ok bs) {b : β}
    (hb : b ∈ bs) : ∃ x ∈ l, g x = .ok b := by
  induction l generalizing bs with
  | nil =>
    cases h
    exact absurd hb List.not_mem_nil
  | cons x l ih =>
    obtain ⟨c, cs, hx, hl, rfl⟩ := mapM_cons_eq_ok.mp h
    rcases List.mem_cons.mp hb with rfl | hb
    · exact ⟨x, List.mem_cons_self, hx⟩
    · obtain ⟨y, hy, hg⟩ := ih hl hb
      exact ⟨y, List.mem_cons_of_mem x hy, hg⟩

end MapM

/-! ### Moving in lockstep -/

/-- Two computations move in lockstep: both end, in related states, or both stop
with the same fault. -/
inductive Lockstep (R : σ → τ → Prop) : Except φ σ → Except φ τ → Prop
  /-- Both end. -/
  | ok {s : σ} {a : τ} : R s a → Lockstep R (.ok s) (.ok a)
  /-- Both stop. -/
  | error (f : φ) : Lockstep R (.error f) (.error f)

namespace Lockstep

variable {σ' τ' : Type} {R : σ → τ → Prop} {Q : σ' → τ' → Prop}

theorem bind {x : Except φ σ} {y : Except φ τ} {f : σ → Except φ σ'} {g : τ → Except φ τ'}
    (h : Lockstep R x y) (hfg : ∀ s a, R s a → Lockstep Q (f s) (g a)) :
    Lockstep Q (x >>= f) (y >>= g) := by
  cases h with
  | ok hR => exact hfg _ _ hR
  | error e => exact .error e

theorem mono {R' : σ → τ → Prop} {x : Except φ σ} {y : Except φ τ} (h : Lockstep R x y)
    (hRR' : ∀ s a, R s a → R' s a) : Lockstep R' x y := by
  cases h with
  | ok hR => exact .ok (hRR' _ _ hR)
  | error e => exact .error e

theorem symm {x : Except φ σ} {y : Except φ τ} (h : Lockstep R x y) :
    Lockstep (fun a s => R s a) y x := by
  cases h with
  | ok hR => exact .ok hR
  | error e => exact .error e

theorem trans {υ : Type} {Q : τ → υ → Prop} {x : Except φ σ} {y : Except φ τ} {z : Except φ υ}
    (h : Lockstep R x y) (hz : Lockstep Q y z) : Lockstep (fun s b => ∃ a, R s a ∧ Q a b) x z := by
  cases h with
  | ok hR =>
    cases hz with
    | ok hQ => exact .ok ⟨_, hR, hQ⟩
  | error e =>
    cases hz with
    | error => exact .error e

/-- What the two sides end in is what they come to. -/
theorem ends {x : Except φ σ} {y : Except φ τ} (h : Lockstep R x y) :
    Lockstep (fun s a => R s a ∧ x = .ok s ∧ y = .ok a) x y := by
  cases h with
  | ok hR => exact .ok ⟨hR, rfl, rfl⟩
  | error e => exact .error e

/-- One side ends exactly when the other does. -/
theorem exists_ok_iff {x : Except φ σ} {y : Except φ τ} (h : Lockstep R x y) :
    (∃ s, x = .ok s) ↔ ∃ a, y = .ok a := by
  cases h with
  | ok => exact iff_of_true ⟨_, rfl⟩ ⟨_, rfl⟩
  | error e => simp

/-- The concrete side ends when the abstract one does. -/
theorem exists_left {x : Except φ σ} {a : τ} (h : Lockstep R x (.ok a)) :
    ∃ s, x = .ok s ∧ R s a := by
  cases h with
  | ok hR => exact ⟨_, rfl, hR⟩

/-- The abstract side ends when the concrete one does. -/
theorem exists_right {s : σ} {y : Except φ τ} (h : Lockstep R (.ok s) y) :
    ∃ a, y = .ok a ∧ R s a := by
  cases h with
  | ok hR => exact ⟨_, rfl, hR⟩

theorem ok_right {x : Except φ σ} {y : Except φ τ} {s : σ} (h : Lockstep R x y)
    (hx : x = .ok s) : ∃ a, y = .ok a ∧ R s a := by
  subst hx
  exact h.exists_right

theorem ok_left {x : Except φ σ} {y : Except φ τ} {a : τ} (h : Lockstep R x y)
    (hy : y = .ok a) : ∃ s, x = .ok s ∧ R s a := by
  subst hy
  exact h.exists_left

theorem eq_error {y : Except φ τ} {f : φ} (h : Lockstep R (.error f) y) : y = .error f := by
  cases h with
  | error => rfl

theorem error_left {x : Except φ σ} {f : φ} (h : Lockstep R x (.error f)) : x = .error f := by
  cases h with
  | error => rfl

end Lockstep

/-- **The simulation rule**: steps in lockstep make runs in lockstep. -/
theorem run_lockstep {R : σ → τ → Prop} {step : σ → ε → Except φ σ}
    {step' : τ → ε → Except φ τ} {es : List ε}
    (hstep : ∀ e ∈ es, ∀ s a, R s a → Lockstep R (step s e) (step' a e)) :
    ∀ {s : σ} {a : τ}, R s a → Lockstep R (run step s es) (run step' a es) := by
  induction es with
  | nil =>
    intro s a hR
    exact .ok hR
  | cons e es ih =>
    intro s a hR
    exact (hstep e List.mem_cons_self s a hR).bind fun s' a' hR' =>
      ih (fun e' he' => hstep e' (List.mem_cons_of_mem e he')) hR'

/-! ### An end, or one fault -/

/-- **A computation ends well**, in a result that meets `P`, or stops with the fault `f`, and
then `Q` holds. -/
inductive EndsOr (P : σ → Prop) (f : φ) (Q : Prop) : Except φ σ → Prop
  /-- It ends well. -/
  | ok {s : σ} : P s → EndsOr P f Q (.ok s)
  /-- It stops. -/
  | error : Q → EndsOr P f Q (.error f)

namespace EndsOr

variable {P : σ → Prop} {P' : τ → Prop} {f : φ} {Q : Prop} {x : Except φ σ}

theorem bind {g : σ → Except φ τ} (h : EndsOr P f Q x) (hg : ∀ s, P s → EndsOr P' f Q (g s)) :
    EndsOr P' f Q (x >>= g) := by
  cases h with
  | ok hP => exact hg _ hP
  | error hQ => exact .error hQ

theorem mono {P₁ : σ → Prop} (h : EndsOr P f Q x) (hP : ∀ s, P s → P₁ s) : EndsOr P₁ f Q x := by
  cases h with
  | ok hs => exact .ok (hP _ hs)
  | error hQ => exact .error hQ

theorem weaken {Q' : Prop} (h : EndsOr P f Q x) (hQ : Q → Q') : EndsOr P f Q' x := by
  cases h with
  | ok hP => exact .ok hP
  | error hq => exact .error (hQ hq)

/-- It does one or the other. -/
theorem cases_ok (h : EndsOr P f Q x) : (∃ s, x = .ok s ∧ P s) ∨ (x = .error f ∧ Q) := by
  cases h with
  | ok hP => exact .inl ⟨_, rfl, hP⟩
  | error hQ => exact .inr ⟨rfl, hQ⟩

end EndsOr

/-- **The rule for runs**: `P` is what the events still to come ask of the state. -/
theorem run_endsOr {P : List ε → σ → Prop} {step : σ → ε → Except φ σ} {f : φ} {Q : Prop}
    (hstep : ∀ e es s, P (e :: es) s → EndsOr (P es) f Q (step s e)) :
    ∀ {es : List ε} {s : σ}, P es s → EndsOr (P []) f Q (run step s es) := by
  intro es
  induction es with
  | nil => exact fun hs => .ok hs
  | cons e es ih => exact fun hs => (hstep e es _ hs).bind fun s' hs' => ih hs'

end Runs

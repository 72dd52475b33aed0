import Mathlib.Data.Set.Function

/-!
# Straight-line code

Code without loops: a list of instructions, executed one after the other until one of
them leaves. An instruction acts on a configuration; it falls through, or leaves with
something (`Straight.run`).

A pass over such code puts instructions in, takes some out and changes others. That
the code it makes does the same is shown piece by piece: `Straight.Simulates` relates
two pieces of code by what holds before them, what holds after them if they fall
through, and what holds if they leave, and pieces are put together by
`Straight.Simulates.append`.

Where configurations are values of variables with a state beside them, an instruction
has variables that it uses and variables that it defines (`Straight.UseDef`). It does
the same to configurations that agree on what it uses (`Straight.UseDef.matches`).
-/

namespace Straight

variable {ι ι' γ γ' ω : Type}

/-! ### Execution -/

/-- The execution of straight-line code. -/
def run (sem : ι → γ → γ × Option ω) : List ι → γ → γ × Option ω
  | [], c => (c, none)
  | i :: is, c =>
    match sem i c with
    | (c, none) => run sem is c
    | (c, some w) => (c, some w)

section Run

variable (sem : ι → γ → γ × Option ω)

@[simp] theorem run_nil (c : γ) : run sem [] c = (c, none) := rfl

@[simp] theorem run_singleton (i : ι) (c : γ) : run sem [i] c = sem i c := by
  rw [run]
  split <;> simp [*]

/-- Code that falls through is followed by what comes after it. -/
theorem run_append_of_none {is : List ι} {c : γ} (js : List ι) (h : (run sem is c).2 = none) :
    run sem (is ++ js) c = run sem js (run sem is c).1 := by
  induction is generalizing c with
  | nil => rfl
  | cons i is ih =>
    rw [List.cons_append, run, run]
    rw [run] at h
    rcases hi : sem i c with ⟨c₁, _ | w⟩
    · rw [hi] at h
      exact ih h
    · rw [hi] at h
      cases h

/-- Code that leaves is not followed by anything. -/
theorem run_append_of_some {is : List ι} {c : γ} (js : List ι) {w : ω}
    (h : (run sem is c).2 = some w) : run sem (is ++ js) c = run sem is c := by
  induction is generalizing c with
  | nil => cases h
  | cons i is ih =>
    rw [List.cons_append, run, run]
    rw [run] at h
    rcases hi : sem i c with ⟨c₁, _ | w'⟩
    · rw [hi] at h
      exact ih h
    · rfl

end Run

/-! ### Simulation -/

section Simulates

variable {sem : ι → γ → γ × Option ω} {sem' : ι' → γ' → γ' × Option ω}

/-- Two results: both have fallen through with `R`, or both have left, with the same thing
and `Q`. -/
def Matches (R Q : γ → γ' → Prop) (r : γ × Option ω) (r' : γ' × Option ω) : Prop :=
  r.2 = r'.2 ∧ (r.2 = none → R r.1 r'.1) ∧ (r.2 ≠ none → Q r.1 r'.1)

/-- **One piece of code does what another does**: executed side by side from configurations
in `P`, both fall through to configurations in `R`, or both leave with the same thing to
configurations in `Q`. -/
def Simulates (sem : ι → γ → γ × Option ω) (sem' : ι' → γ' → γ' × Option ω)
    (P R Q : γ → γ' → Prop) (is : List ι) (js : List ι') : Prop :=
  ∀ c c', P c c' → Matches R Q (run sem is c) (run sem' js c')

variable {P P' R R' Q Q' : γ → γ' → Prop} {is is' : List ι} {js js' : List ι'}

theorem Matches.mono {r : γ × Option ω} {r' : γ' × Option ω} (h : Matches R Q r r')
    (hR : ∀ c c', R c c' → R' c c') (hQ : ∀ c c', Q c c' → Q' c c') : Matches R' Q' r r' :=
  ⟨h.1, fun hn => hR _ _ (h.2.1 hn), fun hs => hQ _ _ (h.2.2 hs)⟩

theorem Matches.fall {c : γ} {c' : γ'} (h : R c c') :
    Matches R Q (c, (none : Option ω)) (c', none) :=
  ⟨rfl, fun _ => h, fun hs => absurd rfl hs⟩

theorem Matches.leave {c : γ} {c' : γ'} (w : ω) (h : Q c c') :
    Matches R Q (c, some w) (c', some w) :=
  ⟨rfl, fun hn => absurd hn (Option.some_ne_none w), fun _ => h⟩

/-- The rule for no code at all. -/
theorem simulates_nil (h : ∀ c c', P c c' → R c c') : Simulates sem sem' P R Q [] [] :=
  fun c c' hc => .fall (h c c' hc)

/-- **The rule for one piece after another.** -/
theorem Simulates.append (h : Simulates sem sem' P R Q is js)
    (h' : Simulates sem sem' R R' Q is' js') :
    Simulates sem sem' P R' Q (is ++ is') (js ++ js') := by
  intro c c' hc
  obtain ⟨hout, hnone, hsome⟩ := h c c' hc
  cases hw : (run sem is c).2 with
  | none =>
    rw [run_append_of_none sem is' hw, run_append_of_none sem' js' (hout ▸ hw)]
    exact h' _ _ (hnone hw)
  | some w =>
    rw [run_append_of_some sem is' hw, run_append_of_some sem' js' (hout ▸ hw)]
    exact ⟨hout, fun hn => by simp [hw] at hn, fun _ => hsome (by simp [hw])⟩

/-- **The rule of consequence.** -/
theorem Simulates.mono (h : Simulates sem sem' P R Q is js) (hP : ∀ c c', P' c c' → P c c')
    (hR : ∀ c c', R c c' → R' c c') (hQ : ∀ c c', Q c c' → Q' c c') :
    Simulates sem sem' P' R' Q' is js :=
  fun c c' hc => (h c c' (hP c c' hc)).mono hR hQ

/-- The rule for one instruction that becomes a piece of code. -/
theorem simulates_cons {i : ι} (js : List ι')
    (h : ∀ c c', P c c' → Matches R Q (sem i c) (run sem' js c'))
    (h' : Simulates sem sem' R R' Q is js') :
    Simulates sem sem' P R' Q (i :: is) (js ++ js') := by
  have hi : Simulates sem sem' P R Q [i] js := fun c c' hc => by
    rw [run_singleton]
    exact h c c' hc
  exact hi.append h'

end Simulates

/-! ### Variables that are used and defined -/

section UseDef

variable {ν V σ : Type} {sem : ι → (ν → V) × σ → ((ν → V) × σ) × Option ω}

/-- Two configurations have the same state, and the same values of some variables. -/
def Agree (K : Set ν) (c c' : (ν → V) × σ) : Prop := c.2 = c'.2 ∧ Set.EqOn c.1 c'.1 K

/-- Two configurations have the same state. -/
def SameState (c c' : (ν → V) × σ) : Prop := c.2 = c'.2

/-- **What an instruction looks at and what it changes**: all that it does depends on the
variables in `U` only, and of the variables it changes those in `D` only. -/
structure UseDef (sem : ι → (ν → V) × σ → ((ν → V) × σ) × Option ω) (i : ι) (U D : Set ν) :
    Prop where
  /-- Other variables stay as they are. -/
  frame : ∀ c, Set.EqOn (sem i c).1.1 c.1 Dᶜ
  /-- It does the same if the variables it uses have the same values. -/
  uses : ∀ c c', Agree U c c' → (sem i c).2 = (sem i c').2 ∧ Agree D (sem i c).1 (sem i c').1

theorem Agree.mono {K K' : Set ν} {c c' : (ν → V) × σ} (h : Agree K c c') (hK : K' ⊆ K) :
    Agree K' c c' :=
  ⟨h.1, h.2.mono hK⟩

theorem Agree.refl (K : Set ν) (c : (ν → V) × σ) : Agree K c c := ⟨rfl, Set.eqOn_refl _ _⟩

theorem Agree.symm {K : Set ν} {c c' : (ν → V) × σ} (h : Agree K c c') : Agree K c' c :=
  ⟨h.1.symm, h.2.symm⟩

theorem Agree.trans {K : Set ν} {c c' c'' : (ν → V) × σ} (h : Agree K c c') (h' : Agree K c' c'') :
    Agree K c c'' :=
  ⟨h.1.trans h'.1, h.2.trans h'.2⟩

/-- An instruction does the same to configurations that agree on what it uses; they agree
on what they agreed on, and on what it defines. -/
theorem UseDef.matches {i : ι} {U D K : Set ν} (h : UseDef sem i U D) (hU : U ⊆ K)
    {c c' : (ν → V) × σ} (hc : Agree K c c') :
    Matches (Agree (K ∪ D)) SameState (sem i c) (sem i c') := by
  obtain ⟨hout, hstate, hD⟩ := h.uses c c' (hc.mono hU)
  refine ⟨hout, fun _ => ⟨hstate, fun x hx => ?_⟩, fun _ => hstate⟩
  by_cases hxD : x ∈ D
  · exact hD hxD
  · rw [h.frame c hxD, h.frame c' hxD]
    exact hc.2 (hx.resolve_right hxD)

end UseDef

end Straight

import DepLeak.Dep.Superblock
import Mathlib.Data.List.TakeWhile

/-!
# Translations that are kept

Valgrind passes a superblock to `da_instrument` when it is executed for the first time,
keeps the result, and executes that from then on. Whether a statement gets its dirty call
is thus decided when the superblock is translated, by what `trace` is at that moment
(`DepLeak.Traced`), while the system-call hook tests `trace` at run time.

A superblock that is executed with `trace` on makes the helper call of every statement it
handles exactly if `trace` was on, at each of these statements, when the superblock was
translated (`DepLeak.translation_iff`): at its first execution in the run, that is, which
the cache remembers (`DepLeak.CachedAt`). A loop that has been entered before the first
`read()` never makes them (`DepLeak.not_propagatedRun`).
-/

namespace DepLeak

open LinkedHeap Runs

/-! ### Valgrind around the tool -/

/-- Why the program stops. -/
inductive Stop
  /-- Valgrind aborts. -/
  | abort (a : Abort)
  /-- The tool does something undefined. -/
  | fault (f : Fault)

/-- The state of the tool, with the translations that have been made. -/
structure Valgrind where
  /-- The tool. -/
  tool : State
  /-- The translation of the superblock at an address. -/
  cache : UWord → Option (List IRStmt)

/-- The start of a run: `trace` is off, and nothing has been translated. -/
def Valgrind.init : Valgrind := ⟨.init false, fun _ => none⟩

/-- What a program does: it executes the superblock at an address, with certain values of
its temporaries, or it is about to make a system call. -/
inductive Act
  | block (pc : UWord) (ρ : IRTemp → UWord)
  | preCall (syscallno : ℕ) (args : ℕ → UWord)

/-- The superblock at an address is executed. -/
def Act.executes (pc : UWord) : Act → Bool
  | .block pc' _ => pc' = pc
  | .preCall _ _ => false

section Valgrind

variable (fnname : UWord → Option String) (code : UWord → List IRStmt)

/-- The translation of the superblock at an address: the one there is, or the one
`da_instrument` makes. -/
def translate (v : Valgrind) (pc : UWord) : Except Abort (Valgrind × List IRStmt) :=
  match v.cache pc with
  | some out => .ok (v, out)
  | none => do
    let (out, trace) ← daInstrument fnname v.tool.trace ((code pc).map some)
    .ok (⟨{ v.tool with trace := trace }, Function.update v.cache pc (some out)⟩, out)

/-- The effect of what the program does. -/
def stepValgrind (v : Valgrind) : Act → Except Stop Valgrind
  | .block pc ρ => do
    let (v, out) ← (translate fnname code v pc).mapError .abort
    let s ← (execStmts ρ v.tool out).mapError .fault
    .ok { v with tool := s }
  | .preCall syscallno args => do
    let s ← (taPreCall v.tool syscallno args).mapError .fault
    .ok { v with tool := s }

end Valgrind

/-! ### The property -/

/-- The dirty call that a statement is. -/
def IRStmt.dirty? : IRStmt → Option IRDirty
  | .dirty d => some d
  | _ => none

/-- Every handled statement comes right after its dirty call; `prev` is the dirty call just
before the first statement. -/
def Preceded : Option IRDirty → List IRStmt → Prop
  | _, [] => True
  | prev, st :: stmts =>
    (st.handled → ∃ d, prev = some d ∧ dirtyOf st = some d) ∧
      Preceded st.dirty? stmts

/-- **An execution propagates**: of the statements it executes, every one that is handled
comes right after the call of its helper. -/
def Propagates (ρ : IRTemp → UWord) (out : List IRStmt) : Prop := Preceded none (executed ρ out)

section Run

variable (fnname : UWord → Option String) (code : UWord → List IRStmt)

/-- **Every execution with `trace` on propagates.** -/
def PropagatedRun (es : List Act) : Prop :=
  ∀ es₁ pc ρ es₂, es = es₁ ++ .block pc ρ :: es₂ →
    ∀ v, run (stepValgrind fnname code) .init es₁ = .ok v →
      ∀ v' out, translate fnname code v pc = .ok (v', out) → v'.tool.trace = true →
        Propagates ρ out

/-- `trace` is on at every handled statement, if it is `trace` when `da_instrument` gets to
the first one. -/
def Traced : Bool → List IRStmt → Prop
  | _, [] => True
  | trace, st :: stmts =>
    (st.handled → trace = true) ∧ Traced (markTrace fnname trace st) stmts

/-- What is done before a superblock is executed for the first time. -/
def before (es : List Act) (pc : UWord) : List Act := es.takeWhile fun e => !e.executes pc

/-- **Whatever is executed with `trace` on was translated with `trace` on**: when the
superblock was first executed, `trace` was on at every handled statement of the
execution. -/
def TracedRun (es : List Act) : Prop :=
  ∀ es₁ pc ρ es₂, es = es₁ ++ .block pc ρ :: es₂ →
    ∀ v, run (stepValgrind fnname code) .init es₁ = .ok v →
      ∀ v' out, translate fnname code v pc = .ok (v', out) → v'.tool.trace = true →
        ∀ v₀, run (stepValgrind fnname code) .init (before es₁ pc) = .ok v₀ →
          Traced fnname v₀.tool.trace (executed ρ (code pc))

end Run

/-! ### One translation -/

variable {fnname : UWord → Option String} {code : UWord → List IRStmt}

/-- A dirty call that is not one of the tool's. -/
def Foreign (prev : Option IRDirty) : Prop := ∀ d, prev = some d → ∃ addr, d.addr = .guest addr

theorem foreign_none : Foreign none := fun d hd => by cases hd

/-- The tool's dirty calls call its helpers. -/
theorem not_guest_of_dirtyOf {st : IRStmt} {d : IRDirty} (hd : dirtyOf st = some d) (addr : UWord) :
    d.addr ≠ .guest addr := by
  cases st with
  | wrTmp tmp data =>
    simp only [dirtyOf, wrTmpDirty] at hd
    split at hd <;> cases hd <;> exact IRCallee.noConfusion
  | store addr data | put offset data =>
    cases data with
    | rdTmp | const => cases hd; exact IRCallee.noConfusion
    | _ => cases hd
  | exit => cases hd; exact IRCallee.noConfusion
  | _ => cases hd

/-- The rest of an execution, after a statement. -/
theorem executed_cons (ρ : IRTemp → UWord) (st : IRStmt) (B : List IRStmt) :
    executed ρ (st :: B) = st :: if exitTaken ρ st then [] else executed ρ B := by
  rw [executed]
  split <;> rfl

/-- **What a statement is put out as** propagates it if `trace` is on, and the rest of the
execution as before; the rest is empty after an exit that is taken. -/
theorem preceded_instrumentStmt {ρ : IRTemp → UWord} {tr : Bool} {st : IRStmt}
    {out rest : List IRStmt} {prev : Option IRDirty} (h : instrumentStmt tr st = .ok out)
    (hprev : Foreign prev) : Preceded prev (executed ρ (out ++ rest)) ↔
      (st.handled → tr = true) ∧
        Preceded st.dirty? (if exitTaken ρ st then [] else executed ρ rest) := by
  cases tr with
  | false =>
    -- the statement is as it was: no dirty call comes before it
    obtain rfl : [st] = out := Except.ok.inj h
    rw [List.singleton_append, executed_cons, Preceded]
    refine and_congr_left' (forall_congr' fun hst => iff_of_false ?_ Bool.false_ne_true)
    rintro ⟨d, hd, hdirty⟩
    obtain ⟨addr, haddr⟩ := hprev d hd
    exact not_guest_of_dirtyOf hdirty addr haddr
  | true =>
    rw [instrumentStmt_eq_ok h]
    cases hd : dirtyOf st with
    | none =>
      have hst : ¬st.handled := fun hst => by
        obtain ⟨d, hd', -⟩ := dirtyOf_handled hst
        rw [hd] at hd'
        cases hd'
      rw [Option.toList_none, List.map_nil, List.nil_append, List.singleton_append,
        executed_cons, Preceded]
      exact and_congr_left' (iff_of_true (fun h => absurd h hst) fun _ => rfl)
    | some d =>
      change Preceded prev (executed ρ (.dirty d :: st :: rest)) ↔ _
      rw [executed_cons ρ (.dirty d), if_neg (by simp [exitTaken]), executed_cons, Preceded,
        Preceded]
      constructor
      · rintro ⟨-, -, htail⟩
        exact ⟨fun _ => rfl, htail⟩
      · rintro ⟨-, htail⟩
        refine ⟨fun hst => ?_, fun _ => ⟨d, rfl, hd⟩, htail⟩
        simp [IRStmt.handled] at hst

/-- **A translation propagates exactly where `trace` was on** when it was made. -/
theorem translation_iff {ρ : IRTemp → UWord} {B : List IRStmt}
    (hguest : ∀ d, .dirty d ∈ B → ∃ addr, d.addr = .guest addr) :
    ∀ {tr tr' : Bool} {out : List IRStmt} {prev : Option IRDirty},
      daInstrument fnname tr (B.map some) = .ok (out, tr') → Foreign prev →
        (Preceded prev (executed ρ out) ↔ Traced fnname tr (executed ρ B)) := by
  induction B with
  | nil =>
    intro tr tr' out prev h _
    cases h
    exact Iff.rfl
  | cons st B ih =>
    have hg : ∀ d, .dirty d ∈ B → ∃ addr, d.addr = .guest addr := fun d hd =>
      hguest d (List.mem_cons_of_mem st hd)
    intro tr tr' out prev h hprev
    by_cases hne : st = .noOp
    · subst hne
      refine (ih hg h hprev).trans ?_
      simp [executed, exitTaken, Traced, IRStmt.handled, markTrace]
    · rw [List.map_cons, daInstrument_cons fnname tr hne] at h
      obtain ⟨o, ho, h⟩ := bind_eq_ok.mp h
      obtain ⟨rest, hrest, h⟩ := bind_eq_ok.mp h
      obtain ⟨rfl, rfl⟩ := Prod.mk.inj (Except.ok.inj h)
      have hnext : Foreign st.dirty? := by
        intro d hd
        cases st with
        | dirty d' =>
          cases hd
          exact hguest d List.mem_cons_self
        | _ => cases hd
      -- only an `IMark` changes `trace`, and that is not handled
      have hmark : st.handled → markTrace fnname tr st = tr := by
        intro hst
        cases st with
        | iMark => simp [IRStmt.handled] at hst
        | _ => rfl
      rw [preceded_instrumentStmt ho hprev, executed_cons ρ st B, Traced]
      refine and_congr (forall_congr' fun hst => ?_) ?_
      · rw [hmark hst]
      · split
        · exact Iff.rfl
        · exact ih hg hrest hnext

/-! ### What is in the cache -/

theorem mapError_eq_ok {α ε ε' : Type} {g : ε → ε'} {x : Except ε α} {b : α} :
    x.mapError g = .ok b ↔ x = .ok b := by
  cases x <;> simp [Except.mapError]

theorem translate_eq_ok {v v' : Valgrind} {pc : UWord} {out : List IRStmt} :
    translate fnname code v pc = .ok (v', out) ↔ (v.cache pc = some out ∧ v' = v) ∨
      (v.cache pc = none ∧ ∃ tr, daInstrument fnname v.tool.trace ((code pc).map some) =
        .ok (out, tr) ∧
          v' = ⟨{ v.tool with trace := tr }, Function.update v.cache pc (some out)⟩) := by
  rw [translate]
  cases hc : v.cache pc with
  | some out' =>
    simp only [Except.ok.injEq, Prod.mk.injEq, Option.some.injEq, reduceCtorEq, false_and, or_false]
    constructor
    · rintro ⟨rfl, rfl⟩
      exact ⟨rfl, rfl⟩
    · rintro ⟨rfl, rfl⟩
      exact ⟨rfl, rfl⟩
  | none =>
    simp only [reduceCtorEq, false_and, true_and, false_or]
    rw [bind_eq_ok]
    constructor
    · rintro ⟨⟨out', tr⟩, hinst, h⟩
      obtain ⟨rfl, rfl⟩ := Prod.mk.inj (Except.ok.inj h)
      exact ⟨tr, hinst, rfl⟩
    · rintro ⟨tr, hinst, rfl⟩
      exact ⟨(out, tr), hinst, rfl⟩

theorem before_eq_self {es : List Act} {pc : UWord} (h : ∀ e ∈ es, e.executes pc = false) :
    before es pc = es :=
  List.takeWhile_eq_self_iff.mpr fun e he => by simp [h e he]

theorem before_append {es : List Act} {pc : UWord} (h : ∃ e ∈ es, e.executes pc = true) (e : Act) :
    before (es ++ [e]) pc = before es pc := by
  rw [before, List.takeWhile_append, if_neg, before]
  intro hlen
  obtain ⟨e', he', hexec⟩ := h
  have hself := (List.takeWhile_sublist fun e : Act => !e.executes pc).eq_of_length hlen
  have hall := List.takeWhile_eq_self_iff.mp hself e' he'
  simp [hexec] at hall

/-- **What the cache has for an address**, after the activities `es`: nothing, if the
superblock has not been executed; otherwise the translation that was made when it was
first executed. -/
def CachedAt (fnname : UWord → Option String) (code : UWord → List IRStmt) (es : List Act)
    (v : Valgrind) (pc : UWord) : Prop :=
  (v.cache pc = none ∧ ∀ e ∈ es, e.executes pc = false) ∨
    ∃ out v₀ tr, v.cache pc = some out ∧ (∃ e ∈ es, e.executes pc = true) ∧
      run (stepValgrind fnname code) .init (before es pc) = .ok v₀ ∧
        daInstrument fnname v₀.tool.trace ((code pc).map some) = .ok (out, tr)

variable {es : List Act} {v v' : Valgrind} {pc : UWord}

/-- An activity that does not touch the cache at an address. -/
theorem CachedAt.keep (h : CachedAt fnname code es v pc) (e : Act)
    (hcache : v'.cache pc = v.cache pc) (he : v.cache pc = none → e.executes pc = false) :
    CachedAt fnname code (es ++ [e]) v' pc := by
  rcases h with ⟨hnone, hall⟩ | ⟨out, v₀, tr, hsome, hexec, hrun, hinst⟩
  · refine Or.inl ⟨hcache.trans hnone, fun e' he' => ?_⟩
    rcases List.mem_append.mp he' with he' | he'
    · exact hall e' he'
    · rw [List.mem_singleton.mp he']
      exact he hnone
  · refine Or.inr ⟨out, v₀, tr, hcache.trans hsome, ?_, ?_, hinst⟩
    · obtain ⟨e', he', hexec⟩ := hexec
      exact ⟨e', List.mem_append_left _ he', hexec⟩
    · rw [before_append hexec, hrun]

/-- The translation that is executed is the one that was made when the superblock was first
executed. -/
theorem CachedAt.translated (h : CachedAt fnname code es v pc)
    (hrun : run (stepValgrind fnname code) .init es = .ok v) {out : List IRStmt}
    (ht : translate fnname code v pc = .ok (v', out)) :
    ∃ v₀ tr, run (stepValgrind fnname code) .init (before es pc) = .ok v₀ ∧
      daInstrument fnname v₀.tool.trace ((code pc).map some) = .ok (out, tr) := by
  rcases translate_eq_ok.mp ht with ⟨hsome, -⟩ | ⟨hnone, tr, hinst, -⟩
  · rcases h with ⟨hnone, -⟩ | ⟨out', v₀, tr, hsome', -, hrun₀, hinst⟩
    · rw [hsome] at hnone
      cases hnone
    · obtain rfl := Option.some.inj (hsome.symm.trans hsome')
      exact ⟨v₀, tr, hrun₀, hinst⟩
  · rcases h with ⟨-, hall⟩ | ⟨out', v₀, tr', hsome, -⟩
    · exact ⟨v, tr, by rw [before_eq_self hall, hrun], hinst⟩
    · rw [hnone] at hsome
      cases hsome

/-- The cache along a run. -/
theorem cachedAt_run (h : run (stepValgrind fnname code) .init es = .ok v) (pc : UWord) :
    CachedAt fnname code es v pc := by
  induction es using List.reverseRecOn generalizing v with
  | nil =>
    cases h
    exact Or.inl ⟨rfl, fun e he => absurd he List.not_mem_nil⟩
  | append_singleton es e ih =>
    obtain ⟨v₁, h₁, h⟩ := run_append_eq_ok.mp h
    obtain ⟨v₂, h₂, h⟩ := run_cons_eq_ok.mp h
    cases h
    have hat := ih h₁
    cases e with
    | preCall n args =>
      obtain ⟨s, -, h₂⟩ := bind_eq_ok.mp h₂
      cases h₂
      exact hat.keep _ rfl fun _ => rfl
    | block pc' ρ =>
      obtain ⟨⟨v₃, out⟩, ht, h₂⟩ := bind_eq_ok.mp h₂
      obtain ⟨s, -, h₂⟩ := bind_eq_ok.mp h₂
      cases h₂
      have ht := mapError_eq_ok.mp ht
      by_cases hpc : pc' = pc
      · subst hpc
        obtain ⟨v₀, tr, hrun₀, hinst⟩ := hat.translated h₁ ht
        rcases translate_eq_ok.mp ht with ⟨hsome, rfl⟩ | ⟨hnone, tr', -, rfl⟩
        · exact hat.keep _ rfl fun hnone => by simp [hsome] at hnone
        · -- the superblock is executed for the first time
          have hall : ∀ e ∈ es, e.executes pc' = false := by
            rcases hat with ⟨-, hall⟩ | ⟨out', -, -, hsome, -⟩
            · exact hall
            · rw [hnone] at hsome
              cases hsome
          refine Or.inr ⟨out, v₀, tr, Function.update_self .., ⟨_, List.mem_append_right _
            (List.mem_singleton_self _), by simp [Act.executes]⟩, ?_, hinst⟩
          rw [← hrun₀, before, List.takeWhile_append, ← before, before_eq_self hall, if_pos rfl]
          simp [Act.executes]
      · refine hat.keep _ ?_ fun _ => by simpa [Act.executes] using hpc
        rcases translate_eq_ok.mp ht with ⟨-, rfl⟩ | ⟨-, tr', -, rfl⟩
        · rfl
        · exact Function.update_of_ne (Ne.symm hpc) _ _

/-! ### Every run -/

/-- **Every execution with `trace` on propagates exactly where it was translated with `trace`
on.** -/
theorem propagatedRun_iff (hguest : ∀ pc d, .dirty d ∈ code pc → ∃ addr, d.addr = .guest addr)
    (es : List Act) : PropagatedRun fnname code es ↔ TracedRun fnname code es := by
  refine forall_congr' fun es₁ => forall_congr' fun pc => forall_congr' fun ρ =>
    forall_congr' fun es₂ => forall_congr' fun _ => forall_congr' fun v => forall_congr' fun hv =>
      forall_congr' fun v' => forall_congr' fun out => forall_congr' fun ht =>
        forall_congr' fun _ => ?_
  obtain ⟨v₀, tr, hrun, hinst⟩ := (cachedAt_run hv pc).translated hv ht
  rw [Propagates, translation_iff (hguest pc) hinst foreign_none]
  constructor
  · intro h v₁ hv₁
    obtain rfl := Except.ok.inj (hrun.symm.trans hv₁)
    exact h
  · exact fun h => h v₀ hrun

theorem propagatedRun_iff_load :
    PropagatedRun (fun _ => some "read") (fun _ => [.iMark 100, .wrTmp 0 (.load (.const 8))])
        [.block 100 fun _ => 0] ↔
      TracedRun (fun _ => some "read") (fun _ => [.iMark 100, .wrTmp 0 (.load (.const 8))])
        [.block 100 fun _ => 0] :=
  propagatedRun_iff (fun pc d hd => by simp at hd) _

/-- A store that is first executed before the program comes to `read` is not propagated
afterwards either. -/
theorem not_propagatedRun :
    ¬∀ (fnname : UWord → Option String) (code : UWord → List IRStmt),
      (∀ pc d, .dirty d ∈ code pc → ∃ addr, d.addr = .guest addr) →
        ∀ es, PropagatedRun fnname code es := by
  intro h
  let fnname : UWord → Option String := fun addr => if addr = 100 then some "read" else none
  let code : UWord → List IRStmt := fun pc =>
    if pc = 100 then [.iMark 100] else [.store (.const 8) (.const 0)]
  have hguest : ∀ pc d, .dirty d ∈ code pc → ∃ addr, d.addr = .guest addr := by
    intro pc d hd
    simp only [code] at hd
    split at hd <;> simp at hd
  obtain ⟨v, hrun, hcache, htrace⟩ : ∃ v, run (stepValgrind fnname code) .init
      [.block 0 fun _ => 0, .block 100 fun _ => 0] = .ok v ∧
        v.cache 0 = some [.store (.const 8) (.const 0)] ∧ v.tool.trace = true :=
    ⟨_, rfl, rfl, rfl⟩
  have hprop := h fnname code hguest
    [.block 0 fun _ => 0, .block 100 fun _ => 0, .block 0 fun _ => 0]
    [.block 0 fun _ => 0, .block 100 fun _ => 0] 0 (fun _ => 0) [] rfl v hrun v _
    (translate_eq_ok.mpr (Or.inl ⟨hcache, rfl⟩)) htrace
  obtain ⟨d, hd, -⟩ := hprop.1 rfl
  cases hd

end DepLeak

import DepLeak.Leak.Paths
import DepLeak.Leak.Purity

/-!
# A module, function by function

`runOnModule` lets `DiscoverPaths` append the paths of one function after the other to the
global `paths`, and analyses all of `paths` for each of them. Nothing is ever taken out of
the list, so that the paths of a function are analysed, and those that leak printed, for
every function that comes after it as well: each path is analysed once exactly if no
function that can be left is followed by another one (`DepLeak.analysedOnce_iff`).
-/

namespace DepLeak

open Runs Walks

/-! ### The pass -/

/-- A module. -/
structure Module where
  /-- The basic blocks. -/
  blocks : Blocks
  /-- The functions, each with its blocks, the entry first; a function in an external library
  has none. -/
  funs : List (List BasicBlock)
  /-- A `br` stays in its function. -/
  closed : ∀ body ∈ funs, ∀ bb ∈ body, ∀ successors, branchOf blocks bb = some successors →
    ∀ target ∈ successors, target ∈ body

/-- What stops the pass. -/
inductive PassFault
  /-- The detector crashes. -/
  | crash (c : Crash)
  /-- `DiscoverPaths` calls itself deeper than the model lets it. -/
  | depth
  deriving DecidableEq, Repr

/-- The state of `runOnModule`. -/
structure Pass where
  /-- `paths`. -/
  paths : List (List BasicBlock)
  /-- The module, as the analyses have left it. -/
  blocks : Blocks
  /-- The paths that were printed. -/
  printed : List (List BasicBlock)
  /-- The paths that were analysed for each of the functions so far, with the verdicts. -/
  analysed : List (List (List BasicBlock × Bool))

/-- How deep `DiscoverPaths` calls itself at most: no block is on a path more than three
times. -/
def depth (body : List BasicBlock) : ℕ := 3 * body.length + 1

/-- The paths that leak. -/
def leaking (verdicts : List (List BasicBlock × Bool)) : List (List BasicBlock) :=
  (verdicts.filter Prod.snd).map Prod.fst

/-- One turn of the loop of `runOnModule`. -/
def runOnFunction (s : Pass) : List BasicBlock → Except PassFault Pass
  -- function in external library
  | [] => .ok s
  | front :: body =>
    match discoverPaths s.blocks (depth (front :: body)) s.paths [] front with
    -- never the case: see `runOnModule_ne_depth`
    | none => .error .depth
    | some paths =>
      match detectAll s.blocks paths with
      | .error c => .error (.crash c)
      | .ok (verdicts, blocks) => .ok
        { paths := paths
          blocks := blocks
          printed := s.printed ++ leaking (paths.zip verdicts)
          analysed := s.analysed ++ [paths.zip verdicts] }

/-- The state at the start. -/
def Pass.init (m : Module) : Pass := ⟨[], m.blocks, [], []⟩

/-- `runOnModule`. -/
def runOnModule (m : Module) : Except PassFault Pass := run runOnFunction (.init m) m.funs

/-! ### What it is for -/

namespace Module

variable (m : Module)

/-- The paths that `DiscoverPaths` finds for a function. -/
def found : List BasicBlock → List (List BasicBlock)
  | [] => []
  | front :: body =>
    (discoverPaths m.blocks (depth (front :: body)) [] [] front).getD []

/-- The functions that are defined in the module. -/
def defined : List (List BasicBlock) := m.funs.filter (· ≠ [])

/-- A function can be left: there is a walk from its entry to a block without a `br`. -/
def CanLeave (body : List BasicBlock) : Prop :=
  ∃ front, body.head? = some front ∧ ∃ is w, Walk (branchOf m.blocks) front is w

end Module

/-- **Every path is analysed once**: for each function those that are found for it, and
those of them that leak are printed once. -/
structure AnalysedOnce (m : Module) (s : Pass) : Prop where
  /-- Function by function. -/
  own : s.analysed.map (List.map Prod.fst) = m.defined.map m.found
  /-- Over the whole run. -/
  once : s.analysed.flatten.map Prod.fst = m.defined.flatMap m.found
  printed : s.printed = leaking s.analysed.flatten

/-! ### A list that is never cleared -/

section Accumulate

variable {α γ : Type} {g : α → List γ}

/-- The contents of a list after each time that something is appended to it. -/
def accumulate (g : α → List γ) : List γ → List α → List (List γ)
  | _, [] => []
  | acc, x :: l => (acc ++ g x) :: accumulate g (acc ++ g x) l

/-- **Only the last thing that is appended may be something**, if the list is always to be
what has just been appended. -/
theorem accumulate_eq_map_iff {acc : List γ} {l : List α} : accumulate g acc l = l.map g ↔
    (l ≠ [] → acc = []) ∧ ∀ pre x post, l = pre ++ x :: post → g x ≠ [] → post = [] := by
  induction l generalizing acc with
  | nil => simp [accumulate]
  | cons x l ih =>
    rw [accumulate, List.map_cons, List.cons.injEq, List.append_left_eq_self, ih]
    constructor
    · rintro ⟨rfl, hx, hl⟩
      refine ⟨fun _ => rfl, fun pre y post heq hy => ?_⟩
      rcases pre with _ | ⟨z, pre⟩
      · obtain ⟨rfl, rfl⟩ := List.cons.inj heq
        by_contra hpost
        exact hy (hx hpost)
      -- `x` has added nothing, so that the rest starts from the empty list as well
      · exact hl pre y post (List.cons.inj heq).2 hy
    · rintro ⟨hacc, hl⟩
      obtain rfl := hacc (List.cons_ne_nil x l)
      refine ⟨rfl, fun hne => ?_, fun pre y post heq => hl (x :: pre) y post (by rw [heq]; rfl)⟩
      by_contra hx
      exact hne (hl [] x l rfl hx)

end Accumulate

/-! ### What `DiscoverPaths` finds -/

variable {m : Module} {s s' : Pass} {front : BasicBlock} {body : List BasicBlock}

/-- **The paths of a function are appended**, whatever was put into its blocks. -/
theorem Module.discoverPaths_found {blocks : Blocks} (hb : branchOf blocks = branchOf m.blocks)
    (hmem : front :: body ∈ m.funs) (paths : List (List BasicBlock)) :
    discoverPaths blocks (depth (front :: body)) paths [] front =
        some (paths ++ m.found (front :: body)) ∧
      (m.found (front :: body) ≠ [] ↔ m.CanLeave (front :: body)) := by
  have hclosed : ∀ bb ∈ (front :: body).toFinset, ∀ bs, branchOf m.blocks bb = some bs →
      ∀ t ∈ bs, t ∈ (front :: body).toFinset := by
    intro bb hbb bs hbs t ht
    exact List.mem_toFinset.mpr (m.closed _ hmem bb (List.mem_toFinset.mp hbb) bs hbs t ht)
  have hfront : front ∈ (front :: body).toFinset := List.mem_toFinset.mpr List.mem_cons_self
  have hfuel : room (front :: body).toFinset 3 [] < depth (front :: body) := by
    have hcard := (front :: body).toFinset_card_le
    rw [room_nil, depth]
    omega
  have hfound : m.found (front :: body) =
      (enumerate (branchOf m.blocks) 3 (depth (front :: body)) [] front).map Prod.snd := by
    rw [found, discoverPaths_enumerate hclosed hfront hfuel]
    rfl
  constructor
  · rw [discoverPaths_enumerate (hb ▸ hclosed) hfront hfuel, hfound, hb]
    rfl
  · rw [hfound, ne_eq, List.map_eq_nil_iff,
      ← ne_eq, enumerate_ne_nil_iff hclosed hfront hfuel (by omega)]
    simp [CanLeave]

/-- The analyses give every path a verdict, and leave the successors of the blocks. -/
theorem detectAll_spec {blocks blocks' : Blocks} {paths : List (List BasicBlock)}
    {verdicts : List Bool} (h : detectAll blocks paths = .ok (verdicts, blocks')) :
    verdicts.length = paths.length ∧ branchOf blocks' = branchOf blocks := by
  have hrun : ∀ {paths : List (List BasicBlock)} {r r' : List Bool × Blocks},
      run detectNext r paths = .ok r' →
        r'.1.length = r.1.length + paths.length ∧ branchOf r'.2 = branchOf r.2 := by
    intro paths
    induction paths with
    | nil =>
      rintro r r' ⟨⟩
      exact ⟨rfl, rfl⟩
    | cons path paths ih =>
      intro r r' h
      obtain ⟨r₁, h₁, h⟩ := run_cons_eq_ok.mp h
      obtain ⟨hlength, hbranch⟩ := ih h
      obtain ⟨⟨verdict, blocks⟩, hpath, h₁⟩ := bind_eq_ok.mp h₁
      obtain rfl := Except.ok.inj h₁
      refine ⟨?_, hbranch.trans (memoryLeakDetection_branches hpath)⟩
      rw [hlength, List.length_append, List.length_singleton, List.length_cons]
      omega
  simpa using hrun h

/-! ### One function, and all of them -/

/-- **One turn of the loop** analyses the paths found before and those of the function. -/
theorem runOnFunction_cons (hb : branchOf s.blocks = branchOf m.blocks)
    (hmem : front :: body ∈ m.funs) : runOnFunction s (front :: body) =
      match detectAll s.blocks (s.paths ++ m.found (front :: body)) with
      | .error c => .error (.crash c)
      | .ok (verdicts, blocks) => .ok
        { paths := s.paths ++ m.found (front :: body)
          blocks := blocks
          printed := s.printed ++ leaking ((s.paths ++ m.found (front :: body)).zip verdicts)
          analysed := s.analysed ++ [(s.paths ++ m.found (front :: body)).zip verdicts] } := by
  rw [runOnFunction, (Module.discoverPaths_found hb hmem s.paths).1]

/-- **The whole loop**: for every function, the paths of all functions up to it are
analysed. -/
theorem run_runOnFunction {fs : List (List BasicBlock)} (hfs : ∀ body ∈ fs, body ∈ m.funs)
    (hb : branchOf s.blocks = branchOf m.blocks) (hp : s.printed = leaking s.analysed.flatten)
    (h : run runOnFunction s fs = .ok s') :
    s'.analysed.map (List.map Prod.fst) = s.analysed.map (List.map Prod.fst) ++
        accumulate m.found s.paths (fs.filter (· ≠ [])) ∧
      s'.printed = leaking s'.analysed.flatten := by
  induction fs generalizing s with
  | nil =>
    cases h
    exact ⟨(List.append_nil _).symm, hp⟩
  | cons body fs ih =>
    have hfs' : ∀ body ∈ fs, body ∈ m.funs := fun body hbody =>
      hfs body (List.mem_cons_of_mem _ hbody)
    obtain ⟨s₁, h₁, h⟩ := run_cons_eq_ok.mp h
    rcases body with _ | ⟨front, body⟩
    · -- a function in an external library
      cases h₁
      exact ih hfs' hb hp h
    · rw [runOnFunction_cons hb (hfs _ List.mem_cons_self)] at h₁
      cases hall : detectAll s.blocks (s.paths ++ m.found (front :: body)) with
      | error c =>
        rw [hall] at h₁
        cases h₁
      | ok r =>
        obtain ⟨verdicts, blocks⟩ := r
        rw [hall] at h₁
        obtain rfl := Except.ok.inj h₁
        obtain ⟨hlength, hbranch⟩ := detectAll_spec hall
        -- the list of paths goes on to the next function as it is
        obtain ⟨hanalysed, hprinted⟩ := ih hfs' (hbranch.trans hb)
          (by simp [hp, leaking]) h
        refine ⟨?_, hprinted⟩
        rw [hanalysed, List.filter_cons_of_pos (by simp), accumulate, List.map_append,
          List.map_singleton, List.map_fst_zip hlength.ge]
        simp

/-- `DiscoverPaths` does not call itself deeper than that. -/
theorem runOnModule_ne_depth (m : Module) : runOnModule m ≠ .error .depth := by
  have hrun : ∀ (fs : List (List BasicBlock)) (s : Pass), (∀ body ∈ fs, body ∈ m.funs) →
      branchOf s.blocks = branchOf m.blocks → run runOnFunction s fs ≠ .error .depth := by
    intro fs
    induction fs with
    | nil => exact fun s _ _ h => by cases h
    | cons body fs ih =>
      intro s hfs hb
      have hfs' : ∀ body ∈ fs, body ∈ m.funs := fun body hbody =>
        hfs body (List.mem_cons_of_mem _ hbody)
      rw [run_cons]
      rcases body with _ | ⟨front, body⟩
      · exact ih s hfs' hb
      · rw [runOnFunction_cons hb (hfs _ List.mem_cons_self)]
        cases hall : detectAll s.blocks (s.paths ++ m.found (front :: body)) with
        | error c => exact fun h => by cases h
        | ok r => exact ih _ hfs' ((detectAll_spec hall).2.trans hb)
  exact hrun m.funs _ (fun _ h => h) rfl

/-- **When every path is analysed once**: exactly if no function that can be left is
followed by another one that is defined. -/
theorem analysedOnce_iff (m : Module) (h : runOnModule m = .ok s) : AnalysedOnce m s ↔
    ∀ pre body post, m.defined = pre ++ body :: post → m.CanLeave body → post = [] := by
  obtain ⟨hanalysed, hprinted⟩ := run_runOnFunction (fun _ h => h) rfl rfl h
  have hanalysed : s.analysed.map (List.map Prod.fst) = accumulate m.found [] m.defined :=
    hanalysed
  have hfound : ∀ body ∈ m.defined, m.found body ≠ [] ↔ m.CanLeave body := by
    intro body hbody
    obtain ⟨hmem, hne⟩ := List.mem_filter.mp hbody
    rcases body with _ | ⟨front, body⟩
    · simp at hne
    · exact (Module.discoverPaths_found rfl hmem []).2
  have hown : s.analysed.map (List.map Prod.fst) = m.defined.map m.found ↔
      ∀ pre body post, m.defined = pre ++ body :: post → m.CanLeave body → post = [] := by
    rw [hanalysed, accumulate_eq_map_iff, and_iff_right fun _ => rfl]
    -- a function that can be left has a path, as loops can be cut out of the way
    refine forall₃_congr fun pre body post => forall_congr' fun heq => ?_
    rw [hfound body (heq ▸ List.mem_append_right pre List.mem_cons_self)]
  constructor
  · exact fun hs => hown.mp hs.own
  · intro hlast
    have hpaths := hown.mpr hlast
    exact ⟨hpaths, by rw [List.map_flatten, hpaths, List.flatMap], hprinted⟩

/-! ### One function, and two -/

/-- A block of memory is allocated in block 0, and never freed. -/
def leakInFront (funs : List (List BasicBlock)) : Module where
  blocks := fun bb =>
    if bb = 0 then
      [.call 0 (some "malloc") [.constantInt 10], .store (.result 0 "") (.global "v"),
        .terminator []]
    else [.terminator []]
  funs := funs
  closed := by
    intro body _ bb _ successors hsucc
    by_cases hbb : bb = 0 <;>
      simp [branchOf, hbb, List.findSome?_cons, Instruction.branch?] at hsucc

/-- A function in an external library is no function that comes after. -/
theorem analysedOnce_iff_external : ∃ s, runOnModule (leakInFront [[0], []]) = .ok s ∧
    AnalysedOnce (leakInFront [[0], []]) s := by
  refine ⟨_, rfl, (analysedOnce_iff _ rfl).mpr fun pre body post hsplit _ => ?_⟩
  have hlength : (leakInFront [[0], []]).defined.length = 1 := rfl
  rw [hsplit, List.length_append, List.length_cons] at hlength
  exact List.length_eq_zero_iff.mp (by omega)

/-- **The leak of a function is printed again** for the function after it. -/
theorem not_analysedOnce : ¬∀ m s, runOnModule m = .ok s → AnalysedOnce m s := by
  intro h
  have hs := h (leakInFront [[0], [1]]) _ rfl
  exact absurd hs.own (by decide)

end DepLeak

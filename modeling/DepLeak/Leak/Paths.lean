import DepLeak.Walks
import DepLeak.Leak.Detector

/-!
# The paths of a function

`DepLeak.discoverPaths` is the depth-first enumeration of the walks through the control
flow graph of a function, with every block visited three times at most
(`DepLeak.discoverPaths_eq`), so that it lists them all, each once, in the order of their
successor indices (`DepLeak.discoverPaths_exact`).
-/

namespace DepLeak

open Walks

/-- A function with a body, whose blocks all end in a `br`, a `ret` or an `unreachable`. -/
structure Fun where
  /-- The blocks of the module. -/
  blocks : Blocks
  /-- Those of the function. -/
  body : Finset BasicBlock
  /-- The entry block. -/
  front : BasicBlock
  front_mem : front ∈ body
  /-- A block ends in its only terminator. -/
  terminated : ∀ bb ∈ body, ∃ init last, blocks bb = init ++ [last] ∧ last.isEnd ∧
    ∀ i ∈ init, !i.isTerminator
  /-- A `br` stays in the function. -/
  closed : ∀ bb ∈ body, ∀ successors, (blocks bb).getLast? = some (.br successors) →
    ∀ target ∈ successors, target ∈ body

namespace Fun

variable (f : Fun)

/-- The successors of a block, if it ends in a `br`. -/
def successors (bb : BasicBlock) : Option (List BasicBlock) :=
  (f.blocks bb).getLast?.bind Instruction.branch?

variable {f} {bb : BasicBlock}

theorem branchOf_eq (hbb : bb ∈ f.body) : branchOf f.blocks bb = f.successors bb := by
  obtain ⟨init, last, heq, -, hinit⟩ := f.terminated bb hbb
  have hnone : init.findSome? Instruction.branch? = none := by
    refine List.findSome?_eq_none_iff.mpr fun i hi => ?_
    have hi := hinit i hi
    cases i <;> first | rfl | simp [Instruction.isTerminator] at hi
  rw [branchOf, successors, heq, List.findSome?_append, hnone, List.getLast?_append]
  cases last <;> rfl

theorem successors_closed (hbb : bb ∈ f.body) {bs : List BasicBlock}
    (hsucc : f.successors bb = some bs) : ∀ t ∈ bs, t ∈ f.body := by
  obtain ⟨last, hlast, hbranch⟩ := Option.bind_eq_some_iff.mp hsucc
  cases last with
  | br successors =>
    obtain rfl : successors = bs := Option.some.inj hbranch
    exact f.closed bb hbb successors hlast
  | _ => cases hbranch

end Fun

/-! ### The recursion is the enumeration -/

/-- A loop that appends to a list. -/
theorem foldlM_append {α γ : Type} {g : List γ → α → Option (List γ)} {h : α → List γ}
    {l : List α} (hg : ∀ a ∈ l, ∀ acc, g acc a = some (acc ++ h a)) (acc : List γ) :
    l.foldlM g acc = some (acc ++ l.flatMap h) := by
  induction l generalizing acc with
  | nil => simp
  | cons a l ih =>
    rw [List.foldlM_cons, hg a List.mem_cons_self, Option.bind_eq_bind, Option.bind_some,
      ih fun b hb => hg b (List.mem_cons_of_mem a hb)]
    simp

theorem zipIdx_flatMap {α γ : Type} (l : List α) (h : α → List γ) :
    (l.zipIdx.flatMap fun e => h e.1) = l.flatMap h := by
  calc (l.zipIdx.flatMap fun e => h e.1)
      = (l.zipIdx.map Prod.fst).flatMap h := (List.flatMap_map _ _ _).symm
    _ = l.flatMap h := by rw [List.zipIdx_map_fst]

/-- **What a call of `DiscoverPaths` appends**: the walks that fit after the path so far. -/
theorem discoverPaths_enumerate {blocks : Blocks} {S : Finset BasicBlock}
    (hS : ∀ bb ∈ S, ∀ bs, branchOf blocks bb = some bs → ∀ t ∈ bs, t ∈ S) {fuel : ℕ}
    {bb : BasicBlock} {path : List BasicBlock} (hbb : bb ∈ S) (hfuel : room S 3 path < fuel)
    (paths : List (List BasicBlock)) : discoverPaths blocks fuel paths path bb =
      some (paths ++ (enumerate (branchOf blocks) 3 fuel path bb).map fun r => path ++ r.2) := by
  induction fuel generalizing bb path paths with
  | zero => exact absurd hfuel (Nat.not_lt_zero _)
  | succ fuel ih =>
    rw [discoverPaths, enumerate]
    by_cases hcount : 3 ≤ path.count bb
    · rw [if_pos (show path.count bb > 2 from hcount), if_pos hcount]
      simp
    rw [if_neg (show ¬path.count bb > 2 from hcount), if_neg hcount, ← branchOf]
    cases hsucc : branchOf blocks bb with
    | none => rfl
    | some bs =>
      have hroom : room S 3 (path ++ [bb]) < fuel := by
        have := room_append_lt hbb (not_le.mp hcount)
        omega
      have hstep : ∀ t ∈ bs, ∀ acc, discoverPaths blocks fuel acc (path ++ [bb]) t =
          some (acc ++ (enumerate (branchOf blocks) 3 fuel (path ++ [bb]) t).map
            fun r => path ++ [bb] ++ r.2) :=
        fun t ht acc => ih (hS bb hbb bs hsucc t ht) hroom acc
      refine (foldlM_append hstep paths).trans ?_
      rw [List.map_flatMap, ← zipIdx_flatMap bs]
      simp [Function.comp_def]

/-- The same for a function whose blocks all end in a `br`, a `ret` or an `unreachable`. -/
theorem discoverPaths_eq (f : Fun) {fuel : ℕ} {bb : BasicBlock} {path : List BasicBlock}
    (hbb : bb ∈ f.body) (hfuel : room f.body 3 path < fuel) (paths : List (List BasicBlock)) :
    discoverPaths f.blocks fuel paths path bb =
      some (paths ++ (enumerate f.successors 3 fuel path bb).map fun r => path ++ r.2) := by
  have hclosed : ∀ bb ∈ f.body, ∀ bs, branchOf f.blocks bb = some bs → ∀ t ∈ bs, t ∈ f.body :=
    fun bb hbb bs hbs => Fun.successors_closed hbb (Fun.branchOf_eq hbb ▸ hbs)
  rw [discoverPaths_enumerate hclosed hbb hfuel,
    enumerate_congr hclosed hbb fun bb hbb => Fun.branchOf_eq hbb]

/-! ### All walks, once, in order -/

theorem fits_nil {w : List BasicBlock} : Fits 3 [] w ↔ ∀ bb, w.count bb ≤ 3 := by
  constructor
  · intro h bb
    by_cases hbb : bb ∈ w
    · exact h bb hbb
    · rw [List.count_eq_zero_of_not_mem hbb]
      exact Nat.zero_le _
  · intro h bb _
    exact h bb

/-- **Path enumeration is exact.** From the entry, `DiscoverPaths` ends and appends to
`paths` the walks to a block without a `br` that visit no block more than three times: one
for every sequence of successor indices, in the lexicographic order of these, which is that
of a depth-first search. -/
theorem discoverPaths_exact (f : Fun) (paths : List (List BasicBlock)) :
    ∃ entries : List (List ℕ × List BasicBlock),
      entries.Pairwise (fun x y => x.1 < y.1) ∧
      (∀ is w, (is, w) ∈ entries ↔
        Walk f.successors f.front is w ∧ ∀ bb, w.count bb ≤ 3) ∧
      ∀ n, discoverPaths f.blocks (3 * f.body.card + 1 + n) paths [] f.front =
        some (paths ++ entries.map Prod.snd) := by
  have hclosed : ∀ bb ∈ f.body, ∀ bs, f.successors bb = some bs → ∀ t ∈ bs, t ∈ f.body :=
    fun bb hbb bs h => Fun.successors_closed hbb h
  have hfuel : ∀ n, room f.body 3 [] < 3 * f.body.card + 1 + n := by
    intro n
    rw [room_nil]
    omega
  refine ⟨enumerate f.successors 3 (3 * f.body.card + 1) [] f.front, enumerate_pairwise,
    fun is w => ?_, fun n => ?_⟩
  · rw [mem_enumerate hclosed f.front_mem (hfuel 0), fits_nil]
  · rw [discoverPaths_eq f f.front_mem (hfuel n),
      enumerate_fuel hclosed f.front_mem (hfuel n) (hfuel 0)]
    rfl

/-- An entry block, a loop around one block, and the block after it. -/
def aroundOne : Fun where
  blocks
    | 1 => [.br [2]]
    | 2 => [.other 0, .br [2, 3]]
    | _ => [.terminator []]
  body := {1, 2, 3}
  front := 1
  front_mem := Finset.mem_insert_self 1 _
  terminated := by
    intro bb hbb
    simp only [Finset.mem_insert, Finset.mem_singleton] at hbb
    rcases hbb with rfl | rfl | rfl
    · exact ⟨[], .br [2], rfl, rfl, fun _ h => absurd h List.not_mem_nil⟩
    · exact ⟨[.other 0], .br [2, 3], rfl, rfl, by simp [Instruction.isTerminator]⟩
    · exact ⟨[], .terminator [], rfl, rfl, fun _ h => absurd h List.not_mem_nil⟩
  closed := by
    intro bb hbb successors hlast target htarget
    simp only [Finset.mem_insert, Finset.mem_singleton] at hbb
    rcases hbb with rfl | rfl | rfl
    · obtain rfl : [2] = successors := by simpa using hlast
      obtain rfl := List.mem_singleton.mp htarget
      decide
    · obtain rfl : [2, 3] = successors := by simpa using hlast
      rcases List.mem_pair.mp htarget with rfl | rfl
      · decide
      · decide
    · simp at hlast

/-- The loop is gone through at most three times. -/
theorem discoverPaths_exact_aroundOne : ∃ entries : List (List ℕ × List BasicBlock),
    entries.map Prod.snd = [[1, 2, 2, 2, 3], [1, 2, 2, 3], [1, 2, 3]] ∧
      ∀ is w, (is, w) ∈ entries ↔
        Walk aroundOne.successors aroundOne.front is w ∧ ∀ bb, w.count bb ≤ 3 := by
  obtain ⟨entries, -, hentries, hpaths⟩ := discoverPaths_exact aroundOne []
  have hrun : discoverPaths aroundOne.blocks 10 [] [] 1 =
      some [[1, 2, 2, 2, 3], [1, 2, 2, 3], [1, 2, 3]] :=
    rfl
  exact ⟨entries, (Option.some.inj (hrun.symm.trans (hpaths 0))).symm, hentries⟩

end DepLeak

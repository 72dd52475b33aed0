import DepLeak.Leak.Paths

/-!
# Where the recorded paths end

`DiscoverPaths` takes a block for an exit of its function when it finds no `br` in it. A
block that ends in a `switch`, an `indirectbr` or an `invoke` has none either, and a path
that comes to it is recorded there, in the middle of the function: every recorded path is
complete exactly if no such block can be reached along the `br`s
(`DepLeak.Graph.complete_iff`).
-/

namespace DepLeak

open Walks

/-- The successors of an instruction in the control flow graph, if it is a terminator. -/
def Instruction.successors : Instruction → List BasicBlock
  | .br successors => successors
  | .terminator successors => successors
  | _ => []

/-- **The control flow graph of a function** with a body, whose blocks end in any
terminators. -/
structure Graph where
  /-- The blocks of the module. -/
  blocks : Blocks
  /-- Those of the function. -/
  body : Finset BasicBlock
  /-- The entry block. -/
  front : BasicBlock
  front_mem : front ∈ body
  /-- A block ends in its only terminator. -/
  terminated : ∀ bb ∈ body, ∃ init last, blocks bb = init ++ [last] ∧ last.isTerminator ∧
    ∀ i ∈ init, !i.isTerminator
  /-- Control stays in the function. -/
  closed : ∀ bb ∈ body, ∀ last, (blocks bb).getLast? = some last →
    ∀ target ∈ last.successors, target ∈ body

namespace Graph

variable (f : Graph)

/-- The successors of a block. -/
def successors (bb : BasicBlock) : List BasicBlock :=
  ((f.blocks bb).getLast?.map Instruction.successors).getD []

/-- A block that can be reached from the entry along the `br`s. -/
def Reached (bb : BasicBlock) : Prop :=
  Relation.ReflTransGen (Edge (branchOf f.blocks)) f.front bb

/-- **Every recorded path is complete**: `DiscoverPaths` comes to an end, and the paths that
it appends end in blocks without successors. -/
def Complete : Prop :=
  ∀ paths, ∃ found,
    (∀ n, discoverPaths f.blocks (3 * f.body.card + 1 + n) paths [] f.front =
      some (paths ++ found)) ∧
    ∀ path ∈ found, ∃ bb, path.getLast? = some bb ∧ f.successors bb = []

variable {f} {bb : BasicBlock}

/-- What `DiscoverPaths` finds in a block is its terminator, if that is a `br`. -/
theorem branchOf_eq (hbb : bb ∈ f.body) :
    branchOf f.blocks bb = (f.blocks bb).getLast?.bind Instruction.branch? := by
  obtain ⟨init, last, heq, -, hinit⟩ := f.terminated bb hbb
  have hnone : init.findSome? Instruction.branch? = none := by
    refine List.findSome?_eq_none_iff.mpr fun i hi => ?_
    have hi := hinit i hi
    cases i <;> first | rfl | simp [Instruction.isTerminator] at hi
  rw [branchOf, heq, List.findSome?_append, hnone, List.getLast?_append]
  cases last <;> rfl

theorem branchOf_closed (hbb : bb ∈ f.body) {bs : List BasicBlock}
    (hsucc : branchOf f.blocks bb = some bs) : ∀ t ∈ bs, t ∈ f.body := by
  rw [branchOf_eq hbb] at hsucc
  obtain ⟨last, hlast, hbranch⟩ := Option.bind_eq_some_iff.mp hsucc
  have hsuccessors : last.successors = bs := by
    cases last with
    | br successors => exact Option.some.inj hbranch
    | _ => cases hbranch
  exact hsuccessors ▸ f.closed bb hbb last hlast

/-- **When every recorded path is complete**: exactly if each block that is reached from the
entry along `br`s and does not end in one itself has no successors, that is, ends in no
`switch`, `indirectbr` or `invoke`. -/
theorem complete_iff (f : Graph) :
    f.Complete ↔ ∀ bb, f.Reached bb → branchOf f.blocks bb = none → f.successors bb = [] := by
  have hclosed : ∀ bb ∈ f.body, ∀ bs, branchOf f.blocks bb = some bs → ∀ t ∈ bs, t ∈ f.body :=
    fun bb hbb bs hbs => branchOf_closed hbb hbs
  have hfuel : ∀ n, room f.body 3 [] < 3 * f.body.card + 1 + n := by
    intro n
    rw [room_nil]
    omega
  -- more fuel finds nothing more
  have hfound : ∀ n paths, discoverPaths f.blocks (3 * f.body.card + 1 + n) paths [] f.front =
      some (paths ++ (enumerate (branchOf f.blocks) 3 (3 * f.body.card + 1) [] f.front).map
        Prod.snd) := by
    intro n paths
    rw [discoverPaths_enumerate hclosed f.front_mem (hfuel n),
      enumerate_fuel hclosed f.front_mem (hfuel n) (hfuel 0)]
    rfl
  have hends : ∀ bb,
      (∃ r ∈ enumerate (branchOf f.blocks) 3 (3 * f.body.card + 1) [] f.front,
        r.2.getLast? = some bb) ↔ f.Reached bb ∧ branchOf f.blocks bb = none :=
    fun bb => exists_enumerate_getLast_iff hclosed f.front_mem (hfuel 0) (by omega)
  constructor
  · intro h bb hreached hnone
    obtain ⟨found, hpaths, hcomplete⟩ := h []
    obtain rfl := Option.some.inj ((hpaths 0).symm.trans (hfound 0 []))
    -- a walk to the block is among the paths, with the loops cut out of it
    obtain ⟨r, hr, hlast⟩ := (hends bb).mpr ⟨hreached, hnone⟩
    obtain ⟨bb', hlast', hsucc⟩ := hcomplete r.2 (List.mem_map_of_mem hr)
    obtain rfl : bb' = bb := Option.some.inj (hlast'.symm.trans hlast)
    exact hsucc
  · intro h paths
    refine ⟨_, fun n => hfound n paths, fun path hpath => ?_⟩
    obtain ⟨r, hr, rfl⟩ := List.mem_map.mp hpath
    have hwalk := ((mem_enumerate hclosed f.front_mem (hfuel 0)).mp hr).1
    have hlast := List.getLast?_eq_some_getLast hwalk.ne_nil
    obtain ⟨hreached, hnone⟩ := (hends _).mp ⟨r, hr, hlast⟩
    exact ⟨_, hlast, h _ hreached hnone⟩

end Graph

/-- A `switch` to two returns. -/
def switchInFront : Graph where
  blocks := fun bb => if bb = 0 then [.terminator [1, 2]] else [.terminator []]
  body := {0, 1, 2}
  front := 0
  front_mem := by decide
  terminated := by
    rintro bb -
    by_cases hbb : bb = 0
    · exact ⟨[], .terminator [1, 2], if_pos hbb, rfl, by simp⟩
    · exact ⟨[], .terminator [], if_neg hbb, rfl, by simp⟩
  closed := by
    rintro bb - last hlast
    by_cases hbb : bb = 0
    · simp only [hbb, ↓reduceIte, List.getLast?_singleton, Option.some.injEq] at hlast
      subst hlast
      decide
    · simp only [hbb, ↓reduceIte, List.getLast?_singleton, Option.some.injEq] at hlast
      subst hlast
      decide

/-- **A path stops in the middle of the function**: at its `switch`. -/
theorem not_complete : ¬∀ f : Graph, f.Complete := by
  intro h
  obtain ⟨found, hpaths, hcomplete⟩ := h switchInFront []
  have hfound : [[0]] = found := Option.some.inj (hpaths 0)
  obtain ⟨bb, hlast, hsucc⟩ := hcomplete [0] (hfound ▸ List.mem_singleton_self _)
  obtain rfl : 0 = bb := Option.some.inj hlast
  cases hsucc

end DepLeak

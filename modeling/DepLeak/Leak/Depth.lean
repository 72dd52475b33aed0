import DepLeak.Leak.Ends

/-!
# How deep the search for paths goes

`DiscoverPaths` calls itself along the branches of a graph that may have loops, and keeps no
set of the blocks that were visited: what ends it is that a block is put on the path three
times at most. The calls it makes (`DepLeak.Calls`) are as deep as the fuel that
`DepLeak.discoverPaths` needs (`DepLeak.discoverPaths_isSome_iff`), and there is one more of
them than there are visits left (`DepLeak.Graph.bounded`).
-/

namespace DepLeak

open Walks

/-! ### Calls in calls -/

/-- **The calls of `DiscoverPaths`** that one of them makes, each with its depth, the path it
is given and the block. -/
inductive Calls (blocks : Blocks) (path : List BasicBlock) (bb : BasicBlock) :
    ℕ → List BasicBlock → BasicBlock → Prop
  /-- The call itself. -/
  | outermost : Calls blocks path bb 1 path bb
  /-- A call for a successor of the block that was put on the path. -/
  | nested {n : ℕ} {path' : List BasicBlock} {bb' target : BasicBlock}
      {successors : List BasicBlock} :
    Calls blocks path bb n path' bb' → ¬path'.count bb' > 2 →
    branchOf blocks bb' = some successors → target ∈ successors →
    Calls blocks path bb (n + 1) (path' ++ [bb']) target

section Calls

variable {blocks : Blocks} {path path' bs : List BasicBlock} {bb bb' t : BasicBlock} {n : ℕ}

/-- A call makes the calls of those it makes. -/
theorem Calls.within (hcount : ¬path.count bb > 2) (hsucc : branchOf blocks bb = some bs)
    (ht : t ∈ bs) (h : Calls blocks (path ++ [bb]) t n path' bb') :
    Calls blocks path bb (n + 1) path' bb' := by
  induction h with
  | outermost => exact .nested .outermost hcount hsucc ht
  | nested _ hcount' hsucc' ht' ih => exact .nested ih hcount' hsucc' ht'

/-- And no others. -/
theorem Calls.cases_within (h : Calls blocks path bb n path' bb') :
    (n = 1 ∧ path' = path ∧ bb' = bb) ∨ ∃ m bs t, n = m + 1 ∧ ¬path.count bb > 2 ∧
      branchOf blocks bb = some bs ∧ t ∈ bs ∧ Calls blocks (path ++ [bb]) t m path' bb' := by
  induction h with
  | outermost => exact .inl ⟨rfl, rfl, rfl⟩
  | nested _ hcount hsucc ht ih =>
    right
    rcases ih with ⟨rfl, rfl, rfl⟩ | ⟨m, bs, t, rfl, hcount', hsucc', ht', h⟩
    · exact ⟨1, _, _, rfl, hcount, hsucc, ht, .outermost⟩
    · exact ⟨m + 1, bs, t, rfl, hcount', hsucc', ht', .nested h hcount hsucc ht⟩

theorem foldlM_isSome_iff {α γ : Type} {g : γ → α → Option γ} {P : α → Prop} {l : List α}
    (hg : ∀ a ∈ l, ∀ acc, (g acc a).isSome ↔ P a) (acc : γ) :
    (l.foldlM g acc).isSome ↔ ∀ a ∈ l, P a := by
  induction l generalizing acc with
  | nil => simp
  | cons a l ih =>
    rw [List.foldlM_cons, List.forall_mem_cons]
    have hrest := fun acc => ih (fun b hb => hg b (List.mem_cons_of_mem a hb)) acc
    have ha := hg a List.mem_cons_self acc
    cases hacc : g acc a with
    | none =>
      rw [hacc] at ha
      simpa using fun hP => absurd (ha.mpr hP) Bool.false_ne_true
    | some acc' =>
      rw [hacc] at ha
      simpa [hrest] using fun _ => ha.mp rfl

/-- **The fuel is the depth**: the search ends within it exactly if no call is deeper. -/
theorem discoverPaths_isSome_iff {fuel : ℕ} (paths : List (List BasicBlock)) :
    (discoverPaths blocks fuel paths path bb).isSome ↔
      ∀ n path' bb', Calls blocks path bb n path' bb' → n ≤ fuel := by
  induction fuel generalizing paths path bb with
  | zero =>
    refine iff_of_false Bool.false_ne_true fun h => ?_
    exact absurd (h 1 path bb .outermost) (by omega)
  | succ fuel ih =>
    rw [discoverPaths]
    by_cases hcount : path.count bb > 2
    · rw [if_pos hcount]
      refine iff_of_true rfl fun n path' bb' h => ?_
      rcases h.cases_within with ⟨rfl, -, -⟩ | ⟨m, bs, t, -, hle, -⟩
      · omega
      · exact absurd hcount hle
    rw [if_neg hcount, ← branchOf]
    cases hsucc : branchOf blocks bb with
    | none =>
      refine iff_of_true rfl fun n path' bb' h => ?_
      rcases h.cases_within with ⟨rfl, -, -⟩ | ⟨m, bs, t, -, -, hbs, -⟩
      · omega
      · rw [hsucc] at hbs
        cases hbs
    | some bs =>
      have hloop : (bs.foldlM (fun paths t => discoverPaths blocks fuel paths (path ++ [bb]) t)
          paths).isSome ↔ ∀ t ∈ bs, ∀ n path' bb',
            Calls blocks (path ++ [bb]) t n path' bb' → n ≤ fuel := by
        refine foldlM_isSome_iff (fun t _ acc => ?_) paths
        exact ih acc
      refine hloop.trans ⟨?_, ?_⟩
      · intro h n path' bb' hcall
        rcases hcall.cases_within with ⟨rfl, -, -⟩ | ⟨m, bs', t, rfl, -, hbs, ht, hcall⟩
        · omega
        · obtain rfl : bs = bs' := Option.some.inj (hsucc.symm.trans hbs)
          have := h t ht m path' bb' hcall
          omega
      · intro h t ht n path' bb' hcall
        have := h (n + 1) path' bb' (hcall.within hcount hsucc ht)
        omega

end Calls

/-! ### The bound -/

namespace Graph

variable {f : Graph} {path path' : List BasicBlock} {bb bb' : BasicBlock} {n : ℕ}

/-- **Path discovery is bounded** from this path and this block. -/
structure Bounded (f : Graph) (path : List BasicBlock) (bb : BasicBlock) : Prop where
  /-- It ends, and the paths that it records have every block three times at most. -/
  recorded : ∀ paths, ∃ found,
    (∀ extra, discoverPaths f.blocks (3 * f.body.card + 1 - path.length + extra) paths path bb =
      some (paths ++ found)) ∧ ∀ w ∈ found, ∀ b, w.count b ≤ 3
  /-- No call is deeper than there are visits left, and one. -/
  depth : ∀ n path' bb', Calls f.blocks path bb n path' bb' →
    n + path.length ≤ 3 * f.body.card + 1
  /-- No path that is held is longer than three visits to every block. -/
  held : ∀ n path' bb', Calls f.blocks path bb n path' bb' → path'.length ≤ 3 * f.body.card
  /-- Nor is it when the block was put on it. -/
  pushed : ∀ n path' bb', Calls f.blocks path bb n path' bb' → ¬path'.count bb' > 2 →
    (path' ++ [bb']).length ≤ 3 * f.body.card

/-- A path that may be held. -/
structure Held (f : Graph) (path : List BasicBlock) : Prop where
  mem : ∀ b ∈ path, b ∈ f.body
  count : ∀ b, path.count b ≤ 3

theorem Held.length_le (h : f.Held path) : path.length ≤ 3 * f.body.card := by
  have := length_add_room h.mem h.count
  omega

/-- A block that is let through can be put on it. -/
theorem Held.push (h : f.Held path) (hbb : bb ∈ f.body) (hcount : ¬path.count bb > 2) :
    f.Held (path ++ [bb]) where
  mem := by
    intro b hb
    rcases List.mem_append.mp hb with hb | hb
    · exact h.mem b hb
    · exact List.mem_singleton.mp hb ▸ hbb
  count := by
    intro b
    rw [List.count_append]
    rcases eq_or_ne b bb with rfl | hne
    · rw [List.count_singleton_self]
      omega
    · rw [List.count_eq_zero_of_not_mem (l := [bb]) (by simpa using hne)]
      exact h.count b

/-- **Every call is given such a path**, which is one block longer than that of the call
before. -/
theorem Held.calls (h : f.Held path) (hbb : bb ∈ f.body)
    (hcall : Calls f.blocks path bb n path' bb') :
    f.Held path' ∧ bb' ∈ f.body ∧ path'.length + 1 = n + path.length := by
  induction hcall with
  | outermost => exact ⟨h, hbb, by omega⟩
  | nested _ hcount hsucc ht ih =>
    obtain ⟨hheld, hmem, hlength⟩ := ih
    refine ⟨hheld.push hmem hcount, branchOf_closed hmem hsucc _ ht, ?_⟩
    rw [List.length_append, List.length_singleton]
    omega

/-- **Path discovery is bounded** from every path with every block three times at most. -/
theorem bounded (f : Graph) {path : List BasicBlock} {bb : BasicBlock} (hbb : bb ∈ f.body)
    (hpath : ∀ b ∈ path, b ∈ f.body) (hcount : ∀ b, path.count b ≤ 3) : f.Bounded path bb := by
  have hheld : f.Held path := ⟨hpath, hcount⟩
  have hclosed : ∀ bb ∈ f.body, ∀ bs, branchOf f.blocks bb = some bs → ∀ t ∈ bs, t ∈ f.body :=
    fun bb hbb bs hbs => branchOf_closed hbb hbs
  have hroom := length_add_room hpath hcount
  have hfuel : ∀ extra, room f.body 3 path < 3 * f.body.card + 1 - path.length + extra := by
    intro extra
    omega
  refine ⟨fun paths => ?_, fun n path' bb' hcall => ?_, fun n path' bb' hcall => ?_,
    fun n path' bb' hcall hpush => ?_⟩
  · refine ⟨(enumerate (branchOf f.blocks) 3 (3 * f.body.card + 1 - path.length) path bb).map
      fun r => path ++ r.2, fun extra => ?_, fun w hw b => ?_⟩
    · rw [discoverPaths_enumerate hclosed hbb (hfuel extra),
        enumerate_fuel hclosed hbb (hfuel extra) (hfuel 0)]
      rfl
    · obtain ⟨r, hr, rfl⟩ := List.mem_map.mp hw
      have hfits := ((mem_enumerate hclosed hbb (hfuel 0)).mp hr).2
      by_cases hb : b ∈ r.2
      · exact hfits b hb
      · rw [List.count_append, List.count_eq_zero_of_not_mem hb]
        exact hcount b
  · obtain ⟨hheld', -, hlength⟩ := hheld.calls hbb hcall
    have := hheld'.length_le
    omega
  · exact (hheld.calls hbb hcall).1.length_le
  · obtain ⟨hheld', hmem, -⟩ := hheld.calls hbb hcall
    exact (hheld'.push hmem hpush).length_le

/-- A `while` that goes round one block. -/
def whileLoop : Graph where
  blocks := fun bb => if bb = 0 then [.br [0, 1]] else [.terminator []]
  body := {0, 1}
  front := 0
  front_mem := by decide
  terminated := by
    rintro bb -
    by_cases hbb : bb = 0
    · exact ⟨[], .br [0, 1], if_pos hbb, rfl, by simp⟩
    · exact ⟨[], .terminator [], if_neg hbb, rfl, by simp⟩
  closed := by
    rintro bb - last hlast
    by_cases hbb : bb = 0
    · simp only [hbb, ↓reduceIte, List.getLast?_singleton, Option.some.injEq] at hlast
      subst hlast
      simp [Instruction.successors]
    · simp only [hbb, ↓reduceIte, List.getLast?_singleton, Option.some.injEq] at hlast
      subst hlast
      simp [Instruction.successors]

theorem bounded_whileLoop : whileLoop.Bounded [0, 0] 0 :=
  whileLoop.bounded (by decide) (by decide) fun b => by
    by_cases hb : b ∈ [0, 0]
    · revert b
      decide
    · rw [List.count_eq_zero_of_not_mem hb]
      exact Nat.zero_le _

end Graph

end DepLeak

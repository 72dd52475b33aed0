import DepLeak.LinkedHeap.Loops
import Mathlib.Logic.Equiv.Basic

/-!
# Many lists in one heap

A program keeps many lists at once, each behind a pointer of its own.
`LinkedHeap.Family` says that they are what they should be: list `k` is at
`ptr k` and carries the payloads `vs k`, no two of them share a node, and –
unless something has been lost – every allocated node belongs to one of them.
That is ownership: each node is reachable from exactly one place.

The rules are the ways a program moves lists about. A list built on the side
(`LinkedHeap.Grows`) is put at an empty place (`LinkedHeap.Family.add`); a list is
handed over to another place (`LinkedHeap.Family.move`); lists are freed and their
places left empty (`LinkedHeap.Family.dropAll`). Where a program forgets a list
without freeing it, the family goes on with `lost` set
(`LinkedHeap.Family.forget`).
-/

namespace LinkedHeap

open Runs

variable {α ι : Type} [DecidableEq ι]

/-- The list at the pointer goes through the node. -/
def Reaches (h : Heap α) (p : Ptr) (i : ℕ) : Prop := ∃ l, Seg h p l none ∧ i ∈ ids l

theorem Seg.reaches_iff {h : Heap α} {p : Ptr} {l : List (ℕ × α)} (hs : Seg h p l none) {i : ℕ} :
    Reaches h p i ↔ i ∈ ids l := by
  refine ⟨?_, fun hi => ⟨l, hs, hi⟩⟩
  rintro ⟨m, hm, hi⟩
  rwa [(hs.unique hm Heap.dead_none Heap.dead_none).1]

theorem not_reaches_none (h : Heap α) (i : ℕ) : ¬Reaches h none i := by
  rintro ⟨l, hl, hi⟩
  rw [hl.eq_nil_of_none] at hi
  cases hi

/-- A family of lists that share no node, and – unless `lost` – own every node. -/
def Family (h : Heap α) (ptr : ι → Ptr) (vs : ι → List α) (lost : Bool) : Prop :=
  ∃ own : ι → List (ℕ × α),
    (∀ k, Seg h (ptr k) (own k) none) ∧ (∀ k, vals (own k) = vs k) ∧
    (∀ k k', k ≠ k' → ∀ i ∈ ids (own k), i ∉ ids (own k')) ∧
    (lost = false → ∀ i, h.cell i ≠ none → ∃ k, i ∈ ids (own k))

namespace Family

variable {h h' : Heap α} {ptr : ι → Ptr} {vs : ι → List α} {lost : Bool} {p : Ptr}
  {l : List (ℕ × α)}

omit [DecidableEq ι] in
theorem toList (hf : Family h ptr vs lost) (k : ι) : h.toList (ptr k) = .ok (vs k) := by
  obtain ⟨own, hseg, hvals, -, -⟩ := hf
  rw [Heap.toList_list (hseg k), hvals]

omit [DecidableEq ι] in
theorem ptr_eq_none_iff (hf : Family h ptr vs lost) (k : ι) : ptr k = none ↔ vs k = [] := by
  obtain ⟨own, hseg, hvals, -, -⟩ := hf
  rw [(hseg k).eq_none_iff, ← hvals k, vals, List.map_eq_nil_iff]

omit [DecidableEq ι] in
/-- Copying one of the lists. -/
theorem copy (hf : Family h ptr vs lost) (k : ι) :
    ∃ h' p' l', h.copyList (ptr k) = .ok (h', p') ∧ Grows h h' p' l' ∧ vals l' = vs k := by
  obtain ⟨own, hseg, hvals, -, -⟩ := hf
  rw [← hvals k]
  exact Heap.copyList_seg (hseg k)

omit [DecidableEq ι] in
/-- **Ownership**: unless something has been lost, every node is reached from exactly one
place. -/
theorem existsUnique_reaches (hf : Family h ptr vs false) {i : ℕ} (hi : h.cell i ≠ none) :
    ∃! k, Reaches h (ptr k) i := by
  obtain ⟨own, hseg, -, hdis, hcov⟩ := hf
  obtain ⟨k, hk⟩ := hcov rfl i hi
  refine ⟨k, (hseg k).reaches_iff.mpr hk, fun k' hk' => ?_⟩
  by_contra hne
  exact hdis k k' (Ne.symm hne) i hk ((hseg k').reaches_iff.mp hk')

omit [DecidableEq ι] in
/-- Where all places are empty and nothing has been lost, there is no node. -/
theorem cell_eq_none (hf : Family h ptr vs false) (hptr : ∀ k, ptr k = none) (i : ℕ) :
    h.cell i = none := by
  by_contra hi
  obtain ⟨k, hk, -⟩ := hf.existsUnique_reaches hi
  rw [hptr k] at hk
  exact not_reaches_none h i hk

/-- **Filling an empty place** with a list built on the side. -/
theorem add (hf : Family h ptr vs lost) (hg : Grows h h' p l) {k : ι} (hk : vs k = []) :
    Family h' (Function.update ptr k p) (Function.update vs k (vals l)) lost := by
  obtain ⟨own, hseg, hvals, hdis, hcov⟩ := hf
  have hnew : ∀ k', ∀ i ∈ ids (own k'), i ∉ ids l := fun k' i hi hmem => by
    have h₁ := (hseg k').lt_top hi
    have h₂ := hg.sprouts.above i hmem
    omega
  have hown : own k = [] := List.map_eq_nil_iff.mp ((hvals k).trans hk)
  refine ⟨Function.update own k l, ?_, ?_, ?_, ?_⟩
  · intro k'
    rcases eq_or_ne k' k with rfl | hne
    · simpa only [Function.update_self] using hg.seg
    · simpa only [Function.update_of_ne hne] using hg.sprouts.old_seg (hseg k')
  · intro k'
    rcases eq_or_ne k' k with rfl | hne
    · simp only [Function.update_self]
    · simp only [Function.update_of_ne hne, hvals]
  · intro k₁ k₂ hne i hi
    rcases eq_or_ne k₁ k with h₁ | h₁ <;> rcases eq_or_ne k₂ k with h₂ | h₂
    · exact absurd (h₁.trans h₂.symm) hne
    · rw [h₁, Function.update_self] at hi
      rw [Function.update_of_ne h₂]
      exact fun hmem => hnew k₂ i hmem hi
    · rw [Function.update_of_ne h₁] at hi
      rw [h₂, Function.update_self]
      exact hnew k₁ i hi
    · rw [Function.update_of_ne h₁] at hi
      rw [Function.update_of_ne h₂]
      exact hdis k₁ k₂ hne i hi
  · intro hl i hi
    rcases hg.sprouts.live hi with hold | hmem
    · obtain ⟨k', hk'⟩ := hcov hl i hold
      have hne : k' ≠ k := fun he => by
        rw [he, hown] at hk'
        cases hk'
      exact ⟨k', by simpa only [Function.update_of_ne hne] using hk'⟩
    · exact ⟨k, by simpa only [Function.update_self] using hmem⟩

/-- **Freeing the lists at some places**, and leaving these places empty. -/
theorem dropAll (hf : Family h ptr vs lost) {ks : List ι} (hks : ks.Nodup) :
    ∃ h' S, run Heap.freeList h (ks.map ptr) = .ok h' ∧ Shrinks h h' S ∧
      (∀ i, i ∈ S ↔ ∃ k ∈ ks, ∃ l, Seg h (ptr k) l none ∧ i ∈ ids l) ∧
      Family h' (fun k => if k ∈ ks then none else ptr k) (fun k => if k ∈ ks then [] else vs k)
        lost := by
  obtain ⟨own, hseg, hvals, hdis, hcov⟩ := hf
  obtain ⟨h', hfree, hsh⟩ := Heap.freeLists_seg (ks.map fun k => (ptr k, own k))
    (by simpa using fun k _ => hseg k)
    (List.pairwise_map.mpr (hks.imp fun hne i hi => hdis _ _ hne.symm i hi))
  rw [List.map_map] at hfree
  rw [List.flatMap_map] at hsh
  have hS : ∀ i, i ∈ (ks.flatMap fun k => ids (own k)) ↔
      ∃ k ∈ ks, ∃ l, Seg h (ptr k) l none ∧ i ∈ ids l := by
    intro i
    rw [List.mem_flatMap]
    refine exists_congr fun k => and_congr_right fun _ => ⟨fun hi => ⟨_, hseg k, hi⟩, ?_⟩
    rintro ⟨l, hl, hi⟩
    rwa [((hseg k).unique hl Heap.dead_none Heap.dead_none).1]
  have hmem : ∀ {k i}, i ∈ (if k ∈ ks then [] else own k).map Prod.fst →
      k ∉ ks ∧ i ∈ ids (own k) := by
    intro k i hi
    split at hi
    · cases hi
    · exact ⟨‹_›, hi⟩
  refine ⟨h', _, hfree, hsh, hS, fun k => if k ∈ ks then [] else own k, ?_, ?_, ?_, ?_⟩
  · intro k
    by_cases hk : k ∈ ks
    · simp [hk]
    · simp only [if_neg hk]
      refine hsh.seg (hseg k) fun i hi hiS => ?_
      obtain ⟨k', hk', hi'⟩ := List.mem_flatMap.mp hiS
      exact hdis k k' (fun he => hk (he ▸ hk')) i hi hi'
  · intro k
    by_cases hk : k ∈ ks
    · simp [hk]
    · simp only [if_neg hk, hvals]
  · intro k₁ k₂ hne i hi hi'
    exact hdis k₁ k₂ hne i (hmem hi).2 (hmem hi').2
  · intro hl i hi
    obtain ⟨hi', hnot⟩ := hsh.live hi
    obtain ⟨k, hk⟩ := hcov hl i hi'
    have hks : k ∉ ks := fun hmem => hnot (List.mem_flatMap.mpr ⟨k, hmem, hk⟩)
    exact ⟨k, by simpa only [if_neg hks] using hk⟩

/-- **Freeing a list**, and leaving its place empty. -/
theorem drop (hf : Family h ptr vs lost) (k : ι) :
    ∃ h', h.freeList (ptr k) = .ok h' ∧
      Family h' (Function.update ptr k none) (Function.update vs k []) lost := by
  obtain ⟨h', -, hrun, -, -, hf'⟩ := hf.dropAll (List.nodup_singleton k)
  have hupd : ∀ {γ : Type} (f : ι → γ) (null : γ),
      (fun k' => if k' ∈ [k] then null else f k') = Function.update f k null := by
    intro γ f null
    funext k'
    simp [Function.update_apply]
  obtain ⟨h₁, hfree, hrun⟩ := run_cons_eq_ok.mp hrun
  obtain rfl : h₁ = h' := Except.ok.inj hrun
  exact ⟨h₁, hfree, by rwa [hupd, hupd] at hf'⟩

/-- **Handing a list over** to an empty place. -/
theorem move (hf : Family h ptr vs lost) (k k' : ι) (hk' : vs k' = []) :
    Family h (Function.update (Function.update ptr k none) k' (ptr k))
      (Function.update (Function.update vs k []) k' (vs k)) lost := by
  have hptr' : ptr k' = none := (hf.ptr_eq_none_iff k').mpr hk'
  obtain ⟨own, hseg, hvals, hdis, hcov⟩ := hf
  have hown : own k' = [] := List.map_eq_nil_iff.mp ((hvals k').trans hk')
  -- exchanging the two places, one of which is empty, is the same move
  have hswap : ∀ {γ : Type} (f : ι → γ),
      (fun j => f (Equiv.swap k k' j)) = Function.update (Function.update f k (f k')) k' (f k) := by
    intro γ f
    funext j
    rcases eq_or_ne j k' with rfl | hj'
    · simp
    · rcases eq_or_ne j k with rfl | hj
      · simp [hj']
      · simp [Equiv.swap_apply_of_ne_of_ne hj hj', hj, hj']
  rw [← hptr', ← hk', ← hswap ptr, ← hswap vs]
  refine ⟨fun j => own (Equiv.swap k k' j), fun j => hseg _, fun j => hvals _,
    fun j j' hne => hdis _ _ fun he => hne ((Equiv.swap k k').injective he), fun hl i hi => ?_⟩
  obtain ⟨j, hj⟩ := hcov hl i hi
  exact ⟨Equiv.swap k k' j, by simpa using hj⟩

omit [DecidableEq ι] in
/-- **Forgetting lists** without freeing them. -/
theorem forget (hf : Family h ptr vs lost) (ptr' : ι → Ptr) (vs' : ι → List α)
    (hsame : ∀ k, (ptr' k = ptr k ∧ vs' k = vs k) ∨ (ptr' k = none ∧ vs' k = [])) :
    Family h ptr' vs' true := by
  classical
  obtain ⟨own, hseg, hvals, hdis, -⟩ := hf
  refine ⟨fun k => if ptr' k = ptr k ∧ vs' k = vs k then own k else [], ?_, ?_, ?_, by simp⟩
  · intro k
    by_cases hk : ptr' k = ptr k ∧ vs' k = vs k
    · simp only [if_pos hk]
      exact hk.1 ▸ hseg k
    · simp only [if_neg hk]
      exact ((hsame k).resolve_left hk).1
  · intro k
    by_cases hk : ptr' k = ptr k ∧ vs' k = vs k
    · simp only [if_pos hk]
      exact (hvals k).trans hk.2.symm
    · simp only [if_neg hk]
      exact ((hsame k).resolve_left hk).2.symm
  · intro k k' hne i hi
    by_cases hk : ptr' k = ptr k ∧ vs' k = vs k
    · by_cases hk' : ptr' k' = ptr k' ∧ vs' k' = vs k'
      · simp only [if_pos hk, if_pos hk'] at hi ⊢
        exact hdis k k' hne i hi
      · simp only [if_neg hk']
        exact List.not_mem_nil
    · simp only [if_neg hk] at hi
      cases hi

omit [DecidableEq ι] in
/-- A heap without nodes holds the family of empty lists. -/
theorem empty : Family (Heap.empty : Heap α) (fun _ : ι => none) (fun _ => []) false :=
  ⟨fun _ => [], fun _ => rfl, fun _ => rfl, fun _ _ _ _ hi => absurd hi List.not_mem_nil,
    fun _ _ hi => absurd rfl hi⟩

end Family

end LinkedHeap

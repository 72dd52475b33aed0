import DepLeak.Dep.Lists
import DepLeak.Dep.Forms

/-!
# Merging as a union

`int_node_merge` searches its first list while it appends to it, and frees the second as it
goes along it. What it comes to is a union that keeps the order (`DepLeak.Merged`): the
numbers of the first list stay in front, the new ones of the second follow, and the nodes of
the second are freed one by one. As sets the numbers are united, and the laws of merging are
those of the union (`DepLeak.mergeUnites`).

The helpers for operations on two, three and four temporaries merge copies of the lists of
their operands from the first to the last. The lists they record are in the order of the
operands, the sets are not (`DepLeak.DepState.depsOf_perm`), and a list is only tested for
being empty: after the call the sets of all cells are the same for every order
(`DepLeak.OrderFree`).
-/

namespace DepLeak

open LinkedHeap Runs Flow

/-! ### The property -/

/-- The loop of `int_node_merge` with a record of the nodes that it passes to `VG_(free)`. -/
def intNodeMergeLogged : ℕ → IntHeap → Ptr → Ptr → Exec ((IntHeap × Ptr) × List ℕ)
  | _, h, head, none => .ok ((h, head), [])
  | 0, _, _, some _ => .error .fuel
  | n + 1, h, head, some l => do
    let nd ← h.read l
    let (h, head) ← intNodeAdd h head nd.val
    let tmp := l
    let nd ← h.read l
    let h ← h.free tmp
    let (result, freed) ← intNodeMergeLogged n h head nd.next
    .ok (result, tmp :: freed)

/-- **The list `m` at `q` is merged into the list `l` at `p`**, which gives `l'` at `p'`. -/
structure Merged (h : IntHeap) (p q : Ptr) (l m : List (ℕ × ℤ)) (h' : IntHeap) (p' : Ptr)
    (l' : List (ℕ × ℤ)) : Prop where
  /-- The function ends. -/
  returns : intNodeMerge h p q = .ok (h', p')
  /-- It returns a list. -/
  result : Seg h' p' l' none
  /-- To the numbers of the first list are added the first occurrences, in order, of those of
  the second that are not in it. -/
  numbers : vals l' = vals l ++ ((vals m).filter fun v => v ∉ vals l).eraseDups
  /-- There are no repetitions if there were none in the first list. -/
  nodup : (vals l).Nodup → (vals l').Nodup
  /-- The nodes of the second list are freed one after the other, and no others. -/
  freed : intNodeMergeLogged (h.top + 1) h p q = .ok ((h', p'), ids m)
  /-- None of them is freed twice. -/
  once : (ids m).Nodup
  /-- None of them is left, in the result or elsewhere. -/
  gone : ∀ i ∈ ids m, i ∉ ids l' ∧ h'.cell i = none
  /-- Nodes outside the two lists are as they were. -/
  kept : ∀ i < h.top, i ∉ ids l → i ∉ ids m → h'.cell i = h.cell i

/-- The function ends and returns a list of the numbers in `A`. -/
def Returns (x : Exec (IntHeap × Ptr)) (A : Set ℤ) : Prop :=
  ∃ h p vs, x = .ok (h, p) ∧ h.toList p = .ok vs ∧ {v | v ∈ vs} = A

/-- After the two calls the tracked sets are the same in every cell, or both stop at the same
fault. -/
def SameSets (s : State) (c c' : HelperCall) : Prop :=
  Lockstep (fun s₁ s₂ => tracked s₁ = tracked s₂) (callHelper s c) (callHelper s c')

/-- **The order of the operands makes no difference** to what is tracked. -/
structure OrderFree (s : State) : Prop where
  binop : ∀ t t₁ t₂ u₁ u₂, [t₁, t₂].Perm [u₁, u₂] →
    SameSets s (.assgnTmpBinop t t₁ t₂) (.assgnTmpBinop t u₁ u₂)
  triop : ∀ t t₁ t₂ t₃ u₁ u₂ u₃, [t₁, t₂, t₃].Perm [u₁, u₂, u₃] →
    SameSets s (.assgnTmpTriop t t₁ t₂ t₃) (.assgnTmpTriop t u₁ u₂ u₃)
  qop : ∀ t t₁ t₂ t₃ t₄ u₁ u₂ u₃ u₄, [t₁, t₂, t₃, t₄].Perm [u₁, u₂, u₃, u₄] →
    SameSets s (.assgnTmpQop t t₁ t₂ t₃ t₄) (.assgnTmpQop t u₁ u₂ u₃ u₄)

/-- **Merging is a union**: of lists that share no node, and of the sets of their numbers. -/
structure MergeUnites : Prop where
  /-- The union keeps the order, and uses up the second list. -/
  merged : ∀ {h p q l m}, Seg h p l none → Seg h q m none → (ids l).Disjoint (ids m) →
    ∃ h' p' l', Merged h p q l m h' p' l'
  /-- As sets of numbers, merging is associative, -/
  assoc : ∀ {h p q r l m k}, Seg h p l none → Seg h q m none → Seg h r k none →
    (ids l).Disjoint (ids m) → (ids l).Disjoint (ids k) → (ids m).Disjoint (ids k) →
    ∃ A, Returns (do let (h, x) ← intNodeMerge h p q; intNodeMerge h x r) A ∧
      Returns (do let (h, y) ← intNodeMerge h q r; intNodeMerge h p y) A
  /-- commutative, -/
  comm : ∀ {h p q l m}, Seg h p l none → Seg h q m none → (ids l).Disjoint (ids m) →
    ∃ A, Returns (intNodeMerge h p q) A ∧ Returns (intNodeMerge h q p) A
  /-- and idempotent. -/
  idem : ∀ {h p q l m}, Seg h p l none → Seg h q m none → (ids l).Disjoint (ids m) →
    {v | v ∈ vals l} = {v | v ∈ vals m} → Returns (intNodeMerge h p q) {v | v ∈ vals l}
  /-- The order of the operands of an operation makes no difference. -/
  operands : ∀ s, Reachable s → OrderFree s

/-! ### The nodes -/

variable {h : IntHeap} {p q r : Ptr} {l m k : List (ℕ × ℤ)}

/-- **The record is one of the merge itself.** -/
theorem intNodeMergeLogged_result (n : ℕ) (h : IntHeap) (p q : Ptr) :
    (intNodeMergeLogged n h p q >>= fun x => .ok x.1) = intNodeMergeLoop n h p q := by
  induction n generalizing h p q with
  | zero =>
    cases q with
    | none => rfl
    | some i => rfl
  | succ n ih =>
    cases q with
    | none => rfl
    | some i =>
      simp only [intNodeMergeLogged, intNodeMergeLoop, bind_assoc, ok_bind, ← ih]

/-- Along the second list the loop frees one node after the other. -/
theorem intNodeMergeLogged_seg (hs : Seg h p l none) (hm : Seg h q m none)
    (hdis : ∀ i ∈ ids m, i ∉ ids l) (n : ℕ) :
    ∃ result, intNodeMergeLogged (m.length + n) h p q = .ok (result, ids m) := by
  induction m generalizing h p q l with
  | nil =>
    obtain rfl : q = none := hm
    exact ⟨(h, p), by cases n <;> rfl⟩
  | cons x m ih =>
    obtain ⟨i, v⟩ := x
    have hlen : ((i, v) :: m).length + n = m.length + n + 1 := by simp; omega
    obtain ⟨h₁, h₂, p₁, l₁, q', rfl, hread, hadd, hread₁, hfree, hs₂, hm₂, hdis₂, -⟩ :=
      intNodeMerge_round hs hm hdis
    obtain ⟨result, hlog⟩ := ih hs₂ hm₂ hdis₂
    refine ⟨result, ?_⟩
    rw [hlen, intNodeMergeLogged, hread, ok_bind, hadd, ok_bind]
    simp only [hread₁, ok_bind, hfree, hlog]
    rfl

/-- Merging appends the first occurrences of the new numbers. -/
theorem mergeVals_eq_eraseDups (vs ws : List ℤ) :
    mergeVals vs ws = vs ++ (ws.filter fun w => w ∉ vs).eraseDups := by
  rw [← mergeVals_nil_left, ← mergeVals_eq_append, List.append_nil]

/-- **Merging keeps the order and uses up the second list.** -/
theorem exists_merged (hs : Seg h p l none) (hm : Seg h q m none)
    (hdis : (ids l).Disjoint (ids m)) : ∃ h' p' l', Merged h p q l m h' p' l' := by
  have hdis' : ∀ i ∈ ids m, i ∉ ids l := fun i hm hl => hdis hl hm
  obtain ⟨h', p', l', hmerge, hs', hvals, hown, hreb⟩ := intNodeMerge_seg hs hm hdis'
  have hlen := hm.length_le_top Heap.dead_none
  obtain ⟨n, hn⟩ : ∃ n, h.top + 1 = m.length + n := ⟨h.top + 1 - m.length, by omega⟩
  obtain ⟨result, hlog⟩ := intNodeMergeLogged_seg hs hm hdis' n
  rw [← hn] at hlog
  -- what is recorded is the merge that has been done
  have hresult := intNodeMergeLogged_result (h.top + 1) h p q
  rw [hlog, ok_bind, ← intNodeMerge_eq, hmerge] at hresult
  obtain rfl := Except.ok.inj hresult
  have hout : ∀ i ∈ ids m, i ∉ ids l' := fun i hi hmem =>
    (hown i hmem).elim (hdis' i hi) (Nat.not_le.mpr (hm.lt_top hi))
  refine ⟨h', p', l', hmerge, hs', ?_, fun hnd => ?_, hlog, hm.nodup Heap.dead_none,
    fun i hi => ⟨hout i hi, ?_⟩, fun i hi hl hm => ?_⟩
  · rw [hvals, mergeVals_eq_eraseDups]
  · rw [hvals]
    exact mergeVals_nodup hnd
  · exact hreb.gone (List.mem_append_right _ hi) (hout i hi)
  · exact hreb.keep i hi (by simp [hl, hm])

/-! ### The sets -/

/-- **Merging unites** the sets of the numbers. -/
theorem returns_intNodeMerge (hs : Seg h p l none) (hm : Seg h q m none)
    (hdis : (ids l).Disjoint (ids m)) :
    Returns (intNodeMerge h p q) ({v | v ∈ vals l} ∪ {v | v ∈ vals m}) := by
  obtain ⟨h', p', l', hmerge, hs', hvals, -⟩ :=
    intNodeMerge_seg hs hm fun i hm hl => hdis hl hm
  refine ⟨h', p', vals l', hmerge, Heap.toList_list hs', ?_⟩
  ext v
  simp [hvals]

/-- A merge beside a third list leaves that list as it is, and still on its own. -/
theorem intNodeMerge_beside (hs : Seg h p l none) (hm : Seg h q m none) (hk : Seg h r k none)
    (hlm : (ids l).Disjoint (ids m)) (hlk : (ids l).Disjoint (ids k))
    (hmk : (ids m).Disjoint (ids k)) :
    ∃ h' p' l', intNodeMerge h p q = .ok (h', p') ∧ Seg h' p' l' none ∧ Seg h' r k none ∧
      (ids l').Disjoint (ids k) ∧ {v | v ∈ vals l'} = {v | v ∈ vals l} ∪ {v | v ∈ vals m} := by
  obtain ⟨h', p', l', hmerge, hs', hvals, hown, hreb⟩ :=
    intNodeMerge_seg hs hm fun i hm hl => hlm hl hm
  refine ⟨h', p', l', hmerge, hs', ?_, fun i hmem hi => ?_, ?_⟩
  · refine hreb.old_seg hk fun i hi hmem => ?_
    exact (List.mem_append.mp hmem).elim (fun hl => hlk hl hi) fun hm => hmk hm hi
  -- the nodes of the result are those of the first list, or new
  · exact (hown i hmem).elim (fun hl => hlk hl hi) (Nat.not_le.mpr (hk.lt_top hi))
  · ext v
    simp [hvals]

/-! ### The operands -/

namespace DepState

variable {a : DepState} {ts us : List IRTemp} {vs ws : List ℤ}

/-- **The union of some temporaries** does not depend on the order in which they are merged. -/
theorem depsOf_perm (h : ts.Perm us) :
    Lockstep (fun vs ws => {v | v ∈ vs} = {v | v ∈ ws}) (a.depsOf ts) (a.depsOf us) := by
  cases hts : a.depsOf ts with
  | ok vs =>
    have hfound := exists_depsOf_iff.mp ⟨vs, hts⟩
    obtain ⟨ws, hus⟩ := exists_depsOf_iff.mpr fun t ht => hfound t (h.mem_iff.mpr ht)
    rw [hus]
    refine .ok ?_
    rw [depsOf_union hts, depsOf_union hus]
    ext v
    simp only [mem_union, (h.map Cell.tmp).mem_iff]
  | error f =>
    -- a lookup that fails does so wherever it stands
    cases hus : a.depsOf us with
    | ok ws =>
      have hfound := exists_depsOf_iff.mp ⟨ws, hus⟩
      obtain ⟨vs, hvs⟩ := exists_depsOf_iff.mpr fun t ht => hfound t (h.mem_iff.mp ht)
      rw [hts] at hvs
      cases hvs
    | error g =>
      rw [depsOf_error hts, depsOf_error hus]
      exact .error _

/-- Of a list it only matters which numbers are in it, also for whether there are any. -/
theorem ite_view {x y : Exec DepState} (h : {v | v ∈ vs} = {v | v ∈ ws})
    (hxy : Lockstep (fun a₁ a₂ => a₁.view = a₂.view) x y) :
    Lockstep (fun a₁ a₂ => a₁.view = a₂.view) (if vs = [] then .ok a else x)
      (if ws = [] then .ok a else y) := by
  have hnil : vs = [] ↔ ws = [] := by
    rw [List.eq_nil_iff_forall_not_mem, List.eq_nil_iff_forall_not_mem]
    exact forall_congr' fun v => not_congr (Set.ext_iff.mp h v)
  by_cases hvs : vs = []
  · rw [if_pos hvs, if_pos (hnil.mp hvs)]
    exact .ok rfl
  · rw [if_neg hvs, if_neg fun hws => hvs (hnil.mpr hws)]
    exact hxy

theorem recordFront_view (t : IRTemp) (h : {v | v ∈ vs} = {v | v ∈ ws}) :
    Lockstep (fun a₁ a₂ => a₁.view = a₂.view) (a.recordFront t vs) (a.recordFront t ws) := by
  refine ite_view h ?_
  cases a.eraseTmp t with
  | error f => exact .error f
  | ok a₁ => exact .ok (by rw [view_prependVar, view_prependVar, h])

theorem recordBack_view (t : IRTemp) (h : {v | v ∈ vs} = {v | v ∈ ws}) :
    Lockstep (fun a₁ a₂ => a₁.view = a₂.view) (a.recordBack t vs) (a.recordBack t ws) := by
  refine ite_view h ?_
  cases he : a.eraseTmp t with
  | error f => exact .error f
  | ok a₁ =>
    have hfresh := fresh_of_eraseTmp he
    simp only [ok_bind]
    cases hd : a₁.dangling with
    | true =>
      -- the list that is gone over to its end is the freed one
      simp only [appendVar, hd, if_true]
      exact .error _
    | false =>
      rw [appendVar_eq hd, appendVar_eq hd]
      refine .ok ?_
      rw [view_appendVar hfresh (appendVar_eq hd t vs),
        view_appendVar hfresh (appendVar_eq hd t ws), h]

end DepState

variable {s : State} {a : DepState} {c c' : HelperCall}

/-- What holds of the models holds of the helpers. -/
theorem Rep.sameSets (hr : Rep s a)
    (h : Lockstep (fun a₁ a₂ => a₁.view = a₂.view) (a.call c) (a.call c')) : SameSets s c c' := by
  have hc := callHelper_lockstep hr c
  have hc' := callHelper_lockstep hr c'
  refine (hc.trans (h.trans hc'.symm)).mono fun s₁ s₂ hs => ?_
  obtain ⟨a₁, hr₁, a₂, hview, hr₂⟩ := hs
  rw [tracked_eq_view hr₁, tracked_eq_view hr₂, hview]

/-- **No operation depends on the order of its operands.** -/
theorem Rep.orderFree (hr : Rep s a) : OrderFree s where
  binop t t₁ t₂ u₁ u₂ hperm :=
    hr.sameSets ((DepState.depsOf_perm hperm).bind fun _ _ h => DepState.recordFront_view t h)
  triop t t₁ t₂ t₃ u₁ u₂ u₃ hperm :=
    hr.sameSets ((DepState.depsOf_perm hperm).bind fun _ _ h => DepState.recordFront_view t h)
  qop t t₁ t₂ t₃ t₄ u₁ u₂ u₃ u₄ hperm := by
    refine hr.sameSets ((DepState.depsOf_perm hperm).bind fun vs ws h => ?_)
    -- what is forgotten is in no cell
    exact (DepState.recordBack_view t h).bind fun a₁ a₂ hview => .ok hview

/-! ### The union -/

/-- **Merging is an order-preserving union** that uses up its second list. -/
theorem mergeUnites : MergeUnites where
  merged := exists_merged
  assoc := by
    intro h p q r l m k hs hm hk hlm hlk hmk
    obtain ⟨h₁, p₁, l₁, hpq, hs₁, hk₁, hdis₁, hunion₁⟩ :=
      intNodeMerge_beside hs hm hk hlm hlk hmk
    obtain ⟨h₂, p₂, l₂, hqr, hs₂, hl₂, hdis₂, hunion₂⟩ :=
      intNodeMerge_beside hm hk hs hmk hlm.symm hlk.symm
    have hleft := returns_intNodeMerge hs₁ hk₁ hdis₁
    have hright := returns_intNodeMerge hl₂ hs₂ hdis₂.symm
    rw [hunion₁] at hleft
    rw [hunion₂, ← Set.union_assoc] at hright
    rw [hpq, hqr]
    exact ⟨_, hleft, hright⟩
  comm := by
    intro h p q l m hs hm hdis
    have hback := returns_intNodeMerge hm hs hdis.symm
    rw [Set.union_comm] at hback
    exact ⟨_, returns_intNodeMerge hs hm hdis, hback⟩
  idem := by
    intro h p q l m hs hm hdis heq
    have hmerge := returns_intNodeMerge hs hm hdis
    rwa [← heq, Set.union_self] at hmerge
  operands := by
    intro s hs
    obtain ⟨a, hr⟩ := hs.wellFormed
    exact hr.orderFree

/-- The numbers of the second list are not in order, and one of them is there twice. -/
example : (do
    let (h, p) ← intListAppend .empty none 2
    let (h, q) ← intListAppend h none 3
    let (h, q) ← intListAppend h q 1
    let (h, q) ← intListAppend h q 3
    let (h, p) ← intNodeMerge h p q
    h.toList p) = .ok [2, 3, 1] := rfl

end DepLeak

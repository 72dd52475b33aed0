import DepLeak.Dep.Model
import DepLeak.LinkedHeap.Family
import DepLeak.LinkedHeap.Side

/-!
# What a state of the tool represents

The relation between the heap of the tool and its lists of values.

Every `int_node` list is at one *place* (`DepLeak.Place`): a slot of the shadow
table, a `read_dep_node`, or – in the middle of a helper – a local variable, the
*hand*. `DepLeak.ListsRep` says that the lists are where they should be and share no
node, `DepLeak.NodesRep` says the same of the three lists of `read_dep_node`s, and
`DepLeak.RepHand` puts them together. Between helpers the hand is empty, which is
`DepLeak.Rep`.

The lookups are then what they are on lists (`DepLeak.findReadDepTmp_lockstep`,
`DepLeak.getShadowMem_lockstep`), and what a helper copies and merges ends up as one
list in its hand (`DepLeak.RepHand.hold`).
-/

namespace DepLeak

open LinkedHeap Runs

/-! ### Places -/

/-- Where an `int_node` list can be. -/
inductive Place
  /-- In a slot of the shadow table. -/
  | shadow (k : Slot)
  /-- In the `read_dep_node` at an address. -/
  | node (i : ℕ)
  /-- In a local variable of a helper. -/
  | hand
  deriving DecidableEq

/-- The pointers at the places. -/
def placePtr (tb : Table Ptr) (P : ℕ → Ptr) (p : Ptr) : Place → Ptr
  | .shadow k => tb.slot none k
  | .node i => P i
  | .hand => p

/-- The lists at the places. -/
def placeVals (tb : Table (List ℤ)) (D : ℕ → List ℤ) (vs : List ℤ) : Place → List ℤ
  | .shadow k => tb.slot [] k
  | .node i => D i
  | .hand => vs

section Update

variable {tb tb' : Table Ptr} {tl tl' : Table (List ℤ)} {P : ℕ → Ptr} {D : ℕ → List ℤ}
  {p q : Ptr} {vs ws : List ℤ}

theorem update_placePtr_hand :
    Function.update (placePtr tb P p) .hand q = placePtr tb P q := by
  funext k
  cases k <;> simp [placePtr, Function.update]

theorem update_placeVals_hand :
    Function.update (placeVals tl D vs) .hand ws = placeVals tl D ws := by
  funext k
  cases k <;> simp [placeVals, Function.update]

theorem update_placePtr_node (i : ℕ) :
    Function.update (placePtr tb P p) (.node i) q = placePtr tb (Function.update P i q) p := by
  funext k
  cases k with
  | node j => by_cases hj : j = i <;> simp [placePtr, Function.update, hj]
  | _ => simp [placePtr, Function.update]

theorem update_placeVals_node (i : ℕ) :
    Function.update (placeVals tl D vs) (.node i) ws =
      placeVals tl (Function.update D i ws) vs := by
  funext k
  cases k with
  | node j => by_cases hj : j = i <;> simp [placeVals, Function.update, hj]
  | _ => simp [placeVals, Function.update]

/-- What handing the list over to a slot makes of the pointers. -/
theorem placePtr_give (tb : Table Ptr) (P : ℕ → Ptr) (p : Ptr) {k : Slot}
    (hk : tb'.slot none = Function.update (tb.slot none) k p) :
    Function.update (Function.update (Function.update (placePtr tb P p) (.shadow k) none) .hand
      none) (.shadow k) p = placePtr tb' P none := by
  funext k'
  cases k' with
  | shadow j => by_cases hj : j = k <;> simp [placePtr, Function.update, hj, hk]
  | _ => simp [placePtr, Function.update]

/-- What handing the list over to a slot makes of the lists. -/
theorem placeVals_give (tl : Table (List ℤ)) (D : ℕ → List ℤ) {k : Slot}
    (hk : tl'.slot [] = Function.update (tl.slot []) k vs) :
    Function.update (Function.update (Function.update (placeVals tl D vs) (.shadow k) []) .hand
      []) (.shadow k) vs = placeVals tl' D [] := by
  funext k'
  cases k' with
  | shadow j => by_cases hj : j = k <;> simp [placeVals, Function.update, hj, hk]
  | _ => simp [placeVals, Function.update]

end Update

/-! ### The relation -/

/-- All entries of a state. -/
def DepState.all (a : DepState) : List Entry := a.vars ++ a.regs ++ a.writes

theorem mem_all {a : DepState} {e : Entry} :
    e ∈ a.all ↔ e ∈ a.vars ∨ e ∈ a.regs ∨ e ∈ a.writes := by
  simp [DepState.all]

/-- The node of an entry, with its payload; `P` has the pointers to the lists. -/
def cellOf (P : ℕ → Ptr) (e : Entry) : ℕ × ReadDep := (e.id, ⟨e.val, P e.id⟩)

@[simp] theorem ids_map_cellOf (P : ℕ → Ptr) (es : List Entry) :
    ids (es.map (cellOf P)) = es.map Entry.id := by
  simp [ids, cellOf, Function.comp_def]

/-- The `read_dep_node`s of a state. -/
structure NodesRep (h : NodeHeap) (v r w : Ptr) (a : DepState) (P : ℕ → Ptr) : Prop where
  /-- `var_deps` runs through the entries of `vars`, up to `NULL` or a freed node. -/
  vars : ∃ q, Seg h v (a.vars.map (cellOf P)) q ∧ (∀ d, q = some d → d < h.top) ∧ h.Dead q ∧
    (q = none ↔ a.dangling = false)
  /-- `reg_deps` runs through the entries of `regs`. -/
  regs : Seg h r (a.regs.map (cellOf P)) none
  /-- `write_deps` runs through the entries of `writes`. -/
  writes : Seg h w (a.writes.map (cellOf P)) none
  /-- No node is in two of them. -/
  nodup : (a.all.map Entry.id).Nodup
  /-- Unless one was lost, there is no other node. -/
  owned : a.lost = false → ∀ i, h.cell i ≠ none → i ∈ a.all.map Entry.id
  /-- Nodes are numbered as they are created. -/
  top : h.top = a.nextId

/-- The `int_node`s of a state, with the list `vs` at `p` in the hand. -/
structure ListsRep (ints : IntHeap) (tb : Table Ptr) (a : DepState) (P : ℕ → Ptr)
    (D : ℕ → List ℤ) (p : Ptr) (vs : List ℤ) : Prop where
  /-- An entry has its list at its node. -/
  deps : ∀ e ∈ a.all, D e.id = e.deps
  /-- There is no list elsewhere. -/
  stray : ∀ i, i ∉ a.all.map Entry.id → D i = []
  /-- The lists are where they should be. -/
  lists : Family ints (placePtr tb P p) (placeVals a.shadow D vs) a.lost
  /-- The shadow table has the same pages. -/
  pages : ∀ u, (tb u).isSome = (a.shadow u).isSome

/-- **The representation relation**, in the middle of a helper that has the list `vs`
at `p` in its hand. -/
def RepHand (s : State) (a : DepState) (p : Ptr) (vs : List ℤ) : Prop :=
  (∃ P D, NodesRep s.nodes s.varDeps s.regDeps s.writeDeps a P ∧
    ListsRep s.ints s.shadowMem a P D p vs) ∧
  s.readN = a.readN ∧ s.writeN = a.writeN ∧ s.trace = a.trace

/-- **The representation relation.** -/
abbrev Rep (s : State) (a : DepState) : Prop := RepHand s a none []

/-- The initial states represent each other. -/
theorem rep_init (trace : Bool) : Rep (.init trace) (.init trace) := by
  refine ⟨⟨fun _ => none, fun _ => [], ⟨⟨none, rfl, ?_, Heap.dead_none, ?_⟩, rfl, rfl, ?_, ?_, rfl⟩,
    ⟨?_, ?_, ?_, ?_⟩⟩, rfl, rfl, rfl⟩
  · rintro d ⟨⟩
  · simp [DepState.init]
  · exact List.nodup_nil
  · exact fun _ i hi => absurd rfl hi
  · rintro e he
    cases he
  · exact fun _ _ => rfl
  · have hp : placePtr Table.empty (fun _ => none) none = fun _ => none := by
      funext k
      cases k <;> rfl
    have hv : placeVals Table.empty (fun _ => []) [] = fun _ => [] := by
      funext k
      cases k <;> rfl
    change Family Heap.empty (placePtr Table.empty _ _) (placeVals Table.empty _ _) false
    rw [hp, hv]
    exact Family.empty
  · exact fun _ => rfl

/-! ### Lookups -/

/-- There is a list at `p`, and it carries `vs`. -/
def ListAt (h : IntHeap) (p : Ptr) (vs : List ℤ) : Prop :=
  ∃ l, Seg h p l none ∧ vals l = vs

theorem listAt_none (h : IntHeap) : ListAt h none [] := ⟨[], rfl, rfl⟩

theorem ListAt.eq_none_iff {h : IntHeap} {p : Ptr} {vs : List ℤ} (hl : ListAt h p vs) :
    p = none ↔ vs = [] := by
  obtain ⟨l, hs, rfl⟩ := hl
  rw [hs.eq_none_iff, vals, List.map_eq_nil_iff]

theorem ListAt.sprouts {h h' : IntHeap} {S : List ℕ} {p : Ptr} {vs : List ℤ}
    (hl : ListAt h p vs) (hS : Sprouts h h' S) : ListAt h' p vs := by
  obtain ⟨l, hs, hvs⟩ := hl
  exact ⟨l, hS.old_seg hs, hvs⟩

theorem ListAt.toList {h : IntHeap} {p : Ptr} {vs : List ℤ} (hl : ListAt h p vs) :
    h.toList p = .ok vs := by
  obtain ⟨l, hs, rfl⟩ := hl
  exact Heap.toList_list hs

/-- The list at a place. -/
theorem ListsRep.listAt {ints : IntHeap} {tb : Table Ptr} {a : DepState} {P : ℕ → Ptr}
    {D : ℕ → List ℤ} {p : Ptr} {vs : List ℤ} (hr : ListsRep ints tb a P D p vs) (k : Place) :
    ListAt ints (placePtr tb P p k) (placeVals a.shadow D vs k) := by
  obtain ⟨own, hseg, hvals, -, -⟩ := hr.lists
  exact ⟨own k, hseg k, hvals k⟩

theorem find?_map_cellOf {P : ℕ → Ptr} {f : ReadDep → Bool} {g : Entry → Bool}
    (hfg : ∀ e p, f ⟨e.val, p⟩ = g e) (es : List Entry) :
    (es.map (cellOf P)).find? (fun x => f x.2) = (es.find? g).map (cellOf P) := by
  rw [List.find?_map]
  refine congrArg _ (congrArg (fun f => es.find? f) (funext fun e => ?_))
  exact hfg e _

variable {s : State} {a : DepState} {p : Ptr} {vs : List ℤ}

/-- The list of the first entry that passes a test, at a list of nodes. -/
theorem listAt_find {P : ℕ → Ptr} {D : ℕ → List ℤ} (hl : ListsRep s.ints s.shadowMem a P D p vs)
    {es : List Entry} (hes : ∀ e ∈ es, e ∈ a.all) (g : Entry → Bool) :
    ListAt s.ints (((es.find? g).map (cellOf P)).elim none fun x => x.2.readDeps)
      ((es.find? g).elim [] Entry.deps) := by
  cases hf : es.find? g with
  | none => exact listAt_none _
  | some e =>
    have hat := hl.listAt (.node e.id)
    simp only [placePtr, placeVals, hl.deps e (hes e (List.mem_of_find?_eq_some hf))] at hat
    exact hat

/-- **Looking up a temporary.** -/
theorem findReadDepTmp_lockstep (hr : RepHand s a p vs) (t : BitVec 32) :
    Lockstep (ListAt s.ints) (findReadDepTmp s t) (a.findTmp t) := by
  obtain ⟨⟨P, D, hn, hl⟩, -⟩ := hr
  obtain ⟨q, hseg, -, hdead, hq⟩ := hn.vars
  have hvars : ∀ e ∈ a.vars, e ∈ a.all := fun e he =>
    List.mem_append_left _ (List.mem_append_left _ he)
  have hat := listAt_find hl hvars (Entry.isTemp t)
  rw [findReadDepTmp, Heap.find_seg hseg hdead, find?_map_cellOf (g := Entry.isTemp t)
    (fun _ _ => rfl), DepState.findTmp]
  cases hf : a.vars.find? (Entry.isTemp t) with
  | some e =>
    rw [hf] at hat
    exact .ok hat
  | none =>
    cases hd : a.dangling with
    | false =>
      simp only [Option.map_none, if_pos (hq.mpr hd)]
      exact .ok (listAt_none _)
    | true =>
      have hne : q ≠ none := fun he => by simp [hq.mp he] at hd
      simp only [Option.map_none, if_neg hne]
      exact .error _

/-- **Looking up a register.** -/
theorem findReadDepReg_spec (hr : RepHand s a p vs) (r : BitVec 32) :
    ∃ q, findReadDepReg s r = .ok q ∧ ListAt s.ints q (a.findReg r) := by
  obtain ⟨⟨P, D, hn, hl⟩, -⟩ := hr
  have hregs : ∀ e ∈ a.regs, e ∈ a.all := fun e he =>
    List.mem_append_left _ (List.mem_append_right _ he)
  have hat := listAt_find hl hregs (Entry.isReg r)
  refine ⟨_, ?_, hat⟩
  rw [findReadDepReg, Heap.find_list hn.regs, find?_map_cellOf (g := Entry.isReg r)
    (fun _ _ => rfl)]
  rfl

/-- **Looking up an address.** -/
theorem getShadowMem_lockstep (hr : RepHand s a p vs) (addr : UWord) :
    Lockstep (ListAt s.ints) (getShadowMem s addr) (a.getShadow addr) := by
  obtain ⟨⟨P, D, -, hl⟩, -⟩ := hr
  by_cases hu : upIndex addr < tableSize
  · by_cases hlow : lowIndex addr < tableSize
    · rw [getShadowMem, DepState.getShadow, Table.get_of_inTable ⟨hu, hlow⟩,
        Table.get_of_inTable ⟨hu, hlow⟩]
      exact .ok (hl.listAt (.shadow (slotOf addr ⟨hu, hlow⟩)))
    · rw [getShadowMem, DepState.getShadow, Table.get_of_low hu hlow, Table.get_of_low hu hlow,
        hl.pages]
      split
      · exact .error _
      · exact .ok (listAt_none _)
  · rw [getShadowMem, DepState.getShadow, Table.get_of_up hu, Table.get_of_up hu]
    exact .error _

/-! ### Copies -/

/-- A copy of a list is a list built on the side. -/
theorem copyDeps_spec {q : Ptr} {ws : List ℤ} (hl : ListAt s.ints q ws) :
    ∃ ints q' l, copyDeps s q = .ok ({ s with ints := ints }, q') ∧
      Grows s.ints ints q' l ∧ vals l = ws := by
  obtain ⟨m, hs, rfl⟩ := hl
  obtain ⟨ints, q', l, hcopy, hgrow, hvals⟩ := Heap.copyList_seg hs
  refine ⟨ints, q', l, ?_, hgrow, hvals⟩
  simp only [copyDeps, deepCopyIntNodeList, hcopy, ok_bind]

/-- What a helper has when it has built the lists of `hands` on the side: the state
with these lists in its heap, and the pointer to the last of them. -/
def Collected (s : State) (hands : List (Ptr × List ℤ)) (sl : State × Ptr) (ws : List ℤ) : Prop :=
  ∃ ints, sl.1 = { s with ints := ints } ∧ Side s.ints ints (hands ++ [(sl.2, ws)])

/-- **A copy**, in a helper that has built lists on the side before. -/
theorem copyDeps_collected {h : IntHeap} {hands : List (Ptr × List ℤ)} (hs : Side s.ints h hands)
    {q : Ptr} {ws : List ℤ} (hl : ListAt s.ints q ws) :
    ∃ sl, copyDeps { s with ints := h } q = .ok sl ∧ Collected s hands sl ws := by
  obtain ⟨m, hm, rfl⟩ := hl
  obtain ⟨ints, q', l, hcopy, hgrow, hvals⟩ :=
    copyDeps_spec (s := { s with ints := h }) ⟨m, hs.old_seg hm, rfl⟩
  exact ⟨_, hcopy, ints, rfl, by rw [← hvals]; exact hs.copy hgrow⟩

/-- **`get_deps_tmp`**, in a helper that has built lists on the side before. -/
theorem getDepsTmp_lockstep (hr : Rep s a) {h : IntHeap} {hands : List (Ptr × List ℤ)}
    (hs : Side s.ints h hands) (t : BitVec 32) :
    Lockstep (Collected s hands) (getDepsTmp { s with ints := h } t) (a.findTmp t) := by
  have hfind := findReadDepTmp_lockstep hr t
  change Lockstep _ (findReadDepTmp s t >>= copyDeps { s with ints := h }) _
  cases hx : findReadDepTmp s t with
  | error f =>
    rw [hx] at hfind
    rw [hfind.eq_error]
    exact .error f
  | ok q =>
    obtain ⟨ws, hws, hat⟩ := hfind.ok_right hx
    obtain ⟨sl, hcopy, hc⟩ := copyDeps_collected hs hat
    rw [hws, ok_bind, hcopy]
    exact .ok hc

/-- **`int_node_merge`** of the two lists at the front. -/
theorem mergeDeps_spec {h h' : IntHeap} {hands : List (Ptr × List ℤ)} {q₁ q₂ : Ptr}
    {vs₁ vs₂ : List ℤ} (hs : Side h h' ((q₁, vs₁) :: (q₂, vs₂) :: hands)) :
    ∃ ints q, mergeDeps { s with ints := h' } q₁ q₂ = .ok ({ s with ints := ints }, q) ∧
      Side h ints ((q, mergeVals vs₁ vs₂) :: hands) := by
  obtain ⟨l, m, hl, hm, rfl, rfl, hdis, hreb⟩ := hs.rebuild
  obtain ⟨ints, q, l', hmerge, hl', hvals, -, hb⟩ := intNodeMerge_seg hl hm hdis
  refine ⟨ints, q, ?_, ?_⟩
  · simp only [mergeDeps, hmerge, ok_bind]
  · rw [← hvals]
    exact hreb hl' hb

/-- **Holding a list**: with one list built on the side, the tool is in the middle of
a helper that has it in its hand. -/
theorem RepHand.hold (hr : Rep s a) {ints : IntHeap} {q : Ptr} {ws : List ℤ}
    (hs : Side s.ints ints [(q, ws)]) : RepHand { s with ints := ints } a q ws := by
  obtain ⟨⟨P, D, hn, hl⟩, hsc⟩ := hr
  obtain ⟨l, hg, rfl⟩ := hs.grows
  refine ⟨⟨P, D, hn, hl.deps, hl.stray, ?_, hl.pages⟩, hsc⟩
  have hadd := hl.lists.add hg (k := .hand) rfl
  rwa [update_placePtr_hand, update_placeVals_hand] at hadd

/-- The entries of `write_deps`, with their lists. -/
theorem RepHand.writes (hr : RepHand s a p vs) : ∃ P : ℕ → Ptr,
    s.nodes.toList s.writeDeps = .ok (a.writes.map fun e => (⟨e.val, P e.id⟩ : ReadDep)) ∧
      ∀ e ∈ a.writes, ListAt s.ints (P e.id) e.deps := by
  obtain ⟨⟨P, D, hn, hl⟩, -⟩ := hr
  refine ⟨P, ?_, fun e he => ?_⟩
  · rw [Heap.toList_list hn.writes]
    simp [vals, cellOf, Function.comp_def]
  · have hnode := hl.listAt (.node e.id)
    simp only [placePtr, placeVals, hl.deps e (mem_all.mpr (Or.inr (Or.inr he)))] at hnode
    exact hnode

/-- A pointer is `NULL` if there is nothing in the list. -/
theorem RepHand.eq_none_iff (hr : RepHand s a p vs) : p = none ↔ vs = [] := by
  obtain ⟨⟨P, D, -, hl⟩, -⟩ := hr
  exact hl.lists.ptr_eq_none_iff .hand

/-- A hand without a list is empty. -/
theorem RepHand.of_none (hr : RepHand s a p vs) (hp : p = none) : Rep s a := by
  have hvs := hr.eq_none_iff.mp hp
  rwa [hp, hvs] at hr

end DepLeak

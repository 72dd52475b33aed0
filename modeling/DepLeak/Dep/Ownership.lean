import DepLeak.Dep.Calls
import DepLeak.Dep.Report
import DepLeak.Dep.ShadowMap

/-!
# Every node has one owner

The nodes of the tool live in lists, and every list hangs in one place: the three lists of
`read_dep_node`s at global variables, the lists of `int_node`s at the slots of the shadow
table and at the `read_dep_node`s. As long as this is so (`DepLeak.OwnedOnce`), nothing is
freed twice and `da_fini` frees everything (`DepLeak.FreesAll`).

It is kept by every event but two (`DepLeak.Careful`): a helper that erases the first entry
of `var_deps`, which leaves `var_deps` at a freed node and forgets the list at `reg_deps`,
and `instrument_assgn_tmp_qop`, which records a copy of the list it has merged and forgets
the list itself (`DepLeak.ownedRun_of_careful`).
-/

namespace DepLeak

open LinkedHeap Runs

/-! ### Places -/

/-- A list of `read_dep_node`s. -/
inductive DepList
  /-- `var_deps`. -/
  | vars
  /-- `reg_deps`. -/
  | regs
  /-- `write_deps`. -/
  | writes

/-- The pointer to the list. -/
def State.head (s : State) : DepList → Ptr
  | .vars => s.varDeps
  | .regs => s.regDeps
  | .writes => s.writeDeps

/-- What can have a list of `int_node`s. -/
inductive Owner
  /-- A slot of the shadow table. -/
  | slot (k : Slot)
  /-- The `read_dep_node` at an address. -/
  | entry (j : ℕ)

/-- Its place in the representation. -/
def Owner.place : Owner → Place
  | .slot k => .shadow k
  | .entry j => .node j

theorem Owner.place_inj {o o' : Owner} (h : o.place = o'.place) : o = o' := by
  cases o <;> cases o' <;> cases h <;> rfl

/-- The pointer to the list; there is none at a node that is not there. -/
def State.owned (s : State) : Owner → Ptr
  | .slot k => s.shadowMem.slot none k
  | .entry j => (s.nodes.cell j).elim none fun nd => nd.val.readDeps

/-- **Every node is owned once.** -/
structure OwnedOnce (s : State) : Prop where
  /-- The lists of `read_dep_node`s go through nodes that are there, up to `NULL`. -/
  lists : ∀ L, ∃ l, Seg s.nodes (s.head L) l none
  /-- Every `read_dep_node` is on exactly one of them. -/
  nodes : ∀ i, s.nodes.cell i ≠ none → ∃! L, Reaches s.nodes (s.head L) i
  /-- So do the lists of `int_node`s. -/
  intLists : ∀ o, ∃ l, Seg s.ints (s.owned o) l none
  /-- Every `int_node` is on the list of exactly one slot or `read_dep_node`. -/
  ints : ∀ i, s.ints.cell i ≠ none → ∃! o, Reaches s.ints (s.owned o) i

/-- **`da_fini` frees everything**: the nodes of both kinds, and the pages of the shadow
table. -/
def FreesAll (s : State) : Prop :=
  ∃ lines s', daFini s = .ok (lines, s') ∧ (∀ i, s'.nodes.cell i = none) ∧
    (∀ i, s'.ints.cell i = none) ∧ ∀ u, s'.shadowMem u = none

/-! ### Runs -/

/-- What a run comes to: a state in which every node is owned once and that can be freed, or
a counter that overflows. In particular no node is used or freed after it was freed. -/
def Kept : Exec State → Prop
  | .ok s => OwnedOnce s ∧ FreesAll s
  | .error f => f = .overflow

/-- **Every state of the run** is one in which every node is owned once. -/
def OwnedRun (trace : Bool) (es : List Event) : Prop :=
  ∀ es₁ es₂, es = es₁ ++ es₂ → Kept (run stepTool (.init trace) es₁)

/-- The event neither erases the first entry of `var_deps` nor loses a list. -/
def Careful (s : State) : Event → Prop
  | .helper c => ¬ErasesHead s c ∧ ¬Loses s c
  | .preCall _ _ => True

/-- Every event of the run is careful. -/
def CarefulRun (trace : Bool) (es : List Event) : Prop :=
  ∀ es₁ e es₂, es = es₁ ++ e :: es₂ → ∀ s, run stepTool (.init trace) es₁ = .ok s → Careful s e

/-- The run stays inside the shadow table. -/
def InsideTable (es : List Event) : Prop := ∀ e ∈ es, ∀ addr, e.Accesses addr → InTable addr

/-! ### From the lists to the state -/

variable {s s' : State} {a a' : DepState}

/-- The entries of a list. -/
def DepState.entries (a : DepState) : DepList → List Entry
  | .vars => a.vars
  | .regs => a.regs
  | .writes => a.writes

theorem mem_all_iff {e : Entry} : e ∈ a.all ↔ ∃ L, e ∈ a.entries L := by
  rw [mem_all]
  constructor
  · rintro (he | he | he)
    · exact ⟨.vars, he⟩
    · exact ⟨.regs, he⟩
    · exact ⟨.writes, he⟩
  · rintro ⟨L, he⟩
    cases L with
    | vars => exact Or.inl he
    | regs => exact Or.inr (Or.inl he)
    | writes => exact Or.inr (Or.inr he)

section Owned

variable {P : ℕ → Ptr} {D : ℕ → List ℤ}

/-- The three lists, where nothing dangles. -/
theorem NodesRep.seg (hn : NodesRep s.nodes s.varDeps s.regDeps s.writeDeps a P)
    (hd : a.dangling = false) (L : DepList) :
    Seg s.nodes (s.head L) ((a.entries L).map (cellOf P)) none := by
  cases L with
  | vars =>
    obtain ⟨q, hv, -, -, hq⟩ := hn.vars
    rwa [hq.mpr hd] at hv
  | regs => exact hn.regs
  | writes => exact hn.writes

/-- No node is on two of them. -/
theorem NodesRep.eq_of_mem {h : NodeHeap} {v r w : Ptr} (hn : NodesRep h v r w a P)
    {L L' : DepList} {i : ℕ} (hi : i ∈ (a.entries L).map Entry.id)
    (hi' : i ∈ (a.entries L').map Entry.id) : L = L' := by
  obtain ⟨-, -, hvr, hvw, hrw⟩ := hn.nodup_parts
  cases L <;> cases L' <;> first
    | rfl
    | exact absurd hi' (hvr i hi)
    | exact absurd hi (hvr i hi')
    | exact absurd hi' (hvw i hi)
    | exact absurd hi (hvw i hi')
    | exact absurd hi' (hrw i hi)
    | exact absurd hi (hrw i hi')

/-- The pointer at an owner is where the representation has it. -/
theorem owned_eq (hn : NodesRep s.nodes s.varDeps s.regDeps s.writeDeps a P)
    (hl : ListsRep s.ints s.shadowMem a P D none []) (hd : a.dangling = false)
    (hlost : a.lost = false) (o : Owner) :
    s.owned o = placePtr s.shadowMem P none o.place := by
  cases o with
  | slot k => rfl
  | entry j =>
    rw [State.owned, Owner.place, placePtr]
    cases hc : s.nodes.cell j with
    | none =>
      -- no entry is at a node that is not there
      have hstray : j ∉ a.all.map Entry.id := by
        rintro hj
        obtain ⟨e, he, rfl⟩ := List.mem_map.mp hj
        obtain ⟨L, he⟩ := mem_all_iff.mp he
        refine (hn.seg hd L).cell_ne_none ?_ hc
        rw [ids_map_cellOf]
        exact List.mem_map_of_mem he
      exact ((hl.lists.ptr_eq_none_iff (.node j)).mpr (hl.stray j hstray)).symm
    | some nd =>
      have hj : j ∈ a.all.map Entry.id := hn.owned hlost j (by simp [hc])
      obtain ⟨e, he, rfl⟩ := List.mem_map.mp hj
      obtain ⟨L, he⟩ := mem_all_iff.mp he
      obtain ⟨p', hcell⟩ := (hn.seg hd L).cell_of_mem (List.mem_map_of_mem (f := cellOf P) he)
      rw [cellOf, hc] at hcell
      rw [Option.some.inj hcell]
      rfl

/-- **Nothing dangling and nothing lost** is what it takes for every node to be owned
once. -/
theorem Rep.ownedOnce (hr : Rep s a) (hd : a.dangling = false) (hlost : a.lost = false) :
    OwnedOnce s := by
  obtain ⟨⟨P, D, hn, hl⟩, -⟩ := hr
  have hf := hl.lists
  rw [hlost] at hf
  have howned := owned_eq hn hl hd hlost
  refine ⟨fun L => ⟨_, hn.seg hd L⟩, fun i hi => ?_, fun o => ?_, fun i hi => ?_⟩
  · obtain ⟨e, he, rfl⟩ := List.mem_map.mp (hn.owned hlost i hi)
    obtain ⟨L, he⟩ := mem_all_iff.mp he
    refine ⟨L, (hn.seg hd L).reaches_iff.mpr ?_, fun L' hL' => ?_⟩
    · rw [ids_map_cellOf]
      exact List.mem_map_of_mem he
    · have hmem := (hn.seg hd L').reaches_iff.mp hL'
      rw [ids_map_cellOf] at hmem
      exact hn.eq_of_mem hmem (List.mem_map_of_mem he)
  · obtain ⟨l, hs, -⟩ := hl.listAt o.place
    rw [howned]
    exact ⟨l, hs⟩
  -- one place of the representation has the node, and no list is in the hand
  · obtain ⟨k, hk, huniq⟩ := hf.existsUnique_reaches hi
    obtain ⟨o, rfl⟩ : ∃ o : Owner, o.place = k := by
      cases k with
      | shadow k => exact ⟨.slot k, rfl⟩
      | node j => exact ⟨.entry j, rfl⟩
      | hand => exact absurd hk (not_reaches_none s.ints i)
    simp only [howned]
    exact ⟨o, hk, fun o' ho' => Owner.place_inj (huniq _ ho')⟩

/-! ### Freeing everything -/

/-- **`free_read_dep_list`** on one of the lists, when the lists of other entries have gone
before. -/
theorem freeEntries {nodes : NodeHeap} {ints : IntHeap} {v : Ptr} {es : List Entry}
    {P₀ : ℕ → Ptr} {tb : Table Ptr} {tl : Table (List ℤ)} {lost : Bool}
    (hs : Seg nodes v (es.map (cellOf P₀)) none)
    (hf : Family ints (placePtr tb P none) (placeVals tl D []) lost)
    (hP : ∀ e ∈ es, P e.id = P₀ e.id) :
    ∃ nodes' ints', freeReadDepList nodes ints v = .ok (nodes', ints') ∧
      Shrinks nodes nodes' (es.map Entry.id) ∧
      Family ints' (placePtr tb (wipe none P (es.map Entry.id)) none)
        (placeVals tl (wipe [] D (es.map Entry.id)) []) lost := by
  have hnd := hs.nodup Heap.dead_none
  rw [ids_map_cellOf] at hnd
  obtain ⟨ints', S, hrun, -, -, hf'⟩ := freeNodeLists hf hnd
  rw [← map_cellOf_congr hP] at hs
  obtain ⟨nodes', hfree, hsh⟩ := freeReadDepList_list hs hrun
  exact ⟨nodes', ints', hfree, hsh, hf'⟩

/-- **`da_fini`** gets to every node. -/
theorem Rep.freesAll (hr : Rep s a) (hd : a.dangling = false) (hlost : a.lost = false) :
    FreesAll s := by
  have hlines := printfReadDepList_eq hr
  obtain ⟨⟨P, D, hn, hl⟩, -⟩ := hr
  obtain ⟨-, -, hvr, hvw, hrw⟩ := hn.nodup_parts
  have hf := hl.lists
  rw [hlost] at hf
  -- the registers go first, then the temporaries, then the writes
  obtain ⟨nodes₁, ints₁, hfree₁, hsh₁, hf₁⟩ := freeEntries hn.regs hf fun _ _ => rfl
  have hvars : Seg nodes₁ s.varDeps (a.vars.map (cellOf P)) none :=
    hsh₁.seg (hn.seg hd .vars) fun i hi hi' => hvr i (by rwa [← ids_map_cellOf P]) hi'
  obtain ⟨nodes₂, ints₂, hfree₂, hsh₂, hf₂⟩ := freeEntries hvars hf₁ fun e he =>
    wipe_of_notMem fun hmem => hvr e.id (List.mem_map_of_mem he) hmem
  have hsh₁₂ := hsh₁.trans hsh₂
  have hwrites : Seg nodes₂ s.writeDeps (a.writes.map (cellOf P)) none := by
    refine hsh₁₂.seg hn.writes fun i hi hi' => ?_
    rw [ids_map_cellOf] at hi
    exact (List.mem_append.mp hi').elim (fun h => hrw i h hi) fun h => hvw i h hi
  obtain ⟨nodes₃, ints₃, hfree₃, hsh₃, hf₃⟩ := freeEntries hwrites hf₂ fun e he => by
    rw [wipe_of_notMem fun hmem => hvw e.id hmem (List.mem_map_of_mem he),
      wipe_of_notMem fun hmem => hrw e.id hmem (List.mem_map_of_mem he)]
  obtain ⟨ints₄, S, hshadow, -, -, hf₄⟩ :=
    freeShadowMem_spec (s := { s with nodes := nodes₃, ints := ints₃ }) hf₃
  -- a node that is left was owned by one of the three lists, and is freed with it
  have hdead : ∀ i, nodes₃.cell i = none := by
    intro i
    by_contra hi
    obtain ⟨hi₂, hw⟩ := hsh₃.live hi
    obtain ⟨hi₀, hrv⟩ := hsh₁₂.live hi₂
    have hall := hn.owned hlost i hi₀
    rw [DepState.all, List.map_append, List.map_append, List.mem_append, List.mem_append] at hall
    rw [List.mem_append, not_or] at hrv
    exact hall.elim (fun h => h.elim hrv.2 hrv.1) hw
  have hfini : daFini s = .ok (a.writes.flatMap fun e => entryLines (e.val, e.deps),
      { s with nodes := nodes₃, ints := ints₄, shadowMem := .empty }) := by
    rw [daFini, hlines]
    simp only [ok_bind, hfree₁, hfree₂, hfree₃]
    rw [hshadow, ok_bind]
  refine ⟨_, _, hfini, hdead, hf₄.cell_eq_none fun k => ?_, fun u => rfl⟩
  cases k with
  | shadow k => rfl
  | hand => rfl
  | node j =>
    by_cases hj : j ∈ a.all.map Entry.id
    · rw [DepState.all, List.map_append, List.map_append, List.mem_append, List.mem_append] at hj
      simp only [placePtr, wipe]
      rcases hj with (hj | hj) | hj <;> simp [hj]
    · have hP : P j = none := (hf.ptr_eq_none_iff (.node j)).mpr (hl.stray j hj)
      simp [placePtr, wipe, hP]

end Owned

/-! ### Along a run -/

/-- In the middle of a run in which every node is owned once. -/
def Holding (x : Exec State) : Prop :=
  (∃ s a, x = .ok s ∧ Rep s a ∧ a.dangling = false ∧ a.lost = false) ∨ x = .error .overflow

theorem Holding.kept {x : Exec State} (h : Holding x) : Kept x := by
  rcases h with ⟨s, a, rfl, hr, hd, hlost⟩ | rfl
  · exact ⟨hr.ownedOnce hd hlost, hr.freesAll hd hlost⟩
  · rfl

/-- **A careful event** leaves every node owned once. -/
theorem Careful.holding {e : Event} (h : Careful s e) (hr : Rep s a) (hd : a.dangling = false)
    (hlost : a.lost = false) (hin : ∀ addr, e.Accesses addr → InTable addr) :
    Holding (stepTool s e) := by
  have hstep := stepTool_lockstep hr e
  cases e with
  | helper c =>
    obtain ⟨deps, hs⟩ := DepState.source_ok hd hin
    -- a helper that spares the first entry gets through and leaves a list
    have hspare := hr.sparesHead hd hs h.1
    obtain ⟨a', ha'⟩ := DepState.exists_assign hd
      (fun addr vs hs => hin addr (DepState.addr_of_stores hs)) hspare
    obtain ⟨hd', hlost'⟩ := DepState.assign_kept hd hspare ha'
    have hcall : a.step (.helper c) = .ok a' := by
      change a.call c = .ok a'
      rw [DepState.call, hs, ok_bind, ha']
    obtain ⟨s', hs', hr'⟩ := hstep.ok_left hcall
    refine .inl ⟨s', a', hs', hr', hd', Bool.eq_false_iff.mpr fun hl => ?_⟩
    rcases hlost' hl with hold | ⟨hne, hcopies⟩
    · rw [hlost] at hold
      cases hold
    cases c with
    | assgnTmpQop t t₁ t₂ t₃ t₄ =>
      -- there was something to record
      refine h.2 ?_
      rw [Loses, tracked_eq_view hr, ← DepState.source_union rfl hs]
      obtain ⟨v, hv⟩ := List.exists_mem_of_ne_nil deps hne
      exact Set.nonempty_iff_ne_empty.mp ⟨v, hv⟩
    | _ => cases hcopies
  | preCall n args =>
    cases hx : a.preCall n args with
    | error f =>
      rw [show a.step (.preCall n args) = .error f from hx] at hstep
      rcases DepState.preCall_error hx with ⟨rfl, -⟩ | ⟨-, addr, ha, hout⟩
      · exact .inr hstep.error_left
      · exact absurd (hin addr ha) hout
    | ok a' =>
      obtain ⟨s', hs', hr'⟩ := hstep.ok_left hx
      obtain ⟨hd', hlost', -⟩ := DepState.preCall_frame hx
      exact .inl ⟨s', a', hs', hr', hd'.trans hd, hlost'.trans hlost⟩

/-- **A careful run inside the shadow table keeps every node owned once**, and leaves
nothing behind when it ends. -/
theorem ownedRun_of_careful {trace : Bool} {es : List Event} (hin : InsideTable es)
    (h : CarefulRun trace es) : OwnedRun trace es := by
  have hrun : ∀ es₁ es₂, es = es₁ ++ es₂ → Holding (run stepTool (.init trace) es₁) := by
    intro es₁
    induction es₁ using List.reverseRecOn with
    | nil => exact fun _ _ => .inl ⟨_, _, rfl, rep_init trace, rfl, rfl⟩
    | append_singleton es₁ e ih =>
      intro es₂ hes
      have hes' : es = es₁ ++ e :: es₂ := by rw [hes, List.append_assoc]; rfl
      rw [run_append]
      rcases ih (e :: es₂) hes' with ⟨s, a, hs, hr, hd, hlost⟩ | hover
      · rw [hs, ok_bind, run_cons]
        have hstep := (h es₁ e es₂ hes' s hs).holding hr hd hlost (hin e (by simp [hes']))
        rcases hx : stepTool s e with f | s'
        · rwa [hx] at hstep
        · rwa [hx] at hstep
      · rw [hover]
        exact .inr rfl
  exact fun es₁ es₂ hes => (hrun es₁ es₂ hes).kept

/-- A byte is read and loaded. -/
def readLoad : List Event := [.preCall nrRead (sysArgs 0 8 1), .helper (.assgnTmpLoad 7 8)]

theorem insideTable_readLoad : InsideTable readLoad := by
  intro e he addr ha
  simp only [readLoad, List.mem_cons, List.not_mem_nil, or_false] at he
  rcases he with rfl | rfl
  · obtain ⟨-, i, hi, rfl⟩ := ha
    obtain rfl : i = 0 := by
      have hi : i < 1 := hi
      omega
    decide
  · cases ha
    decide

theorem ownedRun_of_careful_readLoad : OwnedRun true readLoad := by
  refine ownedRun_of_careful insideTable_readLoad fun es₁ e es₂ hes s hs => ?_
  rcases es₁ with _ | ⟨e₁, _ | ⟨e₂, es₁⟩⟩
  · cases hes
    trivial
  · cases hes
    cases hs
    refine ⟨?_, id⟩
    -- there is no entry yet
    rintro ⟨t, -, -, i, nd, hi, -⟩
    cases hi
  · simp [readLoad] at hes

/-- **Erasing the entry that was recorded** leaves `var_deps` at a freed node. -/
theorem not_ownedRun : ¬∀ trace es, InsideTable es → OwnedRun trace es := by
  intro h
  have hin : InsideTable (readLoad ++ [.helper (.assgnTmpConst 7)]) := by
    intro e he
    rcases List.mem_append.mp he with he | he
    · exact insideTable_readLoad e he
    · rw [List.mem_singleton.mp he]
      rintro addr ⟨⟩
  obtain ⟨hown, -⟩ := h true _ hin _ [] (List.append_nil _).symm
  obtain ⟨l, hl⟩ := hown.lists .vars
  rcases l with _ | ⟨⟨i, d⟩, l⟩
  · cases hl
  · obtain ⟨hi, p, hcell, -⟩ := hl
    cases hi
    cases hcell

end DepLeak

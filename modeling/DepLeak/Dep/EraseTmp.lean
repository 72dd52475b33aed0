import DepLeak.Dep.Locality

/-!
# Erasing a temporary

What `read_dep_node_erase_tmp` leaves of the two heaps and of the three lists: it takes the
entries of a temporary out of `var_deps`, wherever they are, and frees them with their
lists – as long as the first of them is not at the head. For there the function moves
`reg_deps` on in the place of `var_deps` (`DepLeak.erasesOnly_iff`).
-/

namespace DepLeak

open LinkedHeap

variable {s s' : State} {a : DepState} {t : BitVec 32} {l : List (ℕ × ReadDep)}

/-- The `int_node`s of the lists of the entries for a temporary. -/
def OfErased (s : State) (t : BitVec 32) (l : List (ℕ × ReadDep)) (i : ℕ) : Prop :=
  ∃ x ∈ l, isTemp t x.2 ∧ ∃ m, Seg s.ints x.2.readDeps m none ∧ i ∈ ids m

/-- **Only the temporary is erased** from `var_deps`, where the list was `l`. -/
structure ErasesOnly (s s' : State) (t : BitVec 32) (l : List (ℕ × ReadDep)) : Prop where
  /-- `var_deps` has the entries for other temporaries, in their order and with their
  lists. -/
  vars : Seg s'.nodes s'.varDeps (l.filter fun x => !isTemp t x.2) none
  /-- `reg_deps` is as it was. -/
  regs : s'.regDeps = s.regDeps ∧ ∀ m, Seg s.nodes s.regDeps m none → Seg s'.nodes s'.regDeps m none
  /-- `write_deps` is as it was. -/
  writes : s'.writeDeps = s.writeDeps ∧
    ∀ m, Seg s.nodes s.writeDeps m none → Seg s'.nodes s'.writeDeps m none
  /-- The entries for the temporary are freed, and no others. -/
  nodes : ∀ i, s'.nodes.cell i = none ↔ s.nodes.cell i = none ∨ ∃ x ∈ l, isTemp t x.2 ∧ x.1 = i
  /-- So are their lists. -/
  gone : ∀ i, OfErased s t l i → s'.ints.cell i = none
  /-- The other lists are as they were. -/
  kept : ∀ i, ¬OfErased s t l i → s'.ints.cell i = s.ints.cell i
  /-- Nothing else has changed. -/
  rest : s'.shadowMem = s.shadowMem ∧ s'.readN = s.readN ∧ s'.writeN = s.writeN ∧
    s'.trace = s.trace

/-- Without entries the loop has nothing to do. -/
theorem readDepNodeEraseTmp_eq (s : State) (t : BitVec 32) :
    readDepNodeEraseTmp s t = eraseFrom (isTemp t) s s.varDeps := by
  rw [readDepNodeEraseTmp]
  split
  · next h =>
    rw [h]
    rfl
  · rfl

/-- Erasing a temporary never assigns `var_deps`. -/
theorem readDepNodeEraseTmp_varDeps (h : readDepNodeEraseTmp s t = .ok s') :
    s'.varDeps = s.varDeps := by
  rw [readDepNodeEraseTmp_eq] at h
  obtain ⟨st, -, h⟩ := Runs.bind_eq_ok.mp h
  rw [← Except.ok.inj h]

/-- If the first entry of `var_deps` is erased, `var_deps` is left at a freed node. -/
theorem ErasesOnly.not_headIs (h : ErasesOnly s s' t l) (hl : Seg s.nodes s.varDeps l none)
    (hs : readDepNodeEraseTmp s t = .ok s') : ¬HeadIs s t := by
  rintro ⟨i, nd, hi, hread, ht⟩
  -- `var_deps` is still at the node of the first entry, which is freed
  have hvar : s'.varDeps = some i := (readDepNodeEraseTmp_varDeps hs).trans hi
  rcases l with _ | ⟨⟨j, d⟩, l⟩
  · rw [Seg.nil_iff.mp hl] at hi
    cases hi
  · obtain ⟨hj, p, hcell, -⟩ := hl
    obtain rfl := Option.some.inj (hj.symm.trans hi)
    rw [Heap.read_of_cell hcell] at hread
    cases hread
    have hfreed : s'.nodes.cell j = none :=
      (h.nodes j).mpr (.inr ⟨_, List.mem_cons_self, ht, rfl⟩)
    have hnil : Seg s'.nodes s'.varDeps [] (some j) := hvar
    obtain ⟨hnone, -⟩ := h.vars.unique hnil Heap.dead_none
      fun k hk => Option.some.inj hk ▸ hfreed
    have hseg := h.vars
    rw [hnone, hvar] at hseg
    cases Seg.nil_iff.mp hseg

theorem filter_map_cellOf {P : ℕ → Ptr} {f : ReadDep → Bool} {g : Entry → Bool}
    (hfg : ∀ e q, f ⟨e.val, q⟩ = g e) (es : List Entry) :
    (es.map (cellOf P)).filter (fun x => f x.2) = (es.filter g).map (cellOf P) := by
  rw [List.filter_map]
  refine congrArg _ (congrArg (fun f => es.filter f) (funext fun e => ?_))
  exact hfg e _

/-- The nodes of the erased entries. -/
theorem mem_erased_iff {P : ℕ → Ptr} {f : ReadDep → Bool} {g : Entry → Bool}
    (hfg : ∀ e q, f ⟨e.val, q⟩ = g e) {es : List Entry} {i : ℕ} :
    i ∈ erased g es ↔ ∃ x ∈ es.map (cellOf P), f x.2 ∧ x.1 = i := by
  rw [erased, List.mem_map]
  constructor
  · rintro ⟨e, he, rfl⟩
    obtain ⟨hmem, hg⟩ := List.mem_filter.mp he
    exact ⟨cellOf P e, List.mem_map_of_mem hmem, (hfg e _).trans hg, rfl⟩
  · rintro ⟨x, hx, hf, rfl⟩
    obtain ⟨e, he, rfl⟩ := List.mem_map.mp hx
    exact ⟨e, List.mem_filter.mpr ⟨he, (hfg e _).symm.trans hf⟩, rfl⟩

/-- The nodes of their lists. -/
theorem ofErased_iff {P : ℕ → Ptr} {es : List Entry} {i : ℕ} :
    OfErased s t (es.map (cellOf P)) i ↔
      ∃ j ∈ erased (Entry.isTemp t) es, ∃ m, Seg s.ints (P j) m none ∧ i ∈ ids m := by
  rw [OfErased]
  constructor
  · rintro ⟨x, hx, ht, m, hm, hi⟩
    obtain ⟨e, he, rfl⟩ := List.mem_map.mp hx
    exact ⟨e.id, List.mem_map_of_mem (List.mem_filter.mpr ⟨he, ht⟩), m, hm, hi⟩
  · rintro ⟨j, hj, m, hm, hi⟩
    obtain ⟨e, he, rfl⟩ := List.mem_map.mp hj
    obtain ⟨hmem, ht⟩ := List.mem_filter.mp he
    exact ⟨cellOf P e, List.mem_map_of_mem hmem, ht, m, hm, hi⟩

/-- Where `var_deps` starts with no entry for the temporary, exactly the entries for it are
erased. -/
theorem Rep.erasesOnly (hr : Rep s a) (hd : a.dangling = false) (hhead : ¬HeadIs s t) :
    ∃ l s', Seg s.nodes s.varDeps l none ∧ readDepNodeEraseTmp s t = .ok s' ∧
      ErasesOnly s s' t l := by
  rw [headIs_iff hr hd, Bool.not_eq_true] at hhead
  obtain ⟨⟨P, D, hn, hl⟩, -⟩ := hr
  obtain ⟨q, hv, -, -, hq⟩ := hn.vars
  obtain rfl := hq.mpr hd
  obtain ⟨hndv, -, hvr, hvw, -⟩ := hn.nodup_parts
  obtain ⟨nodes, ints, r, v, S, herase, hreg, hseg, hnodes, ⟨hsh, hS⟩, -⟩ :=
    eraseFrom_list (f := isTemp t) (g := Entry.isTemp t) (fun _ _ => rfl) hv hl.lists
  -- the head stays, so that `reg_deps` is not assigned
  rw [if_neg (by simp [hhead])] at hreg
  obtain ⟨rfl, rfl⟩ := hreg
  have hout : ∀ {q : Ptr} {es : List Entry} {m}, Seg s.nodes q (es.map (cellOf P)) none →
      (∀ i ∈ a.vars.map Entry.id, i ∉ es.map Entry.id) → Seg s.nodes q m none →
      Seg nodes q m none := by
    intro q es m hes hdis hm
    obtain ⟨rfl, -⟩ := hes.unique hm Heap.dead_none Heap.dead_none
    refine hm.congr fun i hi => hnodes.keep i fun hmem => hdis i hmem ?_
    rwa [ids_map_cellOf] at hi
  rw [map_cellOf_wipe fun e he => ((mem_filter_iff hndv).mp he).2] at hseg
  refine ⟨_, _, hv, (readDepNodeEraseTmp_eq s t).trans herase, ?_⟩
  constructor
  · rw [filter_map_cellOf (f := fun d => !isTemp t d) (g := fun e => !e.isTemp t) fun _ _ => rfl]
    exact hseg
  · exact ⟨rfl, fun m hm => hout hn.regs hvr hm⟩
  · exact ⟨rfl, fun m hm => hout hn.writes hvw hm⟩
  · intro i
    rw [← mem_erased_iff (g := Entry.isTemp t) fun _ _ => rfl]
    exact hnodes.cell_eq_none_iff hv hseg hndv
  · exact fun i hi => hsh.gone i ((hS i).mpr (ofErased_iff.mp hi))
  · exact fun i hi => hsh.keep i fun hmem => hi (ofErased_iff.mpr ((hS i).mp hmem))
  · exact ⟨rfl, rfl, rfl, rfl⟩

/-- **When erasing a temporary touches only that temporary**: exactly if the first entry of
`var_deps` is none of its. -/
theorem erasesOnly_iff (hs : Sound s) (t : BitVec 32) :
    (∃ l s', Seg s.nodes s.varDeps l none ∧ readDepNodeEraseTmp s t = .ok s' ∧
      ErasesOnly s s' t l) ↔ ¬HeadIs s t := by
  obtain ⟨a, hr, hd⟩ := hs
  constructor
  · rintro ⟨l, s', hl, hs', herase⟩
    exact herase.not_headIs hl hs'
  · exact hr.erasesOnly hd

/-- A run leaves a sound state if it leaves nothing dangling on lists. -/
theorem sound_of_run (es : List Event) (hs : Runs.run stepTool (.init true) es = .ok s)
    (ha : Runs.run DepState.step (.init true) es = .ok a) (hd : a.dangling = false) : Sound s := by
  have hl := runTool_lockstep (rep_init true) es
  rw [hs, ha] at hl
  cases hl with
  | ok hr => exact ⟨a, hr, hd⟩

/-- A byte is read, and loaded into one temporary and then into another. -/
def twoLoads : List Event :=
  [.preCall nrRead (sysArgs 0 8 1), .helper (.assgnTmpLoad 7 8), .helper (.assgnTmpLoad 5 8)]

theorem erasesOnly_iff_second : ∃ s, Runs.run stepTool (.init true) twoLoads = .ok s ∧
    ∃ l s', Seg s.nodes s.varDeps l none ∧ readDepNodeEraseTmp s 5 = .ok s' ∧
      ErasesOnly s s' 5 l := by
  refine ⟨_, rfl, (erasesOnly_iff (sound_of_run twoLoads rfl rfl rfl) 5).mpr ?_⟩
  rintro ⟨i, nd, hi, hread, ht⟩
  cases hi
  cases hread
  cases ht

/-- **Erasing the first entry** leaves `var_deps` at a freed node, and assigns `reg_deps`. -/
theorem not_erasesOnly : ¬∀ s, Sound s → ∀ t, ∃ l s', Seg s.nodes s.varDeps l none ∧
    readDepNodeEraseTmp s t = .ok s' ∧ ErasesOnly s s' t l := by
  intro h
  obtain ⟨l, s', hl, hs', herase⟩ := h _ (sound_of_run twoLoads rfl rfl rfl) 7
  exact herase.not_headIs hl hs' ⟨_, _, rfl, rfl, rfl⟩

end DepLeak

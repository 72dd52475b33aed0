import DepLeak.Dep.Ownership

/-!
# The dependency lists are lists of reads

A list of dependencies names `read()`s that there have been, each of them once, and where an
entry is made for a temporary or for a register there is something in its list
(`DepLeak.ListsInOrder`). The lists are put together by copying and merging, which keeps
both (`DepLeak.numbers_listProp`), from the lists of single numbers that the hook of a
`read()` makes; and a helper records an entry only behind its test for `NULL`
(`DepLeak.DepState.call_recorded`).

Every run keeps this, whatever helpers it calls and however often it is traced
(`DepLeak.run_inOrder`). It can only be cut short: where it looks at a freed node, or where
`write_n` has no next value.
-/

namespace DepLeak

open LinkedHeap Runs

/-! ### The property -/

/-- A `read_dep_node` is on one of the lists: following `next` from the head gets to it. -/
def State.OnList (s : State) (L : DepList) (d : ReadDep) : Prop :=
  ∃ l q i, Seg s.nodes (s.head L) l q ∧ (i, d) ∈ l

/-- The list at a pointer has no repeated element and only numbers from 1 to `read_n`. -/
def State.Numbered (s : State) (p : Ptr) : Prop :=
  ∃ vs, s.ints.toList p = .ok vs ∧ vs.Nodup ∧ ∀ v ∈ vs, 1 ≤ v ∧ v ≤ s.readN

/-- **The dependency lists are in order.** -/
structure ListsInOrder (s : State) : Prop where
  /-- Those of the shadow table. -/
  slots : ∀ k, s.Numbered (s.shadowMem.slot none k)
  /-- Those of the entries of `var_deps`, `reg_deps` and `write_deps`. -/
  entries : ∀ L d, s.OnList L d → s.Numbered d.readDeps
  /-- The entries of `var_deps` and `reg_deps` have something in their lists. -/
  recorded : ∀ d, s.OnList .vars d ∨ s.OnList .regs d → s.ints.toList d.readDeps ≠ .ok []

/-- What a run comes to: lists that are in order. It may be cut at a freed node, or where
there are more `write()`s than `write_n` can count. -/
def InOrder (es : List Event) : Exec State → Prop
  | .ok s => ListsInOrder s
  | .error f => f = .dangling ∨ f = .overflow ∧ 2 ^ 31 ≤ es.countP Event.isWrite

/-! ### Merging -/

theorem addVal_nodup {vs : List ℤ} (h : vs.Nodup) (v : ℤ) : (addVal vs v).Nodup := by
  unfold addVal
  split
  · exact h
  · next hv => exact h.append (List.nodup_singleton v) (List.disjoint_singleton.mpr hv)

/-- **Merging makes no repetitions**, whatever the second list is. -/
theorem mergeVals_nodup {vs ws : List ℤ} (h : vs.Nodup) : (mergeVals vs ws).Nodup := by
  induction ws generalizing vs with
  | nil => exact h
  | cons w ws ih => exact ih (addVal_nodup h w)

/-- Different numbers of reads that there have been. -/
def Numbers (n : ℤ) (vs : List ℤ) : Prop := vs.Nodup ∧ Issued n vs

theorem numbers_listProp (n : ℤ) : DepState.ListProp (Numbers n) where
  nil := ⟨List.nodup_nil, (issued_listProp n).nil⟩
  merge hvs hws := ⟨mergeVals_nodup hvs.1, (issued_listProp n).merge hvs.2 hws.2⟩

/-! ### Recording -/

namespace DepState

variable {a a' : DepState}

/-- Every entry of a temporary or of a register has something in its list. -/
def Recorded (a : DepState) : Prop := ∀ e, e ∈ a.vars ∨ e ∈ a.regs → e.deps ≠ []

/-- A step after which there are no other entries, or entries with something to record. -/
theorem Recorded.of_subset (h : a.Recorded)
    (hsub : ∀ e, e ∈ a'.vars ∨ e ∈ a'.regs → (e ∈ a.vars ∨ e ∈ a.regs) ∨ e.deps ≠ []) :
    a'.Recorded := fun e he => (hsub e he).elim (h e) id

theorem Recorded.eraseTmp {t : IRTemp} (h : a.Recorded) (he : a.eraseTmp t = .ok a') :
    a'.Recorded := by
  refine h.of_subset fun e hmem => .inl ?_
  obtain ⟨-, ⟨-, rfl⟩ | ⟨-, rfl⟩⟩ := eraseTmp_eq_ok he
  · exact hmem.imp_left List.mem_of_mem_filter
  -- what is left of the temporaries is where the registers were
  · exact .inl (List.mem_of_mem_filter (hmem.resolve_left List.not_mem_nil))

theorem Recorded.setShadow {addr : UWord} {deps : List ℤ} (h : a.Recorded)
    (hs : a.setShadow addr deps = .ok a') : a'.Recorded := by
  obtain ⟨-, tb, rfl, -⟩ := setShadow_eq_ok hs
  exact h

/-- **A helper makes an entry only if it has something to record.** -/
theorem call_recorded {c : HelperCall} (h : a.Recorded) (hc : a.call c = .ok a') :
    a'.Recorded := by
  obtain ⟨deps, -, hc⟩ := bind_eq_ok.mp hc
  cases assign_outcome hc with
  | exit => exact h.of_subset fun e he => .inl (.inr (he.resolve_left List.not_mem_nil))
  | skip => exact h
  | erase he => exact h.eraseTmp he
  | front _ _ hne he =>
    refine (h.eraseTmp he).of_subset fun e hmem => ?_
    simp only [prependVar, List.mem_cons] at hmem
    rcases hmem with (rfl | hmem) | hmem
    · exact .inr hne
    · exact .inl (.inl hmem)
    · exact .inl (.inr hmem)
  | back _ _ hne he =>
    refine (h.eraseTmp he).of_subset fun e hmem => ?_
    simp only [pushVar, List.mem_append, List.mem_singleton] at hmem
    rcases hmem with (hmem | rfl) | hmem
    · exact .inl (.inl hmem)
    · exact .inr hne
    · exact .inl (.inr hmem)
  | get hne =>
    refine h.of_subset fun e hmem => ?_
    simp only [prependVar, List.mem_cons] at hmem
    rcases hmem with (rfl | hmem) | hmem
    · exact .inr hne
    · exact .inl (.inl hmem)
    · exact .inl (.inr hmem)
  | clear hs | store _ hs => exact h.setShadow hs
  | put hne =>
    refine h.of_subset fun e hmem => ?_
    simp only [prependReg, DepState.eraseReg, List.mem_cons, List.mem_filter] at hmem
    rcases hmem with hmem | rfl | hmem
    · exact .inl (.inl hmem)
    · exact .inr hne
    · exact .inl (.inr hmem.1)
  | drop =>
    exact h.of_subset fun e hmem => .inl (hmem.imp_right List.mem_of_mem_filter)

/-- A hook makes no entry for a temporary or a register. -/
theorem preCall_recorded {n : ℕ} {args : ℕ → UWord} (h : a.Recorded)
    (hc : a.preCall n args = .ok a') : a'.Recorded := by
  obtain rfl | ⟨-, -, hc⟩ | ⟨-, -, hc⟩ := preCall_cases hc
  · exact h
  · obtain ⟨-, tb, rfl, -⟩ := preRead_eq_ok hc
    exact h
  · obtain ⟨-, deps, -, rfl⟩ := preWrite_eq_ok hc
    exact h

end DepState

/-! ### Along a run -/

open DepState

variable {s : State} {a a' : DepState} {es : List Event} {e : Event}

/-- The invariant of a run: what the lists are like after the events `es`. -/
structure Ordered (es : List Event) (a : DepState) : Prop where
  nonneg : 0 ≤ a.readN
  readN : a.readN ≤ es.countP Event.isRead
  writeN : a.writeN ≤ es.countP Event.isWrite
  numbers : a.ForallDeps (Numbers a.readN)
  recorded : a.Recorded

theorem ordered_init (trace : Bool) : Ordered [] (.init trace) where
  nonneg := Int.le_refl 0
  readN := Int.le_refl 0
  writeN := Int.le_refl 0
  numbers := ⟨fun e he => absurd he List.not_mem_nil, fun k => (numbers_listProp 0).nil⟩
  recorded e he := absurd he (by simp [init])

/-- **An event keeps the lists in order.** -/
theorem Ordered.step (h : Ordered es a) (he : a.step e = .ok a') : Ordered (es ++ [e]) a' := by
  have hreads := h.readN
  have hwrites := h.writeN
  have hmono : ∀ vs, Numbers a.readN vs → Numbers (a.readN + 1) vs := fun vs hvs =>
    ⟨hvs.1, hvs.2.mono (Int.le_add_one (Int.le_refl _))⟩
  have hsnoc : ∀ p : Event → Bool, (es ++ [e]).countP p = es.countP p + if p e then 1 else 0 := by
    intro p
    rw [List.countP_append, List.countP_singleton]
  cases e with
  | helper c =>
    have hsame := call_sameHooks he
    refine ⟨hsame.readN ▸ h.nonneg, ?_, ?_, hsame.readN ▸ ?_, call_recorded h.recorded he⟩
    · rw [hsame.readN, hsnoc]
      exact hreads
    · rw [hsame.writeN, hsnoc]
      exact hwrites
    · exact call_forallDeps (numbers_listProp _) h.numbers he
  | preCall n args =>
    have hrec := preCall_recorded h.recorded he
    obtain rfl | ⟨rfl, -, he⟩ | ⟨rfl, -, he⟩ :=
      preCall_cases (show a.preCall n args = .ok a' from he)
    · refine ⟨h.nonneg, ?_, ?_, h.numbers, hrec⟩
      · rw [hsnoc]
        omega
      · rw [hsnoc]
        omega
    · have hnew : Numbers (a.readN + 1) [a.readN + 1] := by
        refine ⟨List.nodup_singleton _, fun v hv => ?_⟩
        obtain rfl := List.mem_singleton.mp hv
        have := h.nonneg
        omega
      have hnumbers := h.numbers.preRead hmono hnew he
      obtain ⟨-, tb, rfl, -⟩ := preRead_eq_ok he
      refine ⟨Int.add_nonneg h.nonneg (by decide), ?_, ?_, hnumbers, hrec⟩
      · rw [hsnoc]
        simp only [Event.isRead, decide_true, if_true]
        omega
      · rw [hsnoc]
        simp only
        omega
    · have hnumbers := h.numbers.preWrite (numbers_listProp _) he
      obtain ⟨-, deps, -, rfl⟩ := preWrite_eq_ok he
      refine ⟨h.nonneg, ?_, ?_, hnumbers, hrec⟩
      · rw [hsnoc]
        simp only
        omega
      · rw [hsnoc]
        simp only [Event.isWrite, decide_true, if_true]
        omega

/-- **Inside the table a run keeps its lists in order**, as far as it goes. -/
theorem run_ordered {trace : Bool} (hin : InsideTable es)
    (hreads : es.countP Event.isRead < 2 ^ 31) :
    (∃ a, run DepState.step (.init trace) es = .ok a ∧ Ordered es a) ∨
      ∃ f, run DepState.step (.init trace) es = .error f ∧
        (f = .dangling ∨ f = .overflow ∧ 2 ^ 31 ≤ es.countP Event.isWrite) := by
  induction es using List.reverseRecOn with
  | nil => exact .inl ⟨_, rfl, ordered_init trace⟩
  | append_singleton es e ih =>
    rw [List.countP_append] at hreads
    have hin' : InsideTable es := fun e' he' => hin e' (List.mem_append_left _ he')
    rw [run_append, List.countP_append]
    rcases ih hin' (by omega) with ⟨a, ha, hord⟩ | ⟨f, hf, hcut⟩
    · rw [ha, ok_bind, run_cons]
      cases hstep : a.step e with
      | ok a' => exact .inl ⟨a', rfl, hord.step hstep⟩
      | error f =>
        refine .inr ⟨f, rfl, ?_⟩
        have hout : (∃ addr, e.Accesses addr ∧ ¬InTable addr) → False := fun ⟨addr, ha, hno⟩ =>
          hno (hin e (List.mem_append_right _ List.mem_cons_self) addr ha)
        have hr := hord.readN
        have hw := hord.writeN
        cases e with
        | helper c =>
          rcases call_error hstep with rfl | ⟨-, hacc⟩
          · exact .inl rfl
          · exact absurd hacc hout
        | preCall n args =>
          rcases preCall_error hstep with ⟨rfl, ⟨rfl, hover⟩ | ⟨rfl, hover⟩⟩ | ⟨-, hacc⟩
          -- there are numbers left for the reads
          · simp [Event.isRead] at hreads
            omega
          · refine .inr ⟨rfl, ?_⟩
            simp [Event.isWrite]
            omega
          · exact absurd hacc hout
    · rw [hf]
      refine .inr ⟨f, rfl, hcut.imp_right fun h => ⟨h.1, ?_⟩⟩
      exact h.2.trans (Nat.le_add_right _ _)

/-! ### From the lists to the state -/

/-- Each list of nodes goes through its entries, to `NULL` or to a freed node. -/
theorem NodesRep.seg_dead {P : ℕ → Ptr}
    (hn : NodesRep s.nodes s.varDeps s.regDeps s.writeDeps a P) (L : DepList) :
    ∃ q, Seg s.nodes (s.head L) ((a.entries L).map (cellOf P)) q ∧ s.nodes.Dead q := by
  cases L with
  | vars =>
    obtain ⟨q, hv, -, hdead, -⟩ := hn.vars
    exact ⟨q, hv, hdead⟩
  | regs => exact ⟨none, hn.regs, Heap.dead_none⟩
  | writes => exact ⟨none, hn.writes, Heap.dead_none⟩

/-- What is on a list is one of its entries. -/
theorem Rep.exists_entry (hr : Rep s a) {L : DepList} {d : ReadDep} (h : s.OnList L d) :
    ∃ e ∈ a.entries L, s.ints.toList d.readDeps = .ok e.deps := by
  obtain ⟨l, q, i, hs, hmem⟩ := h
  obtain ⟨⟨P, D, hn, hl⟩, -⟩ := hr
  obtain ⟨q', hs', hdead⟩ := hn.seg_dead L
  obtain ⟨e, he, heq⟩ := List.mem_map.mp ((hs.isPrefix hs' hdead).subset hmem)
  obtain ⟨rfl, rfl⟩ := Prod.mk.inj heq
  have hat := hl.listAt (.node e.id)
  simp only [placePtr, placeVals, hl.deps e (mem_all_iff.mpr ⟨L, he⟩)] at hat
  exact ⟨e, he, hat.toList⟩

theorem Rep.listsInOrder (hr : Rep s a) (h : Ordered es a) : ListsInOrder s := by
  have hread : s.readN = a.readN := hr.2.1
  refine ⟨fun k => ?_, fun L d hd => ?_, fun d hd hnil => ?_⟩
  · obtain ⟨⟨P, D, -, hl⟩, -⟩ := hr
    refine ⟨_, (hl.listAt (.shadow k)).toList, ?_⟩
    rw [hread]
    exact h.numbers.shadow k
  · obtain ⟨e, he, hvs⟩ := hr.exists_entry hd
    refine ⟨e.deps, hvs, ?_⟩
    rw [hread]
    exact h.numbers.all e (mem_all_iff.mpr ⟨L, he⟩)
  · obtain ⟨e, he, hvs⟩ : ∃ e, (e ∈ a.vars ∨ e ∈ a.regs) ∧
        s.ints.toList d.readDeps = .ok e.deps := by
      rcases hd with hd | hd
      · obtain ⟨e, he, hvs⟩ := hr.exists_entry hd
        exact ⟨e, .inl he, hvs⟩
      · obtain ⟨e, he, hvs⟩ := hr.exists_entry hd
        exact ⟨e, .inr he, hvs⟩
    rw [hvs] at hnil
    exact h.recorded e he (Except.ok.inj hnil)

/-- **Along every run inside the shadow table, with numbers left for its reads, the
dependency lists are in order.** -/
theorem run_inOrder {trace : Bool} {es : List Event} (hin : InsideTable es)
    (hreads : es.countP Event.isRead < 2 ^ 31) : InOrder es (run stepTool (.init trace) es) := by
  have hl := runTool_lockstep (rep_init trace) es
  obtain ⟨a, ha, hord⟩ | ⟨f, hf, hcut⟩ := @run_ordered es trace hin hreads
  · rw [ha] at hl
    obtain ⟨s, hs, hr⟩ := hl.exists_left
    rw [hs]
    exact hr.listsInOrder hord
  · rw [hf] at hl
    rw [hl.error_left]
    exact hcut

/-- A byte is read and loaded, and there are lists. -/
theorem run_inOrder_readLoad : InOrder readLoad (run stepTool (.init true) readLoad) :=
  run_inOrder insideTable_readLoad (by decide)

end DepLeak

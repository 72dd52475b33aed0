import DepLeak.Leak.Safety

/-!
# Allocations that are not counted

The detector counts a call of `malloc` once it has found out where the block goes, which it
asks of the next instruction: every allocation on a path is counted exactly if the
instruction after each of them is a store, to an address that the detector takes for a
location, if there are not too many of them, and if no other call adds an element, takes
one away or makes the detector stop (`DepLeak.countsAll_iff`). After a cast of the result, a
call that gets it, a return, or where it is not used at all, a block is allocated that is
never reported.
-/

namespace DepLeak

open Runs Detector

/-- A call of `malloc`. -/
def Instruction.isMalloc : Instruction → Bool
  | .call _ (some name) _ => name == "malloc"
  | _ => false

/-- A call of `free`. -/
def Instruction.isFree : Instruction → Bool
  | .call _ (some name) _ => name == "free"
  | _ => false

/-- The calls of `malloc` on a path, as elements of `mallocs`. -/
def mallocCalls (blocks : Blocks) (path : List BasicBlock) : List (Option Instruction) :=
  path.flatMap fun bb => ((blocks bb).filter Instruction.isMalloc).map some

/-- The elements of `mallocs` that are not `NULL`. -/
def Detector.live (d : Detector) : ℕ := d.mallocs.countP Option.isSome

/-- The calls of `malloc` that are still to come. -/
def Point.toCome (p : Point) (blocks : Blocks) : List (Option Instruction) :=
  (p.rest.filter Instruction.isMalloc).map some ++ mallocCalls blocks p.path

/-- **Every allocation is counted** on a path: the detector comes to each call of `malloc`, and
the call appends one element to `mallocs`. So on a path on which `free` is not called, the
elements of `mallocs` are the calls of `malloc` that were executed, and none is `NULL`; the
detector comes to its end, where there are as many live ones as calls on the path, and reports a
leak if there are any. -/
structure CountsAll (blocks : Blocks) (path : List BasicBlock) : Prop where
  comes : ∀ p c, Reached blocks path p → p.next = .error c → p.toCome blocks = []
  each : ∀ p id args rest, Reached blocks path p →
    p.rest = .call id (some "malloc") args :: rest →
      ∃ q, p.next = .ok (some q) ∧
        q.d.mallocs = p.d.mallocs ++ [some (.call id (some "malloc") args)]
  tally : (∀ bb ∈ path, ∀ i ∈ blocks bb, ¬i.isFree) → ∀ p, Reached blocks path p →
    p.d.mallocs ++ p.toCome blocks = mallocCalls blocks path
  all : (∀ bb ∈ path, ∀ i ∈ blocks bb, ¬i.isFree) → ∃ d blocks',
    run visitAt (Detector.init, blocks) path = .ok (d, blocks') ∧
      d.live = (mallocCalls blocks path).length ∧
        (0 < (mallocCalls blocks path).length →
          memoryLeakDetection blocks path = .ok (true, blocks'))

/-- The detector takes a call for one of `free`, and the element with this number is the one
that it clears: it is noted for the location that the instruction before loads from, unless
there is an instruction made of an address before the call now. -/
def Clears (name : String) (args : List Value) (before rest : List Instruction) (d : Detector)
    (n : ℕ) : Prop :=
  finds name "free" ∧ ¬(finds name "malloc" ∧ StoresToExpr rest) ∧
    ∃ d₁ id pointer l, memcpyCall name args d = .ok d₁ ∧
      adjacent before = some (.load id pointer) ∧ pointer.key = some l ∧ d₁.numberAt l = some n

variable {blocks : Blocks} {path : List BasicBlock} {p q : Point} {id : ℕ} {args : List Value}
  {name : String} {i : Instruction} {before before' rest : List Instruction} {d d' : Detector}

/-! ### One call -/

/-- **Where the detector stops.** -/
theorem Point.stops_iff (hp : p.d.InRange) : (∃ c, p.next = .error c) ↔
    ∃ i rest, p.rest = i :: rest ∧ ¬(Harmless (adjacent p.before) (adjacent rest) i ∧
      p.d.mallocs.length + (i.counts (adjacent rest)).toNat < 2 ^ 31) := by
  simp only [Point.next_eq_error_iff_visit]
  rw [← hp.malloc_id]
  constructor
  · rintro ⟨c, i, rest, hrest, hvisit⟩
    refine ⟨i, rest, hrest, fun hok => ?_⟩
    obtain ⟨r, hr⟩ := (visit_ok_iff hp).mpr hok
    cases hvisit.symm.trans hr
  · rintro ⟨i, rest, hrest, hnot⟩
    cases hvisit : visit i p.before rest p.d with
    | error c => exact ⟨c, i, rest, hrest, hvisit⟩
    | ok r => exact absurd ((visit_ok_iff hp).mp ⟨r, hvisit⟩) hnot

/-- **When a call of `malloc` appends an element.** -/
theorem next_malloc_iff (hp : p.d.InRange)
    (hrest : p.rest = .call id (some "malloc") args :: rest) :
    (∃ q, p.next = .ok (some q) ∧
        q.d.mallocs = p.d.mallocs ++ [some (.call id (some "malloc") args)]) ↔
      (storedTo (adjacent rest)).isSome ∧ p.d.mallocs.length + 1 < 2 ^ 31 := by
  have hnext : p.next =
      visitMalloc (.call id (some "malloc") args) p.before rest p.d >>= fun r =>
        .ok (some { p with
          d := r.1, before := .call id (some "malloc") args :: r.2, rest := rest }) := by
    simp only [Point.next, hrest, visit_call_malloc]
  rw [hnext, ← hp.malloc_id]
  constructor
  · rintro ⟨q, hq, hmallocs⟩
    obtain ⟨⟨d, before⟩, hvisit, hq⟩ := bind_eq_ok.mp hq
    obtain rfl := Option.some.inj (Except.ok.inj hq)
    have hd := visitMalloc_eq_ok hvisit
    cases hstored : storedTo (adjacent rest) with
    | none =>
      rw [hstored] at hd
      obtain rfl := Except.ok.inj hd
      exact absurd hmallocs (by simp)
    | some l =>
      rw [hstored] at hd
      exact ⟨rfl, (store?_eq_ok.mp hd).1⟩
  · rintro ⟨hstored, hlt⟩
    obtain ⟨l, hl⟩ := Option.isSome_iff_exists.mp hstored
    obtain ⟨value, pointer, hstore, hkey⟩ := exists_store_of_storedTo hl
    rw [visitMalloc_store hstore hkey, store?_of_lt hlt]
    exact ⟨_, rfl, mallocAt_mallocs⟩

/-- A call that is not counted changes nothing when it is looked at for one of `malloc`. -/
theorem mallocCall_eq (h : mallocCall name i before rest d = .ok (d', before'))
    (hnot : ¬(finds name "malloc" && (storedTo (adjacent rest)).isSome)) : d' = d := by
  unfold mallocCall at h
  split at h
  · rename_i hname
    rw [hname, Bool.true_and, Bool.not_eq_true, Option.isSome_eq_false_iff,
      Option.isNone_iff_eq_none] at hnot
    have hd := visitMalloc_eq_ok h
    rw [hnot] at hd
    exact (Except.ok.inj hd).symm
  · obtain ⟨rfl, -⟩ := Prod.mk.inj (Except.ok.inj h)
    rfl

/-- **What a call that is not counted does to `mallocs`**: it clears an element, or nothing. -/
theorem visit_call_mallocs
    (h : visit (.call id (some name) args) before rest d = .ok (d', before'))
    (hnot : ¬(Instruction.call id (some name) args).counts (adjacent rest)) :
    (∀ n, Clears name args before rest d n → d'.mallocs = d.mallocs.set n none) ∧
      ((∀ n, ¬Clears name args before rest d n) → d'.mallocs = d.mallocs) := by
  obtain ⟨d₁, hmemcpy, h⟩ := bind_eq_ok.mp h
  obtain ⟨⟨d₂, before₂⟩, hmalloc, h⟩ := bind_eq_ok.mp h
  have hfree : freeCall name before₂ d₂ = .ok (d', before') := h
  obtain rfl : d₂ = d₁ := mallocCall_eq hmalloc hnot
  have hsame : d₂.mallocs = d.mallocs := by
    obtain ⟨m, rfl⟩ := memcpyCall_eq_ok hmemcpy
    rfl
  rw [← hsame]
  have hbefore := ite_before visitMalloc_before hmalloc
  unfold freeCall at hfree
  constructor
  · rintro n ⟨hname, hsplice, d₁, id', pointer, l, hd₁, hload, hkey, hn⟩
    obtain rfl : d₁ = d₂ := Except.ok.inj (hd₁.symm.trans hmemcpy)
    obtain ⟨-, rfl⟩ := hbefore.resolve_right fun hyes => hsplice hyes.1
    rw [if_pos hname, visitFree_load hload hkey, hn] at hfree
    obtain ⟨d₃, hd₃, heq⟩ := bind_eq_ok.mp hfree
    obtain ⟨rfl, -⟩ := Prod.mk.inj (Except.ok.inj heq)
    rw [freeId_eq_ok hd₃]
    rfl
  · intro hnone
    split at hfree
    · rename_i hname
      rw [freeId_eq_ok (visitFree_eq_ok hfree)]
      cases hn : (loadedFrom (adjacent before₂)).bind d₂.numberAt with
      | none => rfl
      | some n =>
        obtain ⟨l, hl, hn⟩ := Option.bind_eq_some_iff.mp hn
        obtain ⟨id', pointer, hload, hkey⟩ := exists_load_of_loadedFrom hl
        rcases hbefore with ⟨hsplice, rfl⟩ | ⟨-, opcode, operands, rfl⟩
        · exact absurd ⟨hname, hsplice, d₂, id', pointer, l, hmemcpy, hload, hkey, hn⟩ (hnone n)
        · cases hload
    · obtain ⟨rfl, -⟩ := Prod.mk.inj (Except.ok.inj hfree)
      rfl

/-- What is no call changes nothing about them. -/
theorem visit_mallocs_of_ne (h : visit i before rest d = .ok (d', before'))
    (hi : ∀ id name args, i ≠ .call id (some name) args) : d'.mallocs = d.mallocs := by
  cases i with
  | load id pointer =>
    obtain ⟨rfl, -⟩ := Prod.mk.inj (Except.ok.inj h)
    unfold visitLoad
    split
    · split <;> rfl
    · rfl
  | call id callee args =>
    rcases callee with _ | name
    · cases h
    · exact absurd rfl (hi id name args)
  | _ =>
    obtain ⟨rfl, -⟩ := Prod.mk.inj (Except.ok.inj h)
    rfl

/-! ### A whole path -/

/-- Nothing that is put into a block is a call of `malloc`. -/
theorem Reached.filter_module (h : Reached blocks path p) (bb : BasicBlock) :
    (p.module bb).filter Instruction.isMalloc = (blocks bb).filter Instruction.isMalloc := by
  have hfilter : (p.module bb).filterMap (Option.guard Instruction.isMalloc) =
      (blocks bb).filterMap (Option.guard Instruction.isMalloc) :=
    Leads.filterMap_module h (fun _ _ => rfl) bb
  simpa only [List.filterMap_eq_filter] using hfilter

theorem Instruction.exists_of_isMalloc (h : i.isMalloc) :
    ∃ id args, i = .call id (some "malloc") args := by
  unfold Instruction.isMalloc at h
  split at h
  · rename_i id name args
    exact ⟨id, args, by rw [beq_iff_eq.mp h]⟩
  · cases h

/-- A call of `malloc` that was to come is there. -/
theorem Point.toCome_of_malloc (hnext : p.next = .ok (some q))
    (hrest : p.rest = .call id (some "malloc") args :: rest) :
    p.toCome blocks = some (.call id (some "malloc") args) :: q.toCome blocks := by
  obtain ⟨before, -, hq⟩ := Point.exists_visit hnext hrest
  rw [hq]
  simp [toCome, hrest, Instruction.isMalloc]

/-- After any other step, and at the start of a block, the same calls are to come. -/
theorem Reached.toCome_of_ne (h : Reached blocks path p) (hnext : p.next = .ok (some q))
    (hne : ∀ id args rest, p.rest ≠ .call id (some "malloc") args :: rest) :
    p.toCome blocks = q.toCome blocks := by
  rcases Point.next_cases hnext with ⟨i, rest, d, before, hrest, -, rfl⟩ |
    ⟨bb, path', hrest, hpath, rfl⟩
  · have hi : ¬i.isMalloc := fun hi => by
      obtain ⟨id, args, rfl⟩ := Instruction.exists_of_isMalloc hi
      exact hne id args rest hrest
    simp [Point.toCome, hrest, hi]
  · have hfilter := h.filter_module bb
    simp only [Point.module, hrest, List.append_nil] at hfilter
    simp [Point.toCome, hrest, hpath, mallocCalls, hfilter]

theorem isSome_of_mem_mallocCalls {o : Option Instruction} (h : o ∈ mallocCalls blocks path) :
    o.isSome := by
  obtain ⟨bb, -, h⟩ := List.mem_flatMap.mp h
  obtain ⟨i, -, rfl⟩ := List.mem_map.mp h
  rfl

/-- Where no element is `NULL`, none is cleared that leaves them as they were. -/
theorem not_clears_of_mallocs_eq (hd : d.InRange) (hsome : ∀ o ∈ d.mallocs, o.isSome)
    (h : visit (.call id (some name) args) before rest d = .ok (d', before'))
    (hnot : ¬(Instruction.call id (some name) args).counts (adjacent rest))
    (hsame : d'.mallocs = d.mallocs) (n : ℕ) : ¬Clears name args before rest d n := by
  intro hclears
  have hset := (visit_call_mallocs h hnot).1 n hclears
  obtain ⟨-, -, d₁, -, -, l, hd₁, -, -, hn⟩ := hclears
  have heffects : Relation.ReflTransGen (Effect (.call id (some name) args) before rest) d d₁ :=
    memcpyCall_effects rfl hd₁
  have hd₁' : d₁.InRange := effects_inRange heffects hd
  have hlt : n < d.mallocs.length := by
    have hlt := hd₁'.numbers l n hn
    obtain ⟨m, rfl⟩ := memcpyCall_eq_ok hd₁
    exact hlt
  have hnone : d.mallocs[n]? = some none := by
    rw [← hsame, hset, List.getElem?_set_self hlt]
  exact absurd (hsome none (List.mem_of_getElem? hnone)) (by simp)

/-- **The tally**, step by step: if each call of `malloc` appends itself, and no other call
changes the elements. -/
theorem Reached.tally (h : Reached blocks path p)
    (heach : ∀ p id args rest, Reached blocks path p →
      p.rest = .call id (some "malloc") args :: rest →
        ∃ q, p.next = .ok (some q) ∧
          q.d.mallocs = p.d.mallocs ++ [some (.call id (some "malloc") args)])
    (hother : ∀ p q id name args rest, Reached blocks path p → p.next = .ok (some q) →
      p.rest = .call id (some name) args :: rest → name ≠ "malloc" →
        q.d.mallocs = p.d.mallocs) :
    p.d.mallocs ++ p.toCome blocks = mallocCalls blocks path := by
  induction h with
  | refl => rfl
  | @tail p q hp hnext ih =>
    by_cases hmalloc : ∃ id args rest, p.rest = .call id (some "malloc") args :: rest
    · obtain ⟨id, args, rest, hrest⟩ := hmalloc
      obtain ⟨q', hnext', hmallocs⟩ := heach p id args rest hp hrest
      obtain rfl := Option.some.inj (Except.ok.inj (hnext.symm.trans hnext'))
      rw [hmallocs, List.append_assoc, List.singleton_append,
        ← Point.toCome_of_malloc hnext hrest, ih]
    · have hcome : p.toCome blocks = q.toCome blocks :=
        Reached.toCome_of_ne hp hnext fun id args rest heq => hmalloc ⟨id, args, rest, heq⟩
      suffices hsame : q.d.mallocs = p.d.mallocs by rw [hsame, ← hcome, ih]
      by_cases hcall : ∃ id name args rest, p.rest = .call id (some name) args :: rest
      · obtain ⟨id, name, args, rest, hrest⟩ := hcall
        refine hother p q id name args rest hp hnext hrest ?_
        rintro rfl
        exact hmalloc ⟨id, args, rest, hrest⟩
      · rcases Point.next_cases hnext with ⟨i, rest, d, before, hrest, hvisit, rfl⟩ |
          ⟨bb, path', -, -, rfl⟩
        · refine visit_mallocs_of_ne hvisit ?_
          rintro id name args rfl
          exact hcall ⟨id, name, args, rest, hrest⟩
        · rfl

/-- **When every allocation on a path is counted.** First, nothing makes the detector stop while
a call of `malloc` is to come. Second, the instruction after each of them is a store, to an
address that the detector takes for a location, that is, not to a constant expression, or to
the constant address of a field with a constant index; and there are not `2 ^ 31 - 1` elements
before. Third, if `free` is not called on the path, nothing on it makes the detector stop, and
no other call that is executed is counted, or clears an element. -/
theorem countsAll_iff : CountsAll blocks path ↔
    (∀ p i rest, Reached blocks path p → p.rest = i :: rest → p.toCome blocks ≠ [] →
      Harmless (adjacent p.before) (adjacent rest) i ∧
        p.d.mallocs.length + (i.counts (adjacent rest)).toNat < 2 ^ 31) ∧
    (∀ p id args rest, Reached blocks path p →
      p.rest = .call id (some "malloc") args :: rest →
        (storedTo (adjacent rest)).isSome ∧ p.d.mallocs.length + 1 < 2 ^ 31) ∧
    ((∀ bb ∈ path, ∀ i ∈ blocks bb, ¬i.isFree) →
      ((∀ bb ∈ path, HarmlessFrom none (blocks bb)) ∧ countedOn blocks path < 2 ^ 31) ∧
      ∀ p q id name args rest, Reached blocks path p → p.next = .ok (some q) →
        p.rest = .call id (some name) args :: rest → name ≠ "malloc" →
          ¬(Instruction.call id (some name) args).counts (adjacent rest) ∧
            ∀ n, ¬Clears name args p.before rest p.d n) := by
  constructor
  · intro h
    refine ⟨fun p i rest hp hrest hcome => ?_, fun p id args rest hp hrest =>
      (next_malloc_iff hp.inRange hrest).mp (h.each p id args rest hp hrest), fun hfree => ?_⟩
    · by_contra hnot
      obtain ⟨c, hc⟩ := (Point.stops_iff hp.inRange).mpr ⟨i, rest, hrest, hnot⟩
      exact hcome (h.comes p c hp hc)
    obtain ⟨d, blocks', hrun, -⟩ := h.all hfree
    refine ⟨memoryLeakDetection_ok_iff.mp ⟨_, by rw [memoryLeakDetection, hrun]; rfl⟩, ?_⟩
    intro p q id name args rest hp hnext hrest hname
    have htally := h.tally hfree p hp
    -- the call is none that is still to come, so that `mallocs` does not change
    have hcome : p.toCome blocks = q.toCome blocks := by
      refine hp.toCome_of_ne hnext fun id' args' rest' heq => ?_
      rw [hrest] at heq
      simp only [List.cons.injEq, Instruction.call.injEq, Option.some.injEq] at heq
      exact hname heq.1.2.1
    have hsame : q.d.mallocs = p.d.mallocs := by
      have htally' := h.tally hfree q (hp.next hnext)
      rw [← htally, hcome] at htally'
      exact List.append_cancel_right htally'
    obtain ⟨before, hvisit, -⟩ := Point.exists_visit hnext hrest
    have hnot : ¬(Instruction.call id (some name) args).counts (adjacent rest) := by
      intro hcounts
      have hid := visit_malloc_id hvisit
      rw [hcounts, hp.inRange.malloc_id, (hp.next hnext).inRange.malloc_id, hsame] at hid
      exact absurd hid (Nat.ne_of_lt (Nat.lt_succ_self _))
    have hsome : ∀ o ∈ p.d.mallocs, o.isSome := fun o ho =>
      isSome_of_mem_mallocCalls (htally ▸ List.mem_append_left _ ho)
    exact ⟨hnot, not_clears_of_mallocs_eq hp.inRange hsome hvisit hnot hsame⟩
  · rintro ⟨hcomes, hmalloc, hother⟩
    have heach : ∀ p id args rest, Reached blocks path p →
        p.rest = .call id (some "malloc") args :: rest →
          ∃ q, p.next = .ok (some q) ∧
            q.d.mallocs = p.d.mallocs ++ [some (.call id (some "malloc") args)] :=
      fun p id args rest hp hrest =>
        (next_malloc_iff hp.inRange hrest).mpr (hmalloc p id args rest hp hrest)
    have htally : (∀ bb ∈ path, ∀ i ∈ blocks bb, ¬i.isFree) → ∀ p, Reached blocks path p →
        p.d.mallocs ++ p.toCome blocks = mallocCalls blocks path := by
      intro hfree p hp
      refine hp.tally heach fun p q id name args rest hp hnext hrest hname => ?_
      obtain ⟨hnot, hclears⟩ := (hother hfree).2 p q id name args rest hp hnext hrest hname
      obtain ⟨before, hvisit, -⟩ := Point.exists_visit hnext hrest
      exact (visit_call_mallocs hvisit hnot).2 hclears
    refine ⟨fun p c hp hc => ?_, heach, htally, fun hfree => ?_⟩
    · obtain ⟨i, rest, hrest, hnot⟩ := (Point.stops_iff hp.inRange).mp ⟨c, hc⟩
      by_contra hcome
      exact hnot (hcomes p i rest hp hrest hcome)
    obtain ⟨r, hr⟩ := memoryLeakDetection_ok_iff.mpr (hother hfree).1
    obtain ⟨⟨d, blocks'⟩, hrun, -⟩ := bind_eq_ok.mp hr
    -- at the end of the path none is to come
    obtain ⟨q, hq, hdone, rfl⟩ := exists_last (p := .start blocks path) hrun
    obtain ⟨hrest, hpath⟩ := Point.next_eq_none_iff.mp hdone
    have hmallocs : q.d.mallocs = mallocCalls blocks path := by
      rw [← htally hfree q hq]
      simp [Point.toCome, hrest, hpath, mallocCalls]
    have hlive : q.d.live = (mallocCalls blocks path).length := by
      rw [live, hmallocs, List.countP_eq_length]
      exact fun o => isSome_of_mem_mallocCalls
    refine ⟨_, _, hrun, hlive, fun hpos => ?_⟩
    obtain ⟨o, ho⟩ := List.exists_mem_of_length_pos hpos
    have hleaks : q.d.leaks = true :=
      List.any_eq_true.mpr ⟨o, hmallocs ▸ ho, isSome_of_mem_mallocCalls ho⟩
    rw [memoryLeakDetection, hrun, ← hleaks]
    rfl

/-- `int *p = malloc(10);`: the result is cast before it is stored. -/
def castFirst : Blocks := fun _ =>
  [.call 0 (some "malloc") [.constantInt 10], .other 1, .store (.result 1 "") (.global "p"),
    .terminator []]

/-- **A block is not counted** when its pointer is cast first: there is no leak on a path that
does nothing but allocate it. -/
theorem not_countsAll : ¬∀ blocks path, CountsAll blocks path := by
  intro h
  have hfree : ∀ bb ∈ [0], ∀ i ∈ castFirst bb, ¬i.isFree := by
    simp [castFirst, Instruction.isFree]
  obtain ⟨d, blocks', hrun, hlive, -⟩ := (h castFirst [0]).all hfree
  have hnone : (run visitAt (Detector.init, castFirst) [0]).map (fun s => s.1.live) = .ok 0 := rfl
  rw [hrun] at hnone
  have hlive0 : d.live = 0 := Except.ok.inj hnone
  exact absurd (hlive0.symm.trans hlive) (by decide)

end DepLeak

import DepLeak.Dep.Update

/-!
# The tool refines its model on lists

Every helper and every hook of the tool moves in lockstep with its counterpart on
lists (`DepLeak.callHelper_lockstep`, `DepLeak.taPreCall_lockstep`), and so does every
run of them (`DepLeak.runTool_lockstep`).

A helper looks up and copies the lists of its operands, merges the copies, and hands
the result to an update. The copies are lists on the side
(`LinkedHeap.Side`), the merged one is the list in the hand, and the updates are those
of `DepLeak.Dep.Update`.
-/

namespace DepLeak

open LinkedHeap Runs

variable {s : State} {a a' : DepState} {p : Ptr} {vs : List ℤ}

/-! ### Recording what a helper has collected -/

/-- What a helper does with the list in its hand, if there is one. -/
theorem RepHand.ite_lockstep {x : Exec State} {y : Exec DepState} (hr : RepHand s a p vs)
    (h : Lockstep Rep x y) :
    Lockstep Rep (if p = none then .ok s else x) (if vs = [] then .ok a else y) := by
  by_cases hp : p = none
  · rw [if_pos hp, if_pos (hr.eq_none_iff.mp hp)]
    exact .ok (hr.of_none hp)
  · rw [if_neg hp, if_neg fun hvs => hp (hr.eq_none_iff.mpr hvs)]
    exact h

/-- The end of the helpers that put their entry in front. -/
theorem recordFront_lockstep (hr : RepHand s a p vs) (t : BitVec 32) :
    Lockstep Rep
      (if p = none then .ok s else readDepNodeEraseTmp s t >>= fun s => prependVar s t p)
      (a.recordFront t vs) := by
  refine hr.ite_lockstep ((readDepNodeEraseTmp_lockstep hr t).bind fun s' a' he => ?_)
  obtain ⟨s'', hpre, hr'⟩ := prependVar_spec he.1 t
  rw [hpre]
  exact .ok hr'

/-- The helpers of one and of two operands, after their lookups. -/
theorem recordFront_of_collected (hr : Rep s a) {sl : State × Ptr} (hc : Collected s [] sl vs)
    (t : BitVec 32) :
    Lockstep Rep
      (if sl.2 = none then .ok sl.1
        else readDepNodeEraseTmp sl.1 t >>= fun s => prependVar s t sl.2)
      (a.recordFront t vs) := by
  obtain ⟨ints, hs, hside⟩ := hc
  rw [hs]
  exact recordFront_lockstep (hr.hold hside) t

/-! ### The helpers -/

theorem instrumentAssgnTmpUnop_lockstep (hr : Rep s a) (t t₁ : BitVec 32) :
    Lockstep Rep (instrumentAssgnTmpUnop s t t₁) (a.call (.assgnTmpUnop t t₁)) := by
  simp only [DepState.call, DepState.source, DepState.depsOf, DepState.mergeTmps, bind_assoc,
    ok_bind]
  exact (getDepsTmp_lockstep hr (.nil _) t₁).bind fun sl vs hc => recordFront_of_collected hr hc t

theorem instrumentAssgnTmpBinop_lockstep (hr : Rep s a) (t t₁ t₂ : BitVec 32) :
    Lockstep Rep (instrumentAssgnTmpBinop s t t₁ t₂) (a.call (.assgnTmpBinop t t₁ t₂)) := by
  simp only [DepState.call, DepState.source, DepState.depsOf, DepState.mergeTmps, bind_assoc,
    ok_bind]
  refine (getDepsTmp_lockstep hr (.nil _) t₁).bind ?_
  rintro ⟨-, q₁⟩ vs₁ ⟨ints₁, rfl, hs₁⟩
  refine (getDepsTmp_lockstep hr hs₁ t₂).bind ?_
  rintro ⟨-, q₂⟩ vs₂ ⟨ints₂, rfl, hs₂⟩
  obtain ⟨ints, q, hmerge, hs⟩ := mergeDeps_spec (s := s) hs₂
  simp only [hmerge, ok_bind]
  exact recordFront_lockstep (hr.hold hs) t

theorem instrumentAssgnTmpTriop_lockstep (hr : Rep s a) (t t₁ t₂ t₃ : BitVec 32) :
    Lockstep Rep (instrumentAssgnTmpTriop s t t₁ t₂ t₃) (a.call (.assgnTmpTriop t t₁ t₂ t₃)) := by
  simp only [DepState.call, DepState.source, DepState.depsOf, DepState.mergeTmps, bind_assoc,
    ok_bind]
  refine (getDepsTmp_lockstep hr (.nil _) t₁).bind ?_
  rintro ⟨-, q₁⟩ vs₁ ⟨ints₁, rfl, hs₁⟩
  refine (getDepsTmp_lockstep hr hs₁ t₂).bind ?_
  rintro ⟨-, q₂⟩ vs₂ ⟨ints₂, rfl, hs₂⟩
  refine (getDepsTmp_lockstep hr hs₂ t₃).bind ?_
  rintro ⟨-, q₃⟩ vs₃ ⟨ints₃, rfl, hs₃⟩
  obtain ⟨ints₄, q₄, hmerge₄, hs₄⟩ := mergeDeps_spec (s := s) hs₃
  obtain ⟨ints, q, hmerge, hs⟩ := mergeDeps_spec (s := s) hs₄
  simp only [hmerge₄, hmerge, ok_bind]
  exact recordFront_lockstep (hr.hold hs) t

/-- The end of `instrument_assgn_tmp_qop`: a copy of the list in the hand is recorded,
and the list itself is forgotten. -/
theorem recordCopy_lockstep (hr : RepHand s a p vs) (t : BitVec 32) :
    Lockstep Rep (copyDeps s p >>= fun sl => appendVar sl.1 t sl.2)
      (a.appendVar t vs >>= fun a => .ok { a with lost := true }) := by
  obtain ⟨⟨P, D, hn, hl⟩, hsc⟩ := hr
  have hforget : Rep s { a with lost := true } := by
    refine ⟨⟨P, D, ⟨hn.vars, hn.regs, hn.writes, hn.nodup, (fun h => by cases h), hn.top⟩,
      hl.deps, hl.stray, ?_, hl.pages⟩, hsc⟩
    refine hl.lists.forget _ _ fun k => ?_
    cases k with
    | hand => exact Or.inr ⟨rfl, rfl⟩
    | _ => exact Or.inl ⟨rfl, rfl⟩
  obtain ⟨⟨s', q⟩, hcopy, ints, hs', hside⟩ :=
    copyDeps_collected (s := s) (.nil _) (hl.listAt .hand)
  obtain rfl : s' = { s with ints := ints } := hs'
  have happ := appendVar_lockstep (hforget.hold hside) t
  have hsame : (a.appendVar t vs >>= fun a => .ok { a with lost := true }) =
      ({ a with lost := true } : DepState).appendVar t vs := by
    simp only [DepState.appendVar]
    split <;> rfl
  change Lockstep Rep (copyDeps { s with ints := s.ints } (placePtr s.shadowMem P p .hand) >>= _) _
  rw [hcopy, hsame]
  exact happ

theorem instrumentAssgnTmpQop_lockstep (hr : Rep s a) (t t₁ t₂ t₃ t₄ : BitVec 32) :
    Lockstep Rep (instrumentAssgnTmpQop s t t₁ t₂ t₃ t₄)
      (a.call (.assgnTmpQop t t₁ t₂ t₃ t₄)) := by
  simp only [DepState.call, DepState.source, DepState.depsOf, DepState.mergeTmps, bind_assoc,
    ok_bind]
  refine (getDepsTmp_lockstep hr (.nil _) t₁).bind ?_
  rintro ⟨-, q₁⟩ vs₁ ⟨ints₁, rfl, hs₁⟩
  refine (getDepsTmp_lockstep hr hs₁ t₂).bind ?_
  rintro ⟨-, q₂⟩ vs₂ ⟨ints₂, rfl, hs₂⟩
  refine (getDepsTmp_lockstep hr hs₂ t₃).bind ?_
  rintro ⟨-, q₃⟩ vs₃ ⟨ints₃, rfl, hs₃⟩
  refine (getDepsTmp_lockstep hr hs₃ t₄).bind ?_
  rintro ⟨-, q₄⟩ vs₄ ⟨ints₄, rfl, hs₄⟩
  obtain ⟨ints₅, q₅, hmerge₅, hs₅⟩ := mergeDeps_spec (s := s) hs₄
  obtain ⟨ints₆, q₆, hmerge₆, hs₆⟩ := mergeDeps_spec (s := s) hs₅
  obtain ⟨ints, q, hmerge, hs⟩ := mergeDeps_spec (s := s) hs₆
  simp only [hmerge₅, hmerge₆, hmerge, ok_bind, DepState.assign, DepState.recordBack]
  have hhold := hr.hold hs
  generalize mergeVals (mergeVals (mergeVals vs₁ vs₂) vs₃) vs₄ = vs at hhold ⊢
  by_cases hq : q = none
  · have hvs := hhold.eq_none_iff.mp hq
    simp only [if_pos hq, hvs, ne_eq, not_true, decide_false, Bool.or_false]
    exact .ok (hhold.of_none hq)
  · have hvs : vs ≠ [] := fun hvs => hq (hhold.eq_none_iff.mpr hvs)
    simp only [if_neg hq, if_neg hvs, decide_eq_true hvs, Bool.or_true, bind_assoc]
    exact (readDepNodeEraseTmp_lockstep hhold t).bind fun s' a' he => recordCopy_lockstep he.1 t

theorem instrumentAssgnTmpLoad_lockstep (hr : Rep s a) (t : BitVec 32) (addr : UWord) :
    Lockstep Rep (instrumentAssgnTmpLoad s t addr) (a.call (.assgnTmpLoad t addr)) := by
  have hget := getShadowMem_lockstep hr addr
  rw [instrumentAssgnTmpLoad, DepState.call]
  cases hq : getShadowMem s addr with
  | error f =>
    rw [hq] at hget
    rw [DepState.source, hget.eq_error]
    exact .error f
  | ok q =>
    obtain ⟨vs, hvs, hat⟩ := hget.ok_right hq
    rw [DepState.source, hvs, ok_bind, ok_bind, DepState.assign, DepState.recordBack]
    by_cases hnone : q = none
    · rw [if_pos hnone, if_pos (hat.eq_none_iff.mp hnone)]
      exact .ok hr
    · rw [if_neg hnone, if_neg fun h => hnone (hat.eq_none_iff.mpr h)]
      refine (readDepNodeEraseTmp_lockstep hr t).bind ?_
      rintro s' a' ⟨hr', hmem, hshadow⟩
      -- the list was looked up before the erasing, which has left the table alone
      have hat' : ListAt s'.ints q vs := by
        have hget' := getShadowMem_lockstep hr' addr
        rw [getShadowMem, hmem, DepState.getShadow, hshadow] at hget'
        rw [getShadowMem] at hq
        rw [DepState.getShadow] at hvs
        rw [hq, hvs] at hget'
        cases hget' with
        | ok h => exact h
      obtain ⟨⟨s'', q'⟩, hcopy, ints, hs'', hside⟩ := copyDeps_collected (s := s') (.nil _) hat'
      obtain rfl : s'' = { s' with ints := ints } := hs''
      change Lockstep Rep (copyDeps { s' with ints := s'.ints } q >>= _) _
      rw [hcopy, ok_bind]
      exact appendVar_lockstep (hr'.hold hside) t

theorem instrumentAssgnTmpGet_lockstep (hr : Rep s a) (t r : BitVec 32) :
    Lockstep Rep (instrumentAssgnTmpGet s t r) (a.call (.assgnTmpGet t r)) := by
  obtain ⟨q, hfind, hat⟩ := findReadDepReg_spec hr r
  obtain ⟨⟨s', q'⟩, hcopy, ints, hs', hside⟩ := copyDeps_collected (s := s) (.nil _) hat
  obtain rfl : s' = { s with ints := ints } := hs'
  have hhold := hr.hold hside
  have hget : getDepsReg s r = .ok ({ s with ints := ints }, q') := by
    rw [getDepsReg, hfind, ok_bind]
    exact hcopy
  simp only [instrumentAssgnTmpGet, hget, ok_bind, DepState.call, DepState.source, DepState.assign]
  refine hhold.ite_lockstep ?_
  obtain ⟨s'', hpre, hr'⟩ := prependVar_spec hhold t
  rw [hpre]
  exact .ok hr'

theorem instrumentStoreTmp_lockstep (hr : Rep s a) (addr : UWord) (t : BitVec 32) :
    Lockstep Rep (instrumentStoreTmp s addr t) (a.call (.storeTmp addr t)) := by
  simp only [DepState.call, DepState.source, DepState.depsOf, DepState.mergeTmps, bind_assoc,
    ok_bind]
  refine (getDepsTmp_lockstep hr (.nil _) t).bind ?_
  rintro ⟨-, q⟩ vs ⟨ints, rfl, hs⟩
  have hhold := hr.hold hs
  exact hhold.ite_lockstep (setShadowMem_lockstep hhold addr)

theorem instrumentPutTmp_lockstep (hr : Rep s a) (r t : BitVec 32) :
    Lockstep Rep (instrumentPutTmp s r t) (a.call (.putTmp r t)) := by
  simp only [DepState.call, DepState.source, DepState.depsOf, DepState.mergeTmps, bind_assoc,
    ok_bind]
  refine (getDepsTmp_lockstep hr (.nil _) t).bind ?_
  rintro ⟨-, q⟩ vs ⟨ints, rfl, hs⟩
  have hhold := hr.hold hs
  refine hhold.ite_lockstep ?_
  obtain ⟨s', herase, he⟩ := readDepNodeEraseReg_spec hhold r
  obtain ⟨s'', hpre, hr'⟩ := prependReg_spec he.1 r
  rw [herase, ok_bind, hpre]
  exact .ok hr'

/-- **Every helper moves in lockstep with its model.** -/
theorem callHelper_lockstep (hr : Rep s a) (c : HelperCall) :
    Lockstep Rep (callHelper s c) (a.call c) := by
  cases c with
  | assgnTmpLoad t addr => exact instrumentAssgnTmpLoad_lockstep hr t addr
  | exit => exact instrumentExit_lockstep hr
  | assgnTmpConst t => exact (readDepNodeEraseTmp_lockstep hr t).mono fun _ _ he => he.1
  | assgnTmpUnop t t₁ => exact instrumentAssgnTmpUnop_lockstep hr t t₁
  | assgnTmpBinop t t₁ t₂ => exact instrumentAssgnTmpBinop_lockstep hr t t₁ t₂
  | assgnTmpTriop t t₁ t₂ t₃ => exact instrumentAssgnTmpTriop_lockstep hr t t₁ t₂ t₃
  | assgnTmpQop t t₁ t₂ t₃ t₄ => exact instrumentAssgnTmpQop_lockstep hr t t₁ t₂ t₃ t₄
  | storeConst addr => exact setShadowMem_lockstep hr addr
  | storeTmp addr t => exact instrumentStoreTmp_lockstep hr addr t
  | putTmp r t => exact instrumentPutTmp_lockstep hr r t
  | putCnst r =>
    obtain ⟨s', herase, he⟩ := readDepNodeEraseReg_spec hr r
    change Lockstep Rep (readDepNodeEraseReg s r) _
    rw [herase]
    exact .ok he.1
  | assgnTmpGet t r => exact instrumentAssgnTmpGet_lockstep hr t r

/-! ### The hooks -/

/-- `read_n` can be changed on both sides. -/
theorem RepHand.setReadN (hr : RepHand s a p vs) (n : ℤ) :
    RepHand { s with readN := n } { a with readN := n } p vs := by
  obtain ⟨⟨P, D, hn, hl⟩, -, hw, ht⟩ := hr
  exact ⟨⟨P, D, ⟨hn.vars, hn.regs, hn.writes, hn.nodup, hn.owned, hn.top⟩, hl.deps, hl.stray,
    hl.lists, hl.pages⟩, rfl, hw, ht⟩

/-- `write_n` can be changed on both sides. -/
theorem RepHand.setWriteN (hr : RepHand s a p vs) (n : ℤ) :
    RepHand { s with writeN := n } { a with writeN := n } p vs := by
  obtain ⟨⟨P, D, hn, hl⟩, hrn, -, ht⟩ := hr
  exact ⟨⟨P, D, ⟨hn.vars, hn.regs, hn.writes, hn.nodup, hn.owned, hn.top⟩, hl.deps, hl.stray,
    hl.lists, hl.pages⟩, hrn, rfl, ht⟩

theorem readByte_lockstep (p : UWord) (hr : Rep s a) (i : ℕ) :
    Lockstep Rep (readByte p s i) (a.readByte p i) := by
  have hside : Side s.ints (s.ints.alloc ⟨s.readN, none⟩) [(some s.ints.top, [s.readN])] :=
    (Side.nil s.ints).copy (Grows.alloc s.ints s.readN)
  have hhold := hr.hold hside
  rw [hr.2.1] at hhold
  rw [readByte, intListCreate, hr.2.1]
  refine (setShadowMem_lockstep hhold (p + BitVec.ofNat 64 i)).bind fun s' a' hr' => ?_
  cases incr i with
  | error f => exact .error f
  | ok n => exact .ok hr'

theorem taPreRead_lockstep (hr : Rep s a) (args : ℕ → UWord) :
    Lockstep Rep (taPreRead s args) (a.preRead args) := by
  rw [taPreRead, DepState.preRead, hr.2.1]
  cases incr a.readN with
  | error f => exact .error f
  | ok n =>
    exact run_lockstep (fun i _ s a hr => readByte_lockstep (args 1) hr i) (hr.setReadN n)

/-- **The union of the lists of a buffer**, built on the side. -/
theorem findReadDepByMemAddrs_lockstep (hr : Rep s a) (addr size : UWord) :
    Lockstep (Collected s []) (findReadDepByMemAddrs s addr size) (a.memDeps addr size) := by
  refine run_lockstep (R := Collected s []) (fun i _ sl vs hc => ?_)
    ⟨s.ints, rfl, (Side.nil _).copy (.nil _)⟩
  obtain ⟨s', q⟩ := sl
  obtain ⟨ints, rfl, hside⟩ := hc
  have hget := getShadowMem_lockstep hr (addr + BitVec.ofNat 64 i)
  change Lockstep _ (getShadowMem s (addr + BitVec.ofNat 64 i) >>= _) _
  cases hq : getShadowMem s (addr + BitVec.ofNat 64 i) with
  | error f =>
    rw [hq] at hget
    rw [DepState.mergeByte, hget.eq_error]
    exact .error f
  | ok q' =>
    obtain ⟨ws, hws, hat⟩ := hget.ok_right hq
    obtain ⟨⟨s'', q''⟩, hcopy, ints', hs'', hside'⟩ := copyDeps_collected hside hat
    obtain rfl : s'' = { s with ints := ints' } := hs''
    obtain ⟨ints'', r, hmerge, hside''⟩ := mergeDeps_spec (s := s) hside'
    simp only [ok_bind, hcopy, hmerge, DepState.mergeByte, hws]
    exact .ok ⟨ints'', rfl, hside''⟩

theorem taPreWrite_lockstep (hr : Rep s a) (args : ℕ → UWord) :
    Lockstep Rep (taPreWrite s args) (a.preWrite args) := by
  rw [taPreWrite, DepState.preWrite, hr.2.2.1]
  cases incr a.writeN with
  | error f => exact .error f
  | ok n =>
    have hr' := hr.setWriteN n
    have hmem := findReadDepByMemAddrs_lockstep hr' (args 1) (args 2)
    refine hmem.bind ?_
    rintro ⟨s', q⟩ vs ⟨ints, hs', hside⟩
    obtain rfl : s' = { s with writeN := n, ints := ints } := hs'
    obtain ⟨nodes, head, happ, hrep⟩ := appendWrite_spec (hr'.hold hside) n
    simp only [happ, ok_bind]
    exact .ok hrep

/-- **The system-call hook moves in lockstep with its model.** -/
theorem taPreCall_lockstep (hr : Rep s a) (syscallno : ℕ) (args : ℕ → UWord) :
    Lockstep Rep (taPreCall s syscallno args) (a.preCall syscallno args) := by
  rw [taPreCall, DepState.preCall, hr.2.2.2]
  cases a.trace with
  | false => exact .ok hr
  | true =>
    have hread : Lockstep Rep (if syscallno = nrRead then taPreRead s args else .ok s)
        (if syscallno = nrRead then a.preRead args else .ok a) := by
      split
      · exact taPreRead_lockstep hr args
      · exact .ok hr
    refine hread.bind fun s' a' hr' => ?_
    by_cases hw : syscallno = nrWrite
    · simp only [if_pos hw]
      exact taPreWrite_lockstep hr' args
    · simp only [if_neg hw]
      exact .ok hr'

/-! ### Runs -/

theorem stepTool_lockstep (hr : Rep s a) (e : Event) : Lockstep Rep (stepTool s e) (a.step e) := by
  cases e with
  | helper c => exact callHelper_lockstep hr c
  | preCall n args => exact taPreCall_lockstep hr n args

/-- **Every run of the tool moves in lockstep with a run on lists.** -/
theorem runTool_lockstep (hr : Rep s a) (es : List Event) :
    Lockstep Rep (run stepTool s es) (run DepState.step a es) :=
  run_lockstep (fun e _ _ _ hr => stepTool_lockstep hr e) hr

end DepLeak

import DepLeak.Dep.Exits
import DepLeak.Dep.Registers

/-!
# One superblock in two states

A superblock is executed in two states that have the same lists in the shadow table and the
same for all registers but some (`DepLeak.DepState.SameStores`), and nothing in common in
`var_deps`. If both executions are local (`DepLeak.Local`) and neither erases the first entry
of `var_deps`, the two find and leave the same (`DepLeak.abreast_run`).

Between the two go the executions from the same states with a `NULL` `var_deps`: each of the
two has the lists of its own one at every lookup, which is what local means, and these have
the same lists because they start with none.
-/

namespace DepLeak

open LinkedHeap Runs Flow

/-- The helper of a statement erases no first entry of `var_deps`. -/
def Spares (ρ : IRTemp → UWord) (s : State) (st : IRStmt) : Prop :=
  ∀ c, stmtCall ρ st = some c → ¬ErasesHead s c

/-- No helper of an execution does. -/
def SparesHeads (ρ : IRTemp → UWord) (s : State) (B : List IRStmt) : Prop :=
  Along (stepStmt ρ) (Spares ρ) s (executed ρ B)

/-! ### One helper in two states -/

namespace DepState

variable {a a' b n m n' : DepState} {F F' : BitVec 32 → Prop} {T : List IRTemp} {c : HelperCall}
  {deps : List ℤ}

/-- **Two states with the same stores**: the same is recorded for every slot of the shadow
table, and for every register but those in `F`. -/
structure SameStores (F : BitVec 32 → Prop) (a b : DepState) : Prop where
  dangling : a.dangling = false
  dangling' : b.dangling = false
  regs : ∀ r, ¬F r → a.findReg r = b.findReg r
  shadow : a.shadow = b.shadow

/-- **A helper that finds the same in both** leaves the same stores. -/
theorem SameStores.call (h : SameStores F a b) (hs : a.source c = .ok deps)
    (hs' : b.source c = .ok deps) (hspare : a.SparesHead deps c) (hspare' : b.SparesHead deps c)
    (hF : ∀ r, F r → ¬F' r → c.leaves? deps r ≠ none) (hcall : a.call c = .ok a') :
    ∃ b', b.call c = .ok b' ∧ SameStores F' a' b' := by
  rw [DepState.call, hs, ok_bind] at hcall
  obtain ⟨b', hb'⟩ := exists_assign h.dangling' (fun addr vs hst => inTable_of_stores hst hcall)
    hspare'
  refine ⟨b', by rw [DepState.call, hs', ok_bind, hb'], (assign_kept h.dangling hspare hcall).1,
    (assign_kept h.dangling' hspare' hb').1, fun r hr => ?_, assign_shadow hcall hb' h.shadow⟩
  rw [findReg_assign (fun _ => hspare) hcall, findReg_assign (fun _ => hspare') hb']
  by_cases hFr : F r
  · -- the register is one that the helper has just put something into
    obtain ⟨vs, hvs⟩ := Option.ne_none_iff_exists'.mp (hF r hFr hr)
    rw [hvs, Option.getD_some, Option.getD_some]
  · rw [h.regs r hFr]

/-- The temporaries `T` have the same lists too, and there are no others. -/
structure SameStarts (T : List IRTemp) (F : BitVec 32 → Prop) (n m : DepState) : Prop
    extends SameStores F n m where
  tmps : ∀ t ∈ T, n.findTmp t = m.findTmp t
  fresh : ∀ t, t ∉ T → n.Fresh t
  fresh' : ∀ t, t ∉ T → m.Fresh t

/-- **A helper that finds the same in both** and assigns a new temporary leaves the same. -/
theorem SameStarts.call (h : SameStarts T F n m) (hdst : ∀ t, c.dst? = some t → t ∉ T)
    (hs : n.source c = .ok deps) (hs' : m.source c = .ok deps)
    (hF : ∀ r, F r → ¬F' r → c.leaves? deps r ≠ none) (hcall : n.call c = .ok n') :
    ∃ m', m.call c = .ok m' ∧ SameStarts (c.dst?.toList ++ T) F' n' m' := by
  have hspare : n.SparesHead deps c := sparesHead_of_fresh fun t ht => h.fresh t (hdst t ht)
  have hspare' : m.SparesHead deps c := sparesHead_of_fresh fun t ht => h.fresh' t (hdst t ht)
  obtain ⟨m', hm', hstores⟩ := h.toSameStores.call hs hs' hspare hspare' hF hcall
  have hassign : n.assign deps c = .ok n' := by rwa [DepState.call, hs, ok_bind] at hcall
  have hassign' : m.assign deps c = .ok m' := by
    rw [DepState.call, hs', ok_bind] at hm'
    exact hm'
  refine ⟨m', hm', hstores, fun t ht => ?_, fun t ht => ?_, fun t ht => ?_⟩
  · by_cases hc : c.dst? = some t
    · rw [findTmp_assign h.dangling hs hc (h.fresh t (hdst t hc)) hassign,
        findTmp_assign h.dangling' hs' hc (h.fresh' t (hdst t hc)) hassign']
    · have ht : t ∈ T := (List.mem_append.mp ht).resolve_left fun hmem =>
        hc (Option.mem_toList.mp hmem)
      by_cases hexit : c = .exit
      · subst hexit
        obtain ⟨hd, rfl⟩ := call_exit_eq_ok hcall
        obtain ⟨hd', rfl⟩ := call_exit_eq_ok hm'
        simp [findTmp, hd, hd']
      · rw [assign_frame h.dangling hspare hexit hassign hc,
          assign_frame h.dangling' hspare' hexit hassign' hc, h.tmps t ht]
  all_goals rw [List.mem_append, not_or] at ht
  · exact (h.fresh t ht.2).assign hassign fun hc => ht.1 (Option.mem_toList.mpr hc)
  · exact (h.fresh' t ht.2).assign hassign' fun hc => ht.1 (Option.mem_toList.mpr hc)

/-- Where no helper is called, temporaries are assigned without a trace. -/
theorem SameStarts.skip (h : SameStarts T F n m) {ts : List IRTemp} (hts : ∀ t ∈ ts, t ∉ T)
    (hF : ∀ r, F r → F' r) : SameStarts (ts ++ T) F' n m where
  dangling := h.dangling
  dangling' := h.dangling'
  regs r hr := h.regs r fun hFr => hr (hF r hFr)
  shadow := h.shadow
  tmps t ht := by
    rcases List.mem_append.mp ht with ht | ht
    · rw [findTmp_of_fresh h.dangling (h.fresh t (hts t ht)),
        findTmp_of_fresh h.dangling' (h.fresh' t (hts t ht))]
    · exact h.tmps t ht
  fresh t ht := h.fresh t fun hmem => ht (List.mem_append_right ts hmem)
  fresh' t ht := h.fresh' t fun hmem => ht (List.mem_append_right ts hmem)

end DepState

/-! ### One statement -/

section Abreast

open DepState

variable {ρ : IRTemp → UWord} {s s' n m w : State} {a : DepState} {c : HelperCall}
  {st : IRStmt} {B : List IRStmt} {T : List IRTemp} {F F' : BitVec 32 → Prop}

/-- A `PUT` that acts leaves something at its register. -/
theorem leaves_ne_none {deps : List ℤ} {r : BitVec 32} (hr : Rep s a)
    (hs : a.source c = .ok deps) (hput : (Event.helper c).puts? = some r)
    (hacts : (Event.helper c).Acts s) : c.leaves? deps r ≠ none := by
  cases c with
  | putTmp r' t =>
    cases hput
    have hne : deps ≠ [] := (hr.ne_nil_iff (c := .putTmp r t) rfl hs).mpr (by
      simpa [union, Event.Acts] using hacts)
    simp [HelperCall.leaves?, hne]
  | putCnst r' =>
    cases hput
    simp [HelperCall.leaves?]
  | _ => cases hput

/-- **Four executions abreast**: of one superblock in the two runs, and between them from the
same states with a `NULL` `var_deps`. -/
def Abreast (T : List IRTemp) (F : BitVec 32 → Prop) (s n m w : State) : Prop :=
  ∃ a an am aw, Rep s a ∧ Rep n an ∧ Rep m am ∧ Rep w aw ∧ SameStores (fun _ => False) a an ∧
    SameStarts T F an am ∧ SameStores (fun _ => False) am aw

/-- The helper finds the same for its temporaries in two states. -/
def FindsSame (ρ : IRTemp → UWord) (st : IRStmt) (s n : State) : Prop :=
  ∀ c, stmtCall ρ st = some c → ∀ t ∈ c.lookups, ∃ vs, listOf s t = .ok vs ∧ listOf n t = .ok vs

theorem FindsSame.findTmp (h : FindsSame ρ st s n) {an : DepState} (hr : Rep s a)
    (hrn : Rep n an) (hc : stmtCall ρ st = some c) :
    ∀ t ∈ c.lookups, a.findTmp t = an.findTmp t := by
  intro t ht
  obtain ⟨vs, hs, hn⟩ := h c hc t ht
  rw [← listOf_eq hr, ← listOf_eq hrn, hs, hn]

/-- **A statement keeps the four abreast.** -/
theorem Abreast.step (h : Abreast T F s n m w) (hops : ∀ t ∈ st.operands, t ∈ T)
    (hdsts : ∀ t ∈ st.dsts, t ∉ T) (hspare : Spares ρ s st) (hspare' : Spares ρ w st)
    (hfinds : FindsSame ρ st s n) (hfinds' : FindsSame ρ st w m)
    (hget : ∀ t r, stmtCall ρ st = some (.assgnTmpGet t r) → ¬F r)
    (hF : ∀ r, F r → ¬F' r → ∃ c, stmtCall ρ st = some c ∧
      (Event.helper c).puts? = some r ∧ (Event.helper c).Acts s)
    (hs : stepStmt ρ s st = .ok s') :
    ∃ n' m' w', stepStmt ρ n st = .ok n' ∧ stepStmt ρ m st = .ok m' ∧ stepStmt ρ w st = .ok w' ∧
      Abreast (st.dsts ++ T) F' s' n' m' w' := by
  obtain ⟨a, an, am, aw, hr, hrn, hrm, hrw, hsn, hnm, hmw⟩ := h
  rcases hr.stepStmt hs with ⟨hc, rfl⟩ | ⟨c, a', hc, hcall, hr'⟩
  · refine ⟨n, m, w, by rw [stepStmt, hc], by rw [stepStmt, hc], by rw [stepStmt, hc],
      a, an, am, aw, hr, hrn, hrm, hrw, hsn, hnm.skip hdsts fun r hFr => ?_, hmw⟩
    by_contra hFr'
    obtain ⟨c, hc', -⟩ := hF r hFr hFr'
    rw [hc] at hc'
    cases hc'
  · obtain ⟨hlook, hdst⟩ := stmtCall_temps hc
    have hdst' : ∀ t, c.dst? = some t → t ∉ T := fun t ht => hdsts t (by
      rw [← hdst]
      exact Option.mem_toList.mpr ht)
    -- all four find the same
    obtain ⟨deps, hsrc, hassign⟩ := bind_eq_ok.mp hcall
    have hsrcn : an.source c = .ok deps := by
      rw [← hsrc]
      exact (source_congr (hfinds.findTmp hr hrn hc) (fun t r _ => hsn.regs r id) hsn.shadow).symm
    have hsrcm : am.source c = .ok deps := by
      rw [← hsrcn]
      refine (source_congr (fun t ht => hnm.tmps t (hops t (hlook t ht))) (fun t r hg => ?_)
        hnm.shadow).symm
      exact hnm.regs r (hget t r (hc.trans (congrArg some hg)))
    have hsrcw : aw.source c = .ok deps := by
      rw [← hsrcm]
      exact source_congr (hfinds'.findTmp hrw hrm hc) (fun t r _ => (hmw.regs r id).symm)
        hmw.shadow.symm
    obtain ⟨an', hcalln, hsn'⟩ := hsn.call hsrc hsrcn
      (hr.sparesHead hsn.dangling hsrc (hspare c hc))
      (sparesHead_of_fresh fun t ht => hnm.fresh t (hdst' t ht)) (fun r hr => hr.elim) hcall
    have hleaves : ∀ r, F r → ¬F' r → c.leaves? deps r ≠ none := by
      intro r hFr hFr'
      obtain ⟨c', hc', hput, hacts⟩ := hF r hFr hFr'
      obtain rfl := Option.some.inj (hc.symm.trans hc')
      exact leaves_ne_none hr hsrc hput hacts
    obtain ⟨am', hcallm, hnm'⟩ := hnm.call hdst' hsrcn hsrcm hleaves hcalln
    obtain ⟨aw', hcallw, hmw'⟩ := hmw.call hsrcm hsrcw
      (sparesHead_of_fresh fun t ht => hnm.fresh' t (hdst' t ht))
      (hrw.sparesHead hmw.dangling' hsrcw (hspare' c hc)) (fun r hr => hr.elim) hcallm
    obtain ⟨n', hn', hrn'⟩ := (callHelper_lockstep hrn c).ok_left hcalln
    obtain ⟨m', hm', hrm'⟩ := (callHelper_lockstep hrm c).ok_left hcallm
    obtain ⟨w', hw', hrw'⟩ := (callHelper_lockstep hrw c).ok_left hcallw
    rw [hdst] at hnm'
    exact ⟨n', m', w', by rw [stepStmt, hc]; exact hn', by rw [stepStmt, hc]; exact hm',
      by rw [stepStmt, hc]; exact hw', a', an', am', aw', hr', hrn', hrm', hrw', hsn', hnm', hmw'⟩

theorem Abreast.sameStores (h : Abreast T F s n m w) :
    ∃ a b, Rep s a ∧ Rep w b ∧ SameStores F a b := by
  obtain ⟨a, an, am, aw, hr, -, -, hrw, hsn, hnm, hmw⟩ := h
  refine ⟨a, aw, hr, hrw, hsn.dangling, hmw.dangling', fun r hF => ?_, ?_⟩
  · rw [hsn.regs r id, hnm.regs r hF, hmw.regs r id]
  · rw [hsn.shadow, hnm.shadow, hmw.shadow]

/-! ### One superblock -/

/-- **Along a superblock** the four stay abreast, if both executions are local and spare the
first entry of `var_deps`, and it gets from no register in which the two may differ. -/
theorem abreast_run {F : List IRStmt → BitVec 32 → Prop} (hB : Scoped [] B)
    (hstart : ∃ a b, Rep s a ∧ Rep w b ∧ SameStores (F []) a b) (hspare : SparesHeads ρ s B)
    (hspare' : SparesHeads ρ w B) (hlocal : Local ρ s B) (hlocal' : Local ρ w B)
    (hget : ∀ pre st post t r, executed ρ B = pre ++ st :: post →
      stmtCall ρ st = some (.assgnTmpGet t r) → ¬F pre r)
    (hF : ∀ pre st s₁, run (stepStmt ρ) s pre = .ok s₁ → ∀ r, F pre r → ¬F (pre ++ [st]) r →
      ∃ c, stmtCall ρ st = some c ∧ (Event.helper c).puts? = some r ∧ (Event.helper c).Acts s₁)
    {pre post : List IRStmt} (hpre : executed ρ B = pre ++ post)
    (hs : run (stepStmt ρ) s pre = .ok s') :
    ∃ T n m w', run (stepStmt ρ) { s with varDeps := none } pre = .ok n ∧
      run (stepStmt ρ) { w with varDeps := none } pre = .ok m ∧
        run (stepStmt ρ) w pre = .ok w' ∧ Abreast T (F pre) s' n m w' ∧ Scoped T post := by
  induction pre using List.reverseRecOn generalizing post s' with
  | nil =>
    cases hs
    obtain ⟨a, b, hr, hrw, hsame⟩ := hstart
    refine ⟨[], _, _, w, rfl, rfl, rfl, ⟨a, _, _, b, hr, hr.forgetVars, hrw.forgetVars, hrw, ?_, ?_,
      ?_⟩, ?_⟩
    · exact ⟨hsame.dangling, rfl, fun r _ => rfl, rfl⟩
    · exact ⟨⟨rfl, rfl, hsame.regs, hsame.shadow⟩, fun t ht => absurd ht List.not_mem_nil,
        fun t _ e he => absurd he List.not_mem_nil, fun t _ e he => absurd he List.not_mem_nil⟩
    · exact ⟨rfl, hsame.dangling', fun r _ => rfl, rfl⟩
    · rw [List.nil_append] at hpre
      exact hpre ▸ scoped_executed hB
  | append_singleton pre st ih =>
    obtain ⟨s₁, h₁, hs⟩ := run_append_eq_ok.mp hs
    obtain ⟨s₂, h₂, hs⟩ := run_cons_eq_ok.mp hs
    cases hs
    have hpre : executed ρ B = pre ++ st :: post := hpre.trans (List.append_cons pre st post).symm
    obtain ⟨T, n, m, w₁, hn, hm, hw, habr, hops, hdsts, hpost⟩ := ih hpre h₁
    have hfinds : FindsSame ρ st s₁ n := fun c hc t ht => by
      obtain ⟨n', hn', hfind⟩ := hlocal pre st post c hpre hc s₁ h₁
      obtain rfl := Except.ok.inj (hn.symm.trans hn')
      exact hfind t ht
    have hfinds' : FindsSame ρ st w₁ m := fun c hc t ht => by
      obtain ⟨m', hm', hfind⟩ := hlocal' pre st post c hpre hc w₁ hw
      obtain rfl := Except.ok.inj (hm.symm.trans hm')
      exact hfind t ht
    obtain ⟨n', m', w', hn', hm', hw', habr'⟩ := habr.step hops hdsts
      (hspare pre st post hpre s₁ h₁) (hspare' pre st post hpre w₁ hw) hfinds hfinds'
      (fun t r hc => hget pre st post t r hpre hc) (hF pre st s₁ h₁) h₂
    exact ⟨st.dsts ++ T, n', m', w',
      run_append_eq_ok.mpr ⟨n, hn, run_cons_eq_ok.mpr ⟨n', hn', rfl⟩⟩,
      run_append_eq_ok.mpr ⟨m, hm, run_cons_eq_ok.mpr ⟨m', hm', rfl⟩⟩,
      run_append_eq_ok.mpr ⟨w₁, hw, run_cons_eq_ok.mpr ⟨w', hw', rfl⟩⟩, habr', hpost⟩

end Abreast

end DepLeak

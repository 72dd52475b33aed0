import DepLeak.Dep.Bytes
import DepLeak.Dep.Forms

/-!
# What a `PUT` leaves for a `GET`

A temporary with dependencies is put into the guest state, and later something is got from
there into a temporary. The helpers of both are told the offset and neither the width, and
`reg_deps` has an entry for an offset: what was put arrives exactly if the `GET` is at the
offset of the `PUT` itself and the entry is still there (`DepLeak.getKeeps_iff`). A `GET` of
another part of the register misses it, and a `PUT` of a part that starts where the register
does takes the entry away for all of it.

The entry goes in one more way, which has nothing to do with registers: a helper that erases
the first entry of `var_deps` overwrites `reg_deps`.
-/

namespace DepLeak

open LinkedHeap Runs Flow

/-! ### Changes of the guest state -/

/-- The byte is one of `n` from an offset on. -/
def InRegister (offset : BitVec 32) (n x : ℕ) : Prop :=
  offset.toNat ≤ x ∧ x < offset.toNat + n

/-- A `PUT`. -/
structure RegWrite where
  /-- Where it starts. -/
  offset : BitVec 32
  /-- How many bytes it writes. -/
  width : ℕ
  /-- It puts a constant, or a temporary that has dependencies. -/
  acts : Bool

/-- The offset of a `PUT`. -/
def HelperCall.puts? : HelperCall → Option (BitVec 32)
  | .putTmp r _ => some r
  | .putCnst r => some r
  | _ => none

/-- The event is a `PUT` at an offset. -/
def Event.puts? : Event → Option (BitVec 32)
  | .helper c => c.puts?
  | .preCall _ _ => none

/-- It puts a constant, or a temporary that has dependencies. -/
def Event.Acts (s : State) : Event → Prop
  | .helper (.putTmp _ t) => tracked s (.tmp t) ≠ ∅
  | .helper (.putCnst _) => True
  | _ => False

/-- The event erases the first entry of `var_deps`. -/
def Event.ErasesHead (s : State) : Event → Prop
  | .helper c => DepLeak.ErasesHead s c
  | .preCall _ _ => False

/-- **What happens in between**: events that lead from one state to another, with the `PUT`s
among them, of some width each, and whether one of them erases the first entry of
`var_deps`. -/
inductive Passes : State → List Event → State → List RegWrite → Bool → Prop
  | nil (s : State) : Passes s [] s [] false
  /-- A `PUT`. -/
  | put {s s₁ s₂ : State} {e : Event} {es : List Event} {w : RegWrite} {ws : List RegWrite}
    {erases : Bool} : e.puts? = some w.offset → (w.acts = true ↔ e.Acts s) →
      stepTool s e = .ok s₁ → Passes s₁ es s₂ ws erases → Passes s (e :: es) s₂ (w :: ws) erases
  /-- Something else that does not touch `reg_deps`. -/
  | other {s s₁ s₂ : State} {e : Event} {es : List Event} {ws : List RegWrite} {erases : Bool} :
    e.puts? = none → ¬e.ErasesHead s → stepTool s e = .ok s₁ → Passes s₁ es s₂ ws erases →
      Passes s (e :: es) s₂ ws erases
  /-- Something that overwrites it. -/
  | erase {s s₁ s₂ : State} {e : Event} {es : List Event} {ws : List RegWrite} {erases : Bool} :
    e.ErasesHead s → stepTool s e = .ok s₁ → Passes s₁ es s₂ ws erases →
      Passes s (e :: es) s₂ ws true

/-! ### The property -/

/-- **A `GET` at `p` gets what a `PUT` at `o` has left**, whatever was put and in whatever
state, with the `PUT`s `ws` in between. -/
def GetKeeps (o p : BitVec 32) (ws : List RegWrite) (erases : Bool) : Prop :=
  ∀ s s₁ s₂ s₃ mid t t', Reachable s → stepTool s (.helper (.putTmp o t)) = .ok s₁ →
    Passes s₁ mid s₂ ws erases → stepTool s₂ (.helper (.assgnTmpGet t' p)) = .ok s₃ →
      tracked s (.tmp t) ⊆ tracked s₃ (.tmp t')

/-- **Byte-exact registers**: what is put into the `n` bytes at `o` gets to a `GET` of the `m`
bytes at `p` if they have a byte in common and no `PUT` in between writes all those they
have in common. -/
def RegisterExact : Prop :=
  ∀ (o : BitVec 32) (n : ℕ) (p : BitVec 32) (m : ℕ) (ws : List RegWrite) (erases : Bool),
    (∃ x, InRegister o n x ∧ InRegister p m x) →
      (∀ w ∈ ws, ∃ x, (InRegister o n x ∧ InRegister p m x) ∧
        ¬InRegister w.offset w.width x) → GetKeeps o p ws erases

/-! ### What was put arrives -/

section Arrive

open DepState

variable {s s' s₁ s₂ s₃ : State} {A A' A₁ : DepState} {o p r : BitVec 32} {ws : List RegWrite}
  {mid : List Event} {erases : Bool}

/-- **What an event leaves of a register** that it does not act on. -/
theorem findReg_step (hr : Rep s A) {e : Event} (hspare : ¬e.ErasesHead s)
    (hacts : e.puts? = some o → ¬e.Acts s) (h : A.step e = .ok A') :
    A'.findReg o = A.findReg o := by
  cases e with
  | helper c =>
    obtain ⟨deps, hs, h⟩ := bind_eq_ok.mp (show A.call c = .ok A' from h)
    have hnone : c.leaves? deps o = none := by
      cases c with
      | putTmp r t =>
        refine if_neg fun ⟨heq, hne⟩ => hacts (congrArg some heq) ?_
        simpa [union, Event.Acts] using (hr.ne_nil_iff (c := .putTmp r t) rfl hs).mp hne
      | putCnst r => exact if_neg fun heq => hacts (congrArg some heq) trivial
      | _ => rfl
    rw [findReg_assign (fun hd => hr.sparesHead hd hs hspare) h, hnone, Option.getD_none]
  | preCall n args =>
    obtain rfl | ⟨-, -, h⟩ | ⟨-, -, h⟩ :=
      preCall_cases (show A.preCall n args = .ok A' from h)
    · rfl
    · obtain ⟨-, tb, rfl, -⟩ := preRead_eq_ok h
      rfl
    · obtain ⟨-, deps, -, rfl⟩ := preWrite_eq_ok h
      rfl

/-- A `PUT` erases nothing in `var_deps`. -/
theorem Event.not_erasesHead {e : Event} (hput : e.puts? = some r) : ¬e.ErasesHead s := by
  cases e with
  | preCall => exact id
  | helper c =>
    rintro ⟨t, ht, -⟩
    cases c with
    | putTmp | putCnst => cases ht
    | _ => cases hput

/-- **What is recorded for a register stays** as long as nothing acts on it. -/
theorem Passes.keeps (h : Passes s₁ mid s₂ ws erases) (herases : erases = false)
    (hws : ∀ w ∈ ws, w.acts = true → w.offset ≠ o) (hr : Rep s₁ A₁) :
    ∃ A₂, Rep s₂ A₂ ∧ A₂.findReg o = A₁.findReg o := by
  induction h generalizing A₁ with
  | nil s => exact ⟨A₁, hr, rfl⟩
  | @put s s₁ s₂ e es w ws erases hput hacts hstep _ ih =>
    obtain ⟨hw, hws⟩ := List.forall_mem_cons.mp hws
    obtain ⟨A', hA', hr'⟩ := (stepTool_lockstep hr e).ok_right hstep
    obtain ⟨A₂, hr₂, hfind⟩ := ih herases hws hr'
    refine ⟨A₂, hr₂, hfind.trans
      (findReg_step hr (Event.not_erasesHead hput) (fun ho ha => ?_) hA')⟩
    exact hw (hacts.mpr ha) (Option.some.inj (hput.symm.trans ho))
  | @other s s₁ s₂ e es ws erases hput hspare hstep _ ih =>
    obtain ⟨A', hA', hr'⟩ := (stepTool_lockstep hr e).ok_right hstep
    obtain ⟨A₂, hr₂, hfind⟩ := ih herases hws hr'
    refine ⟨A₂, hr₂, hfind.trans (findReg_step hr hspare (fun ho => ?_) hA')⟩
    rw [hput] at ho
    cases ho
  | erase => cases herases

theorem getKeeps_of (hws : ∀ w ∈ ws, w.acts = true → w.offset ≠ o) : GetKeeps o o ws false := by
  intro s s₁ s₂ s₃ mid t t' hs hput hmid hget
  obtain ⟨A, hr⟩ := hs.wellFormed
  obtain ⟨A₁, hA₁, hr₁⟩ := (stepTool_lockstep hr _).ok_right hput
  obtain ⟨A₂, hr₂, hfind⟩ := hmid.keeps rfl hws hr₁
  obtain ⟨A₃, hA₃, hr₃⟩ := (stepTool_lockstep hr₂ _).ok_right hget
  have hin : A.view (.tmp t) ⊆ A₁.view (.reg o) := by
    simpa [union] using call_reaches (c := .putTmp o t) rfl hA₁
  have hout : A₂.view (.reg o) ⊆ A₃.view (.tmp t') := by
    simpa [union] using call_reaches (c := .assgnTmpGet t' o) rfl hA₃
  rw [tracked_eq_view hr, tracked_eq_view hr₃]
  rw [view_reg] at hin hout
  exact (hfind ▸ hin).trans hout

end Arrive

/-! ### Where it does not arrive -/

section Miss

open DepState

variable {s : State} {A : DepState} {o p : BitVec 32} {ws : List RegWrite} {erases : Bool}

/-- An event by which a `PUT` is made: one that acts puts a constant, another one the
temporary `1`. -/
def RegWrite.event (w : RegWrite) : Event :=
  .helper (if w.acts then .putCnst w.offset else .putTmp w.offset 1)

/-- **Every list of `PUT`s is made by some run**, which leaves no register more than it had, and
nothing to those that one of them acts on. -/
theorem exists_passes (hr : Rep s A) (hd : A.dangling = false) (hfresh : A.Fresh 1)
    (ws : List RegWrite) : ∃ s' A', Rep s' A' ∧ A'.vars = A.vars ∧ A'.dangling = false ∧
      (∀ r, A'.view (.reg r) ⊆ A.view (.reg r)) ∧
        (∀ w ∈ ws, w.acts = true → A'.view (.reg w.offset) = ∅) ∧
          ∀ es s'' erases, Passes s' es s'' [] erases →
            Passes s (ws.map RegWrite.event ++ es) s'' ws erases := by
  induction ws generalizing s A with
  | nil => exact ⟨s, A, hr, rfl, hd, fun r => subset_rfl, fun w hw => absurd hw List.not_mem_nil,
      fun es s'' erases h => h⟩
  | cons w ws ih =>
    obtain ⟨A₁, hA₁, hvars, hd₁, hsub, hgone⟩ : ∃ A₁, A.step w.event = .ok A₁ ∧
        A₁.vars = A.vars ∧ A₁.dangling = false ∧ (∀ r, A₁.view (.reg r) ⊆ A.view (.reg r)) ∧
          (w.acts = true → A₁.view (.reg w.offset) = ∅) := by
      cases hacts : w.acts with
      | true =>
        refine ⟨A.eraseReg w.offset, by rw [RegWrite.event, hacts]; rfl, rfl, hd, fun r => ?_,
          fun _ => ?_⟩
        · rw [view_eraseReg, Function.update_apply]
          split
          · exact Set.empty_subset _
          · exact subset_rfl
        · rw [view_eraseReg, Function.update_self]
      | false =>
        refine ⟨A, ?_, rfl, hd, fun r => subset_rfl, fun h => absurd h Bool.false_ne_true⟩
        -- the temporary has nothing that could be put
        have hfind : A.findTmp 1 = .ok [] := findTmp_of_fresh hd hfresh
        have hdeps : A.depsOf [1] = .ok [] := by
          rw [depsOf, hfind]
          rfl
        have hcall : A.call (.putTmp w.offset 1) = .ok A := by
          rw [call, source, hdeps, ok_bind, assign, if_pos rfl]
        rw [RegWrite.event, hacts]
        exact hcall
    obtain ⟨s₁, hs₁, hr₁⟩ := (stepTool_lockstep hr w.event).ok_left hA₁
    have hfresh₁ : A₁.Fresh 1 := fun e he => hfresh e (hvars ▸ he)
    obtain ⟨s', A', hr', hvars', hd', hsub', hgone', hpass⟩ := ih hr₁ hd₁ hfresh₁
    refine ⟨s', A', hr', hvars'.trans hvars, hd', fun r => (hsub' r).trans (hsub r),
      List.forall_mem_cons.mpr ⟨fun hacts => ?_, hgone'⟩, fun es s'' erases h => ?_⟩
    · exact Set.subset_eq_empty ((hsub' _).trans (hgone hacts).subset) rfl
    · refine .put ?_ ?_ hs₁ (hpass es s'' erases h)
      · rw [RegWrite.event]
        split <;> rfl
      · cases hacts : w.acts with
        | true => simp [RegWrite.event, hacts, Event.Acts]
        | false =>
          have hempty : tracked s (.tmp 1) = ∅ := by
            rw [tracked_eq_view hr, view_tmp_of_fresh hd hfresh]
          refine iff_of_false Bool.false_ne_true fun h => ?_
          rw [RegWrite.event, hacts] at h
          exact h hempty

/-- A helper erases the only entry there is, and there are no registers any more. -/
theorem exists_erase (hr : Rep s A) (hd : A.dangling = false)
    (hvars : ∀ e ∈ A.vars, e.val = .temp 0) (hne : A.vars ≠ []) :
    ∃ s' A', Rep s' A' ∧ A'.vars = [] ∧ (∀ r, A'.view (.reg r) = ∅) ∧
      Passes s [.helper (.assgnTmpConst 0)] s' [] true := by
  have hhead : A.vars.head?.any (Entry.isTemp 0) = true := by
    obtain ⟨e, es, hv⟩ := List.exists_cons_of_ne_nil hne
    simp [hv, Entry.isTemp, hvars e (by rw [hv]; exact List.mem_cons_self)]
  have hkept : A.vars.filter (fun e => !e.isTemp 0) = [] :=
    List.filter_eq_nil_iff.mpr fun e he => by simp [Entry.isTemp, hvars e he]
  obtain ⟨A', hA'⟩ : ∃ A', A.eraseTmp 0 = .ok A' := by
    obtain ⟨e, es, hv⟩ := List.exists_cons_of_ne_nil hne
    rw [eraseTmp, if_neg (by simp [hd]), hv]
    dsimp only
    split <;> exact ⟨_, rfl⟩
  obtain ⟨s', hs', hr'⟩ :=
    (stepTool_lockstep hr (.helper (.assgnTmpConst 0))).ok_left (show A.call _ = _ from hA')
  obtain ⟨-, ⟨hfalse, -⟩ | ⟨-, hA₁⟩⟩ := eraseTmp_eq_ok hA'
  · rw [hhead] at hfalse
    cases hfalse
  · refine ⟨s', A', hr', by rw [hA₁], fun r => ?_, .erase ?_ hs' (.nil s')⟩
    · rw [view_reg, findReg, hA₁, hkept]
      simp
    · exact ⟨0, rfl, trivial, (headIs_iff hr hd).mpr hhead⟩

/-- A `GET` that finds nothing of the first read, for a temporary that has nothing of it. -/
theorem exists_get (hreg : (1 : ℤ) ∉ A.view (.reg p)) (htmp : (1 : ℤ) ∉ A.view (.tmp 1)) :
    ∃ A', A.step (.helper (.assgnTmpGet 1 p)) = .ok A' ∧ (1 : ℤ) ∉ A'.view (.tmp 1) := by
  have hcall : A.step (.helper (.assgnTmpGet 1 p)) =
      A.assign (A.findReg p) (.assgnTmpGet 1 p) := rfl
  by_cases hnil : A.findReg p = []
  · exact ⟨A, by rw [hcall, assign, if_pos hnil], htmp⟩
  · refine ⟨_, by rw [hcall, assign, if_neg hnil], ?_⟩
    rw [view_prependVar, Function.update_self]
    rwa [view_reg] at hreg

/-- A byte that has been read is put into a register, and there are no other entries. -/
theorem exists_put (o : BitVec 32) : ∃ s A s₁ A₁, Reachable s ∧ Rep s A ∧ OneRead 0 A ∧
    stepTool s (.helper (.putTmp o 0)) = .ok s₁ ∧ Rep s₁ A₁ ∧ A₁.dangling = false ∧
      A₁.vars ≠ [] ∧ (∀ e ∈ A₁.vars, e.val = .temp 0) ∧
        A₁.view = Function.update A.view (.reg o) (A.view (.tmp 0)) := by
  obtain ⟨s, A, hs, hr, hA⟩ := exists_read 0
  obtain ⟨A₁, hA₁⟩ := call_ok (c := .putTmp o 0) rfl hA.dangling (fun t ht => by cases ht)
    fun addr haddr => by cases haddr
  have hf : Follows A A₁ ⟨.reg o, [.tmp 0]⟩ := by
    refine (call_follows rfl hA.dangling (fun t ht => by cases ht) hA₁).resolve_right ?_
    rintro ⟨⟨hempty, -⟩, -⟩
    have htmp := hA.tmp
    rw [hempty] at htmp
    exact htmp
  have hview : A₁.view = Function.update A.view (.reg o) (A.view (.tmp 0)) := by
    rw [hf.view, Assignment.apply]
    simp [union]
  have hvars : ∀ e ∈ A₁.vars, e.val = .temp 0 := by
    intro e he
    rcases hf.vars e he with he | ⟨t, ht, -⟩
    · exact hA.vars e he
    · cases ht
  have hne : A₁.vars ≠ [] := by
    intro hnil
    have htmp : (1 : ℤ) ∈ A₁.view (.tmp 0) := by
      rw [hview, Function.update_of_ne Cell.noConfusion]
      exact hA.tmp
    rw [view_tmp_of_fresh hf.dangling fun e he => by simp [hnil] at he] at htmp
    exact htmp
  obtain ⟨s₁, hs₁, hr₁⟩ :=
    (stepTool_lockstep hr (.helper (.putTmp o 0))).ok_left (show A.call _ = _ from hA₁)
  exact ⟨s, A, s₁, A₁, hs, hr, hA, hs₁, hr₁, hf.dangling, hne, hvars, hview⟩

/-- **What was put is missed** by a `GET` elsewhere, after a `PUT` at the same offset, and after
the registers are gone. -/
theorem GetKeeps.kept (h : GetKeeps o p ws erases) :
    p = o ∧ (∀ w ∈ ws, w.acts = true → w.offset ≠ o) ∧ erases = false := by
  obtain ⟨s, A, s₁, A₁, hs, hr, hA, hs₁, hr₁, hd, hne, hvars, hview⟩ := exists_put o
  have hfresh : A₁.Fresh 1 := fun e he => by simp [Entry.isTemp, hvars e he]
  obtain ⟨s₂, A₂, hr₂, hvars₂, hd₂, hsub, hgone, hpass⟩ :=
    exists_passes hr₁ hd hfresh ws
  have htmp₂ : (1 : ℤ) ∉ A₂.view (.tmp 1) := by
    rw [view_tmp_of_fresh hd₂ fun e he => hfresh e (hvars₂ ▸ he)]
    exact id
  -- a run at whose end the register has nothing of the read
  have hmiss : ∀ {s' A' mid}, Rep s' A' → Passes s₁ mid s' ws erases →
      (1 : ℤ) ∉ A'.view (.reg p) → (1 : ℤ) ∉ A'.view (.tmp 1) → False := by
    intro s' A' mid hr' hmid hreg htmp
    obtain ⟨A₃, hA₃, hout⟩ := exists_get hreg htmp
    obtain ⟨s₃, hs₃, hr₃⟩ := (stepTool_lockstep hr' _).ok_left hA₃
    have harr := h s s₁ s' s₃ mid 0 1 hs hs₁ hmid hs₃
    rw [tracked_eq_view hr, tracked_eq_view hr₃] at harr
    exact hout (harr hA.tmp)
  cases erases with
  | true =>
    obtain ⟨s', A', hr', hnil, hregs, hmid⟩ :=
      exists_erase hr₂ hd₂ (fun e he => hvars e (hvars₂ ▸ he)) (hvars₂ ▸ hne)
    refine (hmiss hr' (hpass _ _ _ hmid) (by rw [hregs]; exact id) ?_).elim
    rintro ⟨vs, hvs, hv⟩
    have hvs : A'.findTmp 1 = .ok vs := hvs
    simp only [findTmp, hnil, List.find?_nil] at hvs
    split at hvs
    · cases hvs
    · cases hvs
      exact absurd hv List.not_mem_nil
  | false =>
    have hmid := hpass [] s₂ false (.nil s₂)
    refine ⟨?_, fun w hw hacts heq => ?_, rfl⟩
    · by_contra hpo
      refine hmiss hr₂ hmid (fun hv => ?_) htmp₂
      have hv := hsub p hv
      rw [hview, Function.update_of_ne fun heq => hpo (Cell.reg.inj heq), hA.regs] at hv
      exact hv
    · have hpo : (1 : ℤ) ∈ A₂.view (.reg p) := by
        by_contra hreg
        exact hmiss hr₂ hmid hreg htmp₂
      have hv := hsub p hpo
      rcases eq_or_ne p o with rfl | hne'
      · rw [← heq, hgone w hw hacts] at hpo
        exact hpo
      · rw [hview, Function.update_of_ne fun heq => hne' (Cell.reg.inj heq), hA.regs] at hv
        exact hv

end Miss

/-- **A `PUT` arrives at a `GET` exactly if both are at one offset**, no `PUT` acts on it in
between, and nothing in between erases the first entry of `var_deps`. -/
theorem getKeeps_iff {o p : BitVec 32} {ws : List RegWrite} {erases : Bool} :
    GetKeeps o p ws erases ↔
      p = o ∧ (∀ w ∈ ws, w.acts = true → w.offset ≠ o) ∧ erases = false := by
  constructor
  · exact GetKeeps.kept
  · rintro ⟨rfl, hws, rfl⟩
    exact getKeeps_of hws

/-- **Eight bytes are put, and the second of them is got.** -/
theorem not_registerExact : ¬RegisterExact := by
  intro h
  have hget : GetKeeps 16 17 [] false := h 16 8 17 1 [] false
    ⟨17, ⟨by decide, by decide⟩, by decide, by decide⟩ fun w hw => absurd hw List.not_mem_nil
  exact absurd hget.kept.1 (by decide)

end DepLeak

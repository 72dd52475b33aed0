import DepLeak.Dep.Hooks
import DepLeak.Dep.Superblock

/-!
# Temporaries from one superblock to the next

Every superblock numbers its temporaries from zero, and `var_deps` is one list for all of
them, emptied only by the helper of an exit. An execution of a superblock is therefore
compared with one from the same state whose `var_deps` is `NULL`: as long as the two find
the same lists (`DepLeak.Local`), what earlier executions have left there plays no part.

What is left behind matters when a superblock assigns a temporary that still has an
entry. A helper that finds something to record erases the entry first, which is right
unless it is the first of the list (`read_dep_node_erase_tmp` then assigns `reg_deps`
instead of `var_deps`); one that finds nothing returns without touching it, and where
there is no helper nothing happens either. A run in which an entry is always replaced
(`DepLeak.Tidy`) is local throughout (`DepLeak.localRun_of_tidy`). The invariant along a
superblock is `DepLeak.DepState.Agrees`: the temporaries assigned so far have the same lists on
both sides.
-/

namespace DepLeak

open LinkedHeap Runs Flow

/-! ### Runs of superblocks -/

/-- A superblock as `da_instrument` gets it, with what it makes of it while `trace` is
on. -/
structure Superblock (fnname : UWord → Option String) where
  /-- The statements. -/
  stmts : List IRStmt
  /-- The instrumented statements. -/
  out : List IRStmt
  /-- VEX's rules on temporaries are kept. -/
  wellScoped : Scoped [] stmts
  /-- The dirty calls that are there already are not the tool's. -/
  guest : ∀ d, .dirty d ∈ stmts → ∃ addr, d.addr = .guest addr
  /-- `trace` is not turned off on the way. -/
  stays : ∀ addr, .iMark addr ∈ stmts → fnname addr ≠ some "exit"
  /-- The instrumented statements are `da_instrument`'s. -/
  instrumented : daInstrument fnname true (stmts.map some) = .ok (out, true)

/-- A superblock of statements that are handled, none of them with too many operands. -/
def Superblock.ofHandled (fnname : UWord → Option String) (B : List IRStmt)
    (hB : ∀ st ∈ B, st.handled) (hw : B.any IRStmt.wide = false) (hs : Scoped [] B) :
    Superblock fnname where
  stmts := B
  out := B.flatMap DepLeak.instrumented
  wellScoped := hs
  guest d hd := absurd (hB _ hd) (by simp [IRStmt.handled])
  stays addr haddr := absurd (hB _ haddr) (by simp [IRStmt.handled])
  instrumented := by rw [daInstrument_handled fnname hB, hw]; rfl

/-- What a program does: it executes a superblock, with certain values of its temporaries,
or it is about to make a system call. -/
inductive Activity (fnname : UWord → Option String)
  | block (ρ : IRTemp → UWord) (sb : Superblock fnname)
  | preCall (syscallno : ℕ) (args : ℕ → UWord)

variable {fnname : UWord → Option String}

/-- The effect of an activity on the tool. -/
def stepActivity (s : State) : Activity fnname → Exec State
  | .block ρ sb => execStmts ρ s sb.out
  | .preCall syscallno args => taPreCall s syscallno args

/-- The list that `find_read_dep_tmp` returns. -/
def listOf (s : State) (t : IRTemp) : Exec (List ℤ) := do
  let q ← findReadDepTmp s t
  s.ints.toList q

/-- **An execution is local**: wherever a helper looks up a temporary, it finds the list it
would find if `var_deps` had been `NULL` when the execution started. -/
def Local (ρ : IRTemp → UWord) (s : State) (B : List IRStmt) : Prop :=
  ∀ pre st post c, executed ρ B = pre ++ st :: post → stmtCall ρ st = some c →
    ∀ s₁, run (stepStmt ρ) s pre = .ok s₁ → ∃ s₂,
      run (stepStmt ρ) { s with varDeps := none } pre = .ok s₂ ∧
        ∀ t ∈ c.lookups, ∃ vs, listOf s₁ t = .ok vs ∧ listOf s₂ t = .ok vs

/-! ### Entries that are replaced -/

/-- `var_deps` has an entry for the temporary. -/
def HasEntry (s : State) (t : IRTemp) : Prop :=
  ∃ x, s.nodes.find (isTemp t) s.varDeps = .ok (some x)

/-- The first entry of `var_deps` is one for the temporary. -/
def HeadIs (s : State) (t : IRTemp) : Prop :=
  ∃ i nd, s.varDeps = some i ∧ s.nodes.read i = .ok nd ∧ isTemp t nd.val

/-- The helper replaces the entries of the temporary it assigns: it erases them, and they
are not first in the list; or it puts its own in front of them. -/
def Replaces (s : State) (t : IRTemp) : HelperCall → Prop
  | .assgnTmpConst _ => ¬HeadIs s t
  | .assgnTmpGet _ r => tracked s (.reg r) ≠ ∅
  | c => (∃ asg, c.assignment = some asg ∧ union (tracked s) asg.srcs ≠ ∅) ∧ ¬HeadIs s t

/-- **A statement leaves nothing old behind**: a temporary it assigns has no entry, or there
is a helper that replaces it. -/
def Tidy (ρ : IRTemp → UWord) (s : State) (st : IRStmt) : Prop :=
  ∀ t ∈ st.dsts, HasEntry s t → ∃ c, stmtCall ρ st = some c ∧ Replaces s t c

/-- Every statement of an execution leaves nothing old behind. -/
def TidyBlock (ρ : IRTemp → UWord) (s : State) (B : List IRStmt) : Prop :=
  ∀ pre st post, executed ρ B = pre ++ st :: post →
    ∀ s₁, run (stepStmt ρ) s pre = .ok s₁ → Tidy ρ s₁ st

/-! ### Lists of entries -/

namespace DepState

variable {a a' a₀ : DepState} {t t' : IRTemp} {deps : List ℤ}

theorem findTmp_of_fresh (hd : a.dangling = false) (h : a.Fresh t) : a.findTmp t = .ok [] := by
  have hnone : a.vars.find? (Entry.isTemp t) = none :=
    List.find?_eq_none.mpr fun e he => by simp [h e he]
  simp [findTmp, hnone, hd]

/-- Erasing a temporary that is not first. -/
theorem eraseTmp_of_head (hd : a.dangling = false)
    (hhead : a.vars.head?.any (Entry.isTemp t) = false) :
    a.eraseTmp t = .ok { a with vars := a.vars.filter fun e => !e.isTemp t } := by
  rw [eraseTmp, if_neg (by simp [hd])]
  cases hv : a.vars with
  | nil =>
    simp only [List.filter_nil]
    rw [← hv]
  | cons e es =>
    rw [hv] at hhead
    simp only [List.head?_cons, Option.any_some] at hhead
    simp only [hhead, Bool.false_eq_true, if_false]

theorem findTmp_filter_of_ne (hne : t' ≠ t) :
    ({ a with vars := a.vars.filter fun e => !e.isTemp t } : DepState).findTmp t' =
      a.findTmp t' := by
  have hfind : (a.vars.filter fun e => !e.isTemp t).find? (Entry.isTemp t') =
      a.vars.find? (Entry.isTemp t') := by
    rw [List.find?_filter]
    refine congrArg (fun p => a.vars.find? p) (funext fun e => ?_)
    by_cases he : e.isTemp t' <;> simp only [Entry.isTemp, decide_eq_true_eq] at he <;>
      simp [Entry.isTemp, he]
    exact hne
  simp only [findTmp, hfind]

theorem fresh_filter :
    ({ a with vars := a.vars.filter fun e => !e.isTemp t } : DepState).Fresh t :=
  fun e he => by simpa using (List.mem_filter.mp he).2

/-- **What a helper looks up** are the lists of its temporaries, of its register and of its
address. -/
theorem source_congr {c : HelperCall} (htmps : ∀ t ∈ c.lookups, a.findTmp t = a₀.findTmp t)
    (hregs : ∀ t r, c = .assgnTmpGet t r → a.findReg r = a₀.findReg r)
    (hshadow : a.shadow = a₀.shadow) : a.source c = a₀.source c := by
  have hmerge : ∀ {ts : List IRTemp} {vs : List ℤ}, (∀ t ∈ ts, a.findTmp t = a₀.findTmp t) →
      a.mergeTmps vs ts = a₀.mergeTmps vs ts := by
    intro ts
    induction ts with
    | nil => exact fun _ => rfl
    | cons t ts ih =>
      intro vs hts
      rw [mergeTmps, mergeTmps, hts t List.mem_cons_self]
      exact congrArg _ (funext fun ws => ih fun t' ht' => hts t' (List.mem_cons_of_mem t ht'))
  have hdeps : ∀ {ts : List IRTemp}, (∀ t ∈ ts, a.findTmp t = a₀.findTmp t) →
      a.depsOf ts = a₀.depsOf ts := by
    intro ts hts
    cases ts with
    | nil => rfl
    | cons t ts =>
      rw [depsOf, depsOf, hts t List.mem_cons_self]
      exact congrArg _ (funext fun ws => hmerge fun t' ht' => hts t' (List.mem_cons_of_mem t ht'))
  cases c with
  | assgnTmpLoad t addr => simp only [DepState.source, getShadow, hshadow]
  | assgnTmpGet t r => simp only [DepState.source, hregs t r rfl]
  | exit | assgnTmpConst | storeConst | putCnst => rfl
  | assgnTmpUnop | assgnTmpBinop | assgnTmpTriop | assgnTmpQop | storeTmp | putTmp =>
    exact hdeps htmps

/-! ### Two executions side by side -/

/-- **The two executions agree**: on the temporaries that have been assigned, and on
everything else but the entries that were there at the start. -/
structure Agrees (T : List IRTemp) (a a₀ : DepState) : Prop where
  /-- Nothing dangles. -/
  dangling : a.dangling = false
  /-- Nothing dangles where `var_deps` was empty at the start. -/
  dangling₀ : a₀.dangling = false
  /-- The temporaries that have been assigned have the same lists. -/
  tmps : ∀ t ∈ T, a.findTmp t = a₀.findTmp t
  /-- The others have no entry where `var_deps` was empty at the start. -/
  fresh : ∀ t, t ∉ T → a₀.Fresh t
  regs : a.regs = a₀.regs
  nextId : a.nextId = a₀.nextId
  shadow : a.shadow = a₀.shadow

variable {T : List IRTemp}

/-- The helpers look up the same lists. -/
theorem Agrees.source (h : Agrees T a a₀) {c : HelperCall} (hc : ∀ t ∈ c.lookups, t ∈ T) :
    a.source c = a₀.source c :=
  source_congr (fun t ht => h.tmps t (hc t ht)) (fun t r _ => by simp only [findReg, h.regs])
    h.shadow

/-- Temporaries without an entry are assigned without a trace. -/
theorem Agrees.skips (h : Agrees T a a₀) {ts : List IRTemp} (hts : ∀ t ∈ ts, t ∉ T)
    (hfresh : ∀ t ∈ ts, a.Fresh t) : Agrees (ts ++ T) a a₀ where
  dangling := h.dangling
  dangling₀ := h.dangling₀
  tmps t ht := by
    rcases List.mem_append.mp ht with ht | ht
    · rw [findTmp_of_fresh h.dangling (hfresh t ht),
        findTmp_of_fresh h.dangling₀ (h.fresh t (hts t ht))]
    · exact h.tmps t ht
  fresh t ht := h.fresh t fun hmem => ht (List.mem_append_right ts hmem)
  regs := h.regs
  nextId := h.nextId
  shadow := h.shadow

theorem Agrees.skip (h : Agrees T a a₀) (ht : t ∉ T) (hfresh : a.Fresh t) :
    Agrees (t :: T) a a₀ :=
  h.skips (List.forall_mem_singleton.mpr ht) (List.forall_mem_singleton.mpr hfresh)

/-- Erasing a temporary that is not assigned yet. -/
theorem Agrees.erase (h : Agrees T a a₀) (ht : t ∉ T)
    (hhead : a.vars.head?.any (Entry.isTemp t) = false) :
    ∃ a', a.eraseTmp t = .ok a' ∧ a'.Fresh t ∧ Agrees T a' a₀ ∧ a₀.eraseTmp t = .ok a₀ := by
  refine ⟨_, eraseTmp_of_head h.dangling hhead, fresh_filter, ?_,
    eraseTmp_of_fresh h.dangling₀ (h.fresh t ht)⟩
  refine ⟨h.dangling, h.dangling₀, fun t' ht' => ?_, h.fresh, h.regs, h.nextId, h.shadow⟩
  rw [findTmp_filter_of_ne (ne_of_mem_of_not_mem ht' ht), h.tmps t' ht']

/-- A new entry in front. -/
theorem Agrees.prependVar (h : Agrees T a a₀) (t : IRTemp) (deps : List ℤ) :
    Agrees (t :: T) (a.prependVar t deps) (a₀.prependVar t deps) where
  dangling := h.dangling
  dangling₀ := h.dangling₀
  tmps t' ht' := by
    by_cases hne : t' = t
    · rw [hne, findTmp_prependVar, findTmp_prependVar]
    · rw [findTmp_prependVar_of_ne hne, findTmp_prependVar_of_ne hne,
        h.tmps t' (List.mem_of_ne_of_mem hne ht')]
  fresh t' ht' e he := by
    rw [List.mem_cons, not_or] at ht'
    rcases List.mem_cons.mp he with rfl | he
    · exact isTemp_eq_false ht'.1 _
    · exact h.fresh t' ht'.2 e he
  regs := h.regs
  nextId := congrArg (· + 1) h.nextId
  shadow := h.shadow

/-- A new entry at the end, for a temporary that has none. -/
theorem Agrees.appendVar (h : Agrees T a a₀) (ht : t ∉ T) (hfresh : a.Fresh t) (deps : List ℤ) :
    ∃ a' a₀', a.appendVar t deps = .ok a' ∧ a₀.appendVar t deps = .ok a₀' ∧
      Agrees (t :: T) a' a₀' := by
  have ha := appendVar_eq h.dangling t deps
  have ha₀ := appendVar_eq h.dangling₀ t deps
  refine ⟨_, _, ha, ha₀, h.dangling, h.dangling₀, fun t' ht' => ?_, fun t' ht' e he => ?_,
    h.regs, congrArg (· + 1) h.nextId, h.shadow⟩
  · by_cases hne : t' = t
    -- the new entry is the first one of its temporary on both sides
    · rw [hne, findTmp_appendVar hfresh ha, findTmp_appendVar (h.fresh t ht) ha₀]
    · rw [findTmp_appendVar_of_ne hne ha, findTmp_appendVar_of_ne hne ha₀,
        h.tmps t' (List.mem_of_ne_of_mem hne ht')]
  · rw [List.mem_cons, not_or] at ht'
    rcases List.mem_append.mp he with he | he
    · exact h.fresh t' ht'.2 e he
    · rw [List.mem_singleton.mp he]
      exact isTemp_eq_false ht'.1 _

/-- An assignment is in order: it finds nothing to record and there is no entry, or it
erases an entry that is not first. -/
def Orderly (a : DepState) (t : IRTemp) (deps : List ℤ) : Prop :=
  if deps = [] then a.Fresh t else a.vars.head?.any (Entry.isTemp t) = false

theorem Agrees.recordFront (h : Agrees T a a₀) (ht : t ∉ T) (ho : a.Orderly t deps)
    (hok : a.recordFront t deps = .ok a') :
    ∃ a₀', a₀.recordFront t deps = .ok a₀' ∧ Agrees (t :: T) a' a₀' := by
  rw [DepState.recordFront] at hok ⊢
  rw [Orderly] at ho
  split at ho
  · next hnil =>
    rw [if_pos hnil] at hok ⊢
    cases hok
    exact ⟨a₀, rfl, h.skip ht ho⟩
  · next hne =>
    obtain ⟨a₁, h₁, -, hagr, h₀⟩ := h.erase ht ho
    -- where `var_deps` was empty there is nothing to erase
    rw [if_neg hne, h₁] at hok
    rw [if_neg hne, h₀]
    cases hok
    exact ⟨_, rfl, hagr.prependVar t deps⟩

theorem Agrees.recordBack (h : Agrees T a a₀) (ht : t ∉ T) (ho : a.Orderly t deps)
    (hok : a.recordBack t deps = .ok a') :
    ∃ a₀', a₀.recordBack t deps = .ok a₀' ∧ Agrees (t :: T) a' a₀' := by
  rw [DepState.recordBack] at hok ⊢
  rw [Orderly] at ho
  split at ho
  · next hnil =>
    rw [if_pos hnil] at hok ⊢
    cases hok
    exact ⟨a₀, rfl, h.skip ht ho⟩
  · next hne =>
    obtain ⟨a₁, h₁, hfresh, hagr, h₀⟩ := h.erase ht ho
    obtain ⟨a₂, a₃, h₂, h₃, hagr⟩ := hagr.appendVar ht hfresh deps
    rw [if_neg hne, h₁] at hok
    rw [if_neg hne, h₀]
    obtain rfl := Except.ok.inj (h₂.symm.trans hok)
    exact ⟨a₃, h₃, hagr⟩

/-- A slot of the shadow table. -/
theorem Agrees.setShadow (h : Agrees T a a₀) {addr : UWord} (hok : a.setShadow addr deps = .ok a') :
    ∃ a₀', a₀.setShadow addr deps = .ok a₀' ∧ Agrees T a' a₀' := by
  obtain ⟨tb₁, h₁, hok⟩ := bind_eq_ok.mp hok
  obtain ⟨old, h₂, hok⟩ := bind_eq_ok.mp hok
  obtain ⟨tb₂, h₃, hok⟩ := bind_eq_ok.mp hok
  cases hok
  refine ⟨{ a₀ with shadow := tb₂ }, ?_, ⟨h.dangling, h.dangling₀, h.tmps, h.fresh, h.regs,
    h.nextId, rfl⟩⟩
  rw [DepState.setShadow, ← h.shadow, h₁, ok_bind, h₂, ok_bind, h₃, ok_bind]

/-- The entries of a register are erased. -/
theorem Agrees.eraseReg (h : Agrees T a a₀) (r : BitVec 32) :
    Agrees T (a.eraseReg r) (a₀.eraseReg r) where
  dangling := h.dangling
  dangling₀ := h.dangling₀
  tmps := h.tmps
  fresh := h.fresh
  regs := congrArg (List.filter _) h.regs
  nextId := h.nextId
  shadow := h.shadow

/-- A register gets an entry. -/
theorem Agrees.prependReg (h : Agrees T a a₀) (r : BitVec 32) (deps : List ℤ) :
    Agrees T (a.prependReg r deps) (a₀.prependReg r deps) where
  dangling := h.dangling
  dangling₀ := h.dangling₀
  tmps := h.tmps
  fresh := h.fresh
  regs := by simp only [DepState.prependReg, h.regs, h.nextId]
  nextId := congrArg (· + 1) h.nextId
  shadow := h.shadow

theorem Fresh.head (h : a.Fresh t) : a.vars.head?.any (Entry.isTemp t) = false := by
  cases hv : a.vars with
  | nil => rfl
  | cons e es => exact h e (by rw [hv]; exact List.mem_cons_self)

/-- `DepLeak.Replaces`, on lists. -/
def ReplacesVars (a : DepState) (t : IRTemp) : HelperCall → Prop
  | .assgnTmpConst _ => a.vars.head?.any (Entry.isTemp t) = false
  | .assgnTmpGet _ r => a.view (.reg r) ≠ ∅
  | c => (∃ asg, c.assignment = some asg ∧ union a.view asg.srcs ≠ ∅) ∧
      a.vars.head?.any (Entry.isTemp t) = false

/-- A helper whose temporary has no entry, or that replaces it, is in order. -/
theorem orderly {c : HelperCall} (hs : a.source c = .ok deps) (hr : a.Fresh t ∨
      (∃ asg, c.assignment = some asg ∧ union a.view asg.srcs ≠ ∅) ∧
        a.vars.head?.any (Entry.isTemp t) = false) : a.Orderly t deps := by
  rw [Orderly]
  split
  · next hnil =>
    rcases hr with hfresh | ⟨⟨asg', hasg', hne⟩, -⟩
    · exact hfresh
    · refine absurd ?_ hne
      rw [← source_union hasg' hs, hnil]
      simp
  · exact hr.elim Fresh.head fun h => h.2

/-- **A helper call keeps the agreement**, if it leaves nothing old behind. -/
theorem Agrees.call (h : Agrees T a a₀) {c : HelperCall} (hc : ∀ t ∈ c.lookups, t ∈ T)
    (hdst : ∀ t ∈ c.dst?, t ∉ T ∧ (a.Fresh t ∨ a.ReplacesVars t c)) (hcall : a.call c = .ok a') :
    ∃ a₀', a₀.call c = .ok a₀' ∧ Agrees (c.dst?.toList ++ T) a' a₀' := by
  obtain ⟨deps, hs, hassign⟩ := bind_eq_ok.mp hcall
  have hcall₀ : a₀.call c = a₀.assign deps c := by
    rw [DepState.call, ← h.source hc, hs]
    rfl
  rw [hcall₀]
  cases c with
  | assgnTmpLoad t addr =>
    exact h.recordBack (hdst t rfl).1 (orderly hs (hdst t rfl).2) hassign
  | exit =>
    simp only [assign, h.dangling, h.dangling₀, Bool.false_eq_true, if_false] at hassign ⊢
    cases hassign
    -- both lists are freed
    refine ⟨_, rfl, rfl, rfl, fun t _ => rfl, fun t _ e he => ?_, h.regs, h.nextId, h.shadow⟩
    exact absurd he List.not_mem_nil
  | assgnTmpConst t =>
    obtain ⟨ht, hr⟩ := hdst t rfl
    obtain ⟨a₁, h₁, hfresh, hagr, h₀⟩ := h.erase ht (hr.elim Fresh.head id)
    obtain rfl := Except.ok.inj (h₁.symm.trans hassign)
    exact ⟨a₀, h₀, hagr.skip ht hfresh⟩
  | assgnTmpUnop t | assgnTmpBinop t | assgnTmpTriop t =>
    exact h.recordFront (hdst t rfl).1 (orderly hs (hdst t rfl).2) hassign
  | assgnTmpQop t =>
    obtain ⟨a₁, h₁, hassign⟩ := bind_eq_ok.mp hassign
    obtain ⟨a₂, h₂, hagr⟩ := h.recordBack (hdst t rfl).1 (orderly hs (hdst t rfl).2) h₁
    cases hassign
    refine ⟨{ a₂ with lost := a₂.lost || decide (deps ≠ []) }, ?_, ⟨hagr.dangling,
      hagr.dangling₀, hagr.tmps, hagr.fresh, hagr.regs, hagr.nextId, hagr.shadow⟩⟩
    rw [assign, h₂, ok_bind]
  | storeConst addr =>
    cases hs
    exact h.setShadow hassign
  | storeTmp addr t =>
    simp only [assign] at hassign ⊢
    split at hassign
    · next hnil =>
      cases hassign
      exact ⟨a₀, by rw [if_pos hnil], h⟩
    · next hne =>
      rw [if_neg hne]
      exact h.setShadow hassign
  | putTmp r t =>
    simp only [assign] at hassign ⊢
    split at hassign
    · next hnil =>
      cases hassign
      exact ⟨a₀, by rw [if_pos hnil], h⟩
    · next hne =>
      cases hassign
      rw [if_neg hne]
      exact ⟨_, rfl, (h.eraseReg r).prependReg r deps⟩
  | putCnst r =>
    cases hassign
    exact ⟨_, rfl, h.eraseReg r⟩
  | assgnTmpGet t r =>
    obtain ⟨ht, hr⟩ := hdst t rfl
    simp only [assign] at hassign ⊢
    split at hassign
    · next hnil =>
      cases hassign
      -- the register has nothing, so that an old entry would stay
      refine ⟨a₀, by rw [if_pos hnil], h.skip ht ?_⟩
      rcases hr with hfresh | hne
      · exact hfresh
      · refine absurd ?_ hne
        rw [view_of_ok (c := .reg r) hs, hnil]
        simp
    · next hne =>
      cases hassign
      rw [if_neg hne]
      exact ⟨_, rfl, h.prependVar t deps⟩

end DepState

/-! ### From the lists to the state -/

section State

variable {s s' s₀ : State} {a a₀ : DepState} {t : IRTemp}

/-- `find_read_dep_tmp` returns the list of the temporary. -/
theorem listOf_eq (hr : Rep s a) (t : IRTemp) : listOf s t = a.findTmp t := by
  have hl := findReadDepTmp_lockstep hr t
  rw [listOf]
  cases hq : findReadDepTmp s t with
  | error f =>
    rw [hq] at hl
    exact hl.eq_error.symm
  | ok q =>
    obtain ⟨vs, hvs, hat⟩ := hl.ok_right hq
    rw [ok_bind, hat.toList, hvs]

theorem hasEntry_iff (hr : Rep s a) : HasEntry s t ↔ ¬a.Fresh t := by
  obtain ⟨⟨P, D, hn, -⟩, -⟩ := hr
  obtain ⟨q, hseg, -, hdead, -⟩ := hn.vars
  rw [HasEntry, Heap.find_seg hseg hdead, find?_map_cellOf (g := Entry.isTemp t) fun _ _ => rfl]
  cases hf : a.vars.find? (Entry.isTemp t) with
  | some e =>
    refine iff_of_true ⟨_, rfl⟩ fun hfresh => ?_
    have he := hfresh e (List.mem_of_find?_eq_some hf)
    rw [List.find?_some hf] at he
    cases he
  | none =>
    refine iff_of_false ?_ fun hfresh => hfresh fun e he => ?_
    · rintro ⟨x, hx⟩
      simp only [Option.map_none] at hx
      split at hx <;> cases hx
    · simpa using List.find?_eq_none.mp hf e he

theorem headIs_iff (hr : Rep s a) (hd : a.dangling = false) :
    HeadIs s t ↔ a.vars.head?.any (Entry.isTemp t) = true := by
  obtain ⟨⟨P, D, hn, -⟩, -⟩ := hr
  obtain ⟨q, hseg, -, hdead, hq⟩ := hn.vars
  obtain rfl := hq.mpr hd
  rw [HeadIs]
  cases hv : a.vars with
  | nil =>
    rw [hv] at hseg
    refine iff_of_false ?_ (by simp)
    rintro ⟨i, nd, hi, -⟩
    rw [Seg.nil_iff.mp hseg] at hi
    cases hi
  | cons e es =>
    rw [hv] at hseg
    obtain ⟨hi, p', hcell, -⟩ := hseg
    constructor
    · rintro ⟨i, nd, hi', hread, htemp⟩
      obtain rfl := Option.some.inj (hi.symm.trans hi')
      rw [Heap.read_of_cell hcell] at hread
      cases hread
      exact htemp
    · exact fun htemp => ⟨e.id, _, hi, Heap.read_of_cell hcell, htemp⟩

theorem replaces_iff (hr : Rep s a) (hd : a.dangling = false) {c : HelperCall} :
    Replaces s t c ↔ a.ReplacesVars t c := by
  have hhead : ¬HeadIs s t ↔ a.vars.head?.any (Entry.isTemp t) = false := by
    rw [headIs_iff hr hd, Bool.not_eq_true]
  cases c <;> simp only [Replaces, DepState.ReplacesVars, tracked_eq_view hr, hhead]

/-- The state from which `var_deps` is forgotten. -/
theorem Rep.forgetVars (hr : Rep s a) :
    Rep { s with varDeps := none } { a with vars := [], dangling := false, lost := true } := by
  obtain ⟨⟨P, D, hn, hl⟩, hsc⟩ := hr
  obtain ⟨hndv, hndr, hvr, hvw, hrw⟩ := hn.nodup_parts
  have hall : ∀ e, e ∈ ({ a with vars := [], dangling := false, lost := true } : DepState).all ↔
      e ∈ a.all ∧ e.id ∉ a.vars.map Entry.id := by
    intro e
    simp only [mem_all, List.not_mem_nil, false_or]
    constructor
    · rintro (he | he)
      · exact ⟨Or.inr (Or.inl he), fun hmem => hvr _ hmem (List.mem_map_of_mem he)⟩
      · exact ⟨Or.inr (Or.inr he), fun hmem => hvw _ hmem (List.mem_map_of_mem he)⟩
    · rintro ⟨he | he | he, hnot⟩
      · exact absurd (List.mem_map_of_mem he) hnot
      · exact Or.inl he
      · exact Or.inr he
  -- the lists of its entries have no owner any more, as the field `lost` says
  have hf := hl.lists.forget (placePtr s.shadowMem (wipe none P (a.vars.map Entry.id)) none)
    (placeVals a.shadow (wipe [] D (a.vars.map Entry.id)) []) (by
    rintro (k | i | _)
    · exact Or.inl ⟨rfl, rfl⟩
    · by_cases hi : i ∈ a.vars.map Entry.id
      · exact Or.inr ⟨wipe_of_mem hi, wipe_of_mem hi⟩
      · exact Or.inl ⟨wipe_of_notMem hi, wipe_of_notMem hi⟩
    · exact Or.inl ⟨rfl, rfl⟩)
  have hkeep : ∀ {es : List Entry}, (∀ e ∈ es, e.id ∉ a.vars.map Entry.id) →
      es.map (cellOf (wipe none P (a.vars.map Entry.id))) = es.map (cellOf P) := fun hes =>
    map_cellOf_congr fun e he => wipe_of_notMem (hes e he)
  refine ⟨⟨_, _, ⟨⟨none, rfl, ?_, Heap.dead_none, by simp⟩, ?_, ?_, ?_,
    fun hlost => by simp at hlost, hn.top⟩, hl.remove hf hall rfl⟩, hsc⟩
  · rintro d ⟨⟩
  · rw [hkeep fun e he hmem => hvr _ hmem (List.mem_map_of_mem he)]
    exact hn.regs
  · rw [hkeep fun e he hmem => hvw _ hmem (List.mem_map_of_mem he)]
    exact hn.writes
  · refine hn.nodup.sublist (List.Sublist.map _ ?_)
    simp [DepState.all]

/-! ### One execution -/

variable {ρ : IRTemp → UWord} {T : List IRTemp} {B : List IRStmt}

/-- Two states with lists that agree. -/
def Alike (T : List IRTemp) (s s₀ : State) : Prop :=
  ∃ a a₀, Rep s a ∧ Rep s₀ a₀ ∧ DepState.Agrees T a a₀

/-- **A statement keeps two executions alike**, if it leaves nothing old behind. -/
theorem Alike.step (h : Alike T s s₀) {st : IRStmt} (hops : ∀ t ∈ st.operands, t ∈ T)
    (hdsts : ∀ t ∈ st.dsts, t ∉ T) (htidy : Tidy ρ s st) (hs : stepStmt ρ s st = .ok s') :
    ∃ s₀', stepStmt ρ s₀ st = .ok s₀' ∧ Alike (st.dsts ++ T) s' s₀' := by
  obtain ⟨a, a₀, hr, hr₀, hagr⟩ := h
  rw [stepStmt] at hs ⊢
  cases hc : stmtCall ρ st with
  | none =>
    rw [hc] at hs
    cases hs
    -- without a call, an old entry would stay
    refine ⟨s₀, rfl, a, a₀, hr, hr₀, ?_⟩
    have hfresh : ∀ t ∈ st.dsts, a.Fresh t := by
      intro t ht
      by_contra hnot
      obtain ⟨c, hc', -⟩ := htidy t ht ((hasEntry_iff hr).mpr hnot)
      rw [hc] at hc'
      cases hc'
    exact hagr.skips hdsts hfresh
  | some c =>
    rw [hc] at hs
    obtain ⟨hlook, hdst⟩ := stmtCall_temps hc
    obtain ⟨a', hcall, hr'⟩ := (callHelper_lockstep hr c).ok_right hs
    have hmem : ∀ t ∈ c.dst?, t ∈ st.dsts := fun t ht => by
      rw [← hdst]
      exact Option.mem_toList.mpr ht
    have hrep : ∀ t ∈ c.dst?, a.Fresh t ∨ a.ReplacesVars t c := by
      intro t ht
      by_cases hfresh : a.Fresh t
      · exact Or.inl hfresh
      · obtain ⟨c', hc', hrep⟩ := htidy t (hmem t ht) ((hasEntry_iff hr).mpr hfresh)
        obtain rfl := Option.some.inj (hc.symm.trans hc')
        exact Or.inr ((replaces_iff hr hagr.dangling).mp hrep)
    obtain ⟨a₀', hcall₀, hagr'⟩ := hagr.call (fun t ht => hops t (hlook t ht))
      (fun t ht => ⟨hdsts t (hmem t ht), hrep t ht⟩) hcall
    obtain ⟨s₀', hs₀, hr₀'⟩ := (callHelper_lockstep hr₀ c).ok_left hcall₀
    rw [hdst] at hagr'
    exact ⟨s₀', hs₀, a', a₀', hr', hr₀', hagr'⟩

/-- The statements of an execution that leaves nothing old behind keep two executions
alike. -/
theorem Alike.run {pre post : List IRStmt} (h : Alike T s s₀) (hB : Scoped T (pre ++ post))
    (htidy : ∀ pre' st post', pre = pre' ++ st :: post' →
      ∀ s₁, Runs.run (stepStmt ρ) s pre' = .ok s₁ → Tidy ρ s₁ st)
    (hs : Runs.run (stepStmt ρ) s pre = .ok s') :
    ∃ s₀' T', Runs.run (stepStmt ρ) s₀ pre = .ok s₀' ∧ Alike T' s' s₀' ∧ Scoped T' post := by
  induction pre generalizing s s₀ T with
  | nil =>
    cases hs
    exact ⟨s₀, T, rfl, h, hB⟩
  | cons st pre ih =>
    obtain ⟨s₁, h₁, hs⟩ := run_cons_eq_ok.mp hs
    obtain ⟨hops, hdsts, hB⟩ := hB
    obtain ⟨s₂, h₂, halike⟩ := h.step hops hdsts (htidy [] st pre rfl s rfl) h₁
    obtain ⟨s₃, T', h₃, halike', hpost⟩ := ih halike hB (fun pre' st' post' hpre s' hs' =>
      htidy (st :: pre') st' post' (by rw [hpre]; rfl) s' (run_cons_eq_ok.mpr ⟨s₁, h₁, hs'⟩)) hs
    exact ⟨s₃, T', run_cons_eq_ok.mpr ⟨s₂, h₂, h₃⟩, halike', hpost⟩

theorem scoped_executed (hB : Scoped T B) : Scoped T (executed ρ B) := by
  induction B generalizing T with
  | nil => exact hB
  | cons st B ih =>
    obtain ⟨hops, hdsts, hB⟩ := hB
    rw [executed]
    split
    · exact ⟨hops, hdsts, trivial⟩
    · exact ⟨hops, hdsts, ih hB⟩

/-- A state without dangling pointers. -/
def Sound (s : State) : Prop := ∃ a, Rep s a ∧ a.dangling = false

theorem Sound.alike (h : Sound s) : Alike [] s { s with varDeps := none } := by
  obtain ⟨a, hr, hd⟩ := h
  refine ⟨a, _, hr, hr.forgetVars, hd, rfl, fun t ht => absurd ht List.not_mem_nil,
    fun t _ e he => absurd he List.not_mem_nil, rfl, rfl, rfl⟩

/-- **A tidy execution is local.** -/
theorem TidyBlock.isLocal (h : TidyBlock ρ s B) (hs : Sound s) (hB : Scoped [] B) :
    Local ρ s B := by
  intro pre st post c hpre hc s₁ h₁
  have hscoped : Scoped [] (pre ++ st :: post) := hpre ▸ scoped_executed hB
  obtain ⟨s₂, T, h₂, ⟨a₁, a₂, hr₁, hr₂, hagr⟩, hops, -⟩ := hs.alike.run hscoped
    (fun pre' st' post' hpre' => h pre' st' (post' ++ st :: post) (by rw [hpre, hpre']; simp)) h₁
  refine ⟨s₂, h₂, fun t ht => ?_⟩
  have htmp := hagr.tmps t (hops t ((stmtCall_temps hc).1 t ht))
  obtain ⟨vs, hvs⟩ : ∃ vs, a₁.findTmp t = .ok vs := by
    rw [DepState.findTmp, hagr.dangling]
    split
    · exact ⟨_, rfl⟩
    · exact ⟨_, rfl⟩
  exact ⟨vs, by rw [listOf_eq hr₁, hvs], by rw [listOf_eq hr₂, ← htmp, hvs]⟩

/-- A tidy execution leaves nothing dangling. -/
theorem TidyBlock.sound (h : TidyBlock ρ s B) (hs : Sound s) (hB : Scoped [] B)
    (hrun : Runs.run (stepStmt ρ) s (executed ρ B) = .ok s') : Sound s' := by
  have hscoped : Scoped [] (executed ρ B ++ []) := by
    rw [List.append_nil]
    exact scoped_executed hB
  obtain ⟨s₂, T, -, ⟨a₁, a₂, hr₁, -, hagr⟩, -⟩ := hs.alike.run hscoped h hrun
  exact ⟨a₁, hr₁, hagr.dangling⟩

/-- Neither does a hook. -/
theorem Sound.preCall {n : ℕ} {args : ℕ → UWord} (h : Sound s)
    (hs : taPreCall s n args = .ok s') : Sound s' := by
  obtain ⟨a, hr, hd⟩ := h
  obtain ⟨a', hcall, hr'⟩ := (taPreCall_lockstep hr n args).ok_right hs
  exact ⟨a', hr', (DepState.preCall_frame hcall).1.trans hd⟩

/-! ### Every run -/

/-- Every superblock of a run is executed tidily. -/
def TidyRun (es : List (Activity fnname)) : Prop :=
  ∀ es₁ ρ sb es₂, es = es₁ ++ .block ρ sb :: es₂ →
    ∀ s, Runs.run stepActivity (.init true) es₁ = .ok s → TidyBlock ρ s sb.stmts

/-- Temporaries are local to every execution of a run. -/
def LocalRun (es : List (Activity fnname)) : Prop :=
  ∀ es₁ ρ sb es₂, es = es₁ ++ .block ρ sb :: es₂ →
    ∀ s, Runs.run stepActivity (.init true) es₁ = .ok s → Local ρ s sb.stmts

/-- The execution of a superblock is that of its helper calls. -/
theorem stepActivity_block (s : State) (sb : Superblock fnname) :
    stepActivity s (.block ρ sb) = Runs.run (stepStmt ρ) s (executed ρ sb.stmts) := by
  rw [stepActivity, (daInstrument_eq sb.stays sb.instrumented).1, execStmts_instrumented sb.guest]

theorem TidyRun.sound {es : List (Activity fnname)} (h : TidyRun es) {es₁ es₂}
    (hes : es = es₁ ++ es₂) (hs : Runs.run stepActivity (.init true) es₁ = .ok s) : Sound s := by
  -- the superblocks one after the other, from the start of the program
  induction es₁ using List.reverseRecOn generalizing es₂ s with
  | nil =>
    cases hs
    exact ⟨_, rep_init true, rfl⟩
  | append_singleton es₁ e ih =>
    obtain ⟨s₁, h₁, hs⟩ := run_append_eq_ok.mp hs
    obtain ⟨s₂, h₂, hs⟩ := run_cons_eq_ok.mp hs
    cases hs
    have hes' : es = es₁ ++ e :: es₂ := by rw [hes, List.append_assoc]; rfl
    have hsound := ih hes' h₁
    cases e with
    | block ρ sb =>
      rw [stepActivity_block] at h₂
      exact (h es₁ ρ sb es₂ hes' s₁ h₁).sound hsound sb.wellScoped h₂
    | preCall n args => exact hsound.preCall h₂

/-- **Temporaries are local along every run whose executions are tidy.** -/
theorem localRun_of_tidy {es : List (Activity fnname)} (h : TidyRun es) : LocalRun es :=
  fun es₁ ρ sb es₂ hes s hs =>
    (h es₁ ρ sb es₂ hes s hs).isLocal (h.sound hes hs) sb.wellScoped

end State

/-- Two bytes are read. -/
def twoReads : List (Activity fun _ => none) :=
  [.preCall nrRead (sysArgs 0 8 1), .preCall nrRead (sysArgs 0 100 1)]

/-- The first one is loaded into two temporaries. -/
def loadTwice : Superblock fun _ => none :=
  .ofHandled _ [.wrTmp 1 (.load (.const 8)), .wrTmp 0 (.load (.const 8))] (by decide) rfl
    (by decide)

/-- The other one is loaded into the second of them, and put into a register. -/
def loadOver : Superblock fun _ => none :=
  .ofHandled _ [.wrTmp 0 (.load (.const 100)), .put 24 (.rdTmp 0)] (by decide) rfl (by decide)

/-- No temporary has an entry before it is loaded first. -/
theorem tidyBlock_loadTwice {s : State} (hs : run stepActivity (.init true) twoReads = .ok s) :
    TidyBlock (fun _ => 0) s loadTwice.stmts := by
  obtain ⟨s', s₁', hs', hvar, h₁', hnone⟩ : ∃ s s₁,
      run stepActivity (.init true) twoReads = .ok s ∧ s.varDeps = none ∧
        run (stepStmt fun _ => 0) s [.wrTmp 1 (.load (.const 8))] = .ok s₁ ∧
          s₁.nodes.find (isTemp 0) s₁.varDeps = .ok none := ⟨_, _, rfl, rfl, rfl, rfl⟩
  obtain rfl := Except.ok.inj (hs.symm.trans hs')
  intro pre st post hpre s₁ h₁ t ht ⟨x, hx⟩
  rcases pre with _ | ⟨st', _ | ⟨st'', pre⟩⟩
  · obtain rfl := Except.ok.inj h₁
    rw [hvar] at hx
    cases hx
  · cases hpre
    obtain rfl := List.mem_singleton.mp ht
    obtain rfl := Except.ok.inj (h₁.symm.trans h₁')
    cases hnone.symm.trans hx
  · simp [loadTwice, executed, exitTaken, Superblock.ofHandled] at hpre

/-- The entry for the first byte is replaced, which is not the first of `var_deps`. -/
theorem tidyBlock_loadOver {s : State}
    (hs : run stepActivity (.init true) (twoReads ++ [.block (fun _ => 0) loadTwice]) = .ok s) :
    TidyBlock (fun _ => 0) s loadOver.stmts := by
  obtain ⟨s', i, nd, hs', hi, hnd, htemp, hmem⟩ : ∃ s i nd,
      run stepActivity (.init true) (twoReads ++ [.block (fun _ => 0) loadTwice]) = .ok s ∧
        s.varDeps = some i ∧ s.nodes.read i = .ok nd ∧ isTemp 0 nd.val = false ∧
          (2 : ℤ) ∈ tracked s (memCell 100) :=
    ⟨_, _, _, rfl, rfl, rfl, rfl, _, [2], rfl, rfl, List.mem_singleton_self 2⟩
  obtain rfl := Except.ok.inj (hs.symm.trans hs')
  intro pre st post hpre s₁ h₁ t ht hentry
  rcases pre with _ | ⟨st', _ | ⟨st'', pre⟩⟩
  · cases hpre
    obtain rfl := Except.ok.inj h₁
    obtain rfl := List.mem_singleton.mp ht
    refine ⟨_, rfl, ⟨_, rfl, ?_⟩, ?_⟩
    · have hsource : (2 : ℤ) ∈ union (tracked s) [memCell 100] :=
        mem_union.mpr ⟨memCell 100, List.mem_singleton_self _, hmem⟩
      exact Set.nonempty_iff_ne_empty.mp ⟨2, hsource⟩
    · rintro ⟨j, nd', hj, hnd', htemp'⟩
      obtain rfl := Option.some.inj (hi.symm.trans hj)
      obtain rfl := Except.ok.inj (hnd.symm.trans hnd')
      cases htemp.symm.trans htemp'
  · cases hpre
    cases ht
  · simp [loadOver, executed, exitTaken, Superblock.ofHandled] at hpre

/-- A temporary that has an entry for the first byte is assigned the other one. -/
theorem localRun_of_tidy_loadOver :
    LocalRun (twoReads ++ [.block (fun _ => 0) loadTwice, .block (fun _ => 0) loadOver]) := by
  refine localRun_of_tidy fun es₁ ρ sb es₂ hes s hs => ?_
  rcases es₁ with _ | ⟨e₁, _ | ⟨e₂, _ | ⟨e₃, _ | ⟨e₄, es₁⟩⟩⟩⟩ <;>
    simp only [twoReads, List.cons_append, List.nil_append, List.cons.injEq, reduceCtorEq,
      false_and, and_false, Activity.block.injEq] at hes
  · obtain ⟨rfl, rfl, ⟨rfl, rfl⟩, -⟩ := hes
    exact tidyBlock_loadTwice hs
  · obtain ⟨rfl, rfl, rfl, ⟨rfl, rfl⟩, -⟩ := hes
    exact tidyBlock_loadOver hs
  · simp at hes

/-- A temporary keeps what an earlier superblock loaded into it, where a register without
dependencies is assigned to it. -/
theorem not_localRun :
    ¬∀ (fnname : UWord → Option String) (es : List (Activity fnname)), LocalRun es := by
  intro h
  let load : Superblock fun _ => none :=
    .ofHandled _ [.wrTmp 0 (.load (.const 8))] (by decide) rfl (by decide)
  let move : Superblock fun _ => none :=
    .ofHandled _ [.wrTmp 0 (.get 16), .put 24 (.rdTmp 0)] (by decide) rfl (by decide)
  obtain ⟨s, s₁, s₂, hs, h₁, h₂, hold, hnew⟩ : ∃ s s₁ s₂,
      run stepActivity (.init true) [.preCall nrRead (sysArgs 0 8 1), .block (fun _ => 0) load] =
        .ok s ∧ run (stepStmt fun _ => 0) s [.wrTmp 0 (.get 16)] = .ok s₁ ∧
          run (stepStmt fun _ => 0) { s with varDeps := none } [.wrTmp 0 (.get 16)] = .ok s₂ ∧
            listOf s₁ 0 = .ok [1] ∧ listOf s₂ 0 = .ok [] :=
    ⟨_, _, _, rfl, rfl, rfl, rfl, rfl⟩
  have hlocal := h (fun _ => none) [.preCall nrRead (sysArgs 0 8 1), .block (fun _ => 0) load,
    .block (fun _ => 0) move] _ (fun _ => 0) move [] rfl s hs
  obtain ⟨s₃, h₃, hsame⟩ := hlocal [.wrTmp 0 (.get 16)] (.put 24 (.rdTmp 0)) [] _ rfl rfl s₁ h₁
  obtain rfl := Except.ok.inj (h₂.symm.trans h₃)
  obtain ⟨vs, hvs, hvs₂⟩ := hsame 0 (List.mem_singleton_self 0)
  cases hold.symm.trans hvs
  cases hnew.symm.trans hvs₂

end DepLeak

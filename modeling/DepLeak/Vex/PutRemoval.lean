import DepLeak.Vex.GetRemoval
import DepLeak.Vex.Subst

/-!
# Removal of redundant Puts

`redundant_put_removal_BB`: going backwards, the parts of the guest state that are written
next, before anything looks at them, are kept by their first and last byte, and a Put to
one of them goes. Leaving the superblock looks at everything but the instruction pointer,
which it writes. An access to memory may fault, and then a handler looks at the guest
state; how much of it has to be right at that point depends on the control
(`Vex.VexRegisterUpdates`) and on what the guest architecture says of its registers
(`Vex.mem_requiredBytes_amd64`).

What is left out in the meantime are bytes. The two executions have the same temporaries
all along, and the same state but for the bytes that are written next
(`Vex.GuestBytes`); so they leave in the same way and, with the instruction pointer
written, to the same state, and at every access to memory the bytes that have to be right
are right (`Vex.redundantPutRemovalBB_sound`).
-/

namespace Vex

open Straight

variable {Op Fn V σ : Type}

/-! ### The pass -/

/-- `VexRegisterUpdates`. -/
inductive VexRegisterUpdates
  | invalid | spAtMemAccess | unwindregsAtMemAccess | allregsAtMemAccess | allregsAtEachInsn
  deriving DecidableEq, Repr

/-- `preciseMemExnsFn`: whether a part of the guest state, from the first to the last byte, has
to be right at accesses to memory. -/
abbrev PreciseMemExns := ℤ → ℤ → VexRegisterUpdates → Bool

/-- The parts of the guest state that are written next. -/
abbrev PutEnv := HashHW Unit

section Pass

variable (preciseMemExnsFn : PreciseMemExns) (pxControl : VexRegisterUpdates)

/-- The end of `handle_gets_Stmt`, for a statement that accesses memory. -/
def flushAtMemAccess (env : PutEnv) : Option PutEnv :=
  match pxControl with
  | .allregsAtMemAccess => some fun _ => none
  | .spAtMemAccess | .unwindregsAtMemAccess =>
    some fun key => if preciseMemExnsFn key.1 key.2 pxControl then none else env key
  | .allregsAtEachInsn | .invalid => none

/-- `handle_gets_Stmt`. -/
def handleGetsStmt (env : PutEnv) : IRStmt Op Fn → Option PutEnv
  | .wrTmp _ (.get offset ty) => do
    let key ← mkKeyGetPut offset ty
    some (invalidateOverlaps env key.1 key.2)
  | .wrTmp _ (.getI descr _ _) => do
    let key ← mkKeyGetIPutI descr
    some (invalidateOverlaps env key.1 key.2)
  | .wrTmp _ (.load _ _ _) => flushAtMemAccess preciseMemExnsFn pxControl env
  | .wrTmp _ _ => some env
  | .abiHint base _ nia => if isIRAtom base && isIRAtom nia then some fun _ => none else none
  -- everything is dumped, as the helper might read the guest state and access memory
  | .mbe _ | .dirty _ | .cas _ _ _ _ _ _ _ _ | .llsc _ _ _ _ => some fun _ => none
  | .store _ addr data =>
    if isIRAtom addr && isIRAtom data then flushAtMemAccess preciseMemExnsFn pxControl env
    else none
  | .storeG _ addr data guard =>
    if isIRAtom addr && isIRAtom data && isIRAtom guard then
      flushAtMemAccess preciseMemExnsFn pxControl env
    else none
  | .loadG _ _ _ addr alt guard =>
    if isIRAtom addr && isIRAtom alt && isIRAtom guard then
      flushAtMemAccess preciseMemExnsFn pxControl env
    else none
  | .exit guard _ _ _ => if isIRAtom guard then some env else none
  | .put _ data => if isIRAtom data then some env else none
  | .putI _ ix _ data => if isIRAtom ix && isIRAtom data then some env else none
  | .noOp | .iMark _ _ _ => some env

variable (T : OpTable Op) (tyenv : IRTypeEnv)

/-- The body of the loop of `redundant_put_removal_BB`. -/
def putRemovalStmt (env : PutEnv) : IRStmt Op Fn → Option (PutEnv × IRStmt Op Fn)
  | .noOp => some (env, .noOp)
  | .exit guard jk dst offsIP => some (fun _ => none, .exit guard jk dst offsIP)
  | .put offset data => do
    let key ← mkKeyGetPut offset (typeOfIRExpr T tyenv data)
    if isIRAtom data then
      -- redundant because a later one will overwrite it
      if (env key).isSome then some (env, .noOp)
      else some (Function.update env key (some ()), .put offset data)
    else none
  | .putI descr ix bias data => do
    let _ ← mkKeyGetIPutI descr
    let env ← handleGetsStmt preciseMemExnsFn pxControl env (.putI descr ix bias data)
    some (env, .putI descr ix bias data)
  | st => do
    let env ← handleGetsStmt preciseMemExnsFn pxControl env st
    some (env, st)

/-- The loop of `redundant_put_removal_BB`, backwards from the end. -/
def putRemovalStmts (env : PutEnv) : List (IRStmt Op Fn) → Option (PutEnv × List (IRStmt Op Fn))
  | [] => some (env, [])
  | st :: stmts => do
    let (env, stmts) ← putRemovalStmts env stmts
    let (env, st) ← putRemovalStmt preciseMemExnsFn pxControl T tyenv env st
    some (env, st :: stmts)

/-- `redundant_put_removal_BB`; `none` is an assertion that fails. It starts off with the fact
that the final exit writes the instruction pointer. -/
def redundantPutRemovalBB (bb : IRSB Op Fn) : Option (IRSB Op Fn) := do
  let key ← mkKeyGetPut bb.offsIP (typeOfIRExpr T bb.tyenv bb.next)
  let (_, stmts) ← putRemovalStmts preciseMemExnsFn pxControl T bb.tyenv
    (Function.update (fun _ => none) key (some ())) bb.stmts
  some { bb with stmts := stmts }

end Pass

/-! ### The bytes that are written next -/

/-- The bytes from the first to the last. -/
def keyBytes (key : ℤ × ℤ) : Set ℤ := {b | key.1 ≤ b ∧ b ≤ key.2}

/-- The bytes that are written next. -/
def PutEnv.bytes (env : PutEnv) : Set ℤ := {b | ∃ key, (env key).isSome ∧ b ∈ keyBytes key}

/-- **The bytes that have to be right at accesses to memory**: whatever part of the guest state
they are in has to be. -/
def requiredBytes (preciseMemExnsFn : PreciseMemExns) (pxControl : VexRegisterUpdates) : Set ℤ :=
  {b | pxControl = .allregsAtMemAccess ∨
    ∀ key, b ∈ keyBytes key → preciseMemExnsFn key.1 key.2 pxControl = true}

theorem PutEnv.bytes_none : PutEnv.bytes (fun _ => none) = ∅ := by
  ext b
  simp [PutEnv.bytes]

theorem PutEnv.bytes_mono {env env' : PutEnv}
    (h : ∀ key, (env' key).isSome → (env key).isSome) : env'.bytes ⊆ env.bytes := by
  rintro b ⟨key, hkey, hb⟩
  exact ⟨key, h key hkey, hb⟩

theorem PutEnv.keyBytes_subset {env : PutEnv} {key : ℤ × ℤ} (h : (env key).isSome) :
    keyBytes key ⊆ env.bytes :=
  fun _ hb => ⟨key, h, hb⟩

theorem PutEnv.bytes_update {env : PutEnv} {key : ℤ × ℤ} :
    PutEnv.bytes (Function.update env key (some ())) ⊆ env.bytes ∪ keyBytes key := by
  rintro b ⟨key', hkey', hb⟩
  by_cases heq : key' = key
  · subst heq
    exact Or.inr hb
  · rw [Function.update_of_ne heq] at hkey'
    exact Or.inl ⟨key', hkey', hb⟩

theorem isSome_of_invalidateOverlaps {env : PutEnv} {kLo kHi : ℤ} {key : ℤ × ℤ}
    (h : (invalidateOverlaps env kLo kHi key).isSome) :
    (env key).isSome ∧ (key.2 < kLo ∨ kHi < key.1) := by
  obtain ⟨a, ha⟩ := Option.isSome_iff_exists.mp h
  obtain ⟨henv, hapart⟩ := invalidateOverlaps_eq_some ha
  exact ⟨Option.isSome_iff_exists.mpr ⟨a, henv⟩, hapart⟩

/-- What is not invalidated has no byte in common with the key. -/
theorem notMem_bytes_invalidateOverlaps (env : PutEnv) (key : ℤ × ℤ) :
    ∀ b ∈ keyBytes key, b ∉ PutEnv.bytes (invalidateOverlaps env key.1 key.2) := by
  rintro b ⟨hlo, hhi⟩ ⟨key', hkey', hlo', hhi'⟩
  obtain ⟨-, hapart⟩ := isSome_of_invalidateOverlaps hkey'
  omega

/-- What is left at an access to memory has none of the bytes that have to be right. -/
theorem bytes_of_flushAtMemAccess {preciseMemExnsFn : PreciseMemExns}
    {pxControl : VexRegisterUpdates} {env env' : PutEnv}
    (h : flushAtMemAccess preciseMemExnsFn pxControl env = some env') :
    env'.bytes ⊆ env.bytes ∧ env'.bytes ⊆ (requiredBytes preciseMemExnsFn pxControl)ᶜ := by
  have hflush (hpx : pxControl ≠ .allregsAtMemAccess) {key : ℤ × ℤ}
      (hkey : (if preciseMemExnsFn key.1 key.2 pxControl then none else env key).isSome) :
      (env key).isSome ∧ ∀ b ∈ keyBytes key, b ∉ requiredBytes preciseMemExnsFn pxControl := by
    split at hkey
    · cases hkey
    · rename_i hprecise
      refine ⟨hkey, fun b hb hreq => ?_⟩
      rcases hreq with hall | hreq
      · exact hpx hall
      · exact hprecise (hreq key hb)
  cases pxControl with
  | allregsAtMemAccess =>
    obtain rfl := Option.some.inj h
    rw [PutEnv.bytes_none]
    exact ⟨Set.empty_subset _, Set.empty_subset _⟩
  | spAtMemAccess | unwindregsAtMemAccess =>
    obtain rfl := Option.some.inj h
    refine ⟨PutEnv.bytes_mono fun key hkey => (hflush (by decide) hkey).1, ?_⟩
    rintro b ⟨key, hkey, hb⟩
    exact (hflush (by decide) hkey).2 b hb
  | invalid | allregsAtEachInsn => cases h

/-! ### What one round does -/

/-- The statement reads or writes memory, and nothing else that is not its own: `memRW`. -/
def IRStmt.memRW : IRStmt Op Fn → Bool
  | .wrTmp _ (.load _ _ _) | .store _ _ _ | .storeG _ _ _ _ | .loadG _ _ _ _ _ _ => true
  | _ => false

/-- The statement may read or write memory. -/
def IRStmt.accessesMemory : IRStmt Op Fn → Bool
  | .cas _ _ _ _ _ _ _ _ | .llsc _ _ _ _ | .dirty _ => true
  | st => st.memRW

/-- The statement does not look at the guest state or at memory, and can not leave; the guest
state it writes is not taken note of. -/
def IRStmt.looksAway : IRStmt Op Fn → Bool
  | .wrTmp _ (.get _ _) | .wrTmp _ (.getI _ _ _) | .wrTmp _ (.load _ _ _) => false
  | .noOp | .iMark _ _ _ | .putI _ _ _ _ | .wrTmp _ _ => true
  | _ => false

/-- **What one round of the loop can do**: the statement, what is written next before it, and
the statement that there is then. -/
inductive PutRemoval (preciseMemExnsFn : PreciseMemExns) (pxControl : VexRegisterUpdates)
    (T : OpTable Op) (tyenv : IRTypeEnv) (env : PutEnv) :
    IRStmt Op Fn → PutEnv → IRStmt Op Fn → Prop
  /-- A Put to something that is written next. -/
  | gone {offset : ℤ} {data : IRExpr Op Fn} {key : ℤ × ℤ}
    (hkey : mkKeyGetPut offset (typeOfIRExpr T tyenv data) = some key) (henv : (env key).isSome) :
    PutRemoval preciseMemExnsFn pxControl T tyenv env (.put offset data) env .noOp
  /-- Any other Put. -/
  | noted {offset : ℤ} {data : IRExpr Op Fn} {key : ℤ × ℤ}
    (hkey : mkKeyGetPut offset (typeOfIRExpr T tyenv data) = some key) :
    PutRemoval preciseMemExnsFn pxControl T tyenv env (.put offset data)
      (Function.update env key (some ())) (.put offset data)
  /-- A Get. -/
  | get (tmp : IRTemp) {offset : ℤ} {ty : IRType} {key : ℤ × ℤ}
    (hkey : mkKeyGetPut offset ty = some key) :
    PutRemoval preciseMemExnsFn pxControl T tyenv env (.wrTmp tmp (.get offset ty))
      (invalidateOverlaps env key.1 key.2) (.wrTmp tmp (.get offset ty))
  /-- A Get of an element of an array. -/
  | getI (tmp : IRTemp) {descr : IRRegArray} {key : ℤ × ℤ} (ix : IRExpr Op Fn) (bias : ℤ)
    (hkey : mkKeyGetIPutI descr = some key) :
    PutRemoval preciseMemExnsFn pxControl T tyenv env (.wrTmp tmp (.getI descr ix bias))
      (invalidateOverlaps env key.1 key.2) (.wrTmp tmp (.getI descr ix bias))
  /-- Everything is dumped. -/
  | flushed (st : IRStmt Op Fn) :
    PutRemoval preciseMemExnsFn pxControl T tyenv env st (fun _ => none) st
  /-- An access to memory. -/
  | memory {st : IRStmt Op Fn} {env' : PutEnv} (hst : st.memRW = true)
    (henv' : flushAtMemAccess preciseMemExnsFn pxControl env = some env') :
    PutRemoval preciseMemExnsFn pxControl T tyenv env st env' st
  /-- Anything else. -/
  | kept {st : IRStmt Op Fn} (hst : st.looksAway = true) :
    PutRemoval preciseMemExnsFn pxControl T tyenv env st env st

section Syntax

variable {preciseMemExnsFn : PreciseMemExns} {pxControl : VexRegisterUpdates} {T : OpTable Op}
  {tyenv : IRTypeEnv} {gWordTy : IRType} {env env' : PutEnv} {st st' : IRStmt Op Fn}
  {stmts pre post out : List (IRStmt Op Fn)}

theorem putRemoval_of_putRemovalStmt
    (h : putRemovalStmt preciseMemExnsFn pxControl T tyenv env st = some (env', st')) :
    PutRemoval preciseMemExnsFn pxControl T tyenv env st env' st' := by
  -- the statement stays, and so does what `handle_gets_Stmt` leaves
  have hstays (h : (do
      let env ← handleGetsStmt preciseMemExnsFn pxControl env st
      some (env, st)) = some (env', st')) :
      handleGetsStmt preciseMemExnsFn pxControl env st = some env' ∧ st' = st := by
    obtain ⟨env₁, hgets, h⟩ := Option.bind_eq_some_iff.mp h
    obtain ⟨rfl, rfl⟩ := Prod.mk.inj (Option.some.inj h)
    exact ⟨hgets, rfl⟩
  cases st with
  | noOp =>
    obtain ⟨rfl, rfl⟩ := Prod.mk.inj (Option.some.inj h)
    exact .kept rfl
  | exit guard jk dst offsIP =>
    obtain ⟨rfl, rfl⟩ := Prod.mk.inj (Option.some.inj h)
    exact .flushed _
  | put offset data =>
    obtain ⟨key, hkey, h⟩ := Option.bind_eq_some_iff.mp h
    split at h
    · split at h
      · rename_i henv
        obtain ⟨rfl, rfl⟩ := Prod.mk.inj (Option.some.inj h)
        exact .gone hkey henv
      · obtain ⟨rfl, rfl⟩ := Prod.mk.inj (Option.some.inj h)
        exact .noted hkey
    · cases h
  | putI descr ix bias data =>
    obtain ⟨-, -, h⟩ := Option.bind_eq_some_iff.mp h
    obtain ⟨hgets, rfl⟩ := hstays h
    rw [handleGetsStmt] at hgets
    split at hgets
    · obtain rfl := Option.some.inj hgets
      exact .kept rfl
    · cases hgets
  | wrTmp tmp data =>
    obtain ⟨hgets, rfl⟩ := hstays h
    cases data with
    | get offset ty =>
      obtain ⟨key, hkey, hgets⟩ := Option.bind_eq_some_iff.mp hgets
      obtain rfl := Option.some.inj hgets
      exact .get tmp hkey
    | getI descr ix bias =>
      obtain ⟨key, hkey, hgets⟩ := Option.bind_eq_some_iff.mp hgets
      obtain rfl := Option.some.inj hgets
      exact .getI tmp ix bias hkey
    | load => exact .memory rfl hgets
    | _ =>
      obtain rfl := Option.some.inj hgets
      exact .kept rfl
  | store | storeG | loadG =>
    obtain ⟨hgets, rfl⟩ := hstays h
    rw [handleGetsStmt] at hgets
    split at hgets
    · exact .memory rfl hgets
    · cases hgets
  | abiHint =>
    obtain ⟨hgets, rfl⟩ := hstays h
    rw [handleGetsStmt] at hgets
    split at hgets
    · obtain rfl := Option.some.inj hgets
      exact .flushed _
    · cases hgets
  | iMark =>
    obtain ⟨hgets, rfl⟩ := hstays h
    obtain rfl := Option.some.inj hgets
    exact .kept rfl
  | mbe | dirty | cas | llsc =>
    obtain ⟨hgets, rfl⟩ := hstays h
    obtain rfl := Option.some.inj hgets
    exact .flushed _

/-- The pass over one list of statements after another. -/
theorem putRemovalStmts_append
    (h : putRemovalStmts preciseMemExnsFn pxControl T tyenv env (pre ++ post) = some (env', out)) :
    ∃ env₁ post' pre',
      putRemovalStmts preciseMemExnsFn pxControl T tyenv env post = some (env₁, post') ∧
      putRemovalStmts preciseMemExnsFn pxControl T tyenv env₁ pre = some (env', pre') ∧
      out = pre' ++ post' := by
  induction pre generalizing env' out with
  | nil => exact ⟨env', out, [], h, rfl, rfl⟩
  | cons st pre ih =>
    obtain ⟨⟨env₂, out₂⟩, hrest, h⟩ := Option.bind_eq_some_iff.mp h
    obtain ⟨⟨env₃, st₃⟩, hst, h⟩ := Option.bind_eq_some_iff.mp h
    obtain ⟨rfl, rfl⟩ := Prod.mk.inj (Option.some.inj h)
    obtain ⟨env₁, post', pre', hpost, hpre, rfl⟩ := ih hrest
    refine ⟨env₁, post', st₃ :: pre', hpost, ?_, rfl⟩
    exact Option.bind_eq_some_iff.mpr ⟨(env₂, pre'), hpre,
      Option.bind_eq_some_iff.mpr ⟨(env₃, st₃), hst, rfl⟩⟩

end Syntax

/-! ### States that are the same but for some bytes -/

/-- **The guest state is made of bytes**: when two states of a machine are the same but for some
bytes of the guest state, and what follows from it. -/
structure GuestBytes (M : Machine Op Fn V σ) (hasType : V → IRType → Prop) where
  /-- The states are the same but for these bytes of the guest state. -/
  SameBut : Set ℤ → σ → σ → Prop
  /-- A state is the same as itself. -/
  refl : ∀ K s, SameBut K s s
  /-- More bytes may be others. -/
  mono : ∀ K K' s s', K ⊆ K' → SameBut K s s' → SameBut K' s s'
  /-- States that are the same but for no bytes are the same. -/
  eq_of_empty : ∀ s s', SameBut ∅ s s' → s = s'
  /-- Other bytes are read as the same. -/
  get : ∀ K s s' offset ty key, SameBut K s s' → mkKeyGetPut offset ty = some key →
    (∀ b ∈ keyBytes key, b ∉ K) → M.get s offset ty = M.get s' offset ty
  /-- Elements of an array of other bytes are read as the same. -/
  getI : ∀ K s s' descr ix bias key, SameBut K s s' → mkKeyGetIPutI descr = some key →
    (∀ b ∈ keyBytes key, b ∉ K) → M.getI s descr ix bias = M.getI s' descr ix bias
  /-- Memory is no part of the guest state. -/
  load : ∀ K s s' endn ty addr, SameBut K s s' → M.load s endn ty addr = M.load s' endn ty addr
  /-- Bytes that are written become the same. -/
  put : ∀ K s s' offset ty key v, SameBut K s s' → mkKeyGetPut offset ty = some key →
    hasType v ty → SameBut (K \ keyBytes key) (M.put s offset v) (M.put s' offset v)
  /-- Writing some of these bytes in one of the states changes nothing else. -/
  put_of_subset : ∀ K s s' offset ty key v, SameBut K s s' → mkKeyGetPut offset ty = some key →
    hasType v ty → keyBytes key ⊆ K → SameBut K (M.put s offset v) s'
  /-- Writing an element of an array changes nothing else. -/
  putI : ∀ K s s' descr ix bias v, SameBut K s s' →
    SameBut K (M.putI s descr ix bias v) (M.putI s' descr ix bias v)
  /-- Memory is no part of the guest state. -/
  store : ∀ K s s' endn addr v, SameBut K s s' →
    SameBut K (M.store s endn addr v) (M.store s' endn addr v)

/-- The two executions: the same temporaries, with values of their types where they have been
assigned, and the same state but for the bytes in `K`. -/
structure UpTo {M : Machine Op Fn V σ} {hasType : V → IRType → Prop} (G : GuestBytes M hasType)
    (tyenv : IRTypeEnv) (D : Set IRTemp) (K : Set ℤ) (c c' : Config V σ) : Prop where
  /-- The same temporaries. -/
  temps : c.1 = c'.1
  /-- Values of their types. -/
  types : HaveTypes hasType tyenv D c.1
  /-- The same state but for some bytes. -/
  state : G.SameBut K c.2 c'.2

section Sound

variable {preciseMemExnsFn : PreciseMemExns} {pxControl : VexRegisterUpdates} {T : OpTable Op}
  {M : Machine Op Fn V σ} {hasType : V → IRType → Prop} {G : GuestBytes M hasType}
  {gWordTy : IRType} {tyenv : IRTypeEnv} {D : Set IRTemp} {K : Set ℤ} {n : ℕ}
  {env env' : PutEnv} {c c' : Config V σ} {st st' : IRStmt Op Fn}
  {stmts pre post out : List (IRStmt Op Fn)}

theorem UpTo.mono {K' : Set ℤ} (h : UpTo G tyenv D K c c') (hK : K ⊆ K') :
    UpTo G tyenv D K' c c' :=
  ⟨h.temps, h.types, G.mono _ _ _ _ hK h.state⟩

/-- Where there are no such bytes, the executions are at the same point. -/
theorem UpTo.eq (h : UpTo G tyenv D ∅ c c') : c = c' :=
  Prod.ext h.temps (G.eq_of_empty _ _ h.state)

/-- An atom has the same value in both executions. -/
theorem UpTo.eval_atom (h : UpTo G tyenv D K c c') {a : IRExpr Op Fn} (ha : isIRAtom a = true) :
    a.eval M c = a.eval M c' :=
  eval_atom_congr ha fun t _ => congrFun h.temps t

theorem isStateless_of_isIRAtom {a : IRExpr Op Fn} (ha : isIRAtom a = true) :
    a.isStateless = true := by
  cases a with
  | rdTmp | const => rfl
  | _ => cases ha

/-- Data that is flat, and no Get and no load, does not look at the state. -/
theorem isStateless_of_looksAway {tmp : IRTemp} {data : IRExpr Op Fn}
    (hst : (IRStmt.wrTmp tmp data).looksAway = true) (hflat : isFlatData data = true) :
    data.isStateless = true := by
  cases data with
  | get | getI | load => cases hst
  | rdTmp | const => rfl
  | unop op arg =>
    have harg : arg.isStateless = true := isStateless_of_isIRAtom hflat
    exact harg
  | qop | triop | binop | ite =>
    simp only [isFlatData, Bool.and_eq_true] at hflat
    simp [IRExpr.isStateless, isStateless_of_isIRAtom, hflat]
  | ccall cee retty args =>
    simp only [isFlatData, List.all_eq_true] at hflat
    rw [IRExpr.isStateless, areStateless_eq, List.all_eq_true]
    exact fun arg harg => isStateless_of_isIRAtom (hflat arg harg)

/-- **A statement that looks away** does the same in both executions. -/
theorem sem_of_looksAway (hc : UpTo G tyenv D K c c') (hst : st.looksAway = true)
    (hflat : isFlatIRStmt st = true) : (st.sem T M tyenv c).2 = none ∧
      (st.sem T M tyenv c').2 = none ∧
      (st.sem T M tyenv c).1.1 = (st.sem T M tyenv c').1.1 ∧
      G.SameBut K (st.sem T M tyenv c).1.2 (st.sem T M tyenv c').1.2 := by
  cases st with
  | noOp | iMark => exact ⟨rfl, rfl, hc.temps, hc.state⟩
  | putI descr ix bias data =>
    obtain ⟨hix, hdata⟩ := Bool.and_eq_true_iff.mp hflat
    refine ⟨rfl, rfl, hc.temps, ?_⟩
    simp only [IRStmt.sem, hc.eval_atom hix, hc.eval_atom hdata]
    exact G.putI _ _ _ _ _ _ _ hc.state
  | wrTmp tmp data =>
    have hval : data.eval M c = data.eval M c' :=
      IRExpr.eval_of_isStateless (isStateless_of_looksAway hst hflat)
        fun t _ => congrFun hc.temps t
    refine ⟨rfl, rfl, ?_, hc.state⟩
    simp only [IRStmt.sem, hval, hc.temps]
  | _ => cases hst

/-- **An access to memory** does the same in both executions. -/
theorem sem_of_memRW (hc : UpTo G tyenv D K c c') (hst : st.memRW = true)
    (hflat : isFlatIRStmt st = true) : (st.sem T M tyenv c).2 = none ∧
      (st.sem T M tyenv c').2 = none ∧
      (st.sem T M tyenv c).1.1 = (st.sem T M tyenv c').1.1 ∧
      G.SameBut K (st.sem T M tyenv c).1.2 (st.sem T M tyenv c').1.2 := by
  cases st with
  | wrTmp tmp data =>
    cases data with
    | load endn ty addr =>
      refine ⟨rfl, rfl, ?_, hc.state⟩
      simp only [IRStmt.sem, IRExpr.eval, hc.eval_atom hflat, hc.temps,
        G.load _ _ _ endn ty _ hc.state]
    | _ => cases hst
  | store endn addr data =>
    obtain ⟨haddr, hdata⟩ := Bool.and_eq_true_iff.mp hflat
    refine ⟨rfl, rfl, hc.temps, ?_⟩
    simp only [IRStmt.sem, hc.eval_atom haddr, hc.eval_atom hdata]
    exact G.store _ _ _ _ _ _ hc.state
  | storeG endn addr data guard =>
    simp only [isFlatIRStmt, Bool.and_eq_true] at hflat
    simp only [IRStmt.sem, hc.eval_atom hflat.1.1, hc.eval_atom hflat.1.2, hc.eval_atom hflat.2]
    split
    · exact ⟨rfl, rfl, hc.temps, G.store _ _ _ _ _ _ hc.state⟩
    · exact ⟨rfl, rfl, hc.temps, hc.state⟩
  | loadG endn cvt dst addr alt guard =>
    simp only [isFlatIRStmt, Bool.and_eq_true] at hflat
    refine ⟨rfl, rfl, ?_, hc.state⟩
    simp only [IRStmt.sem, loadGValue, hc.eval_atom hflat.1.1, hc.eval_atom hflat.1.2,
      hc.eval_atom hflat.2, hc.temps, G.load _ _ _ endn _ _ hc.state]
  | _ => cases hst

/-- **One round of the loop**: from where the executions are the same but for the bytes that are
written next, they go on to where they are again, or they leave in the same way with the
same state. -/
theorem PutRemoval.matches (h : PutRemoval preciseMemExnsFn pxControl T tyenv env st env' st')
    (hM : TypedMachine T M hasType) (hT : T.Widens)
    (hssa : Ssa IRStmt.checked n D (st :: stmts)) (hflat : isFlatIRStmt st = true)
    (htc : tcStmt T tyenv gWordTy st = true) (hc : UpTo G tyenv D env'.bytes c c') :
    Matches (UpTo G tyenv (D ∪ {t | t ∈ st.defs}) env.bytes) SameState (st.sem T M tyenv c)
      (st'.sem T M tyenv c') := by
  have htypes := hc.types.step hM hT hssa hflat htc
  -- where both sides fall through
  have hfall {st' : IRStmt Op Fn} (h : (st.sem T M tyenv c).2 = none ∧
      (st'.sem T M tyenv c').2 = none ∧
      (st.sem T M tyenv c).1.1 = (st'.sem T M tyenv c').1.1 ∧
      G.SameBut env.bytes (st.sem T M tyenv c).1.2 (st'.sem T M tyenv c').1.2) :
      Matches (UpTo G tyenv (D ∪ {t | t ∈ st.defs}) env.bytes) SameState (st.sem T M tyenv c)
        (st'.sem T M tyenv c') :=
    ⟨h.1.trans h.2.1.symm, fun _ => ⟨h.2.2.1, htypes, h.2.2.2⟩, fun hleft => absurd h.1 hleft⟩
  have hread {data : IRExpr Op Fn} (he : data ∈ st.checked) (hdata : isIRAtom data = true) :
      hasType (data.eval M c) (typeOfIRExpr T tyenv data) :=
    eval_atom_hasType hM hc.types hdata fun t ht => (hssa.1 data he t ht).2
  cases h with
  | kept hst => exact hfall (sem_of_looksAway hc hst hflat)
  | memory hst hflush =>
    exact hfall (sem_of_memRW (hc.mono (bytes_of_flushAtMemAccess hflush).1) hst hflat)
  | flushed =>
    rw [PutEnv.bytes_none] at hc
    obtain rfl := hc.eq
    exact ⟨rfl, fun _ => ⟨rfl, htypes, G.refl _ _⟩, fun _ => rfl⟩
  | gone hkey henv =>
    refine hfall ⟨rfl, rfl, hc.temps, ?_⟩
    exact G.put_of_subset _ _ _ _ _ _ _ hc.state hkey (hread (List.mem_singleton_self _) hflat)
      (PutEnv.keyBytes_subset henv)
  | noted hkey =>
    refine hfall ⟨rfl, rfl, hc.temps, ?_⟩
    simp only [IRStmt.sem, ← hc.eval_atom hflat]
    refine G.mono _ _ _ _ ?_
      (G.put _ _ _ _ _ _ _ hc.state hkey (hread (List.mem_singleton_self _) hflat))
    rintro b ⟨hb, hkeyB⟩
    exact (PutEnv.bytes_update hb).resolve_right hkeyB
  | get tmp hkey =>
    refine hfall ⟨rfl, rfl, ?_, ?_⟩
    · simp only [IRStmt.sem, IRExpr.eval, hc.temps,
        G.get _ _ _ _ _ _ hc.state hkey (notMem_bytes_invalidateOverlaps env _)]
    · exact G.mono _ _ _ _ (PutEnv.bytes_mono fun _ h => (isSome_of_invalidateOverlaps h).1)
        hc.state
  | getI tmp ix bias hkey =>
    refine hfall ⟨rfl, rfl, ?_, ?_⟩
    · simp only [IRStmt.sem, IRExpr.eval, hc.eval_atom hflat, hc.temps,
        G.getI _ _ _ _ _ _ _ hc.state hkey (notMem_bytes_invalidateOverlaps env _)]
    · exact G.mono _ _ _ _ (PutEnv.bytes_mono fun _ h => (isSome_of_invalidateOverlaps h).1)
        hc.state

/-- **The loop**: the statements that there are then do what the statements did, but for the
bytes that are written next. -/
theorem simulates_putRemovalStmts (hM : TypedMachine T M hasType) (hT : T.Widens)
    (hssa : Ssa IRStmt.checked n D stmts) (hflat : ∀ st ∈ stmts, isFlatIRStmt st = true)
    (htc : ∀ st ∈ stmts, tcStmt T tyenv gWordTy st = true)
    (h : putRemovalStmts preciseMemExnsFn pxControl T tyenv env stmts = some (env', out)) :
    Simulates (IRStmt.sem T M tyenv) (IRStmt.sem T M tyenv) (UpTo G tyenv D env'.bytes)
      (UpTo G tyenv (D ∪ defsOf stmts) env.bytes) SameState stmts out := by
  induction stmts generalizing D env' out with
  | nil =>
    obtain ⟨rfl, rfl⟩ := Prod.mk.inj (Option.some.inj h)
    refine simulates_nil fun c c' hc => ?_
    simpa [defsOf] using hc
  | cons st stmts ih =>
    obtain ⟨⟨env₁, out₁⟩, hrest, h⟩ := Option.bind_eq_some_iff.mp h
    obtain ⟨⟨env₂, st₂⟩, hst, h⟩ := Option.bind_eq_some_iff.mp h
    obtain ⟨rfl, rfl⟩ := Prod.mk.inj (Option.some.inj h)
    have hremoval := putRemoval_of_putRemovalStmt hst
    rw [defsOf_cons, ← Set.union_assoc]
    refine simulates_cons [st₂] (fun c c' hc => ?_) (ih hssa.2.2.2
      (fun st' h => hflat st' (List.mem_cons_of_mem _ h))
      (fun st' h => htc st' (List.mem_cons_of_mem _ h)) hrest)
    rw [run_singleton]
    exact hremoval.matches hM hT hssa (hflat st List.mem_cons_self) (htc st List.mem_cons_self) hc

end Sound

/-! ### The checks -/

section Checks

variable {preciseMemExnsFn : PreciseMemExns} {pxControl : VexRegisterUpdates} {T : OpTable Op}
  {tyenv : IRTypeEnv} {gWordTy : IRType} {D : Set IRTemp} {n : ℕ} {env env' : PutEnv}
  {st st' : IRStmt Op Fn} {stmts out : List (IRStmt Op Fn)}

/-- A statement stays, or becomes a no-op. -/
theorem PutRemoval.eq_or_noOp (h : PutRemoval preciseMemExnsFn pxControl T tyenv env st env' st') :
    st' = st ∨ st' = .noOp ∧ st.defs = [] := by
  cases h with
  | gone => exact Or.inr ⟨rfl, rfl⟩
  | _ => exact Or.inl rfl

/-- **An access to memory** stays, and no byte that has to be right at it is written next. -/
theorem PutRemoval.of_accessesMemory
    (h : PutRemoval preciseMemExnsFn pxControl T tyenv env st env' st')
    (hst : st.accessesMemory = true) :
    st' = st ∧ env'.bytes ⊆ (requiredBytes preciseMemExnsFn pxControl)ᶜ := by
  cases h with
  | gone | noted | get | getI => cases hst
  | flushed =>
    rw [PutEnv.bytes_none]
    exact ⟨rfl, Set.empty_subset _⟩
  | memory _ hflush => exact ⟨rfl, (bytes_of_flushAtMemAccess hflush).2⟩
  | kept hkept =>
    cases st with
    | wrTmp tmp data =>
      cases data with
      | load => cases hkept
      | _ => cases hst
    | noOp | iMark | putI => cases hst
    | _ => cases hkept

/-- **The checks are still passed** after the loop. -/
theorem checks_putRemovalStmts (hssa : Ssa IRStmt.checked n D stmts)
    (hchecks : ∀ st ∈ stmts, isFlatIRStmt st = true ∧ tcStmt T tyenv gWordTy st = true ∧
      ∀ t ∈ st.uses, t < n)
    (h : putRemovalStmts preciseMemExnsFn pxControl T tyenv env stmts = some (env', out)) :
    Ssa IRStmt.checked n D out ∧ ∀ st ∈ out, isFlatIRStmt st = true ∧
      tcStmt T tyenv gWordTy st = true ∧ ∀ t ∈ st.uses, t < n := by
  induction stmts generalizing D env' out with
  | nil =>
    obtain ⟨-, rfl⟩ := Prod.mk.inj (Option.some.inj h)
    exact ⟨trivial, fun _ h => absurd h List.not_mem_nil⟩
  | cons st stmts ih =>
    obtain ⟨⟨env₁, out₁⟩, hrest, h⟩ := Option.bind_eq_some_iff.mp h
    obtain ⟨⟨env₂, st₂⟩, hst, h⟩ := Option.bind_eq_some_iff.mp h
    obtain ⟨rfl, rfl⟩ := Prod.mk.inj (Option.some.inj h)
    obtain ⟨hrestSsa, hrestChecks⟩ := ih hssa.2.2.2
      (fun st' h => hchecks st' (List.mem_cons_of_mem _ h)) hrest
    rcases (putRemoval_of_putRemovalStmt hst).eq_or_noOp with rfl | ⟨rfl, hdefs⟩
    · exact ⟨⟨hssa.1, hssa.2.1, hssa.2.2.1, hrestSsa⟩,
        List.forall_mem_cons.mpr ⟨hchecks st₂ List.mem_cons_self, hrestChecks⟩⟩
    · rw [hdefs] at hrestSsa
      exact ⟨⟨fun _ h => absurd h List.not_mem_nil, List.nodup_nil,
        fun _ h => absurd h List.not_mem_nil, hrestSsa⟩,
        List.forall_mem_cons.mpr ⟨⟨rfl, rfl, fun _ h => absurd h List.not_mem_nil⟩, hrestChecks⟩⟩

/-- The parts of the guest state that the statement reads or writes have keys that fit. -/
def IRStmt.partsFit (T : OpTable Op) (tyenv : IRTypeEnv) : IRStmt Op Fn → Bool
  | .wrTmp _ (.getI descr _ _) => (mkKeyGetIPutI descr).isSome
  | st => st.keysFit T tyenv

theorem isSome_flushAtMemAccess (preciseMemExnsFn : PreciseMemExns)
    (hinvalid : pxControl ≠ .invalid) (hall : pxControl ≠ .allregsAtEachInsn) (env : PutEnv) :
    (flushAtMemAccess preciseMemExnsFn pxControl env).isSome := by
  cases pxControl with
  | invalid => exact absurd rfl hinvalid
  | allregsAtEachInsn => exact absurd rfl hall
  | _ => rfl

/-- No assertion fails in `handle_gets_Stmt`. -/
theorem isSome_handleGetsStmt (preciseMemExnsFn : PreciseMemExns)
    (hinvalid : pxControl ≠ .invalid) (hall : pxControl ≠ .allregsAtEachInsn) (env : PutEnv)
    (hflat : isFlatIRStmt st = true) (hfits : st.partsFit T tyenv = true) :
    (handleGetsStmt preciseMemExnsFn pxControl env st).isSome := by
  have hflush := isSome_flushAtMemAccess preciseMemExnsFn hinvalid hall env
  cases st with
  | wrTmp tmp data =>
    cases data with
    | get offset ty =>
      obtain ⟨key, hkey⟩ := Option.isSome_iff_exists.mp hfits
      rw [handleGetsStmt, hkey]
      rfl
    | getI descr ix bias =>
      obtain ⟨key, hkey⟩ := Option.isSome_iff_exists.mp hfits
      rw [handleGetsStmt, hkey]
      rfl
    | load => exact hflush
    | _ => rfl
  | store | storeG | loadG =>
    rw [isFlatIRStmt] at hflat
    rw [handleGetsStmt, if_pos hflat]
    exact hflush
  | abiHint | exit | put | putI =>
    rw [isFlatIRStmt] at hflat
    rw [handleGetsStmt, if_pos hflat]
    rfl
  | _ => rfl

/-- No assertion fails in one round of the loop. -/
theorem isSome_putRemovalStmt (preciseMemExnsFn : PreciseMemExns)
    (hinvalid : pxControl ≠ .invalid) (hall : pxControl ≠ .allregsAtEachInsn) (env : PutEnv)
    (hflat : isFlatIRStmt st = true) (hfits : st.partsFit T tyenv = true) :
    (putRemovalStmt preciseMemExnsFn pxControl T tyenv env st).isSome := by
  obtain ⟨env', henv'⟩ := Option.isSome_iff_exists.mp
    (isSome_handleGetsStmt preciseMemExnsFn hinvalid hall env hflat hfits)
  cases st with
  | noOp | exit => rfl
  | put offset data =>
    obtain ⟨key, hkey⟩ := Option.isSome_iff_exists.mp hfits
    have hatom : isIRAtom data = true := hflat
    simp only [putRemovalStmt, hkey, hatom, Option.bind_eq_bind, Option.bind_some, if_true]
    split <;> rfl
  | putI descr ix bias data =>
    obtain ⟨key, hkey⟩ := Option.isSome_iff_exists.mp hfits
    simp only [putRemovalStmt, hkey, henv', Option.bind_eq_bind, Option.bind_some,
      Option.isSome_some]
  | _ => simp only [putRemovalStmt, henv', Option.bind_eq_bind, Option.bind_some,
      Option.isSome_some]

/-- **No assertion fails** if all keys fit, under a control that the pass is called with. -/
theorem isSome_putRemovalStmts (preciseMemExnsFn : PreciseMemExns)
    (hinvalid : pxControl ≠ .invalid) (hall : pxControl ≠ .allregsAtEachInsn) (env : PutEnv)
    (hflat : ∀ st ∈ stmts, isFlatIRStmt st = true)
    (hfits : ∀ st ∈ stmts, st.partsFit T tyenv = true) :
    (putRemovalStmts preciseMemExnsFn pxControl T tyenv env stmts).isSome := by
  induction stmts with
  | nil => rfl
  | cons st stmts ih =>
    obtain ⟨⟨env₁, out₁⟩, hrest⟩ := Option.isSome_iff_exists.mp
      (ih (fun st' h => hflat st' (List.mem_cons_of_mem _ h))
        fun st' h => hfits st' (List.mem_cons_of_mem _ h))
    obtain ⟨⟨env₂, st₂⟩, hst⟩ := Option.isSome_iff_exists.mp
      (isSome_putRemovalStmt preciseMemExnsFn hinvalid hall env₁
        (hflat st List.mem_cons_self) (hfits st List.mem_cons_self))
    simp only [putRemovalStmts, hrest, hst, Option.bind_eq_bind, Option.bind_some,
      Option.isSome_some]

end Checks

/-! ### The superblock -/

/-- **What a superblock does, with the instruction pointer written**, as it is when the
superblock is left. -/
def IRSB.execIP (T : OpTable Op) (M : Machine Op Fn V σ) (sb : IRSB Op Fn) (c : Config V σ) :
    σ × Leave V :=
  let r := sb.exec T M c
  (M.put r.1 r.2.offsIP r.2.target, r.2)

/-- The execution up to an access to memory is where it was, but for bytes of the guest state
that do not have to be right there. -/
def PreciseAt {M : Machine Op Fn V σ} {hasType : V → IRType → Prop} (G : GuestBytes M hasType)
    (T : OpTable Op) (tyenv : IRTypeEnv) (required : Set ℤ) (pre pre' : List (IRStmt Op Fn)) :
    Prop :=
  ∀ c c₁, run (IRStmt.sem T M tyenv) pre c = (c₁, none) →
    ∃ c₁', run (IRStmt.sem T M tyenv) pre' c = (c₁', none) ∧ c₁'.1 = c₁.1 ∧
      G.SameBut requiredᶜ c₁.2 c₁'.2

section Superblock

variable {preciseMemExnsFn : PreciseMemExns} {pxControl : VexRegisterUpdates} {T : OpTable Op}
  {M : Machine Op Fn V σ} {hasType : V → IRType → Prop} {gWordTy : IRType} {bb : IRSB Op Fn}
  {env env' : PutEnv} {stmts out pre post : List (IRStmt Op Fn)} {st : IRStmt Op Fn}

/-- The superblock leaves in the same way, to the same state with the instruction pointer
written. -/
theorem execIP_of_simulates (G : GuestBytes M hasType) (hM : TypedMachine T M hasType)
    {key : ℤ × ℤ} (hkey : mkKeyGetPut bb.offsIP (typeOfIRExpr T bb.tyenv bb.next) = some key)
    (hatom : isIRAtom bb.next = true) (hnext : ∀ t ∈ bb.next.temps, t ∈ defsOf bb.stmts)
    {P : Config V σ → Config V σ → Prop}
    (h : Simulates (IRStmt.sem T M bb.tyenv) (IRStmt.sem T M bb.tyenv) P
      (UpTo G bb.tyenv (defsOf bb.stmts) (keyBytes key)) SameState bb.stmts out)
    {c : Config V σ} (hc : P c c) :
    IRSB.execIP T M { bb with stmts := out } c = bb.execIP T M c := by
  obtain ⟨hout, hnone, hsome⟩ := h c c hc
  simp only [IRSB.execIP, IRSB.exec]
  rcases hr : run (IRStmt.sem T M bb.tyenv) bb.stmts c with ⟨c₁, w⟩
  rcases hr' : run (IRStmt.sem T M bb.tyenv) out c with ⟨c₁', w'⟩
  rw [hr, hr'] at hout hnone hsome
  obtain rfl : w = w' := hout
  cases w with
  | none =>
    have hend := hnone rfl
    have hval : hasType (bb.next.eval M c₁) (typeOfIRExpr T bb.tyenv bb.next) :=
      eval_atom_hasType hM hend.types hatom hnext
    have hput := G.put _ _ _ _ _ _ _ hend.state hkey hval
    rw [Set.sdiff_self] at hput
    simp only [← hend.eval_atom hatom, G.eq_of_empty _ _ hput]
  | some w =>
    have hleft : c₁.2 = c₁'.2 := hsome (Option.some_ne_none w)
    simp only [hleft]

/-- **Accesses to memory are precise**: each of them is still there, and up to it the execution
is where it was, but for bytes that do not have to be right there. -/
theorem preciseAt_of_putRemovalStmts (G : GuestBytes M hasType) (hM : TypedMachine T M hasType)
    (hT : T.Widens) {tyenv : IRTypeEnv} {n : ℕ} (hstmts : stmts = pre ++ st :: post)
    (hst : st.accessesMemory = true) (hssa : Ssa IRStmt.checked n ∅ stmts)
    (hflat : ∀ st ∈ stmts, isFlatIRStmt st = true)
    (htc : ∀ st ∈ stmts, tcStmt T tyenv gWordTy st = true)
    (h : putRemovalStmts preciseMemExnsFn pxControl T tyenv env stmts = some (env', out)) :
    ∃ pre' post', out = pre' ++ st :: post' ∧
      PreciseAt G T tyenv (requiredBytes preciseMemExnsFn pxControl) pre pre' := by
  subst hstmts
  obtain ⟨env₁, out₁, pre', hpost, hpre, rfl⟩ := putRemovalStmts_append h
  obtain ⟨⟨env₂, post'⟩, -, hpost⟩ := Option.bind_eq_some_iff.mp hpost
  obtain ⟨⟨env₃, st'⟩, hround, hpost⟩ := Option.bind_eq_some_iff.mp hpost
  obtain ⟨rfl, rfl⟩ := Prod.mk.inj (Option.some.inj hpost)
  obtain ⟨rfl, hbytes⟩ := (putRemoval_of_putRemovalStmt hround).of_accessesMemory hst
  refine ⟨pre', post', rfl, fun c c₁ hrun => ?_⟩
  have hsim := simulates_putRemovalStmts (G := G) hM hT (ssa_append.mp hssa).1
    (fun st h => hflat st (List.mem_append_left _ h))
    (fun st h => htc st (List.mem_append_left _ h)) hpre
  have hc : UpTo G tyenv ∅ env'.bytes c c :=
    ⟨rfl, fun t ht => absurd ht (Set.notMem_empty t), G.refl _ _⟩
  obtain ⟨hout, hnone, -⟩ := hsim c c hc
  rw [hrun] at hout hnone
  have hc₁ := hnone rfl
  exact ⟨_, Prod.ext rfl hout.symm, hc₁.temps.symm, G.mono _ _ _ _ hbytes hc₁.state⟩

end Superblock

/-- **The removal of redundant Puts is sound.** If the keys fit, no assertion fails, and what
comes out passes the checks. On every machine whose guest state is made of bytes it leaves in
the same way, to the same state with the instruction pointer written; and at every access to
memory the bytes that have to be right there are right. -/
theorem redundantPutRemovalBB_sound {preciseMemExnsFn : PreciseMemExns}
    {pxControl : VexRegisterUpdates} {T : OpTable Op} {gWordTy : IRType} {bb : IRSB Op Fn}
    (hinvalid : pxControl ≠ .invalid) (hall : pxControl ≠ .allregsAtEachInsn)
    (hsane : sanityCheckIRSB bb true = true) (htc : typecheckIRSB T gWordTy bb = true)
    (hnext : ∀ t ∈ bb.next.temps, t ∈ defsOf bb.stmts)
    (hfits : ∀ st ∈ bb.stmts, st.partsFit T bb.tyenv = true)
    (hIP : (mkKeyGetPut bb.offsIP gWordTy).isSome) :
    ∃ bb', redundantPutRemovalBB preciseMemExnsFn pxControl T bb = some bb' ∧
      sanityCheckIRSB bb' true = true ∧ typecheckIRSB T gWordTy bb' = true ∧
      ∀ (M : Machine Op Fn V σ) (hasType : V → IRType → Prop), TypedMachine T M hasType →
        T.Widens → ∀ G : GuestBytes M hasType,
          (∀ c : Config V σ, bb'.execIP T M c = bb.execIP T M c) ∧
          ∀ pre st post, bb.stmts = pre ++ st :: post → st.accessesMemory = true →
            ∃ pre' post', bb'.stmts = pre' ++ st :: post' ∧
              PreciseAt G T bb.tyenv (requiredBytes preciseMemExnsFn pxControl) pre pre' := by
  obtain ⟨hflat, hssa, huses, hrange⟩ := sanityCheckIRSB_true_iff.mp hsane
  obtain ⟨hflat, hatom⟩ := Bool.and_eq_true_iff.mp hflat
  obtain ⟨htc, hoffs⟩ := Bool.and_eq_true_iff.mp htc
  obtain ⟨htc, hnextTy⟩ := Bool.and_eq_true_iff.mp htc
  rw [List.all_eq_true] at hflat htc
  obtain ⟨key, hkey⟩ := Option.isSome_iff_exists.mp hIP
  rw [← beq_iff_eq.mp hnextTy] at hkey
  obtain ⟨⟨env, out⟩, hout⟩ := Option.isSome_iff_exists.mp
    (isSome_putRemovalStmts preciseMemExnsFn hinvalid hall
      (Function.update (fun _ => none) key (some ())) hflat hfits)
  obtain ⟨hssa', hchecks⟩ := checks_putRemovalStmts hssa
    (fun st hst => ⟨hflat st hst, htc st hst, huses st hst⟩) hout
  refine ⟨{ bb with stmts := out }, ?_, sanityCheckIRSB_true_iff.mpr ⟨?_, hssa',
    fun st hst => (hchecks st hst).2.2, hrange⟩, ?_, fun M hasType hM hT G => ⟨fun c => ?_,
    fun pre st post hstmts hst => ?_⟩⟩
  · simp only [redundantPutRemovalBB, hkey, hout, Option.bind_eq_bind, Option.bind_some]
  · exact Bool.and_eq_true_iff.mpr ⟨List.all_eq_true.mpr fun st hst => (hchecks st hst).1, hatom⟩
  · exact Bool.and_eq_true_iff.mpr ⟨Bool.and_eq_true_iff.mpr
      ⟨List.all_eq_true.mpr fun st hst => (hchecks st hst).2.1, hnextTy⟩, hoffs⟩
  · have hsim := simulates_putRemovalStmts (G := G) hM hT hssa hflat htc hout
    have hend : Simulates (IRStmt.sem T M bb.tyenv) (IRStmt.sem T M bb.tyenv)
        (UpTo G bb.tyenv ∅ env.bytes) (UpTo G bb.tyenv (defsOf bb.stmts) (keyBytes key)) SameState
        bb.stmts out := by
      refine hsim.mono (fun _ _ h => h) (fun c c' h => ?_) fun _ _ h => h
      rw [Set.empty_union] at h
      refine h.mono (PutEnv.bytes_update.trans ?_)
      rw [PutEnv.bytes_none, Set.empty_union]
    exact execIP_of_simulates G hM hkey hatom hnext hend
      ⟨rfl, fun t ht => absurd ht (Set.notMem_empty t), G.refl _ _⟩
  · exact preciseAt_of_putRemovalStmts G hM hT hstmts hst hssa hflat htc hout

/-! ### The registers of amd64 -/

/-- `guest_amd64_state_requires_precise_mem_exns`: the stack pointer, and the frame pointer and
the instruction pointer unless only the stack pointer matters. -/
def guestAmd64StateRequiresPreciseMemExns : PreciseMemExns := fun minoff maxoff pxControl =>
  let rbpMin := 56
  let rbpMax := rbpMin + 8 - 1
  let rspMin := 48
  let rspMax := rspMin + 8 - 1
  let ripMin := 184
  let ripMax := ripMin + 8 - 1
  if maxoff < rspMin ∨ minoff > rspMax then
    -- no overlap with rsp
    if pxControl = .spAtMemAccess then false
    else ¬(maxoff < rbpMin ∨ minoff > rbpMax) ∨ ¬(maxoff < ripMin ∨ minoff > ripMax)
  else true

/-- **The bytes of the registers**: those are the ones that have to be right. -/
theorem mem_requiredBytes_amd64 {pxControl : VexRegisterUpdates}
    (hpx : pxControl ≠ .allregsAtMemAccess) {b : ℤ} :
    b ∈ requiredBytes guestAmd64StateRequiresPreciseMemExns pxControl ↔ 48 ≤ b ∧ b ≤ 55 ∨
      pxControl ≠ .spAtMemAccess ∧ (56 ≤ b ∧ b ≤ 63 ∨ 184 ≤ b ∧ b ≤ 191) := by
  have hprecise (key : ℤ × ℤ) :
      guestAmd64StateRequiresPreciseMemExns key.1 key.2 pxControl = true ↔
        ¬(key.2 < 48 ∨ key.1 > 55) ∨ pxControl ≠ .spAtMemAccess ∧
          (¬(key.2 < 56 ∨ key.1 > 63) ∨ ¬(key.2 < 184 ∨ key.1 > 191)) := by
    simp only [guestAmd64StateRequiresPreciseMemExns]
    split
    · split
      · rename_i hsp
        simp only [hsp, ne_eq, not_true, false_and, or_false]
        exact iff_of_false Bool.false_ne_true (by omega)
      · rename_i hsp
        simp only [decide_eq_true_eq, ne_eq, hsp, not_false_eq_true, true_and]
        omega
    · exact iff_of_true rfl (Or.inl (by omega))
  constructor
  · rintro (hall | hreq)
    · exact absurd hall hpx
    · have hself := (hprecise (b, b)).mp (hreq (b, b) ⟨Int.le_refl _, Int.le_refl _⟩)
      simp only [not_or, not_lt, gt_iff_lt] at hself
      exact hself
  · refine fun h => Or.inr fun key hb => (hprecise key).mpr ?_
    obtain ⟨hlo, hhi⟩ := hb
    rcases h with ⟨h48, h55⟩ | ⟨hsp, ⟨h56, h63⟩ | ⟨h184, h191⟩⟩
    · exact Or.inl (by omega)
    · exact Or.inr ⟨hsp, Or.inl (by omega)⟩
    · exact Or.inr ⟨hsp, Or.inr (by omega)⟩

/-! ### A machine to compute with -/

/-- The bytes of a part of the guest state; what has no size counts as one byte. -/
def slotBytes (offset : ℤ) (ty : IRType) : Set ℤ :=
  keyBytes (offset, offset + (sizeofIRType ty).getD 1 - 1)

theorem slotBytes_of_key {offset : ℤ} {ty : IRType} {key : ℤ × ℤ}
    (h : mkKeyGetPut offset ty = some key) : slotBytes offset ty = keyBytes key := by
  obtain ⟨n, hn, rfl⟩ := mkKeyGetPut_eq_some h
  rw [slotBytes, hn, Option.getD_some]

theorem notMem_keyBytes_iff {offset : ℤ} {ty : IRType} {offset' n : ℤ} (hn : 0 < n) :
    (∀ b ∈ slotBytes offset ty, b ∉ keyBytes (offset', offset' + n - 1)) ↔
      apart offset ty offset' n = true := by
  have hpos : 0 < (sizeofIRType ty).getD 1 := by
    cases hsize : sizeofIRType ty with
    | none => exact Int.one_pos
    | some size => exact sizeofIRType_pos hsize
  simp only [apart, Bool.or_eq_true, decide_eq_true_eq, slotBytes, keyBytes, Set.mem_ofPred_eq]
  constructor
  · intro h
    by_contra hover
    -- the first byte of one of them is in the other
    rcases Int.le_total offset offset' with hle | hle
    · exact h offset' ⟨hle, by omega⟩ ⟨Int.le_refl _, by omega⟩
    · exact h offset ⟨Int.le_refl _, by omega⟩ ⟨hle, by omega⟩
  · intro h b hb hb'
    omega

/-- The machine of `slots` has a guest state that is made of bytes. -/
def slotsBytes {Fn : Type} : GuestBytes (slots : Machine Widen Fn _ _) fun v ty => v.1 = ty where
  SameBut K s s' := ∀ offset ty, (∀ b ∈ slotBytes offset ty, b ∉ K) →
    s offset ty = s' offset ty
  refl _ _ _ _ _ := rfl
  mono _ _ _ _ hK h offset ty hout := h offset ty fun b hb hbK => hout b hb (hK hbK)
  eq_of_empty s s' h := by
    funext offset ty
    exact h offset ty fun b _ hb => hb
  get K s s' offset ty key h hkey hout := by
    rw [← slotBytes_of_key hkey] at hout
    exact Prod.ext rfl (h offset ty hout)
  getI _ _ _ _ _ _ _ _ _ _ := rfl
  load _ _ _ _ _ _ _ := rfl
  put K s s' offset ty key v h hkey hty offset' ty' hout := by
    subst hty
    obtain ⟨n, hn, rfl⟩ := mkKeyGetPut_eq_some hkey
    simp only [slots, hn, Option.getD_some]
    split
    · rfl
    · split
      · rename_i hapart
        have hkey := (notMem_keyBytes_iff (sizeofIRType_pos hn)).mpr hapart
        exact h offset' ty' fun b hb hbK => hout b hb ⟨hbK, hkey b hb⟩
      · rfl
  put_of_subset K s s' offset ty key v h hkey hty hsub offset' ty' houtK := by
    subst hty
    have hout : ∀ b ∈ slotBytes offset' ty', b ∉ keyBytes key := fun b hb hbkey =>
      houtK b hb (hsub hbkey)
    have hne : ¬(offset' = offset ∧ ty' = v.1) := by
      rintro ⟨rfl, rfl⟩
      rw [slotBytes_of_key hkey] at hout
      obtain ⟨n, hn, rfl⟩ := mkKeyGetPut_eq_some hkey
      have hpos := sizeofIRType_pos hn
      have hmem : offset' ∈ keyBytes (offset', offset' + n - 1) :=
        ⟨Int.le_refl _, by simp only; omega⟩
      exact hout offset' hmem hmem
    obtain ⟨n, hn, rfl⟩ := mkKeyGetPut_eq_some hkey
    have hapart := (notMem_keyBytes_iff (sizeofIRType_pos hn)).mp hout
    simp only [slots, hn, Option.getD_some, if_neg hne, if_pos hapart]
    exact h offset' ty' houtK
  putI K s s' descr ix bias v h offset ty hout := by
    simp only [slots]
    split
    · exact h offset ty hout
    · rfl
  store _ _ _ _ _ _ h := h

/-- The first of the Puts to rax goes, although there is a store after it; that to rsp stays.
The Put of the instruction pointer at the end goes. -/
theorem redundantPutRemovalBB_sound_slots :
    let bb : IRSB Widen Unit :=
      { tyenv := [.i64]
        stmts := [.put 16 (.const (.u64 1)), .put 48 (.const (.u64 4096)),
          .store .le (.const (.u64 64)) (.const (.u64 9)), .put 16 (.const (.u64 2)),
          .put 48 (.const (.u64 4088)), .wrTmp 0 (.get 16 .i64), .put 184 (.rdTmp 0)]
        next := .rdTmp 0
        jumpkind := .boring
        offsIP := 184 }
    ∃ bb', redundantPutRemovalBB guestAmd64StateRequiresPreciseMemExns .spAtMemAccess widenTable
        bb = some bb' ∧ sanityCheckIRSB bb' true = true ∧
      typecheckIRSB widenTable .i64 bb' = true ∧
      (∀ c, bb'.execIP widenTable slots c = bb.execIP widenTable slots c) ∧
      ∀ pre st post, bb.stmts = pre ++ st :: post → st.accessesMemory = true →
        ∃ pre' post', bb'.stmts = pre' ++ st :: post' ∧
          PreciseAt slotsBytes widenTable bb.tyenv
            (requiredBytes guestAmd64StateRequiresPreciseMemExns .spAtMemAccess) pre pre' := by
  intro bb
  have hsane : sanityCheckIRSB bb true = true := by decide
  have htc : typecheckIRSB widenTable .i64 bb = true := by decide
  have hnext : ∀ t ∈ bb.next.temps, t ∈ defsOf bb.stmts := by
    intro t ht
    obtain rfl := List.mem_singleton.mp ht
    exact ⟨.wrTmp 0 (.get 16 .i64), by simp [bb], List.mem_singleton_self 0⟩
  have hfits : ∀ st ∈ bb.stmts, st.partsFit widenTable bb.tyenv = true := by decide
  have hIP : (mkKeyGetPut bb.offsIP .i64).isSome := by decide
  have hinvalid : VexRegisterUpdates.spAtMemAccess ≠ .invalid := by decide
  have hall : VexRegisterUpdates.spAtMemAccess ≠ .allregsAtEachInsn := by decide
  exact (redundantPutRemovalBB_sound hinvalid hall hsane htc hnext hfits hIP).imp
    fun _ ⟨hbb', hsane', htc', hexec⟩ =>
      ⟨hbb', hsane', htc', hexec slots _ slots_typed widenTable_widens slotsBytes⟩

end Vex

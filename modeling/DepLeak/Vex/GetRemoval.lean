import DepLeak.Vex.Typed

/-!
# Removal of redundant Gets

`redundant_get_removal_BB`: a part of the guest state that has been written, or read, is
known to be what was written or read until something else is written over it, and so it
need not be read again. What is known is kept by the first and the last byte of the part.

This is right on a machine whose guest state is what it should be
(`Vex.GuestState`): a part that is written is read back, and the other parts stay as they
are. That a part is read back as a value of another type is excluded by the types, and so
the superblock has to be well-typed; and dirty helpers that change the guest state have to
say so (`Vex.FxDeclared`).
-/

namespace Vex

open Straight

variable {Op Fn V σ : Type}

/-! ### The pass -/

/-- `mk_key_GetPut`: the first and the last byte; a key that does not fit is stopped by an
assertion. The offset is an `Int` that becomes a `UInt`, so that there are none below 0. -/
def mkKeyGetPut (offset : ℤ) (ty : IRType) : Option (ℤ × ℤ) := do
  let size ← sizeofIRType ty
  if 0 ≤ offset ∧ offset + size ≤ 65536 then some (offset, offset + size - 1) else none

/-- `mk_key_GetIPutI`, with the bounds of `getArrayBounds`. -/
def mkKeyGetIPutI (descr : IRRegArray) : Option (ℤ × ℤ) := do
  let size ← sizeofIRType descr.elemTy
  if 0 ≤ descr.base ∧ descr.base + descr.nElems * size ≤ 65536 ∧
      descr.base ≤ descr.base + descr.nElems * size - 1 then
    some (descr.base, descr.base + descr.nElems * size - 1)
  else none

/-- `HashHW`, with the first and the last byte of a part of the guest state as the key. -/
abbrev HashHW (α : Type) := ℤ × ℤ → Option α

/-- What is known of the guest state. -/
abbrev GetEnv (Op Fn : Type) := HashHW (IRExpr Op Fn)

/-- `invalidateOverlaps`. -/
def invalidateOverlaps {α : Type} (env : HashHW α) (kLo kHi : ℤ) : HashHW α := fun e =>
  -- no overlap possible
  if e.2 < kLo ∨ kHi < e.1 then env e else none

/-- The dirty helper writes or modifies the guest state. -/
def IRDirty.writesState (d : IRDirty Op Fn) : Bool :=
  d.fxState.any fun fx => fx.fx = .modify ∨ fx.fx = .write

section Pass

variable (T : OpTable Op) (tyenv : IRTypeEnv)

/-- The body of the loop of `redundant_get_removal_BB`. -/
def getRemovalStmt (env : GetEnv Op Fn) : IRStmt Op Fn → Option (GetEnv Op Fn × IRStmt Op Fn)
  | .wrTmp tmp (.get offset ty) => do
    let key ← mkKeyGetPut offset ty
    match env key with
    | some valE =>
      -- not if that would be of another type
      if typeOfIRExpr T tyenv valE = ty then some (env, .wrTmp tmp valE)
      else some (env, .wrTmp tmp (.get offset ty))
    | none => some (Function.update env key (some (.rdTmp tmp)), .wrTmp tmp (.get offset ty))
  | .put offset data => do
    let key ← mkKeyGetPut offset (typeOfIRExpr T tyenv data)
    if isIRAtom data then
      some (Function.update (invalidateOverlaps env key.1 key.2) key (some data),
        .put offset data)
    else none
  | .putI descr ix bias data => do
    let key ← mkKeyGetIPutI descr
    some (invalidateOverlaps env key.1 key.2, .putI descr ix bias data)
  | .dirty d => some (if d.writesState then fun _ => none else env, .dirty d)
  | st => some (env, st)

/-- The loop of `redundant_get_removal_BB`. -/
def getRemovalStmts : GetEnv Op Fn → List (IRStmt Op Fn) → Option (List (IRStmt Op Fn))
  | _, [] => some []
  | env, st :: stmts => do
    let (env, st) ← getRemovalStmt T tyenv env st
    let stmts ← getRemovalStmts env stmts
    some (st :: stmts)

end Pass

/-- `redundant_get_removal_BB`; `none` is an assertion that fails. -/
def redundantGetRemovalBB (T : OpTable Op) (bb : IRSB Op Fn) : Option (IRSB Op Fn) :=
  (getRemovalStmts T bb.tyenv (fun _ => none) bb.stmts).map fun stmts => { bb with stmts := stmts }

/-! ### What one round does -/

/-- The statement leaves the guest state alone. -/
def IRStmt.keepsGuest : IRStmt Op Fn → Bool
  | .put _ _ | .putI _ _ _ _ => false
  | .dirty d => !d.writesState
  | _ => true

/-- **What one round of the loop can do**: the statement, what is known afterwards, and the
statement that there is then. -/
inductive Removal (T : OpTable Op) (tyenv : IRTypeEnv) (env : GetEnv Op Fn) :
    IRStmt Op Fn → GetEnv Op Fn → IRStmt Op Fn → Prop
  /-- A Get of something that is known. -/
  | found (tmp : IRTemp) {offset : ℤ} {ty : IRType} {key : ℤ × ℤ} {valE : IRExpr Op Fn}
    (hkey : mkKeyGetPut offset ty = some key) (henv : env key = some valE)
    (hty : typeOfIRExpr T tyenv valE = ty) :
    Removal T tyenv env (.wrTmp tmp (.get offset ty)) env (.wrTmp tmp valE)
  /-- A Get of something that is not known yet. -/
  | noted (tmp : IRTemp) {offset : ℤ} {ty : IRType} {key : ℤ × ℤ}
    (hkey : mkKeyGetPut offset ty = some key) :
    Removal T tyenv env (.wrTmp tmp (.get offset ty))
      (Function.update env key (some (.rdTmp tmp))) (.wrTmp tmp (.get offset ty))
  /-- A Put. -/
  | put {offset : ℤ} {data : IRExpr Op Fn} {key : ℤ × ℤ}
    (hkey : mkKeyGetPut offset (typeOfIRExpr T tyenv data) = some key)
    (hatom : isIRAtom data = true) :
    Removal T tyenv env (.put offset data)
      (Function.update (invalidateOverlaps env key.1 key.2) key (some data)) (.put offset data)
  /-- A Put of an element of an array. -/
  | putI {descr : IRRegArray} {key : ℤ × ℤ} (ix : IRExpr Op Fn) (bias : ℤ) (data : IRExpr Op Fn)
    (hkey : mkKeyGetIPutI descr = some key) :
    Removal T tyenv env (.putI descr ix bias data) (invalidateOverlaps env key.1 key.2)
      (.putI descr ix bias data)
  /-- A dirty helper that changes the guest state. -/
  | forgotten (d : IRDirty Op Fn) : Removal T tyenv env (.dirty d) (fun _ => none) (.dirty d)
  /-- Anything else. -/
  | kept {st : IRStmt Op Fn} (hst : st.keepsGuest = true) : Removal T tyenv env st env st

section Syntax

variable {T : OpTable Op} {tyenv : IRTypeEnv} {gWordTy : IRType} {D : Set IRTemp} {n : ℕ}
  {env env' : GetEnv Op Fn} {st st' : IRStmt Op Fn} {stmts out : List (IRStmt Op Fn)}

theorem removal_of_getRemovalStmt (h : getRemovalStmt T tyenv env st = some (env', st')) :
    Removal T tyenv env st env' st' := by
  cases st with
  | wrTmp tmp data =>
    cases data with
    | get offset ty =>
      obtain ⟨key, hkey, h⟩ := Option.bind_eq_some_iff.mp h
      split at h
      · rename_i valE henv
        split at h
        · rename_i hty
          obtain ⟨rfl, rfl⟩ := Prod.mk.inj (Option.some.inj h)
          exact .found tmp hkey henv hty
        · obtain ⟨rfl, rfl⟩ := Prod.mk.inj (Option.some.inj h)
          exact .kept rfl
      · obtain ⟨rfl, rfl⟩ := Prod.mk.inj (Option.some.inj h)
        exact .noted tmp hkey
    | _ =>
      cases h
      exact .kept rfl
  | put offset data =>
    obtain ⟨key, hkey, h⟩ := Option.bind_eq_some_iff.mp h
    split at h
    · rename_i hatom
      obtain ⟨rfl, rfl⟩ := Prod.mk.inj (Option.some.inj h)
      exact .put hkey hatom
    · cases h
  | putI descr ix bias data =>
    obtain ⟨key, hkey, h⟩ := Option.bind_eq_some_iff.mp h
    obtain ⟨rfl, rfl⟩ := Prod.mk.inj (Option.some.inj h)
    exact .putI ix bias data hkey
  | dirty d =>
    obtain ⟨rfl, rfl⟩ := Prod.mk.inj (Option.some.inj h)
    cases hd : d.writesState with
    | true => exact .forgotten d
    | false => exact .kept (by simp [IRStmt.keepsGuest, hd])
  | _ =>
    cases h
    exact .kept rfl

/-- **The invariant of what is kept**: atoms over temporaries that have been assigned, by the
keys that belong to their types. -/
structure GetEnvOk (T : OpTable Op) (tyenv : IRTypeEnv) (D : Set IRTemp)
    (env : GetEnv Op Fn) : Prop where
  /-- Atoms. -/
  atom : ∀ key a, env key = some a → isIRAtom a = true
  /-- They read what has been assigned. -/
  temps : ∀ key a, env key = some a → ∀ t ∈ a.temps, t ∈ D
  /-- The keys are theirs. -/
  key : ∀ key a, env key = some a → mkKeyGetPut key.1 (typeOfIRExpr T tyenv a) = some key

theorem getEnvOk_none (T : OpTable Op) (tyenv : IRTypeEnv) (D : Set IRTemp) :
    GetEnvOk T tyenv D (fun _ => (none : Option (IRExpr Op Fn))) where
  atom _ _ h := by cases h
  temps _ _ h := by cases h
  key _ _ h := by cases h

/-- Less is kept, and more has been assigned. -/
theorem GetEnvOk.mono (h : GetEnvOk T tyenv D env) {D' : Set IRTemp} (hD : D ⊆ D')
    (henv : ∀ key a, env' key = some a → env key = some a) : GetEnvOk T tyenv D' env' where
  atom key a ha := h.atom key a (henv key a ha)
  temps key a ha t ht := hD (h.temps key a (henv key a ha) t ht)
  key key a ha := h.key key a (henv key a ha)

/-- One thing more is kept. -/
theorem GetEnvOk.update (h : GetEnvOk T tyenv D env) {key : ℤ × ℤ} {a : IRExpr Op Fn}
    (hatom : isIRAtom a = true) (htemps : ∀ t ∈ a.temps, t ∈ D)
    (hkey : mkKeyGetPut key.1 (typeOfIRExpr T tyenv a) = some key) :
    GetEnvOk T tyenv D (Function.update env key (some a)) := by
  have hcases {key' : ℤ × ℤ} {a' : IRExpr Op Fn}
      (h' : Function.update env key (some a) key' = some a') :
      key' = key ∧ a' = a ∨ env key' = some a' := by
    by_cases heq : key' = key
    · subst heq
      rw [Function.update_self] at h'
      exact Or.inl ⟨rfl, (Option.some.inj h').symm⟩
    · rw [Function.update_of_ne heq] at h'
      exact Or.inr h'
  refine ⟨fun key' a' h' => ?_, fun key' a' h' => ?_, fun key' a' h' => ?_⟩
  · rcases hcases h' with ⟨rfl, rfl⟩ | h'
    · exact hatom
    · exact h.atom key' a' h'
  · rcases hcases h' with ⟨rfl, rfl⟩ | h'
    · exact htemps
    · exact h.temps key' a' h'
  · rcases hcases h' with ⟨rfl, rfl⟩ | h'
    · exact hkey
    · exact h.key key' a' h'

theorem invalidateOverlaps_eq_some {α : Type} {env : HashHW α} {kLo kHi : ℤ} {key : ℤ × ℤ} {a : α}
    (h : invalidateOverlaps env kLo kHi key = some a) :
    env key = some a ∧ (key.2 < kLo ∨ kHi < key.1) := by
  rw [invalidateOverlaps] at h
  split at h
  · rename_i hapart
    exact ⟨h, hapart⟩
  · cases h

theorem mkKeyGetPut_eq_some {offset : ℤ} {ty : IRType} {key : ℤ × ℤ}
    (h : mkKeyGetPut offset ty = some key) :
    ∃ size, sizeofIRType ty = some size ∧ key = (offset, offset + size - 1) := by
  obtain ⟨size, hsize, h⟩ := Option.bind_eq_some_iff.mp h
  split at h
  · exact ⟨size, hsize, (Option.some.inj h).symm⟩
  · cases h

theorem mkKeyGetIPutI_eq_some {descr : IRRegArray} {key : ℤ × ℤ}
    (h : mkKeyGetIPutI descr = some key) : ∃ size, sizeofIRType descr.elemTy = some size ∧
      key = (descr.base, descr.base + descr.nElems * size - 1) := by
  obtain ⟨size, hsize, h⟩ := Option.bind_eq_some_iff.mp h
  split at h
  · exact ⟨size, hsize, (Option.some.inj h).symm⟩
  · cases h

theorem mkKeyGetPut_fst {offset : ℤ} {ty : IRType} {key : ℤ × ℤ}
    (h : mkKeyGetPut offset ty = some key) : key.1 = offset := by
  obtain ⟨size, -, rfl⟩ := mkKeyGetPut_eq_some h
  rfl

/-- The invariant is kept. -/
theorem Removal.envOk (h : Removal T tyenv env st env' st') (henv : GetEnvOk T tyenv D env)
    (hssa : Ssa IRStmt.checked n D (st :: stmts)) (htc : tcStmt T tyenv gWordTy st = true) :
    GetEnvOk T tyenv (D ∪ {t | t ∈ st.defs}) env' := by
  have hgrow : D ⊆ D ∪ {t | t ∈ st.defs} := Set.subset_union_left
  cases h with
  | found | kept => exact henv.mono hgrow fun _ _ h => h
  | noted tmp hkey =>
    simp only [tcStmt, Bool.and_eq_true, beq_iff_eq] at htc
    refine (henv.mono hgrow fun _ _ h => h).update rfl (fun t ht => ?_) ?_
    · exact Or.inr ht
    · rw [mkKeyGetPut_fst hkey, typeOfIRExpr, htc.2]
      exact hkey
  | put hkey hatom =>
    refine (henv.mono hgrow fun _ _ h => (invalidateOverlaps_eq_some h).1).update hatom
      (fun t ht => Or.inl (hssa.1 _ (List.mem_singleton_self _) t ht).2) ?_
    rw [mkKeyGetPut_fst hkey]
    exact hkey
  | putI => exact henv.mono hgrow fun _ _ h => (invalidateOverlaps_eq_some h).1
  | forgotten => exact getEnvOk_none T tyenv _

/-- The temporaries that are assigned stay the same. -/
theorem Removal.defs_eq (h : Removal T tyenv env st env' st') : st'.defs = st.defs := by
  cases h <;> rfl

end Syntax

/-! ### The guest state -/

/-- **A machine whose guest state is what it should be.** -/
structure GuestState (M : Machine Op Fn V σ) (hasType : V → IRType → Prop) : Prop where
  /-- What is written is read back. -/
  get_put : ∀ s offset ty v key, mkKeyGetPut offset ty = some key → hasType v ty →
    M.get (M.put s offset v) offset ty = v
  /-- What has no byte in common with it stays as it is. -/
  get_put_of_apart : ∀ s offset ty key offset' ty' key' v, mkKeyGetPut offset ty = some key →
    mkKeyGetPut offset' ty' = some key' → hasType v ty' → key.2 < key'.1 ∨ key'.2 < key.1 →
    M.get (M.put s offset' v) offset ty = M.get s offset ty
  /-- So does what has no byte in common with an array of which an element is written. -/
  get_putI_of_apart : ∀ s offset ty key descr key' ix bias v, mkKeyGetPut offset ty = some key →
    mkKeyGetIPutI descr = some key' → hasType v descr.elemTy → key.2 < key'.1 ∨ key'.2 < key.1 →
    M.get (M.putI s descr ix bias v) offset ty = M.get s offset ty
  /-- Memory is no part of it. -/
  get_store : ∀ s endn addr v offset ty, M.get (M.store s endn addr v) offset ty =
    M.get s offset ty
  /-- Memory is no part of it. -/
  get_cas : ∀ s endn addr expdHi expdLo dataHi dataLo offset ty,
    M.get (M.cas s endn addr expdHi expdLo dataHi dataLo).1 offset ty = M.get s offset ty
  /-- Memory is no part of it. -/
  get_llsc : ∀ s endn ty' addr data offset ty,
    M.get (M.llsc s endn ty' addr data).1 offset ty = M.get s offset ty
  /-- Memory is no part of it. -/
  get_mbe : ∀ s event offset ty, M.get (M.mbe s event) offset ty = M.get s offset ty

/-- **Dirty helpers that change the guest state say so.** -/
def FxDeclared (M : Machine Op Fn V σ) (stmts : List (IRStmt Op Fn)) : Prop :=
  ∀ d, .dirty d ∈ stmts → d.writesState = false → ∀ s vs ty' offset ty,
    M.get (M.dirty s d.cee vs ty').1 offset ty = M.get s offset ty

/-- **What is known is so**: a part of the guest state has the value of what is kept for it. -/
def Known (T : OpTable Op) (M : Machine Op Fn V σ) (tyenv : IRTypeEnv) (env : GetEnv Op Fn)
    (c : Config V σ) : Prop :=
  ∀ key a, env key = some a → M.get c.2 key.1 (typeOfIRExpr T tyenv a) = a.eval M c

section Sound

variable {T : OpTable Op} {M : Machine Op Fn V σ} {hasType : V → IRType → Prop}
  {gWordTy : IRType} {tyenv : IRTypeEnv} {D : Set IRTemp} {n : ℕ} {env env' : GetEnv Op Fn}
  {c : Config V σ} {st st' : IRStmt Op Fn} {stmts out : List (IRStmt Op Fn)}

/-- A statement that leaves the guest state alone. -/
theorem get_of_keepsGuest (hG : GuestState M hasType) (hst : st.keepsGuest = true)
    (hfx : FxDeclared M [st]) (c : Config V σ) (offset : ℤ) (ty : IRType) :
    M.get (st.sem T M tyenv c).1.2 offset ty = M.get c.2 offset ty := by
  cases st with
  | put | putI => cases hst
  | store => exact hG.get_store _ _ _ _ _ _
  | storeG =>
    simp only [IRStmt.sem]
    split
    · exact hG.get_store _ _ _ _ _ _
    · rfl
  | cas => exact hG.get_cas _ _ _ _ _ _ _ _ _
  | llsc => exact hG.get_llsc _ _ _ _ _ _ _
  | mbe => exact hG.get_mbe _ _ _ _
  | dirty d =>
    have hd : d.writesState = false := by simpa [IRStmt.keepsGuest] using hst
    simp only [IRStmt.sem]
    split
    · exact hfx d (List.mem_singleton_self _) hd _ _ _ _ _
    · rfl
  | _ => rfl

/-- The value of an atom depends on its temporary only. -/
theorem eval_atom_congr {a : IRExpr Op Fn} (hatom : isIRAtom a = true) {c' : Config V σ}
    (h : ∀ t ∈ a.temps, c'.1 t = c.1 t) : a.eval M c' = a.eval M c := by
  cases a with
  | rdTmp tmp => exact h tmp (List.mem_singleton_self tmp)
  | const => rfl
  | _ => cases hatom

/-- What is kept still has the value that it had, after a statement that does not assign what it
reads. -/
theorem eval_of_envOk (henv : GetEnvOk T tyenv D env)
    (hssa : Ssa IRStmt.checked n D (st :: stmts)) {key : ℤ × ℤ} {a : IRExpr Op Fn}
    (ha : env key = some a) : a.eval M (st.sem T M tyenv c).1 = a.eval M c :=
  eval_atom_congr (henv.atom key a ha) fun t ht =>
    st.sem_frame c fun h => (hssa.2.2.1 t h).2 (henv.temps key a ha t ht)

/-- **One round of the loop**: the statement that there is then does what the statement did, and
what is known afterwards is so. -/
theorem Removal.sound (h : Removal T tyenv env st env' st') (hM : TypedMachine T M hasType)
    (hG : GuestState M hasType) (henv : GetEnvOk T tyenv D env) (hknown : Known T M tyenv env c)
    (hc : HaveTypes hasType tyenv D c.1) (hssa : Ssa IRStmt.checked n D (st :: stmts))
    (htc : tcStmt T tyenv gWordTy st = true) (hfx : FxDeclared M [st]) :
    st'.sem T M tyenv c = st.sem T M tyenv c ∧
      Known T M tyenv env' (st.sem T M tyenv c).1 := by
  have hkeep (hst : st.keepsGuest = true) : Known T M tyenv env (st.sem T M tyenv c).1 :=
    fun key a ha => by
      rw [get_of_keepsGuest hG hst hfx, eval_of_envOk henv hssa ha]
      exact hknown key a ha
  cases h with
  | kept hst => exact ⟨rfl, hkeep hst⟩
  | forgotten => exact ⟨rfl, fun _ _ h => by cases h⟩
  | found tmp hkey hfound hty =>
    refine ⟨?_, hkeep rfl⟩
    have hval := hknown _ _ hfound
    rw [mkKeyGetPut_fst hkey, hty] at hval
    simp only [IRStmt.sem, IRExpr.eval, hval]
  | @noted tmp offset ty key hkey =>
    refine ⟨rfl, fun key' a ha => ?_⟩
    by_cases heq : key' = key
    · subst heq
      rw [Function.update_self] at ha
      obtain rfl := Option.some.inj ha
      simp only [tcStmt, Bool.and_eq_true, beq_iff_eq] at htc
      rw [mkKeyGetPut_fst hkey, typeOfIRExpr, htc.2]
      simp only [IRStmt.sem, IRExpr.eval, Function.update_self, typeOfIRExpr]
    · rw [Function.update_of_ne heq] at ha
      exact hkeep rfl key' a ha
  | @put offset data key hkey hatom =>
    have hdata : hasType (data.eval M c) (typeOfIRExpr T tyenv data) :=
      eval_atom_hasType hM hc hatom fun t ht => (hssa.1 data (List.mem_singleton_self data) t ht).2
    refine ⟨rfl, fun key' a ha => ?_⟩
    by_cases heq : key' = key
    · subst heq
      rw [Function.update_self] at ha
      obtain rfl := Option.some.inj ha
      have hsame : data.eval M ((IRStmt.put offset data).sem T M tyenv c).1 = data.eval M c :=
        eval_atom_congr hatom fun _ _ => rfl
      rw [mkKeyGetPut_fst hkey, hsame]
      exact hG.get_put _ _ _ _ _ hkey hdata
    · rw [Function.update_of_ne heq] at ha
      obtain ⟨ha, hapart⟩ := invalidateOverlaps_eq_some ha
      rw [eval_of_envOk henv hssa ha, ← hknown key' a ha]
      exact hG.get_put_of_apart _ _ _ _ _ _ _ _ (henv.key key' a ha) hkey hdata hapart
  | @putI descr key ix bias data hkey =>
    have hdata : hasType (data.eval M c) descr.elemTy := by
      simp only [tcStmt, Bool.and_eq_true, beq_iff_eq] at htc
      rw [← htc.1.1.2]
      exact eval_hasType hM hc (fun t ht =>
        (hssa.1 data (by simp [IRStmt.checked, IRStmt.exprs]) t ht).2) htc.1.1.1.1.1
    refine ⟨rfl, fun key' a ha => ?_⟩
    obtain ⟨ha, hapart⟩ := invalidateOverlaps_eq_some ha
    rw [eval_of_envOk henv hssa ha, ← hknown key' a ha]
    exact hG.get_putI_of_apart _ _ _ _ _ _ _ _ _ (henv.key key' a ha) hkey hdata hapart

/-- **The loop**: the statements that there are then do what the statements did. -/
theorem run_getRemovalStmts (hM : TypedMachine T M hasType) (hT : T.Widens)
    (hG : GuestState M hasType) (henv : GetEnvOk T tyenv D env) (hknown : Known T M tyenv env c)
    (hc : HaveTypes hasType tyenv D c.1) (hssa : Ssa IRStmt.checked n D stmts)
    (hflat : ∀ st ∈ stmts, isFlatIRStmt st = true)
    (htc : ∀ st ∈ stmts, tcStmt T tyenv gWordTy st = true) (hfx : FxDeclared M stmts)
    (h : getRemovalStmts T tyenv env stmts = some out) :
    run (IRStmt.sem T M tyenv) out c = run (IRStmt.sem T M tyenv) stmts c := by
  induction stmts generalizing D env c out with
  | nil =>
    cases h
    rfl
  | cons st stmts ih =>
    obtain ⟨⟨env₁, st₁⟩, hst, h⟩ := Option.bind_eq_some_iff.mp h
    obtain ⟨rest, hrest, h⟩ := Option.bind_eq_some_iff.mp h
    obtain rfl := Option.some.inj h
    have hremoval := removal_of_getRemovalStmt hst
    have hst := htc st List.mem_cons_self
    have hfx₁ : FxDeclared M [st] := fun d hd =>
      hfx d (List.mem_singleton.mp hd ▸ List.mem_cons_self)
    obtain ⟨hsem, hknown₁⟩ := hremoval.sound hM hG henv hknown hc hssa hst hfx₁
    have hc₁ := hc.step hM hT hssa (hflat st List.mem_cons_self) hst
    rw [run, run, hsem]
    rcases hc' : st.sem T M tyenv c with ⟨c', _ | w⟩
    · rw [hc'] at hknown₁ hc₁
      exact ih (hremoval.envOk henv hssa hst) hknown₁ hc₁ hssa.2.2.2
        (fun st' h => hflat st' (List.mem_cons_of_mem _ h))
        (fun st' h => htc st' (List.mem_cons_of_mem _ h))
        (fun d hd => hfx d (List.mem_cons_of_mem _ hd)) hrest
    · rfl

end Sound

/-! ### The checks -/

section Checks

variable {T : OpTable Op} {gWordTy : IRType} {tyenv : IRTypeEnv} {D : Set IRTemp} {n : ℕ}
  {env env' : GetEnv Op Fn} {st st' : IRStmt Op Fn} {stmts out : List (IRStmt Op Fn)}

/-- The statement that there is then is flat and well-typed, and reads what has been assigned. -/
theorem Removal.checks (h : Removal T tyenv env st env' st') (henv : GetEnvOk T tyenv D env)
    (hflat : isFlatIRStmt st = true) (htc : tcStmt T tyenv gWordTy st = true) :
    isFlatIRStmt st' = true ∧ tcStmt T tyenv gWordTy st' = true ∧
      (st'.checked ⊆ st.checked ∧ st'.uses ⊆ st.uses ∨ ∀ t ∈ st'.uses, t ∈ D) := by
  cases h with
  | found tmp hkey hfound hty =>
    have hatom := henv.atom _ _ hfound
    refine ⟨isFlatData_of_isIRAtom hatom, ?_, Or.inr fun t ht => ?_⟩
    · simp only [tcStmt, Bool.and_eq_true, beq_iff_eq] at htc ⊢
      exact ⟨tcExpr_of_isIRAtom hatom, htc.2.trans hty.symm⟩
    · obtain ⟨e, he, ht'⟩ := List.mem_flatMap.mp ht
      obtain rfl := List.mem_singleton.mp he
      exact henv.temps _ _ hfound t ht'
  | _ => exact ⟨hflat, htc, Or.inl ⟨List.Subset.refl _, List.Subset.refl _⟩⟩

/-- **The checks are still passed** after the loop. -/
theorem checks_getRemovalStmts (henv : GetEnvOk T tyenv D env) (hD : ∀ t ∈ D, t < n)
    (hssa : Ssa IRStmt.checked n D stmts) (hflat : ∀ st ∈ stmts, isFlatIRStmt st = true)
    (htc : ∀ st ∈ stmts, tcStmt T tyenv gWordTy st = true)
    (huses : ∀ st ∈ stmts, ∀ t ∈ st.uses, t < n)
    (h : getRemovalStmts T tyenv env stmts = some out) :
    Ssa IRStmt.checked n D out ∧ ∀ st ∈ out, isFlatIRStmt st = true ∧
      tcStmt T tyenv gWordTy st = true ∧ ∀ t ∈ st.uses, t < n := by
  induction stmts generalizing D env out with
  | nil =>
    cases h
    exact ⟨trivial, fun _ h => absurd h List.not_mem_nil⟩
  | cons st stmts ih =>
    obtain ⟨⟨env₁, st₁⟩, hst, h⟩ := Option.bind_eq_some_iff.mp h
    obtain ⟨rest, hrest, h⟩ := Option.bind_eq_some_iff.mp h
    obtain rfl := Option.some.inj h
    have hremoval := removal_of_getRemovalStmt hst
    have hst := htc st List.mem_cons_self
    obtain ⟨hflat₁, htc₁, hread⟩ := hremoval.checks henv (hflat st List.mem_cons_self) hst
    have hdefs := hremoval.defs_eq
    obtain ⟨hrestSsa, hrestChecks⟩ := ih (hremoval.envOk henv hssa hst)
      (fun t ht => ht.elim (hD t) fun ht => (hssa.2.2.1 t ht).1) hssa.2.2.2
      (fun st' h => hflat st' (List.mem_cons_of_mem _ h))
      (fun st' h => htc st' (List.mem_cons_of_mem _ h))
      (fun st' h => huses st' (List.mem_cons_of_mem _ h)) hrest
    have huses₁ : ∀ t ∈ st₁.uses, t < n := fun t ht => by
      rcases hread with ⟨-, hsub⟩ | hsub
      · exact huses st List.mem_cons_self t (hsub ht)
      · exact hD t (hsub t ht)
    refine ⟨⟨fun e he t ht => ?_, hdefs ▸ hssa.2.1, hdefs ▸ hssa.2.2.1, hdefs ▸ hrestSsa⟩,
      fun st' hst' => ?_⟩
    · rcases hread with ⟨hsub, -⟩ | hsub
      · exact hssa.1 e (hsub he) t ht
      · have ht := hsub t (List.mem_flatMap.mpr ⟨e, st₁.checked_subset he, ht⟩)
        exact ⟨hD t ht, ht⟩
    · rcases List.mem_cons.mp hst' with rfl | hst'
      · exact ⟨hflat₁, htc₁, huses₁⟩
      · exact hrestChecks st' hst'

/-- The keys of the statement fit. -/
def IRStmt.keysFit (T : OpTable Op) (tyenv : IRTypeEnv) : IRStmt Op Fn → Bool
  | .wrTmp _ (.get offset ty) => (mkKeyGetPut offset ty).isSome
  | .put offset data => (mkKeyGetPut offset (typeOfIRExpr T tyenv data)).isSome
  | .putI descr _ _ _ => (mkKeyGetIPutI descr).isSome
  | _ => true

/-- No assertion fails in one round of the loop, exactly if the key fits. -/
theorem isSome_getRemovalStmt (env : GetEnv Op Fn) (hflat : isFlatIRStmt st = true) :
    (getRemovalStmt T tyenv env st).isSome ↔ st.keysFit T tyenv = true := by
  cases st with
  | wrTmp tmp data =>
    cases data with
    | get offset ty =>
      rw [getRemovalStmt, IRStmt.keysFit]
      cases mkKeyGetPut offset ty with
      | none => exact Iff.rfl
      | some key =>
        refine iff_of_true ?_ rfl
        simp only [Option.bind_eq_bind, Option.bind_some]
        split
        · split <;> rfl
        · rfl
    | _ => exact iff_of_true rfl rfl
  | put offset data =>
    have hatom : isIRAtom data = true := hflat
    rw [getRemovalStmt, IRStmt.keysFit]
    cases mkKeyGetPut offset (typeOfIRExpr T tyenv data) with
    | none => exact Iff.rfl
    | some key => exact iff_of_true (by simp [hatom]) rfl
  | putI descr ix bias data =>
    rw [getRemovalStmt, IRStmt.keysFit]
    cases mkKeyGetIPutI descr with
    | none => exact Iff.rfl
    | some key => exact iff_of_true rfl rfl
  | _ => exact iff_of_true rfl rfl

/-- **No assertion fails** exactly if all keys fit. -/
theorem isSome_getRemovalStmts (env : GetEnv Op Fn) (hflat : ∀ st ∈ stmts, isFlatIRStmt st = true) :
    (getRemovalStmts T tyenv env stmts).isSome ↔ ∀ st ∈ stmts, st.keysFit T tyenv = true := by
  induction stmts generalizing env with
  | nil => simp [getRemovalStmts]
  | cons st stmts ih =>
    have ih (env : GetEnv Op Fn) := ih env fun st' h => hflat st' (List.mem_cons_of_mem _ h)
    rw [List.forall_mem_cons, ← isSome_getRemovalStmt env (hflat st List.mem_cons_self),
      getRemovalStmts]
    cases getRemovalStmt T tyenv env st with
    | none => simp
    | some r =>
      obtain ⟨env₁, st₁⟩ := r
      simp only [Option.bind_eq_bind, Option.bind_some, Option.isSome_some, true_and, ← ih env₁]
      cases getRemovalStmts T tyenv env₁ stmts <;> simp

end Checks

/-! ### The superblock -/

/-- **The removal of redundant Gets is sound.** If the keys fit, no assertion fails, and what
comes out passes the checks and does the same on every machine whose guest state is what it
should be. -/
theorem redundantGetRemovalBB_sound {T : OpTable Op} {gWordTy : IRType} {bb : IRSB Op Fn}
    (hsane : sanityCheckIRSB bb true = true) (htc : typecheckIRSB T gWordTy bb = true)
    (hkeys : ∀ st ∈ bb.stmts, st.keysFit T bb.tyenv = true) :
    ∃ bb', redundantGetRemovalBB T bb = some bb' ∧ sanityCheckIRSB bb' true = true ∧
      typecheckIRSB T gWordTy bb' = true ∧
      ∀ (M : Machine Op Fn V σ) (hasType : V → IRType → Prop), TypedMachine T M hasType →
        T.Widens → GuestState M hasType → FxDeclared M bb.stmts →
        ∀ c : Config V σ, bb'.exec T M c = bb.exec T M c := by
  obtain ⟨hflat, hssa, huses, hnext⟩ := sanityCheckIRSB_true_iff.mp hsane
  obtain ⟨hflat, hatom⟩ := Bool.and_eq_true_iff.mp hflat
  obtain ⟨htc, hoffs⟩ := Bool.and_eq_true_iff.mp htc
  obtain ⟨htc, hnextTy⟩ := Bool.and_eq_true_iff.mp htc
  rw [List.all_eq_true] at hflat htc
  have hsome := (isSome_getRemovalStmts (T := T) (fun _ => none) hflat).mpr hkeys
  obtain ⟨out, hout⟩ := Option.isSome_iff_exists.mp hsome
  have henv : GetEnvOk T bb.tyenv ∅ (fun _ => (none : Option (IRExpr Op Fn))) :=
    getEnvOk_none T bb.tyenv ∅
  obtain ⟨hssa', hchecks⟩ := checks_getRemovalStmts henv
    (fun t ht => absurd ht (Set.notMem_empty t)) hssa hflat htc huses hout
  refine ⟨{ bb with stmts := out }, by rw [redundantGetRemovalBB, hout, Option.map_some],
    sanityCheckIRSB_true_iff.mpr ⟨?_, hssa', fun st hst => (hchecks st hst).2.2, hnext⟩, ?_,
    fun M hasType hM hT hG hfx c => ?_⟩
  · exact Bool.and_eq_true_iff.mpr ⟨List.all_eq_true.mpr fun st hst => (hchecks st hst).1, hatom⟩
  · exact Bool.and_eq_true_iff.mpr ⟨Bool.and_eq_true_iff.mpr
      ⟨List.all_eq_true.mpr fun st hst => (hchecks st hst).2.1, hnextTy⟩, hoffs⟩
  · have hrun := run_getRemovalStmts (c := c) hM hT hG henv (fun _ _ h => by cases h)
      (fun t ht => absurd ht (Set.notMem_empty t)) hssa hflat htc hfx hout
    rw [IRSB.exec, IRSB.exec, hrun]

/-! ### A machine to compute with -/

theorem slots_guestState {Fn : Type} :
    GuestState (slots : Machine Widen Fn _ _) fun v ty => v.1 = ty where
  get_put s offset ty v key _ hty := by
    subst hty
    exact Prod.ext rfl (if_pos ⟨rfl, rfl⟩)
  get_put_of_apart s offset ty key offset' ty' key' v hkey hkey' hty hapart := by
    subst hty
    obtain ⟨n, hn, hkey⟩ := mkKeyGetPut_eq_some hkey
    obtain ⟨n', hn', hkey'⟩ := mkKeyGetPut_eq_some hkey'
    have hpos := sizeofIRType_pos hn
    have hpos' := sizeofIRType_pos hn'
    subst hkey hkey'
    have hne : ¬(offset = offset' ∧ ty = v.1) := fun h => by
      have := h.1
      simp only at hapart
      omega
    have hsep : apart offset ty offset' ((sizeofIRType v.1).getD 0) = true := by
      simp only [apart, hn, hn', Option.getD_some, Bool.or_eq_true, decide_eq_true_eq]
      simp only at hapart
      omega
    exact Prod.ext rfl ((if_neg hne).trans (if_pos hsep))
  get_putI_of_apart s offset ty key descr key' ix bias v hkey hkey' _ hapart := by
    obtain ⟨n, hn, hkey⟩ := mkKeyGetPut_eq_some hkey
    obtain ⟨n', hn', hkey'⟩ := mkKeyGetIPutI_eq_some hkey'
    subst hkey hkey'
    have hsep : apart offset ty descr.base
        (descr.nElems * (sizeofIRType descr.elemTy).getD 0) = true := by
      simp only [apart, hn, hn', Option.getD_some, Bool.or_eq_true, decide_eq_true_eq]
      simp only at hapart
      omega
    exact Prod.ext rfl (if_pos hsep)
  get_store _ _ _ _ _ _ := rfl
  get_cas _ _ _ _ _ _ _ _ _ := rfl
  get_llsc _ _ _ _ _ _ _ := rfl
  get_mbe _ _ _ _ := rfl

/-- A Get of what has been written, one of what overlaps it, and one that has been done before. -/
theorem redundantGetRemovalBB_sound_slots :
    let bb : IRSB Widen Unit :=
      { tyenv := [.i64, .i32, .i32, .i64]
        stmts := [.put 16 (.const (.u64 5)), .wrTmp 0 (.get 16 .i64), .wrTmp 1 (.get 20 .i32),
          .put 24 (.rdTmp 0), .wrTmp 2 (.get 20 .i32), .wrTmp 3 (.get 24 .i64),
          .put 32 (.rdTmp 3)]
        next := .rdTmp 3
        jumpkind := .boring
        offsIP := 184 }
    ∃ bb', redundantGetRemovalBB widenTable bb = some bb' ∧ sanityCheckIRSB bb' true = true ∧
      typecheckIRSB widenTable .i64 bb' = true ∧
      ∀ c, bb'.exec widenTable slots c = bb.exec widenTable slots c := by
  intro bb
  have hsane : sanityCheckIRSB bb true = true := by decide
  have htc : typecheckIRSB widenTable .i64 bb = true := by decide
  have hkeys : ∀ st ∈ bb.stmts, st.keysFit widenTable bb.tyenv = true := by decide
  have hfx : FxDeclared slots bb.stmts := fun _ _ _ _ _ _ _ _ => rfl
  obtain ⟨bb', hbb', hsane', htc', hexec⟩ := redundantGetRemovalBB_sound hsane htc hkeys
  exact ⟨bb', hbb', hsane', htc',
    hexec slots _ slots_typed widenTable_widens slots_guestState hfx⟩

end Vex

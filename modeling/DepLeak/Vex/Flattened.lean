import DepLeak.Vex.Flatten

/-!
# Flattened superblocks

Flattening leaves what a superblock does as it is (`Vex.exec_flattenBB`), and what comes
out passes the sanity checks with flatness asked for (`Vex.sanityCheckIRSB_flattenBB`).

The latter needs more than the sanity checks of what comes in. They let the guard of a
dirty call, and what the superblock ends with, read temporaries that have not been
assigned; if these are not atoms, they become assignments, which the checks do look at.
-/

namespace Vex

open Straight

variable {Op Fn V σ : Type}

/-! ### One statement -/

section Stmt

variable {T : OpTable Op} {M : Machine Op Fn V σ} {ltr : Bool} {bb : Out Op Fn} {st : IRStmt Op Fn}

theorem isFlatIRStmt_of_isKept (h : isKept st = true) : isFlatIRStmt st = true := by
  cases st with
  | put => exact h
  | wrTmp tmp data =>
    cases data with
    | get => rfl
    | binop | load => exact h
    | _ => cases h
  | _ => cases h

/-- What becomes of the expressions of a statement: they have the same values, and read what
has been assigned. -/
structure CarriedStmt (T : OpTable Op) (X : Set IRTemp) (new : List (IRStmt Op Fn))
    (e a : IRExpr Op Fn) : Prop where
  /-- The temporaries of the expression have been assigned. -/
  source : ∀ t ∈ e.temps, t ∈ X
  /-- Those of what becomes of it too. -/
  temps : ∀ t ∈ a.temps, t ∈ X ∨ t ∈ defsOf new
  /-- The values are the same. -/
  eval : ∀ {V σ : Type} (M : Machine Op Fn V σ) (tyenv : IRTypeEnv) (c : Config V σ),
    e.eval M c = a.eval M (run (IRStmt.sem T M tyenv) new c).1

/-- **`flatten_Stmt`** puts in a piece, and after it a flat statement that is like the one there
was. -/
theorem flattenStmt_eq (T : OpTable Op) (ltr : Bool) (hX : ∀ t ∈ st.uses, t < bb.tyenv.length) :
    ∃ bb₁ new st', Piece {t | t ∈ st.uses} bb bb₁ new ∧
      (flattenStmt T ltr st bb).2 = (addStmtToIRSB st' bb₁).2 ∧
      st.Alike (CarriedStmt T {t | t ∈ st.uses} new) st' ∧ isFlatIRStmt st' = true := by
  cases hkept : isKept st with
  | true =>
    have hself : st.Alike (CarriedStmt T {t | t ∈ st.uses} []) st :=
      IRStmt.alike_self fun e he =>
        have hmem : ∀ t ∈ e.temps, t ∈ st.uses := fun t ht => List.mem_flatMap.mpr ⟨e, he, ht⟩
        ⟨hmem, fun t ht => Or.inl (hmem t ht), fun _ _ _ => rfl⟩
    refine ⟨bb, [], st, piece_nil _ bb, ?_, hself, isFlatIRStmt_of_isKept hkept⟩
    rw [flattenStmt, if_pos hkept]
    rfl
  | false =>
    have hlifts : Lifts T {t | t ∈ st.uses} (fun R st' => st.Alike R st')
        (st.traverse (flattenExpr T ltr)) :=
      lifts_traverse fun e he => lifts_flattenExpr ltr fun t ht =>
        List.mem_flatMap.mpr ⟨e, he, ht⟩
    obtain ⟨new, hpiece, halike⟩ := hlifts bb hX
    refine ⟨_, new, _, hpiece, ?_, halike.mono fun e a h =>
      ⟨h.source, fun t ht => (h.temps t ht).2, h.eval⟩, ?_⟩
    · rw [flattenStmt, if_neg (by simp [hkept])]
      rfl
    · refine isFlatIRStmt_of_atoms fun a ha => ?_
      obtain ⟨e, -, h⟩ := halike.mem_exprs ha
      exact h.atom

end Stmt

/-! ### The loop -/

/-- **What flattening makes of statements** over the temporaries of a type environment: they are
flat, assign the same of those temporaries and others that are new, and do the same. -/
structure Flattened (T : OpTable Op) (tyenv : IRTypeEnv) (bb bb' : Out Op Fn)
    (stmts pieces : List (IRStmt Op Fn)) : Prop where
  /-- The new temporaries come after the old ones. -/
  grows : bb.tyenv <+: bb'.tyenv
  /-- The statements come after what is there. -/
  added : bb'.stmts = bb.stmts ++ pieces
  /-- They are flat. -/
  flat : ∀ st ∈ pieces, isFlatIRStmt st = true
  /-- They assign the same temporaries, and new ones. -/
  defs : ∀ t < tyenv.length, t ∈ defsOf pieces ↔ t ∈ defsOf stmts
  /-- Temporaries stay assigned once, and before they are used. -/
  ssa : ∀ D : Set IRTemp, (∀ t ∈ D, t < bb.tyenv.length) →
    Ssa IRStmt.exprs tyenv.length {t | t ∈ D ∧ t < tyenv.length} stmts →
    Ssa IRStmt.exprs bb'.tyenv.length D pieces
  /-- They do the same. -/
  sim : ∀ {V σ : Type} (M : Machine Op Fn V σ) {tyenv' : IRTypeEnv}, tyenv <+: tyenv' →
    Simulates (IRStmt.sem T M tyenv) (IRStmt.sem T M tyenv') (Agree {t | t < tyenv.length})
      (Agree {t | t < tyenv.length}) SameState stmts pieces

section Loop

variable {T : OpTable Op} {ltr : Bool} {tyenv : IRTypeEnv} {bb bb₁ bb₂ : Out Op Fn}
  {st : IRStmt Op Fn} {stmts pieces pieces' : List (IRStmt Op Fn)}

/-- One statement. -/
theorem flattened_flattenStmt (T : OpTable Op) (ltr : Bool) (htyenv : tyenv <+: bb.tyenv)
    (huses : ∀ t ∈ st.uses, t < tyenv.length) (hdefs : ∀ t ∈ st.defs, t < tyenv.length) :
    ∃ pieces, Flattened T tyenv bb (flattenStmt T ltr st bb).2 [st] pieces := by
  have hlen : tyenv.length ≤ bb.tyenv.length := htyenv.length_le
  have hX : ∀ t ∈ st.uses, t < bb.tyenv.length := fun t ht => lt_of_lt_of_le (huses t ht) hlen
  obtain ⟨bb₁, new, st', hpiece, heq, halike, hflat⟩ := flattenStmt_eq T ltr hX
  have hnew {t : IRTemp} (ht : t ∈ defsOf new) := hpiece.defs hX ht
  refine ⟨new ++ [st'], ?_⟩
  rw [heq]
  refine ⟨hpiece.tyenv, ?_, fun st₁ hst₁ => ?_, fun t ht => ?_, fun D hD hssa => ?_,
    fun M tyenv' htyenv' c c' hc => ?_⟩
  · rw [← List.append_assoc, ← hpiece.stmts]
    rfl
  · rcases List.mem_append.mp hst₁ with hst₁ | hst₁
    · obtain ⟨t, d, rfl, hd, -⟩ := hpiece.assigns st₁ hst₁
      exact hd
    · exact List.mem_singleton.mp hst₁ ▸ hflat
  · rw [defsOf_append, defsOf_cons, defsOf_cons, halike.defs_eq]
    refine or_iff_right_of_imp fun h => ?_
    exact absurd ht (not_lt.mpr (hlen.trans (hnew h).1))
  · obtain ⟨hexprs, hnodup, hdefs', -⟩ := hssa
    have hread : ∀ t ∈ st.uses, t ∈ D := fun t ht => by
      obtain ⟨e, he, ht⟩ := List.mem_flatMap.mp ht
      exact (hexprs e he t ht).2.1
    refine ssa_append.mpr ⟨hpiece.ssa D hread hD, fun a ha t ht => ?_, halike.defs_eq ▸ hnodup,
      fun t ht => ?_, trivial⟩
    · obtain ⟨e, -, h⟩ := halike.mem_exprs ha
      rcases h.temps t ht with ht | ht
      · exact ⟨lt_of_lt_of_le (hX t ht) hpiece.length_le, Or.inl (hread t ht)⟩
      · exact ⟨(hnew ht).2, Or.inr ht⟩
    · rw [halike.defs_eq] at ht
      obtain ⟨hlt, hnot⟩ := hdefs' t ht
      refine ⟨lt_of_lt_of_le hlt (hlen.trans hpiece.length_le), ?_⟩
      rintro (h | h)
      · exact hnot ⟨h, hlt⟩
      · exact absurd hlt (not_lt.mpr (hlen.trans (hnew h).1))
  · obtain ⟨hnone, hagree⟩ := hpiece.run T M tyenv' c'
    rw [run_singleton, run_append_of_none _ _ hnone, run_singleton]
    have hc' := hc.trans (hagree.mono fun t ht => lt_of_lt_of_le ht hlen)
    refine (halike.matches hc' (fun e a h => ?_) fun t ht => ?_).mono
      (fun _ _ h => h.mono Set.subset_union_left) fun _ _ h => h
    · calc e.eval M c = e.eval M c' := e.eval_congr hc.1 fun t ht => hc.2 (huses t (h.source t ht))
        _ = _ := h.eval M tyenv' c'
    · exact (typeOfIRTemp_of_grown htyenv' (hdefs t ht)).symm

theorem flattened_nil (T : OpTable Op) (tyenv : IRTypeEnv) (bb : Out Op Fn) :
    Flattened T tyenv bb bb [] [] where
  grows := List.prefix_rfl
  added := (List.append_nil _).symm
  flat _ h := by cases h
  defs _ _ := Iff.rfl
  ssa _ _ _ := trivial
  sim _ _ _ := simulates_nil fun _ _ h => h

/-- One statement after another. -/
theorem Flattened.append {stmts' : List (IRStmt Op Fn)} (h : Flattened T tyenv bb bb₁ stmts pieces)
    (h' : Flattened T tyenv bb₁ bb₂ stmts' pieces') :
    Flattened T tyenv bb bb₂ (stmts ++ stmts') (pieces ++ pieces') where
  grows := h.grows.trans h'.grows
  added := by rw [h'.added, h.added, List.append_assoc]
  flat st hst := (List.mem_append.mp hst).elim (h.flat st) (h'.flat st)
  defs t ht := by
    rw [defsOf_append, defsOf_append]
    exact or_congr (h.defs t ht) (h'.defs t ht)
  ssa D hD hssa := by
    obtain ⟨hssa, hssa'⟩ := ssa_append.mp hssa
    have hpieces := h.ssa D hD hssa
    refine ssa_append.mpr ⟨hpieces.mono h'.grows.length_le subset_rfl
      (fun t ht => (hpieces.notMem ht).2) fun _ _ => List.Subset.refl _, h'.ssa _ ?_ ?_⟩
    · rintro t (ht | ht)
      · exact lt_of_lt_of_le (hD t ht) h.grows.length_le
      · exact (hpieces.notMem ht).1
    · -- of the old temporaries the same ones have been assigned
      have hset : {t | t ∈ D ∪ defsOf pieces ∧ t < tyenv.length} =
          {t | t ∈ D ∧ t < tyenv.length} ∪ defsOf stmts := by
        ext t
        constructor
        · rintro ⟨ht | ht, hlt⟩
          · exact Or.inl ⟨ht, hlt⟩
          · exact Or.inr ((h.defs t hlt).mp ht)
        · rintro (⟨ht, hlt⟩ | ht)
          · exact ⟨Or.inl ht, hlt⟩
          · have hlt := (hssa.notMem ht).1
            exact ⟨Or.inr ((h.defs t hlt).mpr ht), hlt⟩
      rw [hset]
      exact hssa'
  sim M _ htyenv' := (h.sim M htyenv').append (h'.sim M htyenv')

/-- **The loop.** -/
theorem flattened_flattenStmts (T : OpTable Op) (ltr : Bool) (htyenv : tyenv <+: bb.tyenv)
    (huses : ∀ st ∈ stmts, ∀ t ∈ st.uses, t < tyenv.length)
    (hdefs : ∀ t ∈ defsOf stmts, t < tyenv.length) :
    ∃ pieces, Flattened T tyenv bb (flattenStmts T ltr stmts bb).2 stmts pieces := by
  induction stmts generalizing bb with
  | nil => exact ⟨[], flattened_nil T tyenv bb⟩
  | cons st stmts ih =>
    rw [defsOf_cons] at hdefs
    obtain ⟨piece, hpiece⟩ := flattened_flattenStmt T ltr htyenv
      (huses st List.mem_cons_self) fun t ht => hdefs t (Or.inl ht)
    obtain ⟨pieces, hpieces⟩ := ih (htyenv.trans hpiece.grows)
      (fun st' h => huses st' (List.mem_cons_of_mem _ h)) fun t ht => hdefs t (Or.inr ht)
    exact ⟨piece ++ pieces, hpiece.append hpieces⟩

end Loop

/-! ### The superblock -/

/-- Every temporary is assigned once, and whatever is read has been assigned: guards of dirty
calls, and what the superblock ends with, are no exceptions. -/
structure IRSB.AllAssigned (bb : IRSB Op Fn) : Prop where
  /-- In the statements. -/
  stmts : Ssa IRStmt.exprs bb.tyenv.length ∅ bb.stmts
  /-- In what the superblock ends with. -/
  next : ∀ t ∈ bb.next.temps, t < bb.tyenv.length ∧ t ∈ defsOf bb.stmts

section Superblock

variable {T : OpTable Op} {ltr : Bool} {bb : IRSB Op Fn}

/-- What is read has been assigned by some statement. -/
theorem Ssa.uses_lt {n : ℕ} {D : Set IRTemp} {stmts : List (IRStmt Op Fn)}
    (h : Ssa IRStmt.exprs n D stmts) : ∀ st ∈ stmts, ∀ t ∈ st.uses, t < n := by
  intro st hst t ht
  obtain ⟨e, he, ht⟩ := List.mem_flatMap.mp ht
  exact h.looked_lt st hst e he t ht

theorem IRSB.AllAssigned.inRange (h : bb.AllAssigned) : bb.InRange where
  uses := h.stmts.uses_lt
  defs _ ht := (h.stmts.notMem ht).1
  next t ht := (h.next t ht).1

/-- What comes out of `flatten_BB`: flattened statements, and a piece for what the superblock
ends with. -/
theorem flattenBB_eq (T : OpTable Op) (ltr : Bool) (hrange : bb.InRange) :
    ∃ bb₁ bb₂ pieces new a, Flattened T bb.tyenv ⟨bb.tyenv, []⟩ bb₁ bb.stmts pieces ∧
      Piece {t | t ∈ bb.next.temps} bb₁ bb₂ new ∧
      Carried T {t | t ∈ bb.next.temps} bb₁ bb₂ new bb.next a ∧
      flattenBB T ltr bb = { bb with tyenv := bb₂.tyenv, stmts := pieces ++ new, next := a } := by
  obtain ⟨pieces, hflat⟩ := flattened_flattenStmts T ltr
    (List.prefix_refl (⟨bb.tyenv, []⟩ : Out Op Fn).tyenv) hrange.uses hrange.defs
  have hlifts : Lifts T {t | t ∈ bb.next.temps} (fun R a => R bb.next a)
      (flattenExpr T ltr bb.next) := lifts_flattenExpr ltr fun t ht => ht
  obtain ⟨new, hpiece, hcarried⟩ := hlifts _ fun t ht =>
    lt_of_lt_of_le (hrange.next t ht) hflat.grows.length_le
  refine ⟨_, _, pieces, new, _, hflat, hpiece, hcarried, ?_⟩
  rw [flattenBB, ← List.nil_append pieces, ← hflat.added, ← hpiece.stmts]
  rfl

/-- **Flattening leaves what a superblock does as it is**: from any values of the temporaries and
any state, with any meaning of the operations and helpers, and in whichever order the
compiler evaluates arguments, it comes to the same state and leaves in the same way. -/
theorem exec_flattenBB (hrange : bb.InRange) (T : OpTable Op) (ltr : Bool)
    (M : Machine Op Fn V σ) (c : Config V σ) :
    (flattenBB T ltr bb).exec T M c = bb.exec T M c := by
  obtain ⟨bb₁, bb₂, pieces, new, a, hflat, hpiece, hcarried, heq⟩ := flattenBB_eq T ltr hrange
  have hsim := hflat.sim M (hflat.grows.trans hpiece.tyenv)
  have hnext : Simulates (IRStmt.sem T M bb.tyenv) (IRStmt.sem T M bb₂.tyenv)
      (Agree {t | t < bb.tyenv.length})
      (fun c c' => c.2 = c'.2 ∧ bb.next.eval M c = a.eval M c') SameState [] new := by
    intro c c' hc
    obtain ⟨hnone, hs, -⟩ := hpiece.run T M bb₂.tyenv c'
    refine ⟨hnone.symm, fun _ => ⟨hc.1.trans hs, ?_⟩, fun h => absurd rfl h⟩
    calc bb.next.eval M c = bb.next.eval M c' :=
          bb.next.eval_congr hc.1 fun t ht => hc.2 (hrange.next t ht)
      _ = _ := hcarried.eval M bb₂.tyenv c'
  have hboth := hsim.append hnext
  rw [List.append_nil] at hboth
  rw [heq]
  exact (bb.exec_eq { bb with tyenv := bb₂.tyenv, stmts := pieces ++ new, next := a } hboth
    (fun c c' hc => hc) rfl rfl (.refl _ c)).symm

/-- **What comes out of flattening is flat and passes the sanity checks**, and everything that is
read has still been assigned. -/
theorem sanityCheckIRSB_flattenBB (h : bb.AllAssigned) (T : OpTable Op) (ltr : Bool) :
    sanityCheckIRSB (flattenBB T ltr bb) true = true ∧ (flattenBB T ltr bb).AllAssigned := by
  obtain ⟨bb₁, bb₂, pieces, new, a, hflat, hpiece, hcarried, heq⟩ :=
    flattenBB_eq T ltr h.inRange
  have hX : ∀ t ∈ bb.next.temps, t < bb₁.tyenv.length := fun t ht =>
    lt_of_lt_of_le (h.next t ht).1 hflat.grows.length_le
  have hnone : {t : IRTemp | t ∈ (∅ : Set IRTemp) ∧ t < bb.tyenv.length} = ∅ := by
    ext t
    simp
  have hssa := hflat.ssa ∅ (fun t ht => absurd ht (Set.notMem_empty t))
    (by rw [hnone]; exact h.stmts)
  have hread : ∀ t ∈ bb.next.temps, t ∈ defsOf pieces := fun t ht =>
    (hflat.defs t (h.next t ht).1).mpr (h.next t ht).2
  have hall : (flattenBB T ltr bb).AllAssigned := by
    rw [heq]
    refine ⟨ssa_append.mpr ⟨hssa.mono hpiece.length_le subset_rfl (fun t ht => (hssa.notMem ht).2)
      fun _ _ => List.Subset.refl _, hpiece.ssa _ (fun t ht => Or.inr (hread t ht)) ?_⟩,
      fun t ht => ⟨(hcarried.temps t ht).1, ?_⟩⟩
    · rintro t (ht | ht)
      · cases ht
      · exact (hssa.notMem ht).1
    · rw [defsOf_append]
      exact (hcarried.temps t ht).2.imp (hread t) id
  refine ⟨sanityCheckIRSB_true_iff.mpr ⟨?_, ?_, hall.inRange.uses, hall.inRange.next⟩, hall⟩
  · rw [heq]
    refine Bool.and_eq_true_iff.mpr ⟨List.all_eq_true.mpr fun st hst => ?_, hcarried.atom⟩
    rcases List.mem_append.mp hst with hst | hst
    · exact hflat.flat st hst
    · obtain ⟨t, d, rfl, hd, -⟩ := hpiece.assigns st hst
      exact hd
  · exact hall.stmts.mono le_rfl subset_rfl (fun t ht => (hall.stmts.notMem ht).2)
      fun st _ => st.checked_subset

/-- **Flattening is sound**: what comes out is flat, passes the sanity checks and does the same, on
every machine, whether the compiler evaluates arguments from the left or from the right. -/
theorem flattenBB_sound (h : bb.AllAssigned) (T : OpTable Op) (ltr : Bool) :
    sanityCheckIRSB (flattenBB T ltr bb) true = true ∧
      ∀ (M : Machine Op Fn V σ) (c : Config V σ),
        (flattenBB T ltr bb).exec T M c = bb.exec T M c :=
  ⟨(sanityCheckIRSB_flattenBB h T ltr).1, exec_flattenBB h.inRange T ltr⟩

end Superblock

/-- An exit with a compound guard, a dirty call with compound arguments, and a compound
target. -/
theorem flattenBB_sound_tally :
    let bb : IRSB Widen Unit :=
      { tyenv := [.i8, .i32]
        stmts := [.wrTmp 0 (.const (.u8 200)),
          .wrTmp 1 (.unop .op8Uto32 (.unop .op8Uto32 (.rdTmp 0))),
          .exit (.ite (.rdTmp 0) (.const (.u1 false)) (.const (.u1 true))) .boring (.u64 4096) 184,
          .dirty ⟨⟨2, "helper", (), 0⟩, .const (.u1 true),
            [.expr (.unop .op16Uto32 (.rdTmp 1)), .gsptr], none, none, []⟩]
        next := .ite (.rdTmp 1) (.const (.u64 8192)) (.const (.u64 4096))
        jumpkind := .boring
        offsIP := 184 }
    sanityCheckIRSB (flattenBB widenTable false bb) true = true ∧
      ∀ (M : Machine Widen Unit (BitVec 64) (List (List (BitVec 64))))
        (c : Config (BitVec 64) (List (List (BitVec 64)))),
        (flattenBB widenTable false bb).exec widenTable M c = bb.exec widenTable M c := by
  intro bb
  have hassigned : bb.AllAssigned := by
    refine ⟨?_, ?_⟩
    · simp [bb, Ssa, IRStmt.exprs, IRStmt.defs, IRExpr.temps, IRArg.expr?]
    · simp [bb, IRExpr.temps, defsOf, IRStmt.defs]
  exact flattenBB_sound hassigned widenTable false

end Vex

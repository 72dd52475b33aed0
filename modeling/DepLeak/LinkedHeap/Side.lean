import DepLeak.LinkedHeap.Loops

/-!
# Lists built on the side

A function that needs several lists builds them one after the other before it turns
them into one. `LinkedHeap.Side h h' hands` is the middle of that: `h'` is `h` with
one new list for each pair of `hands`, at the pointer of the pair and with its
payloads.

A further list is built at the end (`LinkedHeap.Side.copy`), the two at the front are
used up for another (`LinkedHeap.Side.rebuild`), and once a single one is left it is
a list built on the side like any other (`LinkedHeap.Side.grows`).
-/

namespace LinkedHeap

variable {α : Type}

/-- `h'` is `h` with a new list for each of the hands. -/
def Side (h h' : Heap α) (hands : List (Ptr × List α)) : Prop :=
  ∃ own : List (Ptr × List (ℕ × α)),
    hands = own.map (fun x => (x.1, vals x.2)) ∧ (∀ x ∈ own, Seg h' x.1 x.2 none) ∧
    Sprouts h h' (own.flatMap fun x => ids x.2) ∧ (own.flatMap fun x => ids x.2).Nodup

namespace Side

variable {h h' h'' : Heap α} {hands : List (Ptr × List α)} {p q : Ptr} {vs ws : List α}
  {l : List (ℕ × α)}

theorem nil (h : Heap α) : Side h h [] :=
  ⟨[], rfl, fun _ hx => absurd hx List.not_mem_nil, .refl h, List.nodup_nil⟩

/-- The old lists are still there. -/
theorem old_seg (hs : Side h h' hands) {r s : Ptr} {m : List (ℕ × α)} (hm : Seg h r m s) :
    Seg h' r m s := by
  obtain ⟨own, -, -, hsp, -⟩ := hs
  exact hsp.old_seg hm

/-- **One more list**, at the end. -/
theorem copy (hs : Side h h' hands) (hg : Grows h' h'' q l) :
    Side h h'' (hands ++ [(q, vals l)]) := by
  obtain ⟨own, rfl, hseg, hsp, hnd⟩ := hs
  have hflat : (own ++ [(q, l)]).flatMap (fun x => ids x.2) =
      (own.flatMap fun x => ids x.2) ++ ids l := by simp
  refine ⟨own ++ [(q, l)], by simp, fun x hx => ?_, ?_, ?_⟩
  · rcases List.mem_append.mp hx with hx | hx
    · exact hg.sprouts.old_seg (hseg x hx)
    · rw [List.mem_singleton.mp hx]
      exact hg.seg
  · rw [hflat]
    exact hsp.trans hg.sprouts
  · rw [hflat, List.nodup_append]
    refine ⟨hnd, hg.seg.nodup Heap.dead_none, fun i hi j hj hij => ?_⟩
    obtain ⟨x, hx, hix⟩ := List.mem_flatMap.mp hi
    have h₁ := (hseg x hx).lt_top hix
    have h₂ := hg.sprouts.above j hj
    omega

/-- **The two lists at the front are used up for another.** -/
theorem rebuild (hs : Side h h' ((p, vs) :: (q, ws) :: hands)) :
    ∃ l m, Seg h' p l none ∧ Seg h' q m none ∧ vals l = vs ∧ vals m = ws ∧
      (∀ i ∈ ids m, i ∉ ids l) ∧
      ∀ {h'' p' l'}, Seg h'' p' l' none → Rebuilds h' h'' (ids l ++ ids m) l' →
        Side h h'' ((p', vals l') :: hands) := by
  obtain ⟨own, hown, hseg, hsp, hnd⟩ := hs
  obtain ⟨⟨p₁, l⟩, own, rfl, hx, hown⟩ := List.map_eq_cons_iff.mp hown.symm
  obtain ⟨⟨q₁, m⟩, own, rfl, hy, rfl⟩ := List.map_eq_cons_iff.mp hown
  obtain ⟨rfl, rfl⟩ := Prod.mk.inj hx
  obtain ⟨rfl, rfl⟩ := Prod.mk.inj hy
  simp only [List.flatMap_cons, ← List.append_assoc] at hsp hnd
  obtain ⟨hlm, hrest, hdis⟩ := List.nodup_append.mp hnd
  refine ⟨l, m, hseg _ List.mem_cons_self, hseg _ (List.mem_cons_of_mem _ List.mem_cons_self), rfl,
    rfl, fun i hi hi' => (List.nodup_append.mp hlm).2.2 i hi' i hi rfl,
    fun {h'' p' l'} hl' hb => ?_⟩
  refine ⟨(p', l') :: own, rfl, fun x hx => ?_, hsp.rebuild hb, ?_⟩
  · rcases List.mem_cons.mp hx with rfl | hx
    · exact hl'
    · refine hb.old_seg (hseg x (List.mem_cons_of_mem _ (List.mem_cons_of_mem _ hx))) ?_
      exact fun i hi hmem => hdis i hmem i (List.mem_flatMap.mpr ⟨x, hx, hi⟩) rfl
  · rw [List.flatMap_cons, List.nodup_append]
    refine ⟨hl'.nodup Heap.dead_none, hrest, fun i hi j hj hij => ?_⟩
    subst hij
    rcases hb.own i hi with hmem | hge
    · exact hdis i hmem i hj rfl
    · obtain ⟨x, hx, hix⟩ := List.mem_flatMap.mp hj
      have := (hseg x (List.mem_cons_of_mem _ (List.mem_cons_of_mem _ hx))).lt_top hix
      omega

/-- One list on the side. -/
theorem grows (hs : Side h h' [(q, vs)]) : ∃ l, Grows h h' q l ∧ vals l = vs := by
  obtain ⟨own, hown, hseg, hsp, -⟩ := hs
  obtain ⟨⟨q₁, l⟩, own, rfl, hx, hown⟩ := List.map_eq_cons_iff.mp hown.symm
  obtain rfl := List.map_eq_nil_iff.mp hown
  obtain ⟨rfl, rfl⟩ := Prod.mk.inj hx
  exact ⟨l, ⟨hseg _ List.mem_cons_self, by simpa using hsp⟩, rfl⟩

end Side

end LinkedHeap

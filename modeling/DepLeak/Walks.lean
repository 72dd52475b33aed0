import Mathlib.Algebra.Order.BigOperators.Group.Finset
import Mathlib.Data.List.Count
import Mathlib.Logic.Relation
import Mathlib.Order.Lattice.Nat

/-!
# The bounded walks of a graph, depth first

A graph gives every vertex the list of its successors, or nothing where a walk may end;
an edge is known by its index in that list, so that two edges to one vertex are two edges.
`Walks.enumerate` goes through the graph depth first, turns back at a vertex that was
visited `bound` times already, and lists the walks that come to an end.

* `Walks.enumerate_pairwise` – the walks are listed in the lexicographic order of their
  index sequences, none of them twice;
* `Walks.mem_enumerate` – they are all the walks that visit no vertex more than `bound`
  times, given fuel for the visits there is room for (`Walks.room`);
* `Walks.enumerate_ne_nil_iff` – there are some as soon as there is any walk to an end, as
  loops can be cut out of it;
* `Walks.exists_enumerate_getLast_iff` – they come to every end that can be reached.
-/

namespace Walks

variable {β : Type}

/-- A walk from a vertex along a sequence of successor indices to an end. -/
inductive Walk (succ : β → Option (List β)) : β → List ℕ → List β → Prop
  /-- The vertex is an end. -/
  | exit {b : β} : succ b = none → Walk succ b [] [b]
  /-- An edge is followed. -/
  | step {b t : β} {bs : List β} {i : ℕ} {is : List ℕ} {w : List β} :
    succ b = some bs → bs[i]? = some t → Walk succ t is w → Walk succ b (i :: is) (b :: w)

theorem Walk.head_mem {succ : β → Option (List β)} {b : β} {is : List ℕ} {w : List β}
    (h : Walk succ b is w) : b ∈ w := by
  cases h with
  | exit => exact List.mem_cons_self
  | step => exact List.mem_cons_self

/-- A walk goes on to its end from every vertex on it. -/
theorem Walk.suffix {succ : β → Option (List β)} {b x : β} {is : List ℕ} {w : List β}
    (h : Walk succ b is w) (hx : x ∈ w) : ∃ is' w', Walk succ x is' w' ∧ w' <:+ w := by
  induction h with
  | exit hb =>
    obtain rfl := List.mem_singleton.mp hx
    exact ⟨[], [x], .exit hb, List.suffix_rfl⟩
  | @step b t bs i is w hb ht hw ih =>
    rcases List.mem_cons.mp hx with rfl | hx
    · exact ⟨i :: is, x :: w, .step hb ht hw, List.suffix_rfl⟩
    · obtain ⟨is', w', hw', hsuffix⟩ := ih hx
      exact ⟨is', w', hw', hsuffix.trans (List.suffix_cons b w)⟩

theorem Walk.ne_nil {succ : β → Option (List β)} {b : β} {is : List ℕ} {w : List β}
    (h : Walk succ b is w) : w ≠ [] :=
  List.ne_nil_of_mem h.head_mem

/-- Loops can be cut out of a walk, which keeps its end. -/
theorem Walk.exists_nodup_getLast {succ : β → Option (List β)} {b : β} {is : List ℕ}
    {w : List β} (h : Walk succ b is w) :
    ∃ is' w', Walk succ b is' w' ∧ w'.Nodup ∧ w'.getLast? = w.getLast? := by
  induction h with
  | @exit b hb => exact ⟨[], [b], .exit hb, List.nodup_singleton b, rfl⟩
  | @step b t bs i is w hb ht hw ih =>
    obtain ⟨is', w', hw', hnodup, hlast⟩ := ih
    have hcons : (b :: w).getLast? = w'.getLast? := by
      rw [hlast, List.getLast?_cons_of_ne_nil hw.ne_nil]
    by_cases hmem : b ∈ w'
    · -- the walk comes back to where it is, and goes on from there
      obtain ⟨is'', w'', hw'', hsuffix⟩ := hw'.suffix hmem
      refine ⟨is'', w'', hw'', hnodup.sublist hsuffix.sublist, ?_⟩
      obtain ⟨loop, rfl⟩ := hsuffix
      rw [hcons, List.getLast?_append_of_ne_nil loop hw''.ne_nil]
    · refine ⟨i :: is', b :: w', .step hb ht hw', List.nodup_cons.mpr ⟨hmem, hnodup⟩, ?_⟩
      rw [hcons, List.getLast?_cons_of_ne_nil hw'.ne_nil]

/-- **Loops can be cut out** of a walk. -/
theorem Walk.exists_nodup {succ : β → Option (List β)} {b : β} {is : List ℕ} {w : List β}
    (h : Walk succ b is w) : ∃ is' w', Walk succ b is' w' ∧ w'.Nodup := by
  obtain ⟨is', w', hw', hnodup, -⟩ := h.exists_nodup_getLast
  exact ⟨is', w', hw', hnodup⟩

/-! ### The ends that can be reached -/

/-- There is an edge between two vertices. -/
def Edge (succ : β → Option (List β)) (b t : β) : Prop := ∃ bs, succ b = some bs ∧ t ∈ bs

/-- **What walks end at**: the ends that can be reached along edges. -/
theorem exists_walk_getLast_iff {succ : β → Option (List β)} {b e : β} :
    (∃ is w, Walk succ b is w ∧ w.getLast? = some e) ↔
      Relation.ReflTransGen (Edge succ) b e ∧ succ e = none := by
  constructor
  · rintro ⟨is, w, hw, hlast⟩
    induction hw with
    | exit hb =>
      obtain rfl := Option.some.inj hlast
      exact ⟨.refl, hb⟩
    | @step b t bs i is w hb ht hw ih =>
      rw [List.getLast?_cons_of_ne_nil hw.ne_nil] at hlast
      obtain ⟨hreach, he⟩ := ih hlast
      exact ⟨hreach.head ⟨bs, hb, List.mem_of_getElem? ht⟩, he⟩
  · rintro ⟨hreach, he⟩
    induction hreach using Relation.ReflTransGen.head_induction_on with
    | refl => exact ⟨[], [e], .exit he, rfl⟩
    | @head b t hedge _ ih =>
      obtain ⟨bs, hb, ht⟩ := hedge
      obtain ⟨is, w, hw, hlast⟩ := ih
      obtain ⟨i, hi⟩ := List.getElem?_of_mem ht
      refine ⟨i :: is, b :: w, .step hb hi hw, ?_⟩
      rw [List.getLast?_cons_of_ne_nil hw.ne_nil, hlast]

variable [DecidableEq β]

/-- The vertices of `w` are visited at most `bound` times on it and before it. -/
def Fits (bound : ℕ) (seen w : List β) : Prop := ∀ x ∈ w, (seen ++ w).count x ≤ bound

/-- The walks from a vertex that fit after the vertices seen, with the indices of their
edges. -/
def enumerate (succ : β → Option (List β)) (bound : ℕ) :
    ℕ → List β → β → List (List ℕ × List β)
  | 0, _, _ => []
  | fuel + 1, seen, b =>
    if bound ≤ seen.count b then []
    else
      match succ b with
      | none => [([], [b])]
      | some bs => bs.zipIdx.flatMap fun e =>
        (enumerate succ bound fuel (seen ++ [b]) e.1).map fun r => (e.2 :: r.1, b :: r.2)

/-- The visits to the vertices of `S` that are left. -/
def room (S : Finset β) (bound : ℕ) (seen : List β) : ℕ := ∑ x ∈ S, (bound - seen.count x)

theorem room_nil (S : Finset β) (bound : ℕ) : room S bound [] = S.card * bound := by
  simp [room]

/-- What was visited and what is left. -/
theorem length_add_room {S : Finset β} {bound : ℕ} {seen : List β} (hS : ∀ b ∈ seen, b ∈ S)
    (hbound : ∀ b, seen.count b ≤ bound) : seen.length + room S bound seen = S.card * bound := by
  have hlength : seen.length = ∑ b ∈ S, seen.count b := by
    rw [← List.sum_toFinset_count_eq_length]
    refine Finset.sum_subset (fun b hb => hS b (List.mem_toFinset.mp hb)) fun b _ hb => ?_
    exact List.count_eq_zero_of_not_mem fun hmem => hb (List.mem_toFinset.mpr hmem)
  rw [hlength, room, ← Finset.sum_add_distrib]
  exact Finset.sum_const_nat fun b _ => Nat.add_sub_cancel' (hbound b)

variable {succ : β → Option (List β)} {bound fuel : ℕ} {seen : List β} {b : β}

/-- **A visit takes up room.** -/
theorem room_append_lt {S : Finset β} (hb : b ∈ S) (hlt : seen.count b < bound) :
    room S bound (seen ++ [b]) < room S bound seen := by
  refine Finset.sum_lt_sum (fun x _ => ?_) ⟨b, hb, ?_⟩
  · rw [List.count_append]
    omega
  · rw [List.count_append, List.count_singleton_self]
    omega

/-! ### Fitting -/

theorem Fits.count_lt {w : List β} (h : Fits bound seen w) (hb : b ∈ w) :
    seen.count b < bound := by
  have hle := h b hb
  rw [List.count_append] at hle
  have hpos := List.count_pos_iff.mpr hb
  omega

theorem fits_singleton (hlt : seen.count b < bound) : Fits bound seen [b] := by
  intro x hx
  obtain rfl := List.mem_singleton.mp hx
  rw [List.count_append, List.count_singleton_self]
  omega

theorem fits_cons {w : List β} (hlt : seen.count b < bound) :
    Fits bound seen (b :: w) ↔ Fits bound (seen ++ [b]) w := by
  have heq : seen ++ b :: w = seen ++ [b] ++ w := by simp
  constructor
  · intro h x hx
    exact heq ▸ h x (List.mem_cons_of_mem b hx)
  · intro h x hx
    by_cases hxw : x ∈ w
    · exact heq ▸ h x hxw
    · obtain rfl : x = b := (List.mem_cons.mp hx).resolve_right hxw
      rw [List.count_append, List.count_cons_self, List.count_eq_zero_of_not_mem hxw]
      omega

/-! ### The enumeration -/

theorem zipIdx_pairwise {α : Type} (l : List α) : l.zipIdx.Pairwise fun x y => x.2 < y.2 := by
  rw [List.pairwise_iff_getElem]
  intro i j hi hj hij
  simpa using hij

/-- **The order of the walks**: depth first is lexicographic. -/
theorem enumerate_pairwise :
    (enumerate succ bound fuel seen b).Pairwise fun x y => x.1 < y.1 := by
  induction fuel generalizing seen b with
  | zero => exact .nil
  | succ fuel ih =>
    rw [enumerate]
    split
    · exact .nil
    split
    · exact List.pairwise_singleton _ _
    · rw [List.pairwise_flatMap]
      constructor
      -- two walks below one successor: they differ after the first index
      · intro e _
        refine List.Pairwise.map _ (fun x y hxy => ?_) ih
        exact List.cons_lt_cons_iff.mpr (.inr ⟨rfl, hxy⟩)
      -- two walks below different ones: the first index decides
      · refine (zipIdx_pairwise _).imp ?_
        rintro e e' hlt x hx y hy
        obtain ⟨r, -, rfl⟩ := List.mem_map.mp hx
        obtain ⟨r', -, rfl⟩ := List.mem_map.mp hy
        exact List.cons_lt_cons_iff.mpr (.inl hlt)

/-- **The walks enumerated** are the walks that fit. -/
theorem mem_enumerate {S : Finset β} (hS : ∀ b ∈ S, ∀ bs, succ b = some bs → ∀ t ∈ bs, t ∈ S)
    (hb : b ∈ S) (hfuel : room S bound seen < fuel) {is : List ℕ} {w : List β} :
    (is, w) ∈ enumerate succ bound fuel seen b ↔ Walk succ b is w ∧ Fits bound seen w := by
  induction fuel generalizing seen b is w with
  | zero => exact absurd hfuel (Nat.not_lt_zero _)
  | succ fuel ih =>
    rw [enumerate]
    by_cases hcount : bound ≤ seen.count b
    · rw [if_pos hcount]
      refine iff_of_false List.not_mem_nil fun h => ?_
      exact absurd (h.2.count_lt h.1.head_mem) (not_lt.mpr hcount)
    rw [if_neg hcount]
    have hlt := not_le.mp hcount
    cases hsucc : succ b with
    | none =>
      constructor
      · intro h
        obtain ⟨rfl, rfl⟩ := Prod.mk.inj (List.mem_singleton.mp h)
        exact ⟨.exit hsucc, fits_singleton hlt⟩
      · rintro ⟨hw, -⟩
        cases hw with
        | exit => exact List.mem_singleton.mpr rfl
        | step h => rw [hsucc] at h; cases h
    | some bs =>
      -- one visit more is one unit of fuel less
      have hroom : room S bound (seen ++ [b]) < fuel := by
        have := room_append_lt hb hlt
        omega
      constructor
      · intro h
        obtain ⟨⟨t, i⟩, he, h⟩ := List.mem_flatMap.mp h
        obtain ⟨r, hr, heq⟩ := List.mem_map.mp h
        obtain ⟨rfl, rfl⟩ := Prod.mk.inj heq
        have ht : bs[i]? = some t := List.mem_zipIdx_iff_getElem?.mp he
        obtain ⟨hw, hfits⟩ := (ih (hS b hb bs hsucc t (List.mem_of_getElem? ht)) hroom).mp hr
        exact ⟨.step hsucc ht hw, (fits_cons hlt).mpr hfits⟩
      · rintro ⟨hw, hfits⟩
        cases hw with
        | exit h => rw [hsucc] at h; cases h
        | @step _ t bs' i is w h ht hw =>
          obtain rfl : bs = bs' := Option.some.inj (hsucc.symm.trans h)
          refine List.mem_flatMap.mpr ⟨(t, i), List.mem_zipIdx_iff_getElem?.mpr ht, ?_⟩
          refine List.mem_map.mpr ⟨(is, w), ?_, rfl⟩
          exact (ih (hS b hb bs hsucc t (List.mem_of_getElem? ht)) hroom).mpr
            ⟨hw, (fits_cons hlt).mp hfits⟩

/-- More fuel than there is room for makes no difference. -/
theorem enumerate_fuel {S : Finset β} (hS : ∀ b ∈ S, ∀ bs, succ b = some bs → ∀ t ∈ bs, t ∈ S)
    (hb : b ∈ S) {fuel' : ℕ} (hfuel : room S bound seen < fuel)
    (hfuel' : room S bound seen < fuel') :
    enumerate succ bound fuel seen b = enumerate succ bound fuel' seen b := by
  have : Std.Irrefl fun x y : List ℕ × List β => x.1 < y.1 := ⟨fun x => lt_irrefl x.1⟩
  refine enumerate_pairwise.eq_of_mem_iff enumerate_pairwise fun r => ?_
  exact (mem_enumerate hS hb hfuel).trans (mem_enumerate hS hb hfuel').symm

/-- Where there is a walk to an end, there is one that fits. -/
theorem enumerate_ne_nil_iff {S : Finset β}
    (hS : ∀ b ∈ S, ∀ bs, succ b = some bs → ∀ t ∈ bs, t ∈ S) (hb : b ∈ S)
    (hfuel : room S bound [] < fuel) (hbound : 0 < bound) :
    enumerate succ bound fuel [] b ≠ [] ↔ ∃ is w, Walk succ b is w := by
  constructor
  · intro h
    obtain ⟨⟨is, w⟩, hmem⟩ := List.exists_mem_of_ne_nil _ h
    exact ⟨is, w, ((mem_enumerate hS hb hfuel).mp hmem).1⟩
  · rintro ⟨is, w, hw⟩
    obtain ⟨is', w', hw', hnodup⟩ := hw.exists_nodup
    -- a walk without loops visits every vertex once
    refine List.ne_nil_of_mem ((mem_enumerate hS hb hfuel).mpr ⟨hw', fun x _ => ?_⟩)
    exact (List.nodup_iff_count_le_one.mp hnodup x).trans hbound

/-- **The ends of the walks enumerated** are all that can be reached. -/
theorem exists_enumerate_getLast_iff {S : Finset β}
    (hS : ∀ b ∈ S, ∀ bs, succ b = some bs → ∀ t ∈ bs, t ∈ S) (hb : b ∈ S)
    (hfuel : room S bound [] < fuel) (hbound : 0 < bound) {e : β} :
    (∃ r ∈ enumerate succ bound fuel [] b, r.2.getLast? = some e) ↔
      Relation.ReflTransGen (Edge succ) b e ∧ succ e = none := by
  rw [← exists_walk_getLast_iff]
  constructor
  · rintro ⟨⟨is, w⟩, hmem, hlast⟩
    exact ⟨is, w, ((mem_enumerate hS hb hfuel).mp hmem).1, hlast⟩
  · rintro ⟨is, w, hw, hlast⟩
    obtain ⟨is', w', hw', hnodup, hlast'⟩ := hw.exists_nodup_getLast
    refine ⟨(is', w'), (mem_enumerate hS hb hfuel).mpr ⟨hw', fun x _ => ?_⟩, hlast'.trans hlast⟩
    exact (List.nodup_iff_count_le_one.mp hnodup x).trans hbound

/-- The walks do not depend on the successors elsewhere. -/
theorem enumerate_congr {succ' : β → Option (List β)} {S : Finset β}
    (hS : ∀ b ∈ S, ∀ bs, succ b = some bs → ∀ t ∈ bs, t ∈ S) (hb : b ∈ S)
    (heq : ∀ b ∈ S, succ b = succ' b) :
    enumerate succ bound fuel seen b = enumerate succ' bound fuel seen b := by
  induction fuel generalizing seen b with
  | zero => rfl
  | succ fuel ih =>
    rw [enumerate, enumerate, ← heq b hb]
    split
    · rfl
    cases hsucc : succ b with
    | none => rfl
    | some bs =>
      refine List.flatMap_congr fun e he => ?_
      rw [ih (hS b hb bs hsucc e.1 (List.fst_mem_of_mem_zipIdx he))]

end Walks

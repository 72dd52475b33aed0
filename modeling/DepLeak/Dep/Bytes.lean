import DepLeak.Dep.Hooks
import DepLeak.Dep.Superblock

/-!
# What a store leaves for a load

A temporary with dependencies is stored, and something later looks at the bytes it was
stored to: a load (`DepLeak.LoadKeeps`), or a `write()` (`DepLeak.WriteKeeps`). The
helpers of a store and of a load are told where the access starts and not how wide it
is, so that a store sets one slot of the shadow table and a load looks at one; the hooks
go over every byte of their buffer. What was stored therefore arrives exactly where the
two accesses are at the same slot and nothing has set that slot in between
(`DepLeak.SameCell`, `DepLeak.keeps_iff`): other bytes of the same object are
lost.

In one direction an invariant goes along the run, that the slot of the store still has
the dependencies (`DepLeak.SameCell.arrives`). In the other there is a run for every
pair of addresses and every list of changes in between: a byte is read elsewhere, stored
at the first address, and missed at the second (`DepLeak.notArrives`).
-/

namespace DepLeak

open LinkedHeap Runs

/-! ### Changes of the memory of the program -/

/-- The address is one of `n` bytes from `addr` on. -/
def InRange (addr : UWord) (n : ℕ) (x : UWord) : Prop := ∃ i < n, x = addr + BitVec.ofNat 64 i

/-- A change of the memory of the program. -/
inductive MemWrite
  /-- A store of some bytes. -/
  | store (addr : UWord) (width : ℕ)
  /-- A `read()` into a buffer. -/
  | read (buf count : UWord)

/-- The bytes that are changed. -/
def MemWrite.Covers : MemWrite → UWord → Prop
  | .store addr width, x => InRange addr width x
  | .read buf count, x => InRange buf count.toNat x

/-- The addresses whose slots the tool sets. -/
def MemWrite.Sets : MemWrite → UWord → Prop
  | .store addr _, x => x = addr
  | .read buf count, x => InRange buf count.toNat x

/-- The change is a `read()`. -/
def MemWrite.isRead : MemWrite → Bool
  | .store _ _ => false
  | .read _ _ => true

/-- The tool hears of a change by this event. The helpers of a store are not told its
width. -/
def Event.Makes : Event → MemWrite → Prop
  | .helper (.storeConst addr), w => ∃ width, w = .store addr width
  | .helper (.storeTmp addr _), w => ∃ width, w = .store addr width
  | .preCall syscallno args, w => syscallno = nrRead ∧ w = .read (args 1) (args 2)
  | _, _ => False

/-- The changes of the memory during some events, one for each event that makes one. -/
inductive Changes : List Event → List MemWrite → Prop
  | nil : Changes [] []
  /-- An event that makes a change. -/
  | write {e : Event} {es : List Event} {w : MemWrite} {ws : List MemWrite} :
    e.Makes w → Changes es ws → Changes (e :: es) (w :: ws)
  /-- An event that makes none. -/
  | other {e : Event} {es : List Event} {ws : List MemWrite} :
    (∀ w, ¬e.Makes w) → Changes es ws → Changes (e :: es) ws

/-- **What happens in between**: the changes `ws`, and events that make none and stay
inside the shadow table. -/
structure Between (mid : List Event) (ws : List MemWrite) : Prop where
  changes : Changes mid ws
  inTable : ∀ e ∈ mid, (∀ w, ¬e.Makes w) → ∀ y, e.Accesses y → InTable y

/-! ### The property -/

/-- The numbers of the last entry of `write_deps`. -/
def lastWrite (s : State) : Set ℤ :=
  {v | ∃ ds d vs, s.nodes.toList s.writeDeps = .ok ds ∧ ds.getLast? = some d ∧
    s.ints.toList d.readDeps = .ok vs ∧ v ∈ vs}

/-- A run ends in a state that has the numbers `x` where they should be. It does not stop
outside the shadow table; a run that stops at a freed node or at a counter is cut
there. -/
def Arrives (x : Set ℤ) (seen : State → Set ℤ) : Exec State → Prop
  | .ok s => x ⊆ seen s
  | .error f => f ≠ .bounds

/-- **A load at `b` gets what a store at `a` has left**, whatever was stored and in
whatever state, with the changes `ws` in between. -/
def LoadKeeps (a b : UWord) (ws : List MemWrite) : Prop :=
  ∀ s mid t t', Reachable s → Between mid ws →
    Arrives (tracked s (.tmp t)) (fun s' => tracked s' (.tmp t'))
      (run stepTool s (.helper (.storeTmp a t) :: (mid ++ [.helper (.assgnTmpLoad t' b)])))

/-- **A `write()` of the byte at `x` gets what a store at `a` has left**, in the same
way. -/
def WriteKeeps (a x : UWord) (ws : List MemWrite) : Prop :=
  ∀ s mid t args, Reachable s → Between mid ws → InRange (args 1) (args 2).toNat x →
    (∀ y, InRange (args 1) (args 2).toNat y → y ≠ x → InTable y) →
    Arrives (tracked s (.tmp t)) lastWrite
      (run stepTool s (.helper (.storeTmp a t) :: (mid ++ [.preCall nrWrite args])))

/-- **Byte-exact flow**: what is stored to the `n` bytes at `a` gets to a load of the `m`
bytes at `b` if they have a byte in common and nothing changes those they have in common,
and to a `write()` of any of the `n` bytes that nothing changes. -/
def ByteExact : Prop :=
  ∀ (a : UWord) (n : ℕ) (ws : List MemWrite),
    (∀ (b : UWord) (m : ℕ), (∃ x, InRange a n x ∧ InRange b m x) →
      (∀ w ∈ ws, ∀ x, w.Covers x → ¬(InRange a n x ∧ InRange b m x)) → LoadKeeps a b ws) ∧
    ∀ x, InRange a n x → (∀ w ∈ ws, ¬w.Covers x) → WriteKeeps a x ws

/-- **The two accesses are at one slot**, which nothing sets in between, and everything is
inside the shadow table. -/
structure SameCell (a b : UWord) (ws : List MemWrite) : Prop where
  inTable : InTable a
  eq : memCell b = memCell a
  sets : ∀ w ∈ ws, ∀ y, w.Sets y → InTable y ∧ memCell y ≠ memCell a

/-! ### Events and changes -/

/-- The addresses whose slots an event sets. -/
def Event.Sets : Event → UWord → Prop
  | .helper (.storeConst addr), x => x = addr
  | .helper (.storeTmp addr _), x => x = addr
  | .preCall syscallno args, x => syscallno = nrRead ∧ InRange (args 1) (args 2).toNat x
  | _, _ => False

theorem Event.Makes.sets {e : Event} {w : MemWrite} (h : e.Makes w) {x : UWord} :
    e.Sets x ↔ w.Sets x := by
  cases e with
  | helper c =>
    cases c with
    | storeConst | storeTmp =>
      obtain ⟨width, rfl⟩ := h
      exact Iff.rfl
    | _ => exact absurd h id
  | preCall n args =>
    obtain ⟨hn, rfl⟩ := h
    exact and_iff_right hn

/-- An event that makes a change looks only at what it sets. -/
theorem Event.Makes.sets_of_accesses {e : Event} {w : MemWrite} (h : e.Makes w) {x : UWord}
    (hx : e.Accesses x) : w.Sets x := by
  rw [← h.sets]
  cases e with
  | helper c =>
    cases c with
    | storeConst | storeTmp => exact (Option.some.inj hx).symm
    | _ => exact absurd h id
  | preCall n args => exact ⟨h.1, hx.2⟩

/-- An event that sets a slot makes a change. -/
theorem Event.Sets.exists_makes {e : Event} {x : UWord} (h : e.Sets x) : ∃ w, e.Makes w := by
  cases e with
  | helper c =>
    cases c with
    | storeConst addr | storeTmp addr _ => exact ⟨.store addr 0, 0, rfl⟩
    | _ => exact absurd h id
  | preCall n args => exact ⟨_, h.1, rfl⟩

theorem Changes.exists_mem {es : List Event} {ws : List MemWrite} (h : Changes es ws) {e : Event}
    (he : e ∈ es) (hmakes : ∃ w, e.Makes w) : ∃ w ∈ ws, e.Makes w := by
  induction h with
  | nil => exact absurd he List.not_mem_nil
  | write hw _ ih =>
    rcases List.mem_cons.mp he with rfl | he
    · exact ⟨_, List.mem_cons_self, hw⟩
    · obtain ⟨w, hmem, hw⟩ := ih he
      exact ⟨w, List.mem_cons_of_mem _ hmem, hw⟩
  | other hno _ ih =>
    rcases List.mem_cons.mp he with rfl | he
    · obtain ⟨w, hw⟩ := hmakes
      exact absurd hw (hno w)
    · exact ih he

/-! ### Cells of addresses -/

theorem memCell_eq_iff {x y : UWord} :
    memCell x = memCell y ↔ upIndex x = upIndex y ∧ lowIndex x = lowIndex y := by
  rw [memCell, memCell, Cell.mem.injEq, eq_low_iff, upIndex_low, lowIndex_low]

theorem inTable_of_memCell_eq {x y : UWord} (h : memCell x = memCell y) (hy : InTable y) :
    InTable x := by
  obtain ⟨hu, hl⟩ := memCell_eq_iff.mp h
  rwa [InTable, hu, hl]

theorem slotOf?_eq_some_iff {x y : UWord} (hy : InTable y) :
    slotOf? x = some (slotOf y hy) ↔ memCell x = memCell y := by
  constructor
  · intro h
    by_cases hx : InTable x
    · rw [slotOf?_of_inTable hx, Option.some.injEq] at h
      exact memCell_eq_iff.mpr
        ⟨congrArg (fun k => k.1.val) h, congrArg (fun k => k.2.val) h⟩
    · rw [slotOf?, dif_neg hx] at h
      cases h
  · intro h
    obtain ⟨hu, hl⟩ := memCell_eq_iff.mp h
    rw [slotOf?_of_inTable (inTable_of_memCell_eq h hy)]
    simp [slotOf, hu, hl]

/-! ### The shadow table along a step -/

namespace DepState

variable {a a' : DepState} {addr : UWord}

theorem view_memCell (ha : InTable addr) :
    a.view (memCell addr) = {v | v ∈ a.shadow.slot [] (slotOf addr ha)} :=
  view_of_ok ((lookup_memCell addr).trans (getShadow_of_inTable ha))

theorem view_memCell_of_not (ha : ¬InTable addr) : a.view (memCell addr) = ∅ :=
  view_of_notInTable (by rwa [InTable, upIndex_low, lowIndex_low])

theorem view_memCell_init (addr : UWord) : (init true).view (memCell addr) = ∅ := by
  by_cases ha : InTable addr
  · rw [view_memCell ha]
    simp [init]
  · exact view_memCell_of_not ha

/-- The read hook gives the bytes of its buffer the new number. -/
theorem view_preRead_of_mem (addr : UWord) {args : ℕ → UWord} (h : a.preRead args = .ok a')
    (haddr : InTable addr) (hmem : InRange (args 1) (args 2).toNat addr) :
    a'.view (memCell addr) = {a.readN + 1} := by
  obtain ⟨-, tb, rfl, htb⟩ := preRead_eq_ok h
  obtain ⟨i, hi, rfl⟩ := hmem
  have hslot : tb.slot [] (slotOf _ haddr) = [a.readN + 1] := by
    rw [htb, if_pos ⟨i, hi, slotOf?_of_inTable haddr⟩]
  rw [view_memCell haddr, hslot]
  ext v
  exact List.mem_singleton

/-- The read hook leaves all other bytes alone. -/
theorem view_preRead_of_not (addr : UWord) {args : ℕ → UWord} (h : a.preRead args = .ok a')
    (hnot : ∀ y, InRange (args 1) (args 2).toNat y → memCell y ≠ memCell addr) :
    a'.view (memCell addr) = a.view (memCell addr) := by
  obtain ⟨-, tb, rfl, htb⟩ := preRead_eq_ok h
  by_cases haddr : InTable addr
  · rw [view_memCell haddr, view_memCell haddr]
    simp only [htb]
    rw [if_neg]
    rintro ⟨i, hi, hs⟩
    exact hnot _ ⟨i, hi, rfl⟩ ((slotOf?_eq_some_iff haddr).mp hs)
  · rw [view_memCell_of_not haddr, view_memCell_of_not haddr]

/-- A helper leaves the shadow of all bytes alone that it does not set. -/
theorem view_call_of_not {c : HelperCall} (h : a.call c = .ok a')
    (hnot : ∀ y, (Event.helper c).Sets y → memCell y ≠ memCell addr) :
    a'.view (memCell addr) = a.view (memCell addr) := by
  obtain ⟨deps, -, h⟩ := bind_eq_ok.mp h
  have hshadow : a'.shadow = a.shadow → a'.view (memCell addr) = a.view (memCell addr) :=
    fun hs => view_congr (by rw [lookup_memCell, lookup_memCell, getShadow, getShadow, hs])
  have hset : ∀ {y deps}, memCell y ≠ memCell addr → a.setShadow y deps = .ok a' →
      a'.view (memCell addr) = a.view (memCell addr) := fun hne hs => by
    rw [view_setShadow hs, Function.update_of_ne hne.symm]
  cases assign_outcome h with
  | exit | skip => rfl
  | get | put | drop => exact hshadow rfl
  | erase he => exact hshadow (eraseTmp_shadow he)
  | front _ _ _ he =>
    have hs := eraseTmp_shadow he
    exact hshadow hs
  | back _ _ _ he =>
    have hs := eraseTmp_shadow he
    exact hshadow hs
  | clear hs | store _ hs => exact hset (hnot _ rfl) hs

/-- **An event leaves the shadow of all bytes alone that it does not set.** -/
theorem view_step_of_not {e : Event} (h : a.step e = .ok a')
    (hnot : ∀ y, e.Sets y → memCell y ≠ memCell addr) :
    a'.view (memCell addr) = a.view (memCell addr) := by
  cases e with
  | helper c => exact view_call_of_not h hnot
  | preCall n args =>
    obtain rfl | ⟨rfl, -, h⟩ | ⟨rfl, -, h⟩ := preCall_cases (show a.preCall n args = .ok a' from h)
    · rfl
    · exact view_preRead_of_not _ h fun y hy => hnot y ⟨rfl, hy⟩
    · obtain ⟨-, deps, -, rfl⟩ := preWrite_eq_ok h
      -- the entry of a write is in no cell
      exact view_congr rfl

/-- An event that stops outside the shadow table accesses an address outside it. -/
theorem step_error_bounds {e : Event} (h : a.step e = .error .bounds) :
    ∃ y, e.Accesses y ∧ ¬InTable y := by
  cases e with
  | helper c =>
    rcases call_error h with hf | ⟨-, y, hy, hout⟩
    · cases hf
    · exact ⟨y, hy, hout⟩
  | preCall n args =>
    rcases preCall_error h with ⟨hf, -⟩ | ⟨-, y, hy, hout⟩
    · cases hf
    · exact ⟨y, hy, hout⟩

end DepState

/-! ### What is left there arrives -/

section Arrive

variable {a b : UWord} {ws : List MemWrite} {s : State} {A : DepState}

open DepState

/-- In a reachable state the recording is on. -/
theorem Reachable.exists_rep (h : Reachable s) : ∃ A, Rep s A ∧ A.trace = true :=
  h.invariant rfl fun _ _ _ ht hA => (step_trace hA).trans ht

/-- A store of a temporary leaves its numbers at the address. -/
theorem view_storeTmp {A' : DepState} {t : IRTemp} (h : A.call (.storeTmp a t) = .ok A') :
    A.view (.tmp t) = ∅ ∨ A'.view = Function.update A.view (memCell a) (A.view (.tmp t)) := by
  obtain ⟨deps, hs, h⟩ := bind_eq_ok.mp h
  have hdeps : {v | v ∈ deps} = A.view (.tmp t) := by
    have hs : A.depsOf [t] = .ok deps := hs
    simpa [Flow.union] using depsOf_union hs
  simp only [assign] at h
  split at h
  · next hnil => exact Or.inl (by rw [← hdeps, hnil]; simp)
  · exact Or.inr (by rw [view_setShadow h, hdeps])

/-- A load looks up the numbers at the address. -/
theorem view_assgnTmpLoad {A' : DepState} {t : IRTemp} (h : A.call (.assgnTmpLoad t b) = .ok A') :
    A.view (memCell b) ⊆ A'.view (.tmp t) := by
  obtain ⟨deps, hs, h⟩ := bind_eq_ok.mp h
  have hdeps : A.view (memCell b) = {v | v ∈ deps} := view_of_ok ((lookup_memCell b).trans hs)
  rw [hdeps]
  simp only [assign, recordBack] at h
  split at h
  · next hnil => simp [hnil]
  · obtain ⟨A₁, h₁, h⟩ := bind_eq_ok.mp h
    rw [view_appendVar (fresh_of_eraseTmp h₁) h, Function.update_self]

/-- The hook of a `write()` looks up the numbers of every byte. -/
theorem mem_memDeps {p size : UWord} {deps : List ℤ} {v : ℤ} (h : A.memDeps p size = .ok deps) :
    v ∈ deps ↔ ∃ x, InRange p size.toNat x ∧ v ∈ A.view (memCell x) := by
  rw [memDeps_eq] at h
  cases hm : (List.range size.toNat).mapM fun i => A.getShadow (p + BitVec.ofNat 64 i) with
  | error f =>
    rw [hm] at h
    cases h
  | ok ls =>
    rw [hm] at h
    obtain rfl : ls.flatten.eraseDups = deps := Except.ok.inj h
    rw [List.mem_eraseDups, List.mem_flatten]
    constructor
    · rintro ⟨vs, hmem, hv⟩
      obtain ⟨i, hi, hvs⟩ := exists_of_mem_mapM hm hmem
      exact ⟨_, ⟨i, List.mem_range.mp hi, rfl⟩, vs, (lookup_memCell _).trans hvs, hv⟩
    · rintro ⟨x, ⟨i, hi, rfl⟩, hv⟩
      obtain ⟨vs, hvs, hmem⟩ := mem_of_mapM hm (List.mem_range.mpr hi)
      rw [view_of_ok ((lookup_memCell _).trans hvs)] at hv
      exact ⟨vs, hmem, hv⟩

/-- The last entry of `write_deps`, on lists. -/
theorem lastWrite_eq (hr : Rep s A) :
    lastWrite s = {v | ∃ e, A.writes.getLast? = some e ∧ v ∈ e.deps} := by
  obtain ⟨P, hlist, hat⟩ := hr.writes
  ext v
  constructor
  · rintro ⟨ds, d, vs, hds, hd, hvs, hv⟩
    obtain rfl := Except.ok.inj (hlist.symm.trans hds)
    rw [List.getLast?_map, Option.map_eq_some_iff] at hd
    obtain ⟨e, he, rfl⟩ := hd
    rw [(hat e (List.mem_of_getLast? he)).toList] at hvs
    exact ⟨e, he, by rwa [Except.ok.inj hvs]⟩
  · rintro ⟨e, he, hv⟩
    exact ⟨_, ⟨e.val, P e.id⟩, _, hlist, by simp [List.getLast?_map, he],
      (hat e (List.mem_of_getLast? he)).toList, hv⟩

/-- **What is stored arrives**, if the last event stays inside the shadow table and looks up
the slot of the store. -/
theorem SameCell.arrives (h : SameCell a b ws) {mid : List Event} (hmid : Between mid ws)
    (hs : Reachable s) {t : IRTemp} {last : Event} {seen : State → Set ℤ}
    (hlast : ∀ y, last.Accesses y → InTable y)
    (hseen : ∀ s₁ A₁ s₂ A₂, Rep s₁ A₁ → A₁.trace = true → A₁.step last = .ok A₂ → Rep s₂ A₂ →
      A₁.view (memCell b) ⊆ seen s₂) :
    Arrives (tracked s (.tmp t)) seen
      (run stepTool s (.helper (.storeTmp a t) :: (mid ++ [last]))) := by
  obtain ⟨A, hr, htrace⟩ := hs.exists_rep
  have hsets : ∀ e ∈ mid, ∀ y, e.Sets y → InTable y ∧ memCell y ≠ memCell a := by
    intro e he y hy
    obtain ⟨w, hw, hmakes⟩ := hmid.changes.exists_mem he hy.exists_makes
    exact h.sets w hw y (hmakes.sets.mp hy)
  cases hrun : run stepTool s (.helper (.storeTmp a t) :: (mid ++ [last])) with
  | error f =>
    rintro rfl
    have hl := runTool_lockstep hr (.helper (.storeTmp a t) :: (mid ++ [last]))
    rw [hrun] at hl
    -- the event at which the run stops accesses an address outside the table, but none of them
    -- does
    obtain ⟨e, he, A', hstep⟩ := run_eq_error hl.eq_error
    obtain ⟨y, hy, hout⟩ := step_error_bounds hstep
    refine hout ?_
    rcases List.mem_cons.mp he with rfl | he
    · rw [← Option.some.inj hy]
      exact h.inTable
    · rcases List.mem_append.mp he with he | he
      · by_cases hmakes : ∃ w, e.Makes w
        · obtain ⟨w, hw, hmakes⟩ := hmid.changes.exists_mem he hmakes
          exact (h.sets w hw y (hmakes.sets_of_accesses hy)).1
        · exact hmid.inTable e he (not_exists.mp hmakes) y hy
      · rw [List.mem_singleton.mp he] at hy
        exact hlast y hy
  | ok s' =>
    obtain ⟨s₁, h₁, hrun⟩ := run_cons_eq_ok.mp hrun
    obtain ⟨s₂, h₂, hrun⟩ := run_append_eq_ok.mp hrun
    obtain ⟨s₃, h₃, hrun⟩ := run_cons_eq_ok.mp hrun
    obtain rfl := Except.ok.inj hrun
    obtain ⟨A₁, hA₁, hr₁⟩ := (callHelper_lockstep hr (.storeTmp a t)).ok_right h₁
    rw [tracked_eq_view hr]
    -- a temporary without numbers is not stored, and none have to arrive
    rcases view_storeTmp hA₁ with hnil | hview
    · intro v hv
      rw [hnil] at hv
      exact absurd hv id
    -- in between, the slot of the store keeps the numbers
    have hkept : ∃ A₂, Rep s₂ A₂ ∧ A₂.trace = true ∧ A.view (.tmp t) ⊆ A₂.view (memCell a) := by
      refine run_preserves (I := fun s => ∃ A', Rep s A' ∧ A'.trace = true ∧
        A.view (.tmp t) ⊆ A'.view (memCell a)) ?_
        ⟨A₁, hr₁, (call_sameHooks hA₁).trace.trans htrace, by rw [hview, Function.update_self]⟩ h₂
      rintro e he s s' ⟨A', hr', ht', hsub⟩ hstep
      obtain ⟨A'', hA'', hr''⟩ := (stepTool_lockstep hr' e).ok_right hstep
      refine ⟨A'', hr'', (step_trace hA'').trans ht', ?_⟩
      rwa [view_step_of_not hA'' fun y hy => (hsets e he y hy).2]
    obtain ⟨A₂, hr₂, ht₂, hsub⟩ := hkept
    obtain ⟨A₃, hA₃, hr₃⟩ := (stepTool_lockstep hr₂ last).ok_right h₃
    rw [← h.eq] at hsub
    exact hsub.trans (hseen s₂ A₂ s₃ A₃ hr₂ ht₂ hA₃ hr₃)

theorem SameCell.loadKeeps (h : SameCell a b ws) : LoadKeeps a b ws := by
  intro s mid t t' hs hmid
  refine h.arrives hmid hs (fun y hy => ?_) fun s₁ A₁ s₂ A₂ _ _ hA₂ hr₂ => ?_
  · rw [← Option.some.inj hy]
    exact inTable_of_memCell_eq h.eq h.inTable
  · rw [tracked_eq_view hr₂]
    exact view_assgnTmpLoad hA₂

theorem SameCell.writeKeeps (h : SameCell a b ws) : WriteKeeps a b ws := by
  intro s mid t args hs hmid hmem hin
  refine h.arrives hmid hs (fun y hy => ?_) fun s₁ A₁ s₂ A₂ _ ht hA₂ hr₂ => ?_
  · by_cases hyb : y = b
    · rw [hyb]
      exact inTable_of_memCell_eq h.eq h.inTable
    · exact hin y hy.2 hyb
  · change A₁.preCall nrWrite args = .ok A₂ at hA₂
    rw [preCall_write ht] at hA₂
    obtain ⟨-, deps, hdeps, rfl⟩ := preWrite_eq_ok hA₂
    rw [lastWrite_eq hr₂]
    exact fun v hv => ⟨_, List.getLast?_concat, (mem_memDeps hdeps).mpr ⟨b, hmem, hv⟩⟩

end Arrive

/-! ### Where it does not arrive -/

section Miss

open DepState

/-- An event by which a change is made: a store is one of a constant. -/
def MemWrite.event : MemWrite → Event
  | .store addr _ => .helper (.storeConst addr)
  | .read buf count => .preCall nrRead (sysArgs 0 buf count)

theorem MemWrite.makes_event (w : MemWrite) : w.event.Makes w := by
  cases w with
  | store addr width => exact ⟨width, rfl⟩
  | read buf count => exact ⟨rfl, rfl⟩

theorem between_events (ws : List MemWrite) : Between (ws.map MemWrite.event) ws where
  changes := by
    induction ws with
    | nil => exact .nil
    | cons w ws ih => exact .write w.makes_event ih
  inTable e he hno := by
    obtain ⟨w, -, rfl⟩ := List.mem_map.mp he
    exact absurd w.makes_event (hno w)

/-- A state with `k` reads to come: nothing can go wrong but an access outside the
table. -/
structure Calm (k : ℕ) (A : DepState) : Prop where
  trace : A.trace = true
  dangling : A.dangling = false
  fresh : A.Fresh 1
  readN : 1 ≤ A.readN
  room : A.readN + k < 2 ^ 31
  writeN : A.writeN = 0

/-- A run stops outside the shadow table, or ends without the first read at a cell. -/
def Misses (k : ℕ) (c : Cell) : Exec DepState → Prop
  | .ok A => Calm k A ∧ (1 : ℤ) ∉ A.view c
  | .error f => f = .bounds

variable {a b : UWord} {ws : List MemWrite} {A A' : DepState} {k : ℕ}

/-- How many reads a change counts for. -/
def MemWrite.reads (w : MemWrite) : ℕ := if w.isRead then 1 else 0

/-- A change that does not stop outside the table brings the first read nowhere, and takes
it away where it sets a slot. -/
theorem Calm.step {w : MemWrite} (h : Calm (k + w.reads) A) :
    A.step w.event = .error .bounds ∨ ∃ A', A.step w.event = .ok A' ∧ Calm k A' ∧
      (∀ y, w.Sets y → InTable y ∧ (1 : ℤ) ∉ A'.view (memCell y)) ∧
      ∀ y, (1 : ℤ) ∉ A.view (memCell y) → (1 : ℤ) ∉ A'.view (memCell y) := by
  have hroom := h.room
  have hpos := h.readN
  cases w with
  | store addr width =>
    by_cases haddr : InTable addr
    · obtain ⟨tb, hset, -⟩ := A.setShadow_of_inTable haddr []
      have hview := view_setShadow hset
      refine Or.inr ⟨_, hset, ⟨h.trace, h.dangling, h.fresh, hpos, hroom, h.writeN⟩, ?_, ?_⟩
      · rintro y rfl
        exact ⟨haddr, by rw [hview, Function.update_self]; simp⟩
      · intro y hy
        rw [hview, Function.update_apply]
        split
        · simp
        · exact hy
    · exact Or.inl (setShadow_of_notInTable haddr [])
  | read buf count =>
    have hreads : (MemWrite.read buf count).reads = 1 := rfl
    cases hstep : A.step (.preCall nrRead (sysArgs 0 buf count)) with
    | error f =>
      rcases preCall_error hstep with ⟨-, ⟨-, hn⟩ | ⟨hn, -⟩⟩ | ⟨rfl, -⟩
      · omega
      · cases hn
      · exact Or.inl hstep
    | ok A' =>
      have hread : A.preRead (sysArgs 0 buf count) = .ok A' := by
        rw [← preCall_read h.trace]
        exact hstep
      have hin : ∀ y, InRange buf count.toNat y → InTable y := by
        rintro y ⟨i, hi, rfl⟩
        exact preRead_inTable hread hi
      have hmem := fun y => view_preRead_of_mem y hread
      have hnot := fun y => view_preRead_of_not y hread
      obtain ⟨-, tb, rfl, -⟩ := preRead_eq_ok hread
      -- a later read has another number
      have hne : (1 : ℤ) ∉ ({A.readN + 1} : Set ℤ) := fun h1 => by
        have := Set.mem_singleton_iff.mp h1
        omega
      refine Or.inr ⟨_, hstep, ⟨h.trace, h.dangling, h.fresh, ?_, ?_, h.writeN⟩, ?_, ?_⟩
      · exact Int.le_add_one hpos
      · dsimp only
        omega
      · rintro y hy
        have hy' := hin y hy
        exact ⟨hy', by rwa [hmem y hy' hy]⟩
      · intro y hy
        by_cases hcell : ∃ z, InRange buf count.toNat z ∧ memCell z = memCell y
        · obtain ⟨z, hz, hzy⟩ := hcell
          rwa [← hzy, hmem z (hin z hz) hz]
        · rw [hnot y fun z hz hzy => hcell ⟨z, hz, hzy⟩]
          exact hy

/-- How many reads some changes count for. -/
def readsOf (ws : List MemWrite) : ℕ := (ws.map MemWrite.reads).sum

/-- The first read stays away from where it is not. -/
theorem misses_run (h : Calm (readsOf ws) A) (hb : (1 : ℤ) ∉ A.view (memCell b)) :
    Misses 0 (memCell b) (run DepState.step A (ws.map MemWrite.event)) := by
  induction ws generalizing A with
  | nil => exact ⟨h, hb⟩
  | cons w ws ih =>
    rw [List.map_cons, run_cons]
    rw [readsOf, List.map_cons, List.sum_cons, Nat.add_comm] at h
    obtain herr | ⟨A', hstep, hcalm, -, hkeep⟩ := h.step
    · rw [herr]
      rfl
    · rw [hstep]
      exact ih hcalm (hkeep b hb)

/-- The first read is gone from a slot that has been set. -/
theorem misses_run_of_sets (h : Calm (readsOf ws) A) {w : MemWrite} (hw : w ∈ ws) {y : UWord}
    (hy : w.Sets y) (hyb : InTable y → memCell y = memCell b) :
    Misses 0 (memCell b) (run DepState.step A (ws.map MemWrite.event)) := by
  induction ws generalizing A with
  | nil => exact absurd hw List.not_mem_nil
  | cons w' ws ih =>
    rw [List.map_cons, run_cons]
    rw [readsOf, List.map_cons, List.sum_cons, Nat.add_comm] at h
    obtain herr | ⟨A', hstep, hcalm, hset, -⟩ := h.step
    · rw [herr]
      rfl
    · rw [hstep]
      rcases List.mem_cons.mp hw with rfl | hw
      · obtain ⟨hin, hnot⟩ := hset y hy
        rw [hyb hin] at hnot
        exact misses_run hcalm hnot
      · exact ih hcalm hw

/-- A byte away from `b` was read, and is in the temporary `0` and in no other. -/
structure OneRead (b : UWord) (A : DepState) : Prop where
  readN : A.readN = 1
  writeN : A.writeN = 0
  trace : A.trace = true
  dangling : A.dangling = false
  vars : ∀ e ∈ A.vars, e.val = .temp 0
  regs : ∀ r, A.view (.reg r) = ∅
  tmp : (1 : ℤ) ∈ A.view (.tmp 0)
  away : (1 : ℤ) ∉ A.view (memCell b)

theorem OneRead.fresh (h : OneRead b A) : A.Fresh 1 := fun e he => by
  simp [Entry.isTemp, h.vars e he]

/-- **The first byte is read**, and there is nothing else that is tracked. -/
theorem exists_preRead {x : UWord} (hx : InTable x) :
    ∃ A, DepState.step (.init true) (.preCall nrRead (sysArgs 0 x 1)) = .ok A ∧ A.vars = [] ∧
      A.dangling = false ∧ A.readN = 1 ∧ A.writeN = 0 ∧ (∀ r, A.view (.reg r) = ∅) ∧
      A.view (memCell x) = {1} ∧ ∀ y, memCell y ≠ memCell x → A.view (memCell y) = ∅ := by
  obtain ⟨A, hA⟩ :
      ∃ A, DepState.step (.init true) (.preCall nrRead (sysArgs 0 x 1)) = .ok A := by
    cases hstep : DepState.step (.init true) (.preCall nrRead (sysArgs 0 x 1)) with
    | ok A => exact ⟨A, rfl⟩
    | error f =>
      rcases preCall_error hstep with ⟨-, ⟨-, hn⟩ | ⟨hn, -⟩⟩ | ⟨-, y, ⟨-, i, hi, rfl⟩, hout⟩
      · exact absurd hn (by decide)
      · cases hn
      · obtain rfl : i = 0 := Nat.lt_one_iff.mp hi
        exact absurd (by simpa [sysArgs] using hx) hout
  have hread : DepState.preRead (.init true) (sysArgs 0 x 1) = .ok A := by
    rw [← preCall_read rfl]
    exact hA
  have hview : A.view (memCell x) = {1} :=
    view_preRead_of_mem _ hread hx ⟨0, Nat.zero_lt_one, by simp [sysArgs]⟩
  have hother : ∀ y, memCell y ≠ memCell x → A.view (memCell y) = ∅ := by
    intro b hb
    rw [← view_memCell_init b]
    refine view_preRead_of_not _ hread ?_
    rintro y ⟨i, hi, rfl⟩
    obtain rfl : i = 0 := Nat.lt_one_iff.mp hi
    simpa [sysArgs] using hb.symm
  obtain ⟨-, tb, rfl, -⟩ := preRead_eq_ok hread
  refine ⟨_, hA, rfl, rfl, rfl, rfl, fun r => ?_, hview, hother⟩
  rw [view_reg]
  simp [findReg, init]

/-- **A byte away from `b` is read**, and loaded into the temporary `0`. -/
theorem exists_read (b : UWord) : ∃ s A, Reachable s ∧ Rep s A ∧ OneRead b A := by
  -- one of the first two bytes is in another cell than `b`
  obtain ⟨x, hx, hxb⟩ : ∃ x : UWord, InTable x ∧ memCell b ≠ memCell x := by
    by_cases hb : memCell b = memCell 0
    · exact ⟨1, by decide, by rw [hb]; decide⟩
    · exact ⟨0, by decide, hb⟩
  obtain ⟨A₁, hA₁, hvars, hd, hreadN, hwriteN, hregs, hview, hother⟩ := exists_preRead hx
  have hnone : ∀ e, e ∉ A₁.vars := by simp [hvars]
  have hfresh : ∀ t, Cell.tmp 0 = .tmp t → A₁.Fresh t := fun t _ e he => absurd he (hnone e)
  obtain ⟨A₂, hA₂⟩ := call_ok (c := .assgnTmpLoad 0 x) rfl hd hfresh fun y hy => by
    rwa [← Option.some.inj hy]
  have hf := (call_follows rfl hd hfresh hA₂).resolve_right fun h => h.1
  have hsame := call_sameHooks hA₂
  have hstep : A₁.step (.helper (.assgnTmpLoad 0 x)) = .ok A₂ := hA₂
  have htrace := (step_trace hstep).trans (step_trace hA₁)
  have hl := runTool_lockstep (rep_init true)
    [.preCall nrRead (sysArgs 0 x 1), .helper (.assgnTmpLoad 0 x)]
  rw [run_cons_eq_ok.mpr ⟨_, hA₁, run_cons_eq_ok.mpr ⟨A₂, hstep, rfl⟩⟩] at hl
  obtain ⟨s, hs, hr⟩ := hl.exists_left
  refine ⟨s, A₂, ⟨_, hs⟩, hr, hsame.readN.trans hreadN, hsame.writeN.trans hwriteN, htrace,
    hf.dangling, fun e he => ?_, fun r => ?_, ?_, ?_⟩
  · rcases hf.vars e he with he | ⟨t, ht, hval⟩
    · exact absurd he (hnone e)
    · obtain rfl : 0 = t := Cell.tmp.inj ht
      exact hval
  · rw [hf.view, Flow.Assignment.apply, Function.update_of_ne Cell.noConfusion, hregs]
  · rw [hf.view, Flow.Assignment.apply, Function.update_self]
    simp [Flow.union, hview]
  · rw [hf.view, Flow.Assignment.apply, Function.update_of_ne (by simp [memCell]), hother b hxb]
    exact id

/-- Where the slot is another one or has been set, the read is missed. -/
theorem exists_misses (hws : readsOf ws + 1 < 2 ^ 31) (h : ¬SameCell a b ws) :
    ∃ s A, Reachable s ∧ Rep s A ∧ (1 : ℤ) ∈ A.view (.tmp 0) ∧
      Misses 0 (memCell b)
        (run DepState.step A (.helper (.storeTmp a 0) :: ws.map MemWrite.event)) := by
  obtain ⟨s, A, hs, hr, hA⟩ := exists_read b
  have htmp := hA.tmp
  have hreadN := hA.readN
  refine ⟨s, A, hs, hr, htmp, ?_⟩
  rw [run_cons]
  obtain ⟨deps, hdeps⟩ := depsOf_ok hA.dangling [0]
  have hne : deps ≠ [] := by
    rintro rfl
    have hview := depsOf_union hdeps
    simp only [List.map_cons, List.map_nil, Flow.union, List.mem_singleton,
      Set.iUnion_iUnion_eq_left] at hview
    rw [← hview] at htmp
    exact absurd htmp List.not_mem_nil
  have hstore : A.step (.helper (.storeTmp a 0)) = A.setShadow a deps := by
    rw [DepState.step, call, source, hdeps, ok_bind, assign, if_neg hne]
  rw [hstore]
  by_cases ha : InTable a
  · obtain ⟨tb, hset, -⟩ := A.setShadow_of_inTable ha deps
    have hview := view_setShadow hset
    rw [hset, ok_bind]
    have hcalm : Calm (readsOf ws) { A with shadow := tb } :=
      ⟨hA.trace, hA.dangling, hA.fresh, by simp [hreadN], by simp only [hreadN]; omega, hA.writeN⟩
    -- the slot is the same one: then it has been set, or a change goes outside the table
    by_cases hba : memCell b = memCell a
    · obtain ⟨w, hw, y, hy, hbad⟩ :
          ∃ w ∈ ws, ∃ y, w.Sets y ∧ (InTable y → memCell y = memCell a) := by
        by_contra hcon
        refine h ⟨ha, hba, fun w hw y hy => ?_⟩
        by_contra hbad
        refine hcon ⟨w, hw, y, hy, fun hin => ?_⟩
        by_contra hne
        exact hbad ⟨hin, hne⟩
      exact misses_run_of_sets hcalm hw hy fun hin => (hbad hin).trans hba.symm
    · exact misses_run hcalm (by rw [hview, Function.update_of_ne hba]; exact hA.away)
  · rw [setShadow_of_notInTable ha]
    rfl

/-- **What is stored does not arrive**, for some state and some run, if the last event sees at
`b` no more than the tool has there. -/
theorem notArrives (hws : readsOf ws + 1 < 2 ^ 31) (h : ¬SameCell a b ws) {last : Event}
    {seen : State → Set ℤ}
    (hlast : ∀ A : DepState, Calm 0 A → (1 : ℤ) ∉ A.view (memCell b) →
      A.step last = .error .bounds ∨
        ∃ A', A.step last = .ok A' ∧ ∀ s', Rep s' A' → (1 : ℤ) ∉ seen s') :
    ∃ s, Reachable s ∧ ¬Arrives (tracked s (.tmp 0)) seen
      (run stepTool s (.helper (.storeTmp a 0) :: (ws.map MemWrite.event ++ [last]))) := by
  obtain ⟨s, A, hs, hr, htmp, hmiss⟩ := exists_misses hws h
  refine ⟨s, hs, fun harr => ?_⟩
  have hl := runTool_lockstep hr (.helper (.storeTmp a 0) :: (ws.map MemWrite.event ++ [last]))
  have hrun : run DepState.step A (.helper (.storeTmp a 0) :: (ws.map MemWrite.event ++ [last])) =
      run DepState.step A (.helper (.storeTmp a 0) :: ws.map MemWrite.event) >>=
        fun A => A.step last := by
    rw [← List.cons_append, run_append]
    refine congrArg _ (funext fun A => ?_)
    rw [run_cons]
    cases A.step last <;> rfl
  rw [hrun] at hl
  cases h₁ : run DepState.step A (.helper (.storeTmp a 0) :: ws.map MemWrite.event) with
  | error f =>
    rw [h₁] at hmiss hl
    obtain rfl : f = .bounds := hmiss
    rw [hl.error_left] at harr
    exact harr rfl
  | ok A₁ =>
    rw [h₁] at hmiss hl
    obtain herr | ⟨A₂, hstep, hseen⟩ := hlast A₁ hmiss.1 hmiss.2
    · rw [ok_bind, herr] at hl
      rw [hl.error_left] at harr
      exact harr rfl
    · rw [ok_bind, hstep] at hl
      obtain ⟨s', hs', hr'⟩ := hl.exists_left
      rw [hs'] at harr
      exact hseen s' hr' (harr (by rwa [tracked_eq_view hr]))

theorem LoadKeeps.sameCell (hws : readsOf ws + 1 < 2 ^ 31) (h : LoadKeeps a b ws) :
    SameCell a b ws := by
  by_contra hnot
  have hlast : ∀ A₁ : DepState, Calm 0 A₁ → (1 : ℤ) ∉ A₁.view (memCell b) →
      A₁.step (.helper (.assgnTmpLoad 1 b)) = .error .bounds ∨
        ∃ A₂, A₁.step (.helper (.assgnTmpLoad 1 b)) = .ok A₂ ∧
          ∀ s₂, Rep s₂ A₂ → (1 : ℤ) ∉ tracked s₂ (.tmp 1) := by
    intro A₁ hcalm hb
    cases hg : A₁.getShadow b with
    | error f =>
      refine Or.inl ?_
      rw [DepState.step, call, source, hg, (getShadow_error hg).1]
      rfl
    | ok vs =>
      obtain ⟨A₂, h₂, hass⟩ := recordBack_fresh hcalm.dangling hcalm.fresh vs
      refine Or.inr ⟨A₂, ?_, fun s₂ hr₂ => ?_⟩
      · rw [DepState.step, call, source, hg]
        exact h₂
      · rw [view_of_ok ((lookup_memCell b).trans hg)] at hb
        rwa [tracked_eq_view hr₂, hass.view, Function.update_self]
  obtain ⟨s, hs, hmiss⟩ := notArrives hws hnot hlast
  exact hmiss (h s _ 0 1 hs (between_events ws))

theorem WriteKeeps.sameCell (hws : readsOf ws + 1 < 2 ^ 31) (h : WriteKeeps a b ws) :
    SameCell a b ws := by
  by_contra hnot
  -- the buffer is the one byte at `b`
  have hrange : ∀ y, InRange b (1 : UWord).toNat y ↔ y = b := by
    intro y
    constructor
    · rintro ⟨i, hi, rfl⟩
      obtain rfl : i = 0 := Nat.lt_one_iff.mp hi
      simp
    · rintro rfl
      exact ⟨0, Nat.zero_lt_one, by simp⟩
  have hlast : ∀ A₁ : DepState, Calm 0 A₁ → (1 : ℤ) ∉ A₁.view (memCell b) →
      A₁.step (.preCall nrWrite (sysArgs 1 b 1)) = .error .bounds ∨
        ∃ A₂, A₁.step (.preCall nrWrite (sysArgs 1 b 1)) = .ok A₂ ∧
          ∀ s₂, Rep s₂ A₂ → (1 : ℤ) ∉ lastWrite s₂ := by
    intro A₁ hcalm hb
    cases hstep : A₁.step (.preCall nrWrite (sysArgs 1 b 1)) with
    | error f =>
      -- it is the first write, and the counter is at zero
      rcases preCall_error hstep with ⟨-, ⟨hn, -⟩ | ⟨-, hn⟩⟩ | ⟨rfl, -⟩
      · cases hn
      · rw [hcalm.writeN] at hn
        omega
      · exact Or.inl rfl
    | ok A₂ =>
      have hwrite : A₁.preWrite (sysArgs 1 b 1) = .ok A₂ := by
        rw [← preCall_write hcalm.trace]
        exact hstep
      obtain ⟨-, deps, hdeps, hA₂⟩ := preWrite_eq_ok hwrite
      refine Or.inr ⟨A₂, rfl, fun s₂ hr₂ => ?_⟩
      rw [lastWrite_eq hr₂, hA₂]
      rintro ⟨e, he, hv⟩
      obtain rfl := Option.some.inj (List.getLast?_concat.symm.trans he)
      obtain ⟨y, hy, hv⟩ := (mem_memDeps hdeps).mp hv
      rw [(hrange y).mp hy] at hv
      exact hb hv
  obtain ⟨s, hs, hmiss⟩ := notArrives hws hnot hlast
  exact hmiss (h s _ 0 (sysArgs 1 b 1) hs (between_events ws) ((hrange b).mpr rfl)
    fun y hy hne => absurd ((hrange y).mp hy) hne)

end Miss

/-- **A store arrives exactly at the slot it went to**, as long as nothing sets that in
between, and there are not so many reads in between that their counter overflows. -/
theorem keeps_iff {a b : UWord} {ws : List MemWrite} (hws : readsOf ws + 1 < 2 ^ 31) :
    (LoadKeeps a b ws ↔ SameCell a b ws) ∧ (WriteKeeps a b ws ↔ SameCell a b ws) :=
  ⟨⟨LoadKeeps.sameCell hws, SameCell.loadKeeps⟩, ⟨WriteKeeps.sameCell hws, SameCell.writeKeeps⟩⟩

theorem keeps_iff_same_byte :
    (LoadKeeps 8 8 [.store 16 4, .read 32 1] ↔ SameCell 8 8 [.store 16 4, .read 32 1]) ∧
      (WriteKeeps 8 8 [.store 16 4, .read 32 1] ↔ SameCell 8 8 [.store 16 4, .read 32 1]) :=
  keeps_iff (by decide)

/-- Four bytes are stored, and a load of the second of them gets nothing. -/
theorem not_byteExact : ¬ByteExact := by
  intro h
  have hload : LoadKeeps 8 9 [] := (h 8 4 []).1 9 1
    ⟨9, ⟨1, by decide, by decide⟩, ⟨0, by decide, by decide⟩⟩ fun w hw => absurd hw List.not_mem_nil
  have hsame := hload.sameCell (by decide)
  exact absurd hsame.eq (by decide)

end DepLeak

import DepLeak.Leak.Keys

/-!
# Paths of code for operations on locations

The detector tells an operation on a location by two adjacent instructions: a call of
`malloc` and a store, a load and a store, a load and a call of `free`. Along a path of such
pairs (`DepLeak.Compiles`), with instructions among them that play no part
(`DepLeak.Quiet`), it keeps its notes of the operations, and its verdict is that not every
block is noted as freed (`DepLeak.memoryLeakDetection_compiled`), unless there are more blocks
than an `int` counts.

An operation on a field changes the block it stands in. So a block with such an operation
may be on the path only once (`DepLeak.Compiled`).
-/

namespace DepLeak

open Runs Ledger Detector

/-! ### Code for operations -/

/-- An operation on a field. -/
def OnField : Op Location → Prop
  | .alloc l => ∃ x k, l = .field x k
  | .copy _ _ => False
  | .free l => ∃ x k, l = .field x k

/-- **The code of a list of operations**, with instructions among it that `quiet` allows
before the ones that follow. -/
inductive Compiles (quiet : Instruction → List Instruction → Prop) :
    List (Op Location) → List Instruction → Prop
  /-- The end of a block. -/
  | nil : Compiles quiet [] []
  /-- Any other instruction. -/
  | quiet {ops : List (Op Location)} {i : Instruction} {rest : List Instruction} :
    quiet i rest → Compiles quiet ops rest → Compiles quiet ops (i :: rest)
  /-- A call of `malloc`, directly followed by a store to the location. -/
  | alloc {ops : List (Op Location)} {rest : List Instruction} (l : Location) (id : ℕ)
      (name : String) (args : List Value) : Compiles quiet ops rest →
    Compiles quiet (.alloc l :: ops)
      (.call id (some "malloc") args :: .store (.result id name) l.address :: rest)
  /-- A load of one variable, directly followed by a store to another one. -/
  | copy {ops : List (Op Location)} {rest : List Instruction} (v w : String) (id : ℕ)
      (name : String) : Compiles quiet ops rest →
    Compiles quiet (.copy (.var v) (.var w) :: ops)
      (.load id (.global w) :: .store (.result id name) (.global v) :: rest)
  /-- A load of the location, directly followed by a call of `free`. -/
  | free {ops : List (Op Location)} {rest : List Instruction} (l : Location) (id id' : ℕ)
      (name : String) : Compiles quiet ops rest →
    Compiles quiet (.free l :: ops)
      (.load id l.address :: .call id' (some "free") [.result id name] :: rest)

theorem Compiles.mono {quiet quiet' : Instruction → List Instruction → Prop}
    (hq : ∀ i rest, quiet i rest → quiet' i rest) {ops : List (Op Location)}
    {l : List Instruction} (h : Compiles quiet ops l) : Compiles quiet' ops l := by
  induction h with
  | nil => exact .nil
  | quiet hi _ ih => exact .quiet (hq _ _ hi) ih
  | alloc l id name args _ ih => exact .alloc l id name args ih
  | copy v w id name _ ih => exact .copy v w id name ih
  | free l id id' name _ ih => exact .free l id id' name ih

/-- **An instruction that plays no part** where the variables in `tracked` get blocks:
a call of a function that the detector knows nothing about, a load that is from another
variable or is not directly followed by a store, and anything else that is no call and no
load. A load of such a variable before a store plays a part whatever is stored, also in
`*v = 5`, which copies nothing. -/
def Quiet (tracked : String → Prop) (i : Instruction) (rest : List Instruction) : Prop :=
  match i with
  | .load _ pointer =>
    tracked pointer.getName → ∀ value target, adjacent rest ≠ some (.store value target)
  | .call _ callee _ => ∃ name, callee = some name ∧
    finds name "llvm.memcpy.p0i8.p0i8.i64" = false ∧ finds name "malloc" = false ∧
    finds name "free" = false
  | _ => True

/-- The variable that the operation gives a block is in `tracked`. -/
def Tracks (tracked : String → Prop) : Op Location → Prop
  | .alloc (.var v) => tracked v
  | .copy (.var v) _ => tracked v
  | _ => True

section Visit

variable {tracked : String → Prop} {d : Detector} {s : State Location}
  {before rest : List Instruction}

theorem visit_quiet (h : Notes d s) (htracked : ∀ v, (s.holds (.var v)).isSome → tracked v)
    {i : Instruction} (hi : Quiet tracked i rest) : visit i before rest d = .ok (d, before) := by
  cases i with
  | load id pointer =>
    have heq : visitLoad pointer rest d = d := by
      unfold visitLoad
      split
      · rename_i value target hadj
        split
        · rename_i id' hid'
          rw [h.vars] at hid'
          exact absurd hadj (hi (htracked _ (by rw [hid']; rfl)) value target)
        · rfl
      · rfl
    rw [visit, heq]
  | call id callee args =>
    obtain ⟨name, rfl, hmemcpy, hmalloc, hfree⟩ := hi
    simp [visit, memcpyCall, mallocCall, freeCall, hmemcpy, hmalloc, hfree]
  | _ => rfl

/-- Only the address of a field is taken apart. -/
theorem spliced_address {l : Location} (h : ¬∃ x k, l = .field x k) : l.address.spliced = [] := by
  cases l with
  | var v => rfl
  | field x k => exact absurd ⟨x, k, rfl⟩ h

theorem visit_malloc (before rest : List Instruction) (h : Notes d s) (l : Location) (id : ℕ)
    (args : List Value) (value : Value) :
    EndsOr (fun r => Notes r.1 (note s (.alloc l)) ∧
        ∃ new, r.2 = new ++ before ∧ (¬OnField (.alloc l) → new = []))
      .overflow (2 ^ 31 ≤ (note s (.alloc l)).count)
      (visit (.call id (some "malloc") args) before (.store value l.address :: rest) d) := by
  have hstore : adjacent (.store value l.address :: rest) = some (.store value l.address) := rfl
  rw [visit_malloc_store hstore l.key_address]
  exact (h.store? (.call id (some "malloc") args) l).bind fun d' hd' =>
    .ok ⟨hd', l.address.spliced, rfl, spliced_address⟩

theorem visit_free (before rest : List Instruction) (h : Notes d s) (l : Location)
    (id id' : ℕ) (args : List Value) : ∃ d' new,
      visit (.call id' (some "free") args) (.load id l.address :: before) rest d =
        .ok (d', new ++ .load id l.address :: before) ∧
      Notes d' (note s (.free l)) ∧ (¬OnField (.free l) → new = []) := by
  have hload : adjacent (.load id l.address :: before) = some (.load id l.address) := rfl
  obtain ⟨d', hd', hnotes⟩ := h.freeId l
  refine ⟨d', l.address.spliced, ?_, hnotes, spliced_address⟩
  rw [visit_call_free, visitFree_load hload l.key_address, h.numberAt_eq, hd']
  rfl

theorem tracked_note (htracked : ∀ v, (s.holds (.var v)).isSome → tracked v)
    {op : Op Location} (hop : Tracks tracked op) :
    ∀ v, ((note s op).holds (.var v)).isSome → tracked v := by
  intro v hv
  cases op with
  | alloc l =>
    rcases eq_or_ne (.var v) l with rfl | hne
    · exact hop
    · exact htracked v (by simpa [note, insert_apply, hne] using hv)
  | copy dst src =>
    cases hsrc : s.holds src with
    | none => exact htracked v (by simpa [note, hsrc] using hv)
    | some id =>
      rcases eq_or_ne (.var v) dst with rfl | hne
      · exact hop
      · exact htracked v (by simpa [note, hsrc, hne] using hv)
  | free l => exact htracked v hv

theorem visitBlock_cons {i : Instruction} {d' : Detector} {before' : List Instruction}
    (h : visit i before rest d = .ok (d', before')) :
    visitBlock d before (i :: rest) = visitBlock d' (i :: before') rest := by
  rw [visitBlock, h]
  rfl

/-- **A block of code for some operations**: the detector notes them, and the block stays as
it is if none of them is on a field; or there are too many blocks to count. -/
theorem visitBlock_compiles (before : List Instruction) {ops : List (Op Location)}
    {l : List Instruction} (h : Compiles (Quiet tracked) ops l)
    (hops : ∀ op ∈ ops, Tracks tracked op) (hd : Notes d s)
    (htracked : ∀ v, (s.holds (.var v)).isSome → tracked v) :
    EndsOr (fun r => Notes r.1 (ops.foldl note s) ∧
        (∀ v, ((ops.foldl note s).holds (.var v)).isSome → tracked v) ∧
        ((∀ op ∈ ops, ¬OnField op) → r.2 = before.reverse ++ l))
      .overflow (2 ^ 31 ≤ (ops.foldl note s).count) (visitBlock d before l) := by
  induction h generalizing d s before with
  | nil => exact .ok ⟨hd, htracked, fun _ => by simp⟩
  | @quiet ops i rest hi _ ih =>
    rw [visitBlock_cons (visit_quiet hd htracked hi)]
    refine (ih (i :: before) hops hd htracked).mono ?_
    rintro r ⟨hd', ht', hsame⟩
    exact ⟨hd', ht', fun hnone => by simp [hsame hnone]⟩
  | @alloc ops rest l id name args _ ih =>
    obtain ⟨hop, hops⟩ := List.forall_mem_cons.mp hops
    have hvisit := visit_malloc before rest hd l id args (.result id name)
    refine (hvisit.weaken fun hle => hle.trans (count_le_foldl_note _ ops)).bind ?_
    rintro ⟨d₁, -⟩ ⟨hd₁, new, rfl, hnew⟩
    have htracked₁ := tracked_note htracked hop
    refine (ih (.store (.result id name) l.address ::
      .call id (some "malloc") args :: (new ++ before)) hops hd₁ htracked₁).mono ?_
    rintro r ⟨hd', ht', hsame⟩
    refine ⟨hd', ht', fun hnone => ?_⟩
    obtain ⟨hfield, hnone⟩ := List.forall_mem_cons.mp hnone
    simp [hsame hnone, hnew hfield]
  | @copy ops rest v w id name _ ih =>
    obtain ⟨hop, hops⟩ := List.forall_mem_cons.mp hops
    refine (ih (.store (.result id name) (.global v) :: .load id (.global w) :: before) hops
      (hd.visitLoad_store v w (.result id name) rest) (tracked_note htracked hop)).mono ?_
    rintro r ⟨hd', ht', hsame⟩
    exact ⟨hd', ht', fun hnone => by simp [hsame (List.forall_mem_cons.mp hnone).2]⟩
  | @free ops rest l id id' name _ ih =>
    obtain ⟨hop, hops⟩ := List.forall_mem_cons.mp hops
    obtain ⟨d₁, new, hvisit, hd₁, hnew⟩ := visit_free before rest hd l id id' [.result id name]
    have hload : visit (.load id l.address) before
        (.call id' (some "free") [.result id name] :: rest) d = .ok (d, before) := by
      simp [visit, visitLoad, adjacent, Instruction.isDebug]
    rw [visitBlock_cons hload, visitBlock_cons hvisit]
    refine (ih (.call id' (some "free") [.result id name] ::
      (new ++ .load id l.address :: before)) hops hd₁ (tracked_note htracked hop)).mono ?_
    rintro r ⟨hd', ht', hsame⟩
    refine ⟨hd', ht', fun hnone => ?_⟩
    obtain ⟨hfield, hnone⟩ := List.forall_mem_cons.mp hnone
    simp [hsame hnone, hnew hfield]

end Visit

/-! ### A path of code -/

/-- **A path of code for operations**, in which no block that has an operation on a field is
visited twice. -/
structure Compiled (tracked : String → Prop) (blocks : Blocks)
    (code : BasicBlock → List (Op Location)) (path : List BasicBlock) : Prop where
  compiles : ∀ bb ∈ path, Compiles (Quiet tracked) (code bb) (blocks bb)
  tracks : ∀ bb ∈ path, ∀ op ∈ code bb, Tracks tracked op
  once : ∀ bb ∈ path, (∃ op ∈ code bb, OnField op) → path.count bb ≤ 1

section Path

variable {tracked : String → Prop} {blocks : Blocks} {code : BasicBlock → List (Op Location)}

theorem Compiled.tail {bb : BasicBlock} {path : List BasicBlock}
    (h : Compiled tracked blocks code (bb :: path)) : Compiled tracked blocks code path where
  compiles := fun bb' hbb' => h.compiles bb' (List.mem_cons_of_mem bb hbb')
  tracks := fun bb' hbb' => h.tracks bb' (List.mem_cons_of_mem bb hbb')
  once := fun bb' hbb' hfield =>
    (List.sublist_cons_self bb path).count_le bb' |>.trans
      (h.once bb' (List.mem_cons_of_mem bb hbb') hfield)

/-- A block with an operation on a field does not come again. -/
theorem Compiled.not_mem {bb : BasicBlock} {path : List BasicBlock}
    (h : Compiled tracked blocks code (bb :: path)) (hfield : ∃ op ∈ code bb, OnField op) :
    bb ∉ path := by
  intro hmem
  have hle := h.once bb List.mem_cons_self hfield
  rw [List.count_cons_self] at hle
  have hpos := List.count_pos_iff.mpr hmem
  omega

/-- **The rule for a path**: what one block leaves to be said of the blocks after it, given
that those that come again are left as they were, can be said at the end. -/
theorem run_visitAt {P : List BasicBlock → Detector → Prop} {Q : Prop}
    (hstep : ∀ bb path d, P (bb :: path) d →
      EndsOr (fun r => (bb ∈ path → r.2 = blocks bb) ∧ P path r.1) .overflow Q
        (visitBlock d [] (blocks bb)))
    {path : List BasicBlock} {d : Detector} (hP : P path d) :
    EndsOr (fun s => P [] s.1) .overflow Q (run visitAt (d, blocks) path) := by
  let P' : List BasicBlock → Detector × Blocks → Prop := fun path s =>
    P path s.1 ∧ ∀ bb ∈ path, s.2 bb = blocks bb
  have hvisit : ∀ bb path s, P' (bb :: path) s → EndsOr (P' path) .overflow Q (visitAt s bb) := by
    rintro bb path ⟨d, current⟩ ⟨hP, hcurrent⟩
    rw [visitAt, hcurrent bb List.mem_cons_self]
    refine (hstep bb path d hP).bind ?_
    rintro ⟨d₁, l⟩ ⟨hsame, hP₁⟩
    refine .ok ⟨hP₁, fun bb' hbb' => ?_⟩
    rcases eq_or_ne bb' bb with rfl | hne
    · exact (Function.update_self ..).trans (hsame hbb')
    · exact (Function.update_of_ne hne ..).trans (hcurrent bb' (List.mem_cons_of_mem bb hbb'))
  exact (run_endsOr hvisit ⟨hP, fun _ _ => rfl⟩).mono fun s hs => hs.1

theorem run_visitAt_compiled {path : List BasicBlock} (h : Compiled tracked blocks code path) :
    EndsOr (fun s => Notes s.1 (noted (path.flatMap code))) .overflow
      (2 ^ 31 ≤ (noted (path.flatMap code)).count)
      (run visitAt (Detector.init, blocks) path) := by
  -- the notes so far, and the operations still to come
  let P : List BasicBlock → Detector → Prop := fun path' d' =>
    Compiled tracked blocks code path' ∧ ∃ s', Notes d' s' ∧
      (∀ v, (s'.holds (.var v)).isSome → tracked v) ∧
      (path'.flatMap code).foldl note s' = noted (path.flatMap code)
  have hP : P path Detector.init :=
    ⟨h, State.init, notes_init, fun _ hv => absurd hv Bool.false_ne_true, rfl⟩
  refine (run_visitAt (P := P) ?_ hP).mono ?_
  · rintro bb path' d₀ ⟨hc, s₀, hd₀, ht₀, heq⟩
    rw [List.flatMap_cons, List.foldl_append] at heq
    have hblock := visitBlock_compiles [] (hc.compiles bb List.mem_cons_self)
      (hc.tracks bb List.mem_cons_self) hd₀ ht₀
    refine (hblock.weaken fun hle => ?_).mono ?_
    · exact hle.trans (heq ▸ count_le_foldl_note _ _)
    · rintro r ⟨hd₁, ht₁, hsame⟩
      refine ⟨fun hmem => ?_, hc.tail, _, hd₁, ht₁, heq⟩
      exact hsame fun op hop hfield => hc.not_mem ⟨op, hop, hfield⟩ hmem
  · rintro s ⟨-, s', hd', -, heq⟩
    exact heq ▸ hd'

/-- **The verdict where the detector keeps notes**: there is no leak exactly if an `int` counts
the blocks, and every one of them is noted as freed. -/
theorem verdict_of_notes {s : State Location} {path : List BasicBlock}
    (h : EndsOr (fun r => Notes r.1 s) .overflow (2 ^ 31 ≤ s.count)
      (run visitAt (Detector.init, blocks) path)) :
    (memoryLeakDetection blocks path).map Prod.fst = .ok false ↔
      s.count < 2 ^ 31 ∧ s.AllFreed := by
  rw [memoryLeakDetection]
  rcases h.cases_ok with ⟨r, hrun, hd⟩ | ⟨hrun, hle⟩
  · rw [hrun, and_iff_right hd.count_lt, ← hd.leaks_eq_false]
    exact ⟨Except.ok.inj, congrArg Except.ok⟩
  · rw [hrun]
    exact iff_of_false (fun h => by cases h) fun h => absurd h.1 hle.not_gt

/-- **The verdict on a path of code for operations**: there is no leak exactly if an `int`
counts the allocations, and every block is noted as freed. -/
theorem memoryLeakDetection_compiled {path : List BasicBlock}
    (h : Compiled tracked blocks code path) :
    (memoryLeakDetection blocks path).map Prod.fst = .ok false ↔
      (exec (path.flatMap code)).count < 2 ^ 31 ∧ (noted (path.flatMap code)).AllFreed := by
  rw [verdict_of_notes (run_visitAt_compiled h), count_noted]

end Path

end DepLeak

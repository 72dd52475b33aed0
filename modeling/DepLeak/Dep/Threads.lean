import DepLeak.LinkedHeap.Beside
import DepLeak.Dep.Abreast

/-!
# Registers of several threads

Every thread has guest registers of its own, and the tool has one `reg_deps` for all of them:
no helper is told which thread is running. A run of several threads, which take turns at the
ends of superblocks, is compared with one in which only those of the thread `T` are executed,
each with the shadow memory that it has in the run of all threads (`DepLeak.stepBeside`).

A `GET` of `T` finds what it would find there (`DepLeak.FindsOwn`) unless another thread has
put something at its offset since `T` did (`DepLeak.Taken`). What else the threads share plays
no part as long as the superblocks of `T` keep to the temporaries they have recorded
themselves, and no first entry of `var_deps` is erased (`DepLeak.findsOwn_of_undisturbed`).
-/

namespace DepLeak

open LinkedHeap Runs Flow

/-! ### Runs of several threads -/

/-- `ThreadId`. -/
abbrev ThreadId := BitVec 32

/-- What a thread does when it is its turn. -/
abbrev Turn (fnname : UWord → Option String) := ThreadId × Activity fnname

/-- The pointers of a table that are those of another heap. -/
def Table.map {β γ : Type} (f : β → γ) (tb : Table β) : Table γ :=
  fun u => (tb u).map fun page j => f (page j)

/-- A node whose list has gone to the left. -/
def ReadDep.left (d : ReadDep) : ReadDep := { d with readDeps := LinkedHeap.left d.readDeps }

/-- The state `s₀` with the shadow memory of the state `s`: the lists of `s` are put into the
heap of `s₀` beside its own. -/
def State.withShadowOf (s₀ s : State) : State :=
  { s₀ with
    ints := s₀.ints.beside s.ints
    nodes := s₀.nodes.mapVal ReadDep.left
    shadowMem := s.shadowMem.map right }

variable {fnname : UWord → Option String}

/-- The effect of a turn: the tool does not look at whose it is. -/
def stepTurn (s : State) (turn : Turn fnname) : Exec State := stepActivity s turn.2

/-- The same next to a run in which only the superblocks of `T` are executed, with the shadow
memory of the run of all threads. -/
def stepBeside (T : ThreadId) (ss : State × State) (turn : Turn fnname) : Exec (State × State) := do
  let s ← stepTurn ss.1 turn
  match turn with
  | (U, .block ρ sb) =>
    if U = T then do
      let s₀ ← stepActivity (ss.2.withShadowOf ss.1) (.block ρ sb)
      .ok (s, s₀)
    else .ok (s, ss.2)
  -- what a hook does is in the shadow memory
  | (_, .preCall _ _) => .ok (s, ss.2)

/-- The list that `find_read_dep_reg` returns. -/
def regListOf (s : State) (offset : BitVec 32) : Exec (List ℤ) := do
  let q ← findReadDepReg s offset
  s.ints.toList q

/-- **A thread finds its own registers**: what `instrument_assgn_tmp_get` finds while it
executes a superblock is what it would find had only its superblocks been executed. -/
def FindsOwn (T : ThreadId) (sched : List (Turn fnname)) : Prop :=
  ∀ sched₁ ρ sb sched₂, sched = sched₁ ++ (T, .block ρ sb) :: sched₂ →
    ∀ s, run stepTurn (.init true) sched₁ = .ok s →
      ∃ s₀, run (stepBeside T) (.init true, .init true) sched₁ = .ok (s, s₀) ∧
        ∀ pre st post t offset, executed ρ sb.stmts = pre ++ st :: post →
          stmtCall ρ st = some (.assgnTmpGet t offset) →
            ∀ s₁, run (stepStmt ρ) s pre = .ok s₁ →
              ∃ s₂ vs, run (stepStmt ρ) (s₀.withShadowOf s) pre = .ok s₂ ∧
                regListOf s₁ offset = .ok vs ∧ regListOf s₂ offset = .ok vs

/-! ### What comes between a thread and its registers -/

/-- The helpers that statements call. -/
def callsOf (U : ThreadId) (ρ : IRTemp → UWord) (B : List IRStmt) : List (ThreadId × Event) :=
  (B.filterMap (stmtCall ρ)).map fun c => (U, .helper c)

/-- What happens in a turn. -/
def turnEvents : Turn fnname → List (ThreadId × Event)
  | (U, .block ρ sb) => callsOf U ρ (executed ρ sb.stmts)
  | (U, .preCall syscallno args) => [(U, .preCall syscallno args)]

/-- What happens in a run. -/
def eventsOf (sched : List (Turn fnname)) : List (ThreadId × Event) := sched.flatMap turnEvents

/-- The state after some events. -/
def RunsTo (evs : List (ThreadId × Event)) (s : State) : Prop :=
  run stepTool (.init true) (evs.map Prod.snd) = .ok s

/-- The event is a `PUT` at an offset that changes what is recorded there: of a temporary that
has dependencies, or of a constant over some. -/
def Event.Alters (s : State) (offset : BitVec 32) : Event → Prop
  | .helper (.putTmp r t) => r = offset ∧ tracked s (.tmp t) ≠ ∅
  | .helper (.putCnst r) => r = offset ∧ tracked s (.reg r) ≠ ∅
  | _ => False

/-- **Another thread has the register**: it has put something there that changed what was
recorded, and `T` has put nothing there since. -/
inductive Taken (T : ThreadId) : List (ThreadId × Event) → BitVec 32 → Prop
  /-- Another thread puts something there. -/
  | alters {evs : List (ThreadId × Event)} {s : State} {U : ThreadId} {e : Event}
    {offset : BitVec 32} : U ≠ T → RunsTo evs s → e.Alters s offset →
      Taken T (evs ++ [(U, e)]) offset
  /-- It stays so until `T` does. -/
  | stays {evs : List (ThreadId × Event)} {s : State} {U : ThreadId} {e : Event}
    {offset : BitVec 32} : Taken T evs offset → RunsTo evs s →
      ¬(U = T ∧ e.puts? = some offset ∧ e.Acts s) → Taken T (evs ++ [(U, e)]) offset

/-- **The registers of `T` are undisturbed** in a run. -/
structure Undisturbed (T : ThreadId) (sched : List (Turn fnname)) : Prop where
  /-- No first entry of `var_deps` is erased. -/
  spares : ∀ sched₁ U ρ sb sched₂, sched = sched₁ ++ (U, .block ρ sb) :: sched₂ →
    ∀ s, run stepTurn (.init true) sched₁ = .ok s → SparesHeads ρ s sb.stmts
  /-- The temporaries of `T` are local to its superblocks. -/
  isLocal : ∀ sched₁ ρ sb sched₂, sched = sched₁ ++ (T, .block ρ sb) :: sched₂ →
    ∀ s, run stepTurn (.init true) sched₁ = .ok s → Local ρ s sb.stmts
  /-- Both hold of its superblocks where only they are executed. -/
  alone : ∀ sched₁ ρ sb sched₂, sched = sched₁ ++ (T, .block ρ sb) :: sched₂ →
    ∀ s s₀, run (stepBeside T) (.init true, .init true) sched₁ = .ok (s, s₀) →
      SparesHeads ρ (s₀.withShadowOf s) sb.stmts ∧ Local ρ (s₀.withShadowOf s) sb.stmts
  /-- It gets nothing from where another thread has put something. -/
  gets : ∀ evs t offset evs', eventsOf sched = evs ++ (T, .helper (.assgnTmpGet t offset)) :: evs' →
    ¬Taken T evs offset

/-! ### The state with other shadow memory -/

section WithShadow

variable {s s₀ : State} {a a₀ : DepState}

theorem Table.slot_map {β γ : Type} {null : β} {null' : γ} {f : β → γ} (hnull : f null = null')
    (tb : Table β) (k : Slot) : (tb.map f).slot null' k = f (tb.slot null k) := by
  rw [Table.slot, Table.slot, Table.map]
  cases tb k.1 with
  | none => exact hnull.symm
  | some page => rfl

/-- The place is one of the state itself, and no slot of the shadow table. -/
def Place.isOwn : Place → Bool
  | .shadow _ => false
  | .node _ => true
  | .hand => true

theorem NodesRep.left {h : NodeHeap} {v r w : Ptr} {P : ℕ → Ptr} {sh : Table (List ℤ)}
    (hn : NodesRep h v r w a P) :
    NodesRep (h.mapVal ReadDep.left) v r w { a with shadow := sh, lost := true }
      fun i => LinkedHeap.left (P i) := by
  have hseg : ∀ {p q : Ptr} {es : List Entry}, Seg h p (es.map (cellOf P)) q →
      Seg (h.mapVal ReadDep.left) p (es.map (cellOf fun i => LinkedHeap.left (P i))) q := by
    intro p q es hs
    have hs := hs.mapVal ReadDep.left
    rwa [List.map_map] at hs
  obtain ⟨q, hvars, hq, hdead, hnull⟩ := hn.vars
  exact {
    vars := ⟨q, hseg hvars, hq, hdead.mapVal _, hnull⟩
    regs := hseg hn.regs
    writes := hseg hn.writes
    nodup := hn.nodup
    owned := fun hlost => by cases hlost
    top := hn.top }

/-- **The state with the shadow memory of another** represents its own entries with the shadow
lists of the other. -/
theorem Rep.withShadowOf (hr₀ : Rep s₀ a₀) (hr : Rep s a) :
    Rep (s₀.withShadowOf s) { a₀ with shadow := a.shadow, lost := true } := by
  obtain ⟨⟨P₀, D₀, hn₀, hl₀⟩, hsc⟩ := hr₀
  obtain ⟨⟨P, D, -, hl⟩, -⟩ := hr
  have hfam := hl₀.lists.beside hl.lists Place.isOwn
  have hptr : (fun k : Place => if k.isOwn then left (placePtr s₀.shadowMem P₀ none k)
      else right (placePtr s.shadowMem P none k)) =
        placePtr (s.shadowMem.map right) (fun i => left (P₀ i)) none := by
    funext k
    cases k with
    | shadow k => exact (Table.slot_map (f := right) right_none s.shadowMem k).symm
    | node | hand => rfl
  have hvals : (fun k : Place => if k.isOwn then placeVals a₀.shadow D₀ [] k
      else placeVals a.shadow D [] k) = placeVals a.shadow D₀ [] := by
    funext k
    cases k <;> rfl
  rw [hptr, hvals] at hfam
  refine ⟨⟨_, D₀, hn₀.left, hl₀.deps, hl₀.stray, hfam, fun u => ?_⟩, hsc⟩
  rw [← hl.pages u]
  exact Option.isSome_map

end WithShadow

/-! ### Runs and their events -/

section Events

variable {evs : List (ThreadId × Event)} {T U : ThreadId} {ρ : IRTemp → UWord} {s s' : State}
  {st : IRStmt} {B : List IRStmt} {e : Event} {r : BitVec 32}

theorem callsOf_append (B C : List IRStmt) :
    callsOf U ρ (B ++ C) = callsOf U ρ B ++ callsOf U ρ C := by
  rw [callsOf, List.filterMap_append, List.map_append]
  rfl

theorem callsOf_of_none (h : stmtCall ρ st = none) : callsOf U ρ [st] = [] := by
  simp [callsOf, h]

theorem callsOf_of_some {c : HelperCall} (h : stmtCall ρ st = some c) :
    callsOf U ρ [st] = [(U, .helper c)] := by
  simp [callsOf, h]

theorem RunsTo.snoc (h : RunsTo evs s) (hs : stepTool s e = .ok s') :
    RunsTo (evs ++ [(U, e)]) s' := by
  rw [RunsTo, List.map_append]
  exact run_append_eq_ok.mpr ⟨s, h, run_cons_eq_ok.mpr ⟨s', hs, rfl⟩⟩

/-- The calls of statements make them run. -/
theorem RunsTo.calls (h : RunsTo evs s) (hs : run (stepStmt ρ) s B = .ok s') :
    RunsTo (evs ++ callsOf U ρ B) s' := by
  induction B generalizing evs s with
  | nil =>
    cases hs
    simpa [callsOf] using h
  | cons st B ih =>
    obtain ⟨s₁, h₁, hs⟩ := run_cons_eq_ok.mp hs
    rw [← List.singleton_append, callsOf_append, ← List.append_assoc]
    refine ih ?_ hs
    rw [stepStmt] at h₁
    cases hc : stmtCall ρ st with
    | none =>
      rw [hc] at h₁
      cases h₁
      rwa [callsOf_of_none hc, List.append_nil]
    | some c =>
      rw [hc] at h₁
      rw [callsOf_of_some hc]
      exact h.snoc h₁

/-- **Who has a register after an event**, if it is not another thread. -/
theorem Taken.not_snoc (hs : RunsTo evs s) (h : ¬Taken T (evs ++ [(U, e)]) r) :
    (U ≠ T → ¬e.Alters s r) ∧ (Taken T evs r → U = T ∧ e.puts? = some r ∧ e.Acts s) :=
  ⟨fun hU ha => h (.alters hU hs ha), fun ht => by_contra fun hnot => h (.stays ht hs hnot)⟩

/-- What `T` takes back by a statement, it puts something into. -/
theorem Taken.acts {pre : List IRStmt} (hs : RunsTo (evs ++ callsOf T ρ pre) s)
    (h : Taken T (evs ++ callsOf T ρ pre) r)
    (hnot : ¬Taken T (evs ++ callsOf T ρ (pre ++ [st])) r) :
    ∃ c, stmtCall ρ st = some c ∧ (Event.helper c).puts? = some r ∧ (Event.helper c).Acts s := by
  rw [callsOf_append, ← List.append_assoc] at hnot
  cases hc : stmtCall ρ st with
  | none =>
    rw [callsOf_of_none hc, List.append_nil] at hnot
    exact absurd h hnot
  | some c =>
    rw [callsOf_of_some hc] at hnot
    exact ⟨c, rfl, ((Taken.not_snoc hs hnot).2 h).2⟩

end Events

/-! ### The turns of other threads -/

section Others

open DepState

variable {T U : ThreadId} {evs : List (ThreadId × Event)} {ρ : IRTemp → UWord} {s s' : State}
  {a a' : DepState} {B : List IRStmt} {r : BitVec 32}

/-- An event leaves what is recorded for a register, if it is no `PUT` that changes it. -/
theorem findReg_of_not_alters (hr : Rep s a) {e : Event} (hspare : ¬e.ErasesHead s)
    (halters : ¬e.Alters s r) (h : a.step e = .ok a') : a'.findReg r = a.findReg r := by
  by_cases hacts : e.puts? = some r ∧ e.Acts s
  · obtain ⟨hput, hacts⟩ := hacts
    cases e with
    | preCall => cases hput
    | helper c =>
      cases c with
      | putTmp r' t =>
        cases hput
        exact absurd ⟨rfl, hacts⟩ halters
      | putCnst r' =>
        cases hput
        obtain rfl := Except.ok.inj (show Except.ok (a.eraseReg r) = .ok a' from h)
        -- nothing is there that the constant could replace
        have hempty : tracked s (.reg r) = ∅ := by
          by_contra hne
          exact halters ⟨rfl, hne⟩
        rw [findReg_eraseReg, if_pos rfl, (tracked_reg_eq_empty_iff hr).mp hempty]
      | _ => cases hput
  · exact findReg_step hr hspare (fun hput ha => hacts ⟨hput, ha⟩) h

/-- **Along a superblock of another thread** the registers stay that it does not take. -/
theorem regs_run (hU : U ≠ T) (hevs : RunsTo evs s) (hr : Rep s a) (hd : a.dangling = false)
    (hspare : Along (stepStmt ρ) (Spares ρ) s B) (hs : run (stepStmt ρ) s B = .ok s') :
    ∃ a', Rep s' a' ∧ a'.dangling = false ∧ ∀ r, ¬Taken T (evs ++ callsOf U ρ B) r →
      ¬Taken T evs r ∧ a'.findReg r = a.findReg r := by
  induction B generalizing evs s a with
  | nil =>
    cases hs
    exact ⟨a, hr, hd, fun r hnot => ⟨by simpa [callsOf] using hnot, rfl⟩⟩
  | cons st B ih =>
    obtain ⟨hst, hB⟩ := along_cons.mp hspare
    obtain ⟨s₁, h₁, hrest⟩ := run_cons_eq_ok.mp hs
    rw [← List.singleton_append, callsOf_append, ← List.append_assoc]
    rcases hr.stepStmt h₁ with ⟨hc, rfl⟩ | ⟨c, a₁, hc, hcall, hr₁⟩
    · rw [callsOf_of_none hc, List.append_nil]
      exact ih hevs hr hd (hB _ h₁) hrest
    · rw [callsOf_of_some hc]
      have hstep : stepTool s (.helper c) = .ok s₁ := by
        rw [stepStmt, hc] at h₁
        exact h₁
      obtain ⟨deps, hsrc, hassign⟩ := bind_eq_ok.mp hcall
      obtain ⟨hd₁, -⟩ := assign_kept hd (hr.sparesHead hd hsrc (hst c hc)) hassign
      obtain ⟨a', hr', hd', hregs⟩ := ih (hevs.snoc hstep) hr₁ hd₁ (hB _ h₁) hrest
      refine ⟨a', hr', hd', fun r hnot => ?_⟩
      obtain ⟨hnot, hfind⟩ := hregs r hnot
      obtain ⟨halters, htaken⟩ := Taken.not_snoc hevs hnot
      refine ⟨fun ht => hU (htaken ht).1, hfind.trans ?_⟩
      exact findReg_of_not_alters (e := .helper c) hr (hst c hc) (halters hU) hcall

end Others

/-! ### Every run -/

theorem regListOf_eq {s : State} {a : DepState} (hr : Rep s a) (r : BitVec 32) :
    regListOf s r = .ok (a.findReg r) := by
  obtain ⟨q, hq, hat⟩ := findReadDepReg_spec hr r
  rw [regListOf, hq, ok_bind, hat.toList]

section Run

open DepState

variable {T U : ThreadId} {evs : List (ThreadId × Event)} {ρ : IRTemp → UWord}
  {s s' s₀ : State} {sched sched₁ sched₂ : List (Turn fnname)}

/-- **The two runs between turns**: nothing dangles, and the registers are the same but for
those that another thread has. -/
structure Paired (T : ThreadId) (evs : List (ThreadId × Event)) (s s₀ : State) : Prop where
  runs : RunsTo evs s
  regs : ∃ a a₀, Rep s a ∧ Rep s₀ a₀ ∧ a.dangling = false ∧ a₀.dangling = false ∧
    ∀ r, ¬Taken T evs r → a.findReg r = a₀.findReg r

theorem Paired.hook (h : Paired T evs s s₀) {n : ℕ} {args : ℕ → UWord}
    (hs : stepTool s (.preCall n args) = .ok s') :
    Paired T (evs ++ [(U, .preCall n args)]) s' s₀ := by
  obtain ⟨a, a₀, hr, hr₀, hd, hd₀, hregs⟩ := h.regs
  obtain ⟨a', hcall, hr'⟩ := (stepTool_lockstep hr _).ok_right hs
  refine ⟨h.runs.snoc hs, a', a₀, hr', hr₀, (preCall_frame hcall).1.trans hd, hd₀, fun r hnot => ?_⟩
  rw [findReg_step hr id (fun hput => by cases hput) hcall]
  exact hregs r fun ht => hnot (.stays ht h.runs (by simp [Event.puts?]))

theorem Paired.other (h : Paired T evs s s₀) (hU : U ≠ T) {B : List IRStmt}
    (hspare : SparesHeads ρ s B) (hs : run (stepStmt ρ) s (executed ρ B) = .ok s') :
    Paired T (evs ++ callsOf U ρ (executed ρ B)) s' s₀ := by
  obtain ⟨a, a₀, hr, hr₀, hd, hd₀, hregs⟩ := h.regs
  obtain ⟨a', hr', hd', hsame⟩ := regs_run hU h.runs hr hd hspare hs
  refine ⟨h.runs.calls hs, a', a₀, hr', hr₀, hd', hd₀, fun r hnot => ?_⟩
  obtain ⟨hnot, hfind⟩ := hsame r hnot
  exact hfind.trans (hregs r hnot)

theorem eventsOf_append (sched₁ sched₂ : List (Turn fnname)) :
    eventsOf (sched₁ ++ sched₂) = eventsOf sched₁ ++ eventsOf sched₂ := List.flatMap_append

theorem eventsOf_cons (turn : Turn fnname) (sched : List (Turn fnname)) :
    eventsOf (turn :: sched) = turnEvents turn ++ eventsOf sched := List.flatMap_cons

/-- The registers that a superblock of `T` gets from are not taken. -/
theorem Undisturbed.not_taken (h : Undisturbed T sched) {sb : Superblock fnname}
    (hsched : sched = sched₁ ++ (T, .block ρ sb) :: sched₂) {pre post : List IRStmt} {st : IRStmt}
    {t : IRTemp} {r : BitVec 32} (hpre : executed ρ sb.stmts = pre ++ st :: post)
    (hc : stmtCall ρ st = some (.assgnTmpGet t r)) :
    ¬Taken T (eventsOf sched₁ ++ callsOf T ρ pre) r := by
  refine h.gets _ t r (callsOf T ρ post ++ eventsOf sched₂) ?_
  have hcalls : callsOf T ρ (executed ρ sb.stmts) =
      callsOf T ρ pre ++ (T, .helper (.assgnTmpGet t r)) :: callsOf T ρ post := by
    rw [hpre, ← List.singleton_append, callsOf_append, callsOf_append, callsOf_of_some hc,
      List.singleton_append]
  rw [hsched, eventsOf_append, eventsOf_cons, turnEvents, hcalls, List.append_assoc,
    List.append_assoc, List.cons_append]

/-- **Within a superblock of `T`** the registers are the same but for those that another thread
has, and so is the shadow memory. -/
theorem Undisturbed.sameStores (h : Undisturbed T sched) {sb : Superblock fnname}
    (hsched : sched = sched₁ ++ (T, .block ρ sb) :: sched₂)
    (hs : run stepTurn (.init true) sched₁ = .ok s)
    (hrun : run (stepBeside T) (.init true, .init true) sched₁ = .ok (s, s₀))
    (hpair : Paired T (eventsOf sched₁) s s₀) {pre post : List IRStmt}
    (hpre : executed ρ sb.stmts = pre ++ post) (h₁ : run (stepStmt ρ) s pre = .ok s') :
    ∃ w, run (stepStmt ρ) (s₀.withShadowOf s) pre = .ok w ∧ ∃ a b, Rep s' a ∧ Rep w b ∧
      SameStores (Taken T (eventsOf sched₁ ++ callsOf T ρ pre)) a b := by
  obtain ⟨a, a₀, hr, hr₀, hd, hd₀, hregs⟩ := hpair.regs
  obtain ⟨hspare, hlocal⟩ := h.alone sched₁ ρ sb sched₂ hsched s s₀ hrun
  have hstart : SameStores (Taken T (eventsOf sched₁ ++ callsOf T ρ [])) a
      { a₀ with shadow := a.shadow, lost := true } :=
    ⟨hd, hd₀, fun r hr => hregs r (by simpa [callsOf] using hr), rfl⟩
  obtain ⟨T', n, m, w, -, -, hw, habr, -⟩ := abreast_run
    (F := fun pre => Taken T (eventsOf sched₁ ++ callsOf T ρ pre)) sb.wellScoped
    ⟨a, _, hr, hr₀.withShadowOf hr, hstart⟩ (h.spares sched₁ T ρ sb sched₂ hsched s hs) hspare
    (h.isLocal sched₁ ρ sb sched₂ hsched s hs) hlocal
    (fun pre st post t r hpre hc => h.not_taken hsched hpre hc)
    (fun pre st s₁ h₁ r => Taken.acts (hpair.runs.calls h₁)) hpre h₁
  exact ⟨w, hw, habr.sameStores⟩

/-- **Between turns the registers of `T` are its own**, but for those that another thread
has. -/
theorem Undisturbed.paired (h : Undisturbed T sched) (hsched : sched = sched₁ ++ sched₂)
    (hs : run stepTurn (.init true) sched₁ = .ok s) :
    ∃ s₀, run (stepBeside T) (.init true, .init true) sched₁ = .ok (s, s₀) ∧
      Paired T (eventsOf sched₁) s s₀ := by
  induction sched₁ using List.reverseRecOn generalizing sched₂ s with
  | nil =>
    cases hs
    exact ⟨_, rfl, rfl, _, _, rep_init true, rep_init true, rfl, rfl, fun r _ => rfl⟩
  | append_singleton sched₁ turn ih =>
    obtain ⟨s₁, h₁, hs⟩ := run_append_eq_ok.mp hs
    obtain ⟨s₂, h₂, hs⟩ := run_cons_eq_ok.mp hs
    cases hs
    have hsched : sched = sched₁ ++ turn :: sched₂ :=
      hsched.trans (List.append_cons sched₁ turn sched₂).symm
    obtain ⟨s₀, hrun, hpair⟩ := ih hsched h₁
    have hnext : ∀ {s₀'}, stepBeside T (s₁, s₀) turn = .ok (s, s₀') →
        run (stepBeside T) (.init true, .init true) (sched₁ ++ [turn]) = .ok (s, s₀') :=
      fun hstep => run_append_eq_ok.mpr ⟨(s₁, s₀), hrun, run_cons_eq_ok.mpr ⟨_, hstep, rfl⟩⟩
    rw [eventsOf_append]
    obtain ⟨U, act⟩ := turn
    cases act with
    | preCall n args =>
      refine ⟨s₀, hnext ?_, hpair.hook h₂⟩
      rw [stepBeside, h₂]
      rfl
    | block ρ sb =>
      have hcalls : eventsOf [(U, .block ρ sb)] = callsOf U ρ (executed ρ sb.stmts) := by
        simp [eventsOf, turnEvents]
      have hstmts : run (stepStmt ρ) s₁ (executed ρ sb.stmts) = .ok s := by
        rw [← stepActivity_block]
        exact h₂
      rw [hcalls]
      by_cases hU : U = T
      · subst hU
        obtain ⟨w, hw, a, b, hr, hrw, hsame⟩ :=
          h.sameStores hsched h₁ hrun hpair (List.append_nil _).symm hstmts
        refine ⟨w, hnext ?_, hpair.runs.calls hstmts, a, b, hr, hrw, hsame.dangling,
          hsame.dangling', hsame.regs⟩
        rw [stepBeside, h₂, ok_bind]
        dsimp only
        rw [if_pos rfl, stepActivity_block, hw, ok_bind]
      · refine ⟨s₀, hnext ?_, hpair.other hU (h.spares sched₁ U ρ sb sched₂ hsched s₁ h₁) hstmts⟩
        rw [stepBeside, h₂, ok_bind]
        dsimp only
        rw [if_neg hU]

end Run

/-- **A thread finds its own registers** in every run in which they are undisturbed. -/
theorem findsOwn_of_undisturbed {T : ThreadId} {sched : List (Turn fnname)}
    (h : Undisturbed T sched) : FindsOwn T sched := by
  intro sched₁ ρ sb sched₂ hsched s hs
  obtain ⟨s₀, hrun, hpair⟩ := h.paired hsched hs
  refine ⟨s₀, hrun, fun pre st post t offset hpre hc s₁ h₁ => ?_⟩
  obtain ⟨w, hw, a, b, hr, hrw, hsame⟩ := h.sameStores hsched hs hrun hpair hpre h₁
  refine ⟨w, b.findReg offset, hw, ?_, regListOf_eq hrw offset⟩
  rw [regListOf_eq hr, hsame.regs offset (h.not_taken hsched hpre hc)]

/-! ### Two threads -/

/-- A `PUT` of another thread is what takes a register. -/
theorem Taken.exists_put {T : ThreadId} {evs : List (ThreadId × Event)} {r : BitVec 32}
    (h : Taken T evs r) : ∃ x ∈ evs, x.1 ≠ T ∧ x.2.puts? = some r := by
  induction h with
  | @alters evs s U e r hU _ halters =>
    refine ⟨(U, e), List.mem_append_right evs List.mem_cons_self, hU, ?_⟩
    cases e with
    | preCall => exact halters.elim
    | helper c =>
      cases c with
      | putTmp | putCnst => exact congrArg some halters.1
      | _ => exact halters.elim
  | stays _ _ _ ih =>
    obtain ⟨x, hx, hput⟩ := ih
    exact ⟨x, List.mem_append_left _ hx, hput⟩

/-- A byte is loaded, and put at an offset. -/
def loadPut : Superblock fun _ => none :=
  .ofHandled _ [.wrTmp 0 (.load (.const 8)), .put 16 (.rdTmp 0)] (by decide) rfl (by decide)

/-- A constant is put at another one. -/
def putConst : Superblock fun _ => none :=
  .ofHandled _ [.put 24 (.const 0)] (by decide) rfl (by decide)

/-- What is at the first one is got. -/
def getPut : Superblock fun _ => none :=
  .ofHandled _ [.wrTmp 1 (.get 16)] (by decide) rfl (by decide)

/-- A thread puts a byte that was read and gets it again, and another one comes between. -/
def putBetween : List (Turn fun _ => none) :=
  [(1, .preCall nrRead (sysArgs 0 8 1)), (1, .block (fun _ => 0) loadPut),
    (2, .block (fun _ => 0) putConst), (1, .block (fun _ => 0) getPut)]

theorem spares_of_null {ρ : IRTemp → UWord} {s : State} {st : IRStmt} (hs : s.varDeps = none) :
    Spares ρ s st := by
  rintro c - ⟨t, -, -, i, nd, hi, -⟩
  rw [hs] at hi
  cases hi

theorem loadPut_spares {s : State} (hs : s.varDeps = none) :
    SparesHeads (fun _ => 0) s loadPut.stmts := by
  intro pre st post hpre s₁ h₁
  rcases pre with _ | ⟨st', _ | ⟨st'', pre⟩⟩
  · cases h₁
    exact spares_of_null hs
  · cases hpre
    rintro c hc ⟨t, ht, -⟩
    cases hc
    cases ht
  · simp [loadPut, Superblock.ofHandled, executed, exitTaken] at hpre

theorem loadPut_local {s s₁ s₂ : State} (vs : List ℤ)
    (h₁ : stepStmt (fun _ => 0) s (.wrTmp 0 (.load (.const 8))) = .ok s₁)
    (h₂ : stepStmt (fun _ => 0) { s with varDeps := none } (.wrTmp 0 (.load (.const 8))) = .ok s₂)
    (hvs : listOf s₁ 0 = .ok vs) (hvs' : listOf s₂ 0 = .ok vs) :
    Local (fun _ => 0) s loadPut.stmts := by
  intro pre st post c hpre hc s' hs'
  rcases pre with _ | ⟨st', _ | ⟨st'', pre⟩⟩
  · cases hpre
    cases hc
    exact ⟨_, rfl, fun t ht => absurd ht List.not_mem_nil⟩
  · cases hpre
    cases hc
    obtain ⟨s₃, h₃, hs'⟩ := run_cons_eq_ok.mp hs'
    cases hs'
    obtain rfl := Except.ok.inj (h₁.symm.trans h₃)
    refine ⟨s₂, run_cons_eq_ok.mpr ⟨s₂, h₂, rfl⟩, fun t ht => ⟨vs, ?_, ?_⟩⟩
    · obtain rfl := List.mem_singleton.mp ht
      exact hvs
    · obtain rfl := List.mem_singleton.mp ht
      exact hvs'
  · simp [loadPut, Superblock.ofHandled, executed, exitTaken] at hpre

theorem sparesHeads_singleton {ρ : IRTemp → UWord} {s : State} {B : List IRStmt} {st : IRStmt}
    (hB : executed ρ B = [st]) (h : Spares ρ s st) : SparesHeads ρ s B := by
  rw [SparesHeads, hB]
  exact along_cons.mpr ⟨h, fun s' _ => along_nil s'⟩

theorem local_singleton {ρ : IRTemp → UWord} {s : State} {B : List IRStmt} {st : IRStmt}
    (hB : executed ρ B = [st]) (h : ∀ c, stmtCall ρ st = some c → c.lookups = []) :
    Local ρ s B := by
  intro pre st' post c hpre hc s₁ h₁
  obtain ⟨rfl, hst⟩ : pre = [] ∧ st' = st := by
    rw [hB] at hpre
    rcases pre with _ | ⟨x, pre⟩
    · exact ⟨rfl, (List.cons.inj hpre).1.symm⟩
    · simp at hpre
  refine ⟨_, rfl, fun t ht => ?_⟩
  rw [hst] at hc
  rw [h c hc] at ht
  exact absurd ht List.not_mem_nil

theorem putBetween_split {U : ThreadId} {ρ : IRTemp → UWord} {sb : Superblock fun _ => none}
    {sched₁ sched₂ : List (Turn fun _ => none)}
    (h : putBetween = sched₁ ++ (U, .block ρ sb) :: sched₂) : ρ = (fun _ => 0) ∧
      ((U = 1 ∧ sb = loadPut ∧ sched₁ = putBetween.take 1) ∨
        (U = 2 ∧ sb = putConst ∧ sched₁ = putBetween.take 2) ∨
        (U = 1 ∧ sb = getPut ∧ sched₁ = putBetween.take 3)) := by
  rcases sched₁ with _ | ⟨x₀, _ | ⟨x₁, _ | ⟨x₂, _ | ⟨x₃, sched₁⟩⟩⟩⟩
  · cases h
  · cases h
    exact ⟨rfl, .inl ⟨rfl, rfl, rfl⟩⟩
  · cases h
    exact ⟨rfl, .inr (.inl ⟨rfl, rfl, rfl⟩)⟩
  · cases h
    exact ⟨rfl, .inr (.inr ⟨rfl, rfl, rfl⟩)⟩
  · simp [putBetween] at h

theorem undisturbed_putBetween : Undisturbed 1 putBetween where
  spares sched₁ U ρ sb sched₂ hsched s hs := by
    obtain ⟨rfl, ⟨rfl, rfl, rfl⟩ | ⟨rfl, rfl, rfl⟩ | ⟨rfl, rfl, rfl⟩⟩ := putBetween_split hsched
    · exact loadPut_spares (by cases hs; rfl)
    · refine sparesHeads_singleton rfl ?_
      rintro c hc ⟨t, ht, -⟩
      cases hc
      cases ht
    · refine sparesHeads_singleton rfl ?_
      rintro c hc ⟨t, -, he, -⟩
      cases hc
      exact he
  isLocal sched₁ ρ sb sched₂ hsched s hs := by
    obtain ⟨rfl, ⟨-, rfl, rfl⟩ | ⟨hU, -⟩ | ⟨-, rfl, rfl⟩⟩ := putBetween_split hsched
    · cases hs
      exact loadPut_local [1] rfl rfl rfl rfl
    · cases hU
    · refine local_singleton rfl fun c hc => ?_
      cases hc
      rfl
  alone sched₁ ρ sb sched₂ hsched s s₀ hs := by
    obtain ⟨rfl, ⟨-, rfl, rfl⟩ | ⟨hU, -⟩ | ⟨-, rfl, rfl⟩⟩ := putBetween_split hsched
    · cases hs
      exact ⟨loadPut_spares rfl, loadPut_local [1] rfl rfl rfl rfl⟩
    · cases hU
    · refine ⟨sparesHeads_singleton rfl ?_, local_singleton rfl fun c hc => ?_⟩
      · rintro c hc ⟨t, -, he, -⟩
        cases hc
        exact he
      · cases hc
        rfl
  gets evs t offset evs' hevs htaken := by
    have hlist : eventsOf putBetween = [(1, .preCall nrRead (sysArgs 0 8 1)),
        (1, .helper (.assgnTmpLoad 0 8)), (1, .helper (.putTmp 16 0)), (2, .helper (.putCnst 24)),
        (1, .helper (.assgnTmpGet 1 16))] := rfl
    obtain ⟨x, hx, hne, hput⟩ := htaken.exists_put
    have hx : x ∈ eventsOf putBetween := hevs ▸ List.mem_append_left _ hx
    have hget : (1, .helper (.assgnTmpGet t offset)) ∈ eventsOf putBetween :=
      hevs ▸ List.mem_append_right evs List.mem_cons_self
    obtain ⟨-, rfl⟩ : t = 1 ∧ offset = 16 := by simpa [hlist] using hget
    -- the other thread has put something only at another offset
    obtain rfl : x = (2, .helper (.putCnst 24)) := by
      simp only [hlist, List.mem_cons, List.not_mem_nil, or_false] at hx
      rcases hx with rfl | rfl | rfl | rfl | rfl
      · exact absurd rfl hne
      · exact absurd rfl hne
      · exact absurd rfl hne
      · rfl
      · exact absurd rfl hne
    cases hput

theorem findsOwn_of_undisturbed_putBetween : FindsOwn 1 putBetween :=
  findsOwn_of_undisturbed undisturbed_putBetween

/-- A byte that was read is put at an offset by one thread, and got from there by another. -/
theorem not_findsOwn : ¬∀ (fnname : UWord → Option String) (T : ThreadId)
    (sched : List (Turn fnname)), FindsOwn T sched := by
  intro h
  obtain ⟨s, hs, hthere⟩ : ∃ s, run stepTurn (.init true)
      [((2 : ThreadId), .preCall nrRead (sysArgs 0 8 1)), (2, .block (fun _ => 0) loadPut)] =
        .ok s ∧ regListOf s 16 = .ok [1] := ⟨_, rfl, rfl⟩
  obtain ⟨s₀, hs₀, hfinds⟩ := h (fun _ => none) 1 [(2, .preCall nrRead (sysArgs 0 8 1)),
    (2, .block (fun _ => 0) loadPut), (1, .block (fun _ => 0) getPut)] _ (fun _ => 0) getPut []
    rfl s hs
  obtain ⟨s₂, vs, h₂, hvs, hown⟩ := hfinds [] (.wrTmp 1 (.get 16)) [] 1 16 rfl rfl s rfl
  cases hs
  cases hs₀
  cases h₂
  cases hthere.symm.trans hvs
  cases hown

end DepLeak

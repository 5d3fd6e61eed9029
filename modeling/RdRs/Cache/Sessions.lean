/-
  `cache/item_read_at.rs`, `cache/download_session.rs` — readers that share a download.

  A `read_at` takes the first registered session that covers its offset, or spawns and registers one;
  only after that, with the lock released, does it count itself in (`WaiterGuard::new`).  The last
  guard that is dropped cancels the session, and so does the kicker; the session stays registered
  until its worker's task is gone.

  The readers and the runtime, which ends the workers, are the tasks of a pool over the sessions.  A
  session is its index in the list of all sessions ever spawned.

  * `dead_holder_joins` — a reader that holds a dead session goes on to join it;
  * `joins_live_iff` — readers join live sessions exactly as long as no lookup finds a cancelled
    session, and none is cancelled between a reader's lookup and its guard.
-/
import RdRs.Lib.Runs

set_option linter.unusedVariables false

namespace RdRs.Cache

open RdRs.Runs

/-! ## Sessions -/

/-- `DownloadSession`; the abort handle only makes the worker end, which it may do at any time. -/
structure Session where
  anchor : Nat
  fetchUntil : Nat
  waiters : Nat
  cancelled : Bool
deriving DecidableEq

/-- `DownloadSession::covers_fuse_offset` -/
def Session.coversFuseOffset (s : Session) (offset : Nat) : Bool :=
  decide (offset ≥ s.anchor) && decide (offset < s.fetchUntil)

/-- The sessions of an item, and `active_workers`. -/
structure Sessions where
  all : List Session
  activeWorkers : List Nat
deriving DecidableEq

namespace Sessions

/-- The cancel token of a session. -/
def isCancelled (g : Sessions) (id : Nat) : Bool := g.all[id]?.any (·.cancelled)

/-- The first registered session that covers the offset. -/
def covering (g : Sessions) (offset : Nat) : Option Nat :=
  g.activeWorkers.find? fun id => g.all[id]?.any (·.coversFuseOffset offset)

/-- `spawn_worker` -/
def spawnWorker (g : Sessions) (offset fetchUntil : Nat) : Sessions :=
  { g with all := g.all ++ [⟨offset, fetchUntil, 0, false⟩] }

/-- `workers.push` -/
def push (g : Sessions) (id : Nat) : Sessions := { g with activeWorkers := g.activeWorkers ++ [id] }

/-- `DownloadSession::cancel` -/
def cancel (g : Sessions) (id : Nat) : Sessions :=
  { g with all := g.all.modify id fun s => { s with cancelled := true } }

/-- `WaiterGuard::new` -/
def newGuard (g : Sessions) (id : Nat) : Sessions :=
  { g with all := g.all.modify id fun s => { s with waiters := s.waiters + 1 } }

/-- `WaiterGuard::drop`: the last one cancels. -/
def dropGuard (g : Sessions) (id : Nat) : Sessions :=
  { g with all := g.all.modify id fun s =>
      { s with waiters := s.waiters - 1, cancelled := s.cancelled || decide (s.waiters = 1) } }

/-- `WorkerGuard::drop` -/
def unregister (g : Sessions) (id : Nat) : Sessions :=
  { g with activeWorkers := g.activeWorkers.filter fun id' => id' ≠ id }

end Sessions

/-! ## Readers -/

/-- Where a task is.  A reader keeps its offset and `fetch_until` for the sessions it spawns. -/
inductive Task where
  | enters (offset fetchUntil : Nat)
  /-- has a session, found (`joined`) or spawned, and no guard yet -/
  | holds (offset fetchUntil id : Nat) (joined : Bool)
  | waits (offset fetchUntil id : Nat) (joined : Bool)
  /-- the kicker, step by step: the old session is cancelled, -/
  | kicked (offset fetchUntil old : Nat)
  /-- a new one is spawned, -/
  | spawned (offset fetchUntil old new : Nat)
  /-- it is registered, -/
  | pushed (offset fetchUntil old new : Nat)
  /-- it has a guard, and the old guard is still there -/
  | switching (offset fetchUntil old new : Nat)
  | finished
  | runtime
deriving DecidableEq

inductive SessionStep where
  | lookup
  | newGuard
  | dropGuard
  | kick
  | spawn
  | push
  | exit (id : Nat)
deriving DecidableEq

/-- One step of a task.  Only a reader that did not spawn its session kicks. -/
def sessionAct (g : Sessions) : Task → SessionStep → Option (Sessions × Task)
  | .enters offset fetchUntil, .lookup =>
    match g.covering offset with
    | some id => some (g, .holds offset fetchUntil id true)
    | none => some ((g.spawnWorker offset fetchUntil).push g.all.length,
        .holds offset fetchUntil g.all.length false)
  | .holds offset fetchUntil id joined, .newGuard =>
    some (g.newGuard id, .waits offset fetchUntil id joined)
  | .waits offset fetchUntil id joined, .dropGuard => some (g.dropGuard id, .finished)
  | .waits offset fetchUntil id true, .kick => some (g.cancel id, .kicked offset fetchUntil id)
  | .kicked offset fetchUntil old, .spawn =>
    some (g.spawnWorker offset fetchUntil, .spawned offset fetchUntil old g.all.length)
  | .spawned offset fetchUntil old new, .push =>
    some (g.push new, .pushed offset fetchUntil old new)
  | .pushed offset fetchUntil old new, .newGuard =>
    some (g.newGuard new, .switching offset fetchUntil old new)
  | .switching offset fetchUntil old new, .dropGuard =>
    some (g.dropGuard old, .waits offset fetchUntil new false)
  | .runtime, .exit id => some (g.unregister id, .runtime)
  | _, _ => none

/-- The pool of readers, in any interleaving. -/
def readers : Pool Sessions Task → Nat × SessionStep → Option (Pool Sessions Task) :=
  Pool.step sessionAct

/-- **A reader that joins a registered session joins a live one**: its session is not cancelled when
    it creates its guard. -/
def JoinsLive (p : Pool Sessions Task) (e : Nat × SessionStep) : Prop :=
  e.2 = .newGuard → ∀ offset fetchUntil id,
    p.tasks[e.1]? = some (.holds offset fetchUntil id true) → p.shared.isCancelled id = false

/-! ## What a step finds and cancels -/

/-- The session a reader is about to join. -/
def Task.joining : Task → Option Nat
  | .holds _ _ id true => some id
  | _ => none

/-- The session a lookup finds. -/
def finds (g : Sessions) : Task → SessionStep → Option Nat
  | .enters offset _, .lookup => g.covering offset
  | _, _ => none

/-- The guard that is dropped is the session's last. -/
def Sessions.isLast (g : Sessions) (id : Nat) : Bool := g.all[id]?.any (·.waiters = 1)

/-- The session a step cancels: the kicker's, or the one whose last guard it drops. -/
def cancels (g : Sessions) : Task → SessionStep → Option Nat
  | .waits _ _ id true, .kick => if id < g.all.length then some id else none
  | .waits _ _ id _, .dropGuard => if g.isLast id then some id else none
  | .switching _ _ old _, .dropGuard => if g.isLast old then some old else none
  | _, _ => none

theorem isCancelled_spawnWorker (g : Sessions) (offset fetchUntil j : Nat) :
    (g.spawnWorker offset fetchUntil).isCancelled j = g.isCancelled j := by
  rw [Sessions.isCancelled, Sessions.isCancelled, Sessions.spawnWorker, List.getElem?_append]
  split
  · rfl
  · rename_i hlen
    have hnone : g.all[j]? = none := List.getElem?_eq_none (by omega)
    rw [hnone]
    cases j - g.all.length with
    | zero => rfl
    | succ n => rfl

theorem isCancelled_newGuard (g : Sessions) (id j : Nat) :
    (g.newGuard id).isCancelled j = g.isCancelled j := by
  rw [Sessions.isCancelled, Sessions.isCancelled, Sessions.newGuard, List.getElem?_modify]
  cases g.all[j]? with
  | none => rfl
  | some s =>
    by_cases h : id = j
    · simp [h]
    · simp [h]

theorem isCancelled_cancel (g : Sessions) (id j : Nat) : (g.cancel id).isCancelled j = true ↔
    g.isCancelled j = true ∨ (if id < g.all.length then some id else none) = some j := by
  rw [Sessions.isCancelled, Sessions.isCancelled, Sessions.cancel, List.getElem?_modify]
  by_cases h : id = j
  · subst h
    by_cases hlt : id < g.all.length
    · simp [hlt]
    · simp [hlt]
  · simp [h]

theorem isCancelled_dropGuard (g : Sessions) (id j : Nat) : (g.dropGuard id).isCancelled j = true ↔
    g.isCancelled j = true ∨ (if g.isLast id then some id else none) = some j := by
  rw [Sessions.isCancelled, Sessions.isCancelled, Sessions.isLast, Sessions.dropGuard,
    List.getElem?_modify]
  by_cases h : id = j
  · subst h
    cases g.all[id]? with
    | none => simp
    | some s => simp
  · simp [h]

/-- **What a step can do**: one case for each transition of a task. -/
inductive Moves (g : Sessions) : Task → SessionStep → Sessions → Task → Prop where
  | found (o f id : Nat) (h : g.covering o = some id) :
      Moves g (.enters o f) .lookup g (.holds o f id true)
  | spawns (o f : Nat) (h : g.covering o = none) :
      Moves g (.enters o f) .lookup ((g.spawnWorker o f).push g.all.length)
        (.holds o f g.all.length false)
  | joins (o f id : Nat) (joined : Bool) :
      Moves g (.holds o f id joined) .newGuard (g.newGuard id) (.waits o f id joined)
  | leaves (o f id : Nat) (joined : Bool) :
      Moves g (.waits o f id joined) .dropGuard (g.dropGuard id) .finished
  | kicks (o f id : Nat) : Moves g (.waits o f id true) .kick (g.cancel id) (.kicked o f id)
  | respawns (o f old : Nat) :
      Moves g (.kicked o f old) .spawn (g.spawnWorker o f) (.spawned o f old g.all.length)
  | registers (o f old new : Nat) :
      Moves g (.spawned o f old new) .push (g.push new) (.pushed o f old new)
  | rejoins (o f old new : Nat) :
      Moves g (.pushed o f old new) .newGuard (g.newGuard new) (.switching o f old new)
  | switches (o f old new : Nat) :
      Moves g (.switching o f old new) .dropGuard (g.dropGuard old) (.waits o f new false)
  | exits (id : Nat) : Moves g .runtime (.exit id) (g.unregister id) .runtime

theorem moves_of_act {g g' : Sessions} {l l' : Task} {a : SessionStep}
    (h : sessionAct g l a = some (g', l')) : Moves g l a g' l' := by
  unfold sessionAct at h
  split at h
  · split at h
    · rename_i hfound
      obtain ⟨rfl, rfl⟩ := Prod.mk.inj (Option.some.inj h)
      exact .found _ _ _ hfound
    · rename_i hnone
      obtain ⟨rfl, rfl⟩ := Prod.mk.inj (Option.some.inj h)
      exact .spawns _ _ hnone
  all_goals first
    | (obtain ⟨rfl, rfl⟩ := Prod.mk.inj (Option.some.inj h); constructor)
    | cases h

/-- **What a step cancels**, and nothing is taken back. -/
theorem isCancelled_act {g g' : Sessions} {l l' : Task} {a : SessionStep}
    (h : sessionAct g l a = some (g', l')) (j : Nat) :
    g'.isCancelled j = true ↔ g.isCancelled j = true ∨ cancels g l a = some j := by
  cases moves_of_act h with
  | found o f id _ => simp [cancels]
  | spawns o f _ =>
    have hsame := isCancelled_spawnWorker g o f j
    rw [← hsame]
    simp [cancels, Sessions.push, Sessions.isCancelled]
  | joins o f id joined => simp [cancels, isCancelled_newGuard]
  | leaves o f id joined =>
    cases joined with
    | false => exact isCancelled_dropGuard g id j
    | true => exact isCancelled_dropGuard g id j
  | kicks o f id => exact isCancelled_cancel g id j
  | respawns o f old => simp [cancels, isCancelled_spawnWorker]
  | registers o f old new => simp [cancels, Sessions.push, Sessions.isCancelled]
  | rejoins o f old new => simp [cancels, isCancelled_newGuard]
  | switches o f old new => exact isCancelled_dropGuard g old j
  | exits id => simp [cancels, Sessions.unregister, Sessions.isCancelled]

/-- Who is about to join has just found the session. -/
theorem joining_act {g g' : Sessions} {l l' : Task} {a : SessionStep}
    (h : sessionAct g l a = some (g', l')) {id : Nat} (hid : l'.joining = some id) :
    finds g l a = some id := by
  cases moves_of_act h with
  | found o f id' hfound =>
    obtain rfl := Option.some.inj hid
    exact hfound
  | _ => exact absurd hid nofun

theorem cancels_of_finds {g : Sessions} {l : Task} {a : SessionStep} {id : Nat}
    (h : finds g l a = some id) : cancels g l a = none := by
  unfold finds at h
  split at h
  · rfl
  · exact absurd h nofun

/-! ## Joining live sessions -/

/-- **The condition on a step.**  A lookup does not find a cancelled session, and no session is
    cancelled that a reader is about to join. -/
def Undisturbed (p : Pool Sessions Task) (e : Nat × SessionStep) : Prop :=
  ∀ l ∈ p.tasks[e.1]?, (∀ id ∈ finds p.shared l e.2, p.shared.isCancelled id = false) ∧
    ∀ id ∈ cancels p.shared l e.2, ∀ l' ∈ p.tasks, l'.joining ≠ some id

instance (p : Pool Sessions Task) (e : Nat × SessionStep) : Decidable (Undisturbed p e) :=
  inferInstanceAs (Decidable (∀ l ∈ p.tasks[e.1]?,
    (∀ id ∈ finds p.shared l e.2, p.shared.isCancelled id = false) ∧
      ∀ id ∈ cancels p.shared l e.2, ∀ l' ∈ p.tasks, l'.joining ≠ some id))

/-- Whoever is about to join has a live session. -/
def LiveHolders (p : Pool Sessions Task) : Prop :=
  ∀ l ∈ p.tasks, ∀ id, l.joining = some id → p.shared.isCancelled id = false

theorem liveHolders_step (p : Pool Sessions Task) (e : Nat × SessionStep) (q : Pool Sessions Task)
    (h : LiveHolders p) (hcond : Undisturbed p e) (hstep : readers p e = some q) :
    LiveHolders q := by
  obtain ⟨l, g', l', hl, hact, rfl⟩ := Pool.step_eq_some hstep
  obtain ⟨hfinds, hcancels⟩ := hcond l hl
  -- a session that was live is live unless this step cancels it
  have hlive : ∀ id, p.shared.isCancelled id = false → cancels p.shared l e.2 ≠ some id →
      g'.isCancelled id = false := by
    intro id hid hno
    refine Bool.eq_false_iff.mpr fun hdead => ?_
    rcases (isCancelled_act hact id).mp hdead with hbefore | hnow
    · exact absurd (hid.symm.trans hbefore) nofun
    · exact hno hnow
  intro k hk id hid
  rcases List.mem_or_eq_of_mem_set hk with hother | rfl
  · exact hlive id (h k hother id hid) fun hnow => hcancels id hnow k hother hid
  · have hfound := joining_act hact hid
    refine hlive id (hfinds id hfound) ?_
    rw [cancels_of_finds hfound]
    exact nofun

theorem joinsLive_of_liveHolders {p : Pool Sessions Task} (h : LiveHolders p)
    (e : Nat × SessionStep) : JoinsLive p e :=
  fun _ o f id hl => h _ (List.mem_of_getElem? hl) id rfl

/-- Task `r` is about to join a session that is cancelled. -/
def HoldsDead (p : Pool Sessions Task) (r : Nat) : Prop :=
  ∃ l id, p.tasks[r]? = some l ∧ l.joining = some id ∧ p.shared.isCancelled id = true

theorem exists_holds_of_joining {l : Task} {id : Nat} (h : l.joining = some id) :
    ∃ o f, l = .holds o f id true := by
  unfold Task.joining at h
  split at h
  · obtain rfl := Option.some.inj h
    exact ⟨_, _, rfl⟩
  · exact absurd h nofun

/-- While others act, a dead session stays dead. -/
theorem HoldsDead.step_ne {p q : Pool Sessions Task} {r : Nat} (h : HoldsDead p r)
    {e : Nat × SessionStep} (hne : e.1 ≠ r) (hstep : readers p e = some q) : HoldsDead q r := by
  obtain ⟨l, id, hl, hid, hdead⟩ := h
  obtain ⟨k, g', k', hk, hact, rfl⟩ := Pool.step_eq_some hstep
  refine ⟨l, id, ?_, hid, (isCancelled_act hact id).mpr (Or.inl hdead)⟩
  rw [List.getElem?_set_ne hne]
  exact hl

/-- The only step of a reader that holds a session is to join it. -/
theorem HoldsDead.not_joinsLive {p q : Pool Sessions Task} {r : Nat} (h : HoldsDead p r)
    {a : SessionStep} (hstep : readers p (r, a) = some q) : ¬JoinsLive p (r, a) := by
  obtain ⟨l, id, hl, hid, hdead⟩ := h
  obtain ⟨o, f, rfl⟩ := exists_holds_of_joining hid
  obtain ⟨k, g', k', hk, hact, -⟩ := Pool.step_eq_some hstep
  obtain rfl := Option.some.inj (hl.symm.trans hk)
  cases moves_of_act hact with
  | joins =>
    intro hlive
    exact absurd ((hlive rfl o f id hl).symm.trans hdead) nofun

/-- Induction on the run: sooner or later, and at the end at the latest, the session is joined. -/
theorem dead_holder_joins : ∀ (es : List (Nat × SessionStep)) (p q : Pool Sessions Task) (r : Nat),
    HoldsDead p r → run readers p es = some q →
    ¬∀ e, Along readers JoinsLive p (es ++ [e])
  | [], p, q, r, hdead, _ => by
    intro hall
    obtain ⟨l, id, hl, hid, hcancelled⟩ := hdead
    obtain ⟨o, f, rfl⟩ := exists_holds_of_joining hid
    exact absurd (((hall (r, .newGuard)).1 rfl o f id hl).symm.trans hcancelled) nofun
  | e :: es, p, q, r, hdead, hrun => by
    intro hall
    obtain ⟨t, hstep, hrest⟩ := run_cons hrun
    by_cases hr : e.1 = r
    · subst hr
      exact hdead.not_joinsLive hstep (hall e).1
    · exact dead_holder_joins es t q r (hdead.step_ne hr hstep) hrest fun e' =>
        (hall e').2 t hstep

/-- A step that disturbs leaves a reader with a dead session. -/
theorem holdsDead_of_disturbed {p q : Pool Sessions Task} {e : Nat × SessionStep}
    (hstep : readers p e = some q) (hno : ¬Undisturbed p e) : ∃ r, HoldsDead q r := by
  obtain ⟨i, a⟩ := e
  obtain ⟨l, g', l', hl, hact, rfl⟩ := Pool.step_eq_some hstep
  by_contra hlive
  apply hno
  intro k hk
  obtain rfl := Option.some.inj (hl.symm.trans hk)
  refine ⟨fun id hid => Bool.eq_false_iff.mpr fun hdead => hlive ?_,
    fun id hid holder hmem hjoins => hlive ?_⟩
  · -- the reader itself has found it
    cases moves_of_act hact with
    | found o f id' hfound =>
      obtain rfl := Option.some.inj (hfound.symm.trans hid)
      refine ⟨i, .holds o f id' true, id', ?_, rfl, hdead⟩
      exact List.getElem?_set_self (List.getElem?_eq_some_iff.mp hl).1
    | spawns o f hnone => exact absurd (hnone.symm.trans hid) nofun
    | _ => exact absurd hid nofun
  · -- the holder is another reader
    obtain ⟨r, hr⟩ := List.mem_iff_getElem?.mp hmem
    have hne : i ≠ r := by
      rintro rfl
      obtain rfl := Option.some.inj (hl.symm.trans hr)
      obtain ⟨o, f, rfl⟩ := exists_holds_of_joining hjoins
      exact absurd hid nofun
    refine ⟨r, holder, id, ?_, hjoins, (isCancelled_act hact id).mpr (Or.inr hid)⟩
    show (p.tasks.set i l')[r]? = some holder
    rw [List.getElem?_set_ne hne]
    exact hr

/-- No session yet, and no reader past its lookup. -/
def Starts (p : Pool Sessions Task) : Prop :=
  p.shared = ⟨[], []⟩ ∧ ∀ l ∈ p.tasks, l = .runtime ∨ ∃ offset fetchUntil, l = .enters offset fetchUntil

theorem Starts.liveHolders {p : Pool Sessions Task} (h : Starts p) : LiveHolders p := by
  intro l hl id hid
  rcases h.2 l hl with rfl | ⟨o, f, rfl⟩
  · exact absurd hid nofun
  · exact absurd hid nofun

/-- **When readers join live sessions.**  In a run of any number of readers, and in whatever step
    comes next, every reader that joins a registered session joins a live one — exactly when no step
    of the run disturbs. -/
theorem joins_live_iff (p q : Pool Sessions Task) (es : List (Nat × SessionStep)) (hp : Starts p)
    (hrun : run readers p es = some q) :
    (∀ e, Along readers JoinsLive p (es ++ [e])) ↔ Along readers Undisturbed p es := by
  have hholds := hp.liveHolders
  clear hp
  induction es generalizing p with
  | nil =>
    refine iff_of_true (fun e => ⟨joinsLive_of_liveHolders hholds e, fun t _ => trivial⟩) trivial
  | cons e es ih =>
    obtain ⟨t, hstep, hrest⟩ := run_cons hrun
    rw [along_cons hstep]
    constructor
    · intro hall
      have hcond : Undisturbed p e := by
        by_contra hno
        obtain ⟨r, hdead⟩ := holdsDead_of_disturbed hstep hno
        exact dead_holder_joins es t q r hdead hrest fun e' => (hall e').2 t hstep
      have ht := liveHolders_step p e t hholds hcond hstep
      exact ⟨hcond, (ih t hrest ht).mp fun e' => (hall e').2 t hstep⟩
    · rintro ⟨hcond, hes⟩ e'
      have ht := liveHolders_step p e t hholds hcond hstep
      exact (along_cons hstep).mpr
        ⟨joinsLive_of_liveHolders hholds e, (ih t hrest ht).mpr hes e'⟩

/-- Two readers of one window, and the runtime. -/
def twoReaders : Pool Sessions Task := ⟨⟨[], []⟩, [.enters 0 10, .enters 5 10, .runtime]⟩

theorem starts_twoReaders : Starts twoReaders := by
  refine ⟨rfl, fun l hl => ?_⟩
  simp only [twoReaders, List.mem_cons, List.not_mem_nil, or_false] at hl
  rcases hl with rfl | rfl | rfl
  · exact Or.inr ⟨0, 10, rfl⟩
  · exact Or.inr ⟨5, 10, rfl⟩
  · exact Or.inl rfl

/-- The first reader is done before the second comes, and the worker has not ended yet: the second
    joins the cancelled session.  Or the first is done while the second is on its way. -/
theorem second_reader_joins_dead_session :
    Starts twoReaders ∧
    (∃ p, run readers twoReaders [(0, .lookup), (0, .newGuard), (0, .dropGuard), (1, .lookup)] =
      some p ∧ p.tasks[1]? = some (.holds 5 10 0 true) ∧ p.shared.isCancelled 0 = true ∧
      ¬JoinsLive p (1, .newGuard)) ∧
    ∃ p, run readers twoReaders [(0, .lookup), (0, .newGuard), (1, .lookup), (0, .dropGuard)] =
      some p ∧ p.tasks[1]? = some (.holds 5 10 0 true) ∧ p.shared.isCancelled 0 = true ∧
      ¬JoinsLive p (1, .newGuard) := by
  refine ⟨starts_twoReaders, ⟨_, rfl, by decide, by decide, ?_⟩, ⟨_, rfl, by decide, by decide, ?_⟩⟩
  · intro h
    exact absurd (h rfl 5 10 0 (by decide)) (by decide)
  · intro h
    exact absurd (h rfl 5 10 0 (by decide)) (by decide)

/-- The second reader comes while the first waits, and both wait for the same worker. -/
def sharedWindow : List (Nat × SessionStep) :=
  [(0, .lookup), (0, .newGuard), (1, .lookup), (1, .newGuard), (0, .dropGuard), (1, .dropGuard),
    (2, .exit 0)]

theorem joins_live_iff_sharedWindow :
    (∃ p, run readers twoReaders (sharedWindow.take 4) = some p ∧
      p.tasks[1]? = some (.waits 5 10 0 true)) ∧
    ∀ e, Along readers JoinsLive twoReaders (sharedWindow ++ [e]) := by
  refine ⟨⟨_, rfl, by decide⟩, (joins_live_iff twoReaders _ _ starts_twoReaders rfl).mpr ?_⟩
  exact along_of_decide (by decide)

end RdRs.Cache

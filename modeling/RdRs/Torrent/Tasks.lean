/-
  The methods of the registry side by side.

  A `World` is any number of tasks over one manager, and the database thread.  An event is one action
  of one task (with what comes from outside at that action) or one batch run by the database thread;
  the tasks take turns in any order, so a statement about all lists of events is a statement about all
  interleavings.  An `Observer` may watch: it sees who acts, the action and the answer, and changes
  nothing.

  `step_cases` is the inversion lemma, `led_step` the invariant rule for a world with one task (a
  repair, the repair engine) apart from the others.
-/
import RdRs.Repair.RepairOne
import RdRs.Torrent.Refresh

set_option linter.unusedVariables false

namespace RdRs.Torrent

open RdRs.Rd RdRs.Repair RdRs.Programs RdRs.Runs

/-! ## Tasks -/

/-- Something that runs on its own. -/
inductive Kind where
  /-- one repair -/
  | repair (cfg : EngineConfig) (key : String)
  /-- the repair engine: its sessions repair one key after the other -/
  | engine (cfg : EngineConfig) (keys : List String)
  | refresh (cfg : RefreshConfig)
  | fatalRead (key path : String) (wait : Bool)
  | markBroken (key path : String)
  | updateState (key : String) (state : TorrentState) (reason : Option String)
  /-- a read that waits for the repair of its torrent -/
  | waiter (key : String)
  | enqueueAll (opts : EnqueueRepairAllOptions)
  | enqueueFront (key : String) (clearUnrepairable : Bool)

/-- Drop the result. -/
def done {α : Type} (p : M α) : M Unit := p >>= fun _ => pure ()

theorem follows_done {α σ : Type} {P : Protocol Act Act.Res σ} {s : σ} {p : M α} {Q : α → σ → Prop}
    (h : Follows P s p Q) : Follows P s (done p) anyEnd :=
  follows_bind.mpr (h.mono fun _ _ _ => trivial)

/-- The program of a task. -/
def Kind.prog : Kind → M Unit
  | .repair cfg key => done (repairOneTorrent cfg key)
  | .engine cfg keys => Prog.fold (fun _ key => done (repairOneTorrent cfg key)) () keys
  | .refresh cfg => done (runOnce cfg)
  | .fatalRead key path wait => Torrent.fatalRead key path wait
  | .markBroken key path => done (markFileBroken key path)
  | .updateState key state reason => done (updateTorrentState key state reason)
  | .waiter key => do
    subscribeRepairState key
    call (.unsubscribe key)
  | .enqueueAll opts => enqueueRepairAll opts
  | .enqueueFront key clear => enqueueRepairFront key clear

/-- A task of the registry. -/
abbrev RegTask := Task Kind Act Act.Res

/-- A task at its start. -/
def start (kind : Kind) : RegTask := ⟨kind, kind.prog⟩

/-! ## Worlds -/

/-- A manager that is watched. -/
structure Watched (Ob : Type) where
  m : Manager
  ob : Ob

/-- What an observer makes of an action, and of a batch (with its ticket and how it ended). -/
structure Observer (Ob : Type) where
  see : Kind → Ob → (a : Act) → a.Res → Ob
  ran : Ob → Nat → Bool → Ob

/-- Nobody watches. -/
def unobserved : Observer Unit := ⟨fun _ _ _ _ => (), fun _ _ _ => ()⟩

/-- Tasks over a watched manager. -/
abbrev World (Ob : Type) := Pool (Watched Ob) RegTask

/-- One step of the world. -/
inductive Event where
  /-- the i-th task acts -/
  | act (i : Nat) (e : Env)
  /-- the database thread runs its oldest batch -/
  | db (ok : Bool)

variable {Ob : Type}

/-- An action, watched. -/
def performWatched (o : Observer Ob) (kind : Kind) (w : Watched Ob) (a : Act) (e : Env) :
    Option (a.Res × Watched Ob) :=
  (performAmong w.m a e).map fun rm => (rm.1, ⟨rm.2, o.see kind w.ob a rm.1⟩)

/-- One step. -/
def step (o : Observer Ob) (p : World Ob) : Event → Option (World Ob)
  | .act i e => Pool.step (taskAct (performWatched o)) p (i, e)
  | .db ok => (runJob p.shared.m ok).map fun m =>
      { p with shared := ⟨m, o.ran p.shared.ob p.shared.m.done.length ok⟩ }

/-- The task that acts in an event, and its action. -/
def Acts (p : World Ob) (ev : Event) (t : RegTask) (a : Act) : Prop :=
  ∃ i e, ev = .act i e ∧ p.tasks[i]? = some t ∧ t.prog.head = some a

theorem performAmong_some {m m' : Manager} {a : Act} {e : Env} {r : a.Res}
    (h : performAmong m a e = some (r, m')) : blocked m a = false ∧ perform m a e = (r, m') := by
  rw [performAmong] at h
  cases hb : blocked m a with
  | true =>
    rw [hb] at h
    cases h
  | false =>
    rw [hb] at h
    exact ⟨rfl, Option.some.inj h⟩

/-- **What the database thread can do**: run its oldest batch. -/
theorem runJob_some {m m' : Manager} {ok : Bool} (h : runJob m ok = some m') :
    ∃ batch rest, m.jobs = batch :: rest ∧ m' = { m with
      rows := if ok then upsertRows m.rows batch else m.rows
      jobs := rest
      done := m.done ++ [ok] } := by
  rw [runJob] at h
  split at h
  · cases h
  · rename_i batch rest hjobs
    exact ⟨batch, rest, hjobs, (Option.some.inj h).symm⟩

/-- **What a step can do**: a task performs the action at its head, or the database thread runs a
    batch. -/
theorem step_cases {o : Observer Ob} {p q : World Ob} {ev : Event} (h : step o p ev = some q) :
    (∃ xs t ys e a k r m', p.tasks = xs ++ t :: ys ∧ Acts p ev t a ∧ t.prog = .act a k ∧
      blocked p.shared.m a = false ∧ perform p.shared.m a e = (r, m') ∧
      q = ⟨⟨m', o.see t.kind p.shared.ob a r⟩, xs ++ ⟨t.kind, k r⟩ :: ys⟩) ∨
    (∃ ok m', ev = .db ok ∧ runJob p.shared.m ok = some m' ∧
      q = ⟨⟨m', o.ran p.shared.ob p.shared.m.done.length ok⟩, p.tasks⟩) := by
  cases ev with
  | db ok =>
    obtain ⟨m', hm', rfl⟩ := Option.map_eq_some_iff.mp h
    exact Or.inr ⟨ok, m', rfl, hm', rfl⟩
  | act i e =>
    obtain ⟨xs, t, ys, w', t', htasks, hlen, hact, rfl⟩ := Pool.step_cases h
    obtain ⟨a, k, r, hprog, hperf, rfl⟩ := taskAct_cases hact
    obtain ⟨⟨r', m'⟩, hamong, heq⟩ := Option.map_eq_some_iff.mp hperf
    obtain ⟨rfl, rfl⟩ := Prod.mk.inj heq
    obtain ⟨hblocked, hperform⟩ := performAmong_some hamong
    refine Or.inl ⟨xs, t, ys, e, a, k, _, m', htasks, ⟨i, e, rfl, ?_, ?_⟩, hprog, hblocked, hperform,
      rfl⟩
    · have hi : xs.length = i := hlen
      rw [htasks, ← hi]
      simp
    · rw [hprog]
      rfl

/-- In the event the task performs `a`, gets the answer `r` and leaves the manager `m'`. -/
structure Performed (p : World Ob) (ev : Event) (t : RegTask) (a : Act) (kont : a.Res → M Unit)
    (r : a.Res) (m' : Manager) : Prop where
  acts : Acts p ev t a
  prog : t.prog = .act a kont
  unblocked : blocked p.shared.m a = false
  effect : ∃ e, perform p.shared.m a e = (r, m')

/-- A world with one task apart from the others: `L` of the manager and that task, `J` of each of the
    others. -/
def Led (L J : Watched Ob → RegTask → Prop) (p : World Ob) : Prop :=
  ∃ lead rest, p.tasks = lead :: rest ∧ L p.shared lead ∧ ∀ u ∈ rest, J p.shared u

/-- **The invariant rule**, under a condition `C` on the events: the task apart keeps `L` for itself
    and `J` for the others, each of the others keeps both, and so does the database thread. -/
theorem led_step {o : Observer Ob} {C : World Ob → Event → Prop} {L J : Watched Ob → RegTask → Prop}
    (hlead : ∀ (p : World Ob) ev lead rest a kont r m', p.tasks = lead :: rest →
      L p.shared lead → (∀ u ∈ rest, J p.shared u) → C p ev → Performed p ev lead a kont r m' →
      L ⟨m', o.see lead.kind p.shared.ob a r⟩ ⟨lead.kind, kont r⟩ ∧
        ∀ u ∈ rest, J ⟨m', o.see lead.kind p.shared.ob a r⟩ u)
    (hrest : ∀ (p : World Ob) ev lead rest t a kont r m', p.tasks = lead :: rest → t ∈ rest →
      L p.shared lead → (∀ u ∈ rest, J p.shared u) → C p ev → Performed p ev t a kont r m' →
      L ⟨m', o.see t.kind p.shared.ob a r⟩ lead ∧
        J ⟨m', o.see t.kind p.shared.ob a r⟩ ⟨t.kind, kont r⟩ ∧
        ∀ u ∈ rest, J ⟨m', o.see t.kind p.shared.ob a r⟩ u)
    (hdb : ∀ (p : World Ob) ok lead rest m', p.tasks = lead :: rest → L p.shared lead →
      (∀ u ∈ rest, J p.shared u) → runJob p.shared.m ok = some m' →
      L ⟨m', o.ran p.shared.ob p.shared.m.done.length ok⟩ lead ∧
        ∀ u ∈ rest, J ⟨m', o.ran p.shared.ob p.shared.m.done.length ok⟩ u) :
    ∀ (p : World Ob) ev q, Led L J p → C p ev → step o p ev = some q → Led L J q := by
  rintro p ev q ⟨lead, rest, htasks, hL, hJ⟩ hC h
  rcases step_cases h with ⟨xs, t, ys, e, a, kont, r, m', hsplit, hacts, hprog, hb, hperf, rfl⟩ |
    ⟨ok, m', rfl, hrun, rfl⟩
  · have hdone : Performed p ev t a kont r m' := ⟨hacts, hprog, hb, e, hperf⟩
    rw [htasks] at hsplit
    cases xs with
    | nil =>
      obtain ⟨rfl, rfl⟩ := List.cons.inj hsplit
      obtain ⟨hL', hJ'⟩ := hlead p ev lead rest a kont r m' htasks hL hJ hC hdone
      exact ⟨_, _, rfl, hL', hJ'⟩
    | cons x xs =>
      obtain ⟨rfl, rfl⟩ := List.cons.inj hsplit
      have ht : t ∈ xs ++ t :: ys := by simp
      obtain ⟨hL', hJt, hJ'⟩ := hrest p ev lead _ t a kont r m' htasks ht hL hJ hC hdone
      refine ⟨lead, xs ++ ⟨t.kind, kont r⟩ :: ys, rfl, hL', fun u hu => ?_⟩
      rcases List.mem_append.mp hu with hu | hu
      · exact hJ' u (List.mem_append_left _ hu)
      · rcases List.mem_cons.mp hu with rfl | hu
        · exact hJt
        · exact hJ' u (List.mem_append_right _ (List.mem_cons_of_mem _ hu))
  · obtain ⟨hL', hJ'⟩ := hdb p ok lead rest m' htasks hL hJ hrun
    exact ⟨lead, rest, htasks, hL', hJ'⟩

/-- A test of an event: `c` of the task that acts and its action, `d` of how a batch ends. -/
def testEvent (c : World Ob → RegTask → Act → Bool) (d : Bool → Bool) (p : World Ob) : Event → Bool
  | .db ok => d ok
  | .act i _ =>
    match p.tasks[i]? with
    | none => true
    | some t =>
      match t.prog.head with
      | none => true
      | some a => c p t a

theorem testEvent_acts {c : World Ob → RegTask → Act → Bool} {d : Bool → Bool} {p : World Ob}
    {ev : Event} (h : testEvent c d p ev = true) {t : RegTask} {a : Act} (hacts : Acts p ev t a) :
    c p t a = true := by
  obtain ⟨i, e, rfl, ht, ha⟩ := hacts
  rw [testEvent, ht] at h
  dsimp only at h
  rw [ha] at h
  exact h

end RdRs.Torrent

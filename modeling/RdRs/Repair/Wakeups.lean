/-
  `torrent/mod.rs`, `torrent/repair_enqueue.rs`, `repair/engine/mod.rs` — the repair queue and the
  notification that wakes the engine.

  Whoever queues a key does so under the lock of the queue and calls `notify_one` after it has let go
  of the lock; the engine takes one key per lock until the queue is empty.  A section under the lock
  is one step here, since nothing else sees the queue meanwhile.  `Notify` is one stored permit:
  `notify_one` stores it, `notified()` takes it.

  1. **Parties** — `Caller` (the three methods that enqueue) and `Engine` (the startup resume, which
     enqueues too, and the loop with its two selects), all tasks of one pool.
  2. **Step** — `move_keepsAwake`: after a step the queue is empty, or the permit is stored, or the
     party that moved OWES a wake-up (it has pushed and not notified, or is on its way to drain the
     queue), or nothing has changed and it owed none before.
  3. **Result** — `queue_stays_awake`.

  The engine may find its tick elapsed while a permit is stored, which a `biased` select lets happen
  only if the permit comes in between the two looks.
-/
import RdRs.Repair.Session

set_option linter.unusedVariables false

namespace RdRs.Repair

open RdRs.Rd RdRs.Programs RdRs.Torrent RdRs.Runs

/-! ## The queue -/

/-- `repair_queue` and the stored permit of `repair_notify`. -/
structure Waking where
  queue : List String
  permit : Bool
deriving DecidableEq

/-- `push_back`, unless the key is queued already. -/
def pushBack (queue : List String) (key : String) : List String :=
  if key ∈ queue then queue else queue ++ [key]

/-- The key moves, or is pushed, to the front. -/
def pushFront (queue : List String) (key : String) : List String := key :: queue.erase key

/-- The keys `enqueue_repair_all` does not pass over, by what it finds under each. -/
def wanted (opts : EnqueueRepairAllOptions) (look : String → Option ManagedTorrent)
    (keys : List String) : List String :=
  keys.filter fun key => opts.all || (look key).any periodicRepairEligible

/-- The torrents the startup resume queues. -/
def resumeKeys (torrents : Torrents) : List String :=
  (torrents.entries.filter fun e => e.2.state == .underRepair).map Sigma.fst

theorem nodup_pushBack {queue : List String} {key : String} (h : queue.Nodup) :
    (pushBack queue key).Nodup := by
  rw [pushBack]
  split
  · exact h
  · rename_i hnew
    exact h.append (List.nodup_singleton key) (by simpa using hnew)

theorem nodup_pushFront {queue : List String} {key : String} (h : queue.Nodup) :
    (pushFront queue key).Nodup :=
  List.nodup_cons.mpr ⟨h.not_mem_erase, h.erase key⟩

theorem nodup_foldl_pushBack {keys queue : List String} (h : queue.Nodup) :
    (keys.foldl pushBack queue).Nodup := by
  induction keys generalizing queue with
  | nil => exact h
  | cons key keys ih => exact ih (nodup_pushBack h)

/-! ## The parties -/

/-- A call that enqueues; `enqueue_repair_all` with the keys it has collected from the map. -/
inductive Enqueue where
  | one (key : String)
  | all (opts : EnqueueRepairAllOptions) (keys : List String)
  | front (key : String)

/-- Where a call is. -/
inductive Caller where
  /-- before the lock; the reasons it clears there do not touch the queue -/
  | enters (call : Enqueue)
  /-- out of the lock, with `notify_one` to come; it has `changed` the queue or not -/
  | pushed (changed : Bool)
  | returned

/-- Where `run_loop` is. -/
inductive Engine where
  /-- the first ten seconds -/
  | starts
  | resumes (keys : List String)
  | pushed (changed : Bool)
  /-- the outer select -/
  | selects
  /-- the tick has come, the throttle is looked up -/
  | ticked
  /-- the inner select -/
  | throttled
  /-- about to begin a session; a permit was `taken` for it or not -/
  | begins (periodic taken : Bool)
  | drains (periodic : Bool) (keys : List String)
  /-- the queue was empty: the scan, the repairs and what follows them -/
  | works (periodic : Bool) (keys : List String)
  | stopped

/-- A task. -/
inductive Party where
  | caller (c : Caller)
  | engine (e : Engine)

/-- What a task does, with what it reads. -/
inductive Move where
  /-- the section under the lock of the queue, and what is found in the map there -/
  | section_ (look : String → Option ManagedTorrent)
  /-- `notify_one` -/
  | notify
  /-- the first ten seconds are over -/
  | wake (torrents : Torrents)
  /-- `notified()` -/
  | take
  | tick (enable : Bool)
  /-- `throttle_wait_duration` -/
  | throttle (wait : Nat)
  /-- the throttle has elapsed -/
  | elapse
  /-- `run_session_impl` looks at `repair.enable` -/
  | begin_ (enable : Bool)
  /-- `pop_front` under the lock -/
  | pop
  /-- back to the outer select -/
  | finish
  | shutdown

/-- The section of a call. -/
def Enqueue.push (queue : List String) (look : String → Option ManagedTorrent) :
    Enqueue → List String
  | .one key => pushBack queue key
  | .all opts keys => (wanted opts look keys).foldl pushBack queue
  | .front key => pushFront queue key

/-- One step of a call. -/
def Caller.move (g : Waking) : Caller → Move → Option (Waking × Caller)
  | .enters call, .section_ look =>
    some ({ g with queue := call.push g.queue look },
      .pushed (decide (call.push g.queue look ≠ g.queue)))
  | .pushed _, .notify => some ({ g with permit := true }, .returned)
  | _, _ => none

/-- One step of `run_loop`. -/
def Engine.move (g : Waking) : Engine → Move → Option (Waking × Engine)
  | .starts, .wake torrents =>
    -- nothing to resume: no lock, no notification
    if resumeKeys torrents = [] then some (g, .selects) else some (g, .resumes (resumeKeys torrents))
  | .resumes keys, .section_ _ =>
    some ({ g with queue := keys.foldl pushBack g.queue },
      .pushed (decide (keys.foldl pushBack g.queue ≠ g.queue)))
  | .pushed _, .notify => some ({ g with permit := true }, .selects)
  | .selects, .take => if g.permit then some ({ g with permit := false }, .begins false true) else none
  | .selects, .tick enable => some (g, if enable then .ticked else .selects)
  | .ticked, .throttle wait => some (g, if wait > 0 then .throttled else .begins true false)
  | .throttled, .take =>
    if g.permit then some ({ g with permit := false }, .begins false true) else none
  | .throttled, .elapse => some (g, .begins true false)
  | .begins periodic _, .begin_ enable =>
    some (g, if enable then .drains periodic [] else .works periodic [])
  | .drains periodic keys, .pop =>
    match g.queue with
    | [] => some (g, .works periodic keys)
    | key :: queue => some ({ g with queue := queue }, .drains periodic (keys ++ [key]))
  | .works _ _, .finish => some (g, .selects)
  | .selects, .shutdown | .throttled, .shutdown | .works _ _, .shutdown => some (g, .stopped)
  | _, _ => none

/-- One step of a task. -/
def Party.move (g : Waking) : Party → Move → Option (Waking × Party)
  | .caller c, a => (c.move g a).map fun r => (r.1, .caller r.2)
  | .engine e, a => (e.move g a).map fun r => (r.1, .engine r.2)

/-- The calls and the engine, in any interleaving. -/
def waking : Pool Waking Party → Nat × Move → Option (Pool Waking Party) := Pool.step Party.move

/-- The engine starts with an empty queue; any number of calls come. -/
def wakingInit (calls : List Enqueue) : Pool Waking Party :=
  ⟨⟨[], false⟩, .engine .starts :: calls.map fun call => .caller (.enters call)⟩

/-- It has pushed and has not notified yet. -/
def Party.between : Party → Bool
  | .caller (.pushed changed) => changed
  | .engine (.pushed changed) => changed
  | _ => false

/-- The engine has taken a permit or begun a session, and has not finished draining the queue. -/
def Party.draining : Party → Bool
  | .engine (.begins _ taken) => taken
  | .engine (.drains _ _) => true
  | _ => false

/-- The queue will be seen to: a wake-up is still to come from here, or a drain. -/
def Party.owes (t : Party) : Bool := t.between || t.draining

/-- `repair.enable` is set, and there is no shutdown. -/
def Move.Enabled : Move → Prop
  | .tick enable => enable = true
  | .begin_ enable => enable = true
  | .shutdown => False
  | _ => True

/-! ## One step -/

theorem nodup_push {queue : List String} {look : String → Option ManagedTorrent}
    (call : Enqueue) (h : queue.Nodup) : (call.push queue look).Nodup := by
  cases call with
  | one key => exact nodup_pushBack h
  | all opts keys => exact nodup_foldl_pushBack h
  | front key => exact nodup_pushFront h

/-- What a step leaves: no key twice, and a wake-up for what is queued. -/
structure KeepsAwake (g : Waking) (t : Party) (g' : Waking) (t' : Party) : Prop where
  nodup : g.queue.Nodup → g'.queue.Nodup
  awake : g'.queue = [] ∨ g'.permit = true ∨ t'.owes = true ∨
    (g'.queue = g.queue ∧ g'.permit = g.permit ∧ t.owes = false)

/-- Whoever leaves the lock with another queue owes the notification. -/
theorem KeepsAwake.of_section {g : Waking} {t t' : Party} {queue : List String}
    (hnodup : g.queue.Nodup → queue.Nodup) (ht : t.owes = false)
    (ht' : t'.owes = decide (queue ≠ g.queue)) : KeepsAwake g t { g with queue := queue } t' := by
  refine ⟨hnodup, ?_⟩
  by_cases hsame : queue = g.queue
  · exact Or.inr (Or.inr (Or.inr ⟨hsame, rfl, ht⟩))
  · exact Or.inr (Or.inr (Or.inl (by rw [ht', decide_eq_true hsame])))

/-- A step that leaves queue and permit alone, by a party that owed nothing. -/
theorem KeepsAwake.of_still {g : Waking} {t t' : Party} (ht : t.owes = false) :
    KeepsAwake g t g t' :=
  ⟨fun h => h, Or.inr (Or.inr (Or.inr ⟨rfl, rfl, ht⟩))⟩

/-- `notify_one` -/
theorem KeepsAwake.of_notify {g : Waking} {t t' : Party} :
    KeepsAwake g t { g with permit := true } t' :=
  ⟨fun h => h, Or.inr (Or.inl rfl)⟩

/-- A step after which the party owes a wake-up, or has found the queue empty. -/
theorem KeepsAwake.of_owes {g g' : Waking} {t t' : Party} (hnodup : g.queue.Nodup → g'.queue.Nodup)
    (ht' : t'.owes = true) : KeepsAwake g t g' t' :=
  ⟨hnodup, Or.inr (Or.inr (Or.inl ht'))⟩

theorem caller_keepsAwake {g g' : Waking} {c c' : Caller} {a : Move}
    (h : c.move g a = some (g', c')) : KeepsAwake g (.caller c) g' (.caller c') := by
  cases c with
  | enters call =>
    cases a with
    | section_ look =>
      cases h
      exact .of_section (nodup_push call) rfl (Bool.or_false _)
    | _ => cases h
  | pushed changed =>
    cases a with
    | notify =>
      cases h
      exact .of_notify
    | _ => cases h
  | returned => cases a <;> cases h

theorem engine_keepsAwake {g g' : Waking} {e e' : Engine} {a : Move} (ha : a.Enabled)
    (h : e.move g a = some (g', e')) : KeepsAwake g (.engine e) g' (.engine e') := by
  cases e with
  | starts =>
    cases a with
    | wake torrents =>
      simp only [Engine.move] at h
      split at h <;> cases h <;> exact .of_still rfl
    | _ => cases h
  | resumes keys =>
    cases a with
    | section_ look =>
      cases h
      exact .of_section nodup_foldl_pushBack rfl (Bool.or_false _)
    | _ => cases h
  | pushed changed =>
    cases a with
    | notify =>
      cases h
      exact .of_notify
    | _ => cases h
  | selects =>
    cases a with
    -- the permit is gone, and the party has it
    | take =>
      simp only [Engine.move] at h
      split at h
      · cases h
        exact .of_owes (fun hq => hq) rfl
      · cases h
    | tick enable =>
      cases h
      exact .of_still rfl
    | shutdown => exact ha.elim
    | _ => cases h
  | ticked =>
    cases a with
    | throttle wait =>
      cases h
      exact .of_still rfl
    | _ => cases h
  | throttled =>
    cases a with
    | take =>
      simp only [Engine.move] at h
      split at h
      · cases h
        exact .of_owes (fun hq => hq) rfl
      · cases h
    | elapse =>
      cases h
      exact .of_still rfl
    | shutdown => exact ha.elim
    | _ => cases h
  | begins periodic taken =>
    cases a with
    | begin_ enable =>
      obtain rfl : enable = true := ha
      cases h
      exact .of_owes (fun hq => hq) rfl
    | _ => cases h
  | drains periodic keys =>
    cases a with
    | pop =>
      simp only [Engine.move] at h
      cases hqueue : g.queue with
      | nil =>
        rw [hqueue] at h
        cases h
        exact ⟨fun hq => hq, Or.inl hqueue⟩
      | cons key queue =>
        rw [hqueue] at h
        cases h
        exact .of_owes (fun hq => (List.nodup_cons.mp (hqueue ▸ hq)).2) rfl
    | _ => cases h
  | works periodic keys =>
    cases a with
    | finish =>
      cases h
      exact .of_still rfl
    | shutdown => exact ha.elim
    | _ => cases h
  | stopped => cases a <;> cases h

/-- **One step** of any party. -/
theorem move_keepsAwake {g g' : Waking} {t t' : Party} {a : Move} (ha : a.Enabled)
    (h : t.move g a = some (g', t')) : KeepsAwake g t g' t' := by
  cases t with
  | caller c =>
    obtain ⟨⟨g₁, c₁⟩, hmove, heq⟩ := Option.map_eq_some_iff.mp h
    cases heq
    exact caller_keepsAwake hmove
  | engine e =>
    obtain ⟨⟨g₁, e₁⟩, hmove, heq⟩ := Option.map_eq_some_iff.mp h
    cases heq
    exact engine_keepsAwake ha hmove

/-! ## Every run -/

/-- No key is queued twice, and what is queued is owed a wake-up. -/
structure Awake (p : Pool Waking Party) : Prop where
  nodup : p.shared.queue.Nodup
  awake : p.shared.queue ≠ [] → p.shared.permit = true ∨ ∃ t ∈ p.tasks, t.owes = true

theorem awake_step {p q : Pool Waking Party} {e : Nat × Move} (h : Awake p) (ha : e.2.Enabled)
    (hstep : waking p e = some q) : Awake q := by
  obtain ⟨t, t', -, hmove, ht', -, hkept, -⟩ := Pool.frame hstep
  have hk := move_keepsAwake ha hmove
  refine ⟨hk.nodup h.nodup, fun hne => ?_⟩
  rcases hk.awake with hnil | hpermit | howes | ⟨hqueue, hpermit, hnone⟩
  · exact absurd hnil hne
  · exact Or.inl hpermit
  · exact Or.inr ⟨t', ht', howes⟩
  -- nothing changed: the wake-up of before is still there, since it was not this party's
  · rw [hqueue] at hne
    rcases h.awake hne with hbefore | ⟨k, hk, howes⟩
    · exact Or.inl (hpermit ▸ hbefore)
    · rcases hkept k hk with rfl | hin
      · exact absurd (howes.symm.trans hnone) Bool.noConfusion
      · exact Or.inr ⟨k, hin, howes⟩

/-- **The queue stays awake**: at every moment of every run without shutdown and with repair enabled
    no key is queued twice; and when something is queued and no call stands between its push and its
    notification, a permit is stored, or the engine has taken one or begun a session and has not
    drained the queue yet. -/
theorem queue_stays_awake (calls : List Enqueue) (es : List (Nat × Move)) (p : Pool Waking Party)
    (hrun : run waking (wakingInit calls) es = some p) (henabled : ∀ e ∈ es, e.2.Enabled) :
    p.shared.queue.Nodup ∧
      (p.shared.queue ≠ [] → (∀ t ∈ p.tasks, t.between = false) →
        p.shared.permit = true ∨ ∃ t ∈ p.tasks, t.draining = true) := by
  have hinit : Awake (wakingInit calls) := ⟨List.nodup_nil, fun hne => absurd rfl hne⟩
  have hawake : Awake p :=
    run_inv (C := fun _ e => e.2.Enabled) (fun s e t hs he ht => awake_step hs he ht) es _ p hinit
      (along_of_forall_mem es _ henabled) hrun
  refine ⟨hawake.nodup, fun hne hbetween => ?_⟩
  rcases hawake.awake hne with hpermit | ⟨t, ht, howes⟩
  · exact Or.inl hpermit
  · rw [Party.owes, hbetween t ht, Bool.false_or] at howes
    exact Or.inr ⟨t, ht, howes⟩

/-- Two calls for one film, the second while the engine is draining. -/
def twoCalls : List (Nat × Move) :=
  [(1, .section_ fun _ => none), (0, .wake ∅), (1, .notify), (0, .take), (0, .begin_ true),
    (0, .pop), (2, .section_ fun _ => none), (2, .notify)]

theorem queue_stays_awake_twoCalls :
    ∃ p, run waking (wakingInit [.one "HASH1/Film", .front "HASH1/Film"]) twoCalls = some p ∧
      p.shared.queue = ["HASH1/Film"] ∧
      (p.shared.permit = true ∨ ∃ t ∈ p.tasks, t.draining = true) := by
  refine ⟨⟨⟨["HASH1/Film"], true⟩, [.engine (.drains false ["HASH1/Film"]), .caller .returned,
    .caller .returned]⟩, rfl, rfl, ?_⟩
  refine (queue_stays_awake [.one "HASH1/Film", .front "HASH1/Film"] twoCalls _ rfl ?_).2 nofun ?_
  · intro e he
    simp only [twoCalls, List.mem_cons, List.not_mem_nil, or_false] at he
    rcases he with rfl | rfl | rfl | rfl | rfl | rfl | rfl | rfl <;> trivial
  · decide

/-! ## The sections and the manager -/

/-- What `enqueue_repair` does under the lock is its action on the manager. -/
theorem pushRepair_pushBack (m : Manager) (key : String) (e : Env) :
    (perform m (.pushRepair key) e).2 = { m with repairQueue := pushBack m.repairQueue key } := by
  rw [pushBack]
  show (if key ∈ m.repairQueue then m else _) = _
  split <;> rfl

theorem pushRepairFront_pushFront (m : Manager) (key : String) (e : Env) :
    (perform m (.pushRepairFront key) e).2 = { m with repairQueue := pushFront m.repairQueue key } :=
  rfl

/-- One key of `enqueue_repair_all`: what it leaves of the queue, and the records as they were. -/
theorem queueCandidate_alone (opts : EnqueueRepairAllOptions) (key : String) (m : Manager)
    (env : Nat → Env) :
    ((queueCandidate opts.all key).eval performAlone m env).2.1 =
      { m with repairQueue := (wanted opts m.torrents.lookup [key]).foldl pushBack m.repairQueue } := by
  rw [queueCandidate, wanted, List.filter_singleton]
  cases opts.all with
  | true => exact pushRepair_pushBack m key (env 0)
  | false =>
    have hget : performAlone m (.get key) (env 0) = (m.torrents.lookup key, m) := rfl
    rw [if_neg Bool.false_ne_true, Prog.call_bind, Prog.eval_act, hget]
    dsimp only
    cases m.torrents.lookup key with
    | none => rfl
    | some mt =>
      rw [Option.any_some, Bool.false_or]
      dsimp only
      cases periodicRepairEligible mt with
      | false => rfl
      | true => exact pushRepair_pushBack m key (env 1)

/-- The loop of `enqueue_repair_all` over the keys is its section. -/
theorem queueCandidates_alone (opts : EnqueueRepairAllOptions) (keys : List String) :
    ∀ (m : Manager) (env : Nat → Env),
      ((Prog.fold (fun _ key => queueCandidate opts.all key) () keys).eval performAlone m env).2.1 =
        { m with repairQueue := (Enqueue.all opts keys).push m.repairQueue m.torrents.lookup } := by
  induction keys with
  | nil => exact fun m env => rfl
  | cons key keys ih =>
    intro m env
    have hcons : wanted opts m.torrents.lookup (key :: keys) =
        wanted opts m.torrents.lookup [key] ++ wanted opts m.torrents.lookup keys :=
      List.filter_append [key] keys
    rw [Prog.fold, Prog.eval_bind, ih, queueCandidate_alone]
    simp only [Enqueue.push, hcons, List.foldl_append]

/-- The engine by itself drains the queue in its order: its keys are those the session then scans,
    sorts and repairs. -/
theorem drain_alone (periodic : Bool) (permit : Bool) :
    ∀ (queue keys : List String),
      run waking ⟨⟨queue, permit⟩, [.engine (.drains periodic keys)]⟩
        (List.replicate (queue.length + 1) (0, .pop)) =
      some ⟨⟨[], permit⟩, [.engine (.works periodic (keys ++ queue))]⟩
  | [], keys => by
    rw [List.append_nil]
    rfl
  | key :: queue, keys => by
    rw [List.length_cons, List.replicate_succ, run_step _ (show waking _ _ =
      some ⟨⟨queue, permit⟩, [.engine (.drains periodic (keys ++ [key]))]⟩ from rfl),
      drain_alone periodic permit queue (keys ++ [key]), List.append_assoc]
    rfl

/-- What a session repairs is what it has drained, with its candidates. -/
theorem drained_repaired (s : Session) (m : Manager) (permit : Bool) :
    ∃ keys, run waking ⟨⟨m.repairQueue, permit⟩, [.engine (.drains s.periodic [])]⟩
        (List.replicate (m.repairQueue.length + 1) (0, .pop)) =
      some ⟨⟨[], permit⟩, [.engine (.works s.periodic keys)]⟩ ∧
      sessionKeys s m = sortDedup (keys ++ candidates s m.torrents) :=
  ⟨m.repairQueue, drain_alone s.periodic permit m.repairQueue [], rfl⟩

end RdRs.Repair

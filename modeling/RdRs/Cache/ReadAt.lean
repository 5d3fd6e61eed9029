/-
  `cache/item_read_at.rs` with `cache/worker.rs` and `cache/link_heal.rs` — a read, the session it
  waits for, and the errors of the session's range GETs.

  `Joins` follows the reader and `Heals` the workers; here they run together, and a GET that fails has
  its error.  The error is looked at once, by `attempt_cdn_link_refresh`
  (`should_refresh_via_unrestrict`).  After that it is text: the worker returns it, `run_downloader`
  passes it on, the spawned task logs it, and the reader sees only that its session is gone.

  * `Fruitless` — nothing is refreshed and nothing is being written; kept by every step as long as the
    GETs fail with `FileUnavailable` (`fruitless_step`);
  * `unavailable_spends_nothing`, `unavailable_not_served` — such a read spends no link refresh and
    gets no bytes.
-/
import RdRs.Rd.Errors
import RdRs.Cache.Heals
import RdRs.Cache.Joins

set_option linter.unusedVariables false

namespace RdRs.Cache

open RdRs.Runs
open RdRs.Rd (RdError)

/-! ## A reader and its session -/

/-- The session a read waits for, and the reader. -/
structure Serving where
  session : Pool Fetching Fetcher
  /-- `base_chunk` of the session -/
  base : Nat
  /-- the session is in `active_workers` -/
  registered : Bool
  /-- the reader has spawned the session itself -/
  own : Bool
  reader : Waiter
  /-- link refreshes of the sessions the reader has left; not the program's -/
  left : Nat

inductive ServeStep where
  /-- a worker of the session, the failure of a GET apart -/
  | work (i : Nat) (a : FetchStep)
  /-- a worker's GET fails -/
  | getFails (i : Nat) (e : RdError)
  /-- another session inserts a range -/
  | write (start stop : Nat)
  | notify
  /-- `run_downloader` returns: a worker has failed, or all have ended -/
  | returns
  /-- another reader has waited too long and cancels the session -/
  | killed
  /-- the reader's own step -/
  | go
  /-- the wait for a notification takes too long -/
  | timeout
  /-- the FUSE request is cancelled -/
  | cancel

def FetchStep.isFailed : FetchStep → Bool
  | .failed _ => true
  | _ => false

/-- The worker has returned an error. -/
def Fetcher.gaveUp : Fetcher → Bool
  | .at_ (.stopped _ failed) => failed
  | _ => false

namespace Serving

/-- The ranges of the item. -/
def ranges (s : Serving) : ByteRanges := s.session.shared.base.ranges

/-- The link refreshes spent while the reader waits. -/
def refreshes (s : Serving) : Nat := s.left + s.session.shared.refreshes

/-- The item with a range of another session. -/
def insert (s : Serving) (start stop : Nat) : Serving :=
  { s with session.shared.base.ranges := s.ranges.insert start stop }

/-- `WorkerGuard` is dropped: the session is not registered any more, and who waits is notified. -/
def unregister (s : Serving) : Serving :=
  { s with registered := false, reader := s.reader.notify }

/-- The reader leaves a session that stalls, and spawns its own. -/
def kick (fileSize : Nat) (args : DownloaderArgs) (s : Serving) : Serving :=
  ⟨sessionInit s.ranges fileSize args, args.baseChunk, true, true, .wakes, s.refreshes⟩

end Serving

/-- The reader on its way in, with a session that was spawned with `spawned`: its own, or one that
    covers its offset. -/
def serves (ranges : ByteRanges) (fileSize : Nat) (spawned : DownloaderArgs) (own : Bool) : Serving :=
  ⟨sessionInit ranges fileSize spawned, spawned.baseChunk, true, own, .enters, 0⟩

/-- One step around a reader of `[args.start, args.end_)`. -/
def serveStep (fileSize : Nat) (args : DownloaderArgs) (s : Serving) : ServeStep → Option Serving
  | .work i a =>
    if a.isFailed then none
    else (fetchers s.base s.session (i, a)).map fun p => { s with session := p }
  | .getFails i e =>
    (fetchers s.base s.session (i, .failed e.shouldRefreshViaUnrestrict)).map fun p =>
      { s with session := p }
  | .write start stop => some (s.insert start stop)
  | .notify => some { s with reader := s.reader.notify }
  | .returns =>
    if s.session.tasks.any Fetcher.gaveUp || s.session.tasks.all Fetcher.ended then
      some s.unregister
    else none
  | .killed => some s.unregister
  | .go =>
    -- a spawned task is finished when its session is not registered
    (s.reader.next (s.ranges.hasRange args.start args.end_) s.registered).map fun w =>
      { s with reader := w }
  | .timeout =>
    match s.reader with
    | .awaits _ => some (if s.own then { s with reader := .wakes } else s.kick fileSize args)
    | _ => none
  | .cancel => if s.reader.waiting then some { s with reader := .returned .cancelled } else none

/-! ## When every GET fails with `FileUnavailable` -/

/-- No GET is answered, and one that fails does so with `FileUnavailable`. -/
def ServeStep.unavailable : ServeStep → Bool
  | .work _ (.answer _) => false
  | .getFails _ e => decide (e = .download .fileUnavailable)
  | _ => true

/-- A worker that is neither inside a link refresh nor inside a body. -/
def Fetcher.fruitless : Fetcher → Bool
  | .at_ (.body _ _ _) => false
  | .at_ .growing => false
  | .at_ _ => true
  | .requested _ _ => true
  | _ => false

/-- Nothing is refreshed and nothing is being written. -/
structure Fruitless (s : Serving) : Prop where
  tasks : ∀ l ∈ s.session.tasks, l.fruitless = true
  refreshes : s.refreshes = 0

/-- Outside a body a worker writes nothing, and gets into none without an answer. -/
theorem fruitless_work {base : Nat} {g g' : Shared} {w w' : Worker} {a : Act}
    (hw : (Fetcher.at_ w).fruitless = true) (ha : a.isAnswer = false)
    (h : w.act base g a = some (g', w')) :
    (Fetcher.at_ w').fruitless = true ∧ g'.ranges = g.ranges := by
  cases move_of_act h with
  | popEmpty | pop | cancelTop | stop | reset | split | keep => exact ⟨rfl, rfl⟩
  | heal | discard | accept => exact absurd ha (by simp [Act.isAnswer])
  | emptyPiece | piece | finish | grow => exact absurd hw (by simp [Fetcher.fruitless])

theorem fruitless_giveUp (g : Fetching) (c : Nat × Nat) (retries : Nat) :
    (giveUp g c retries).2.fruitless = true ∧ (giveUp g c retries).1.refreshes = g.refreshes ∧
      (giveUp g c retries).1.base.ranges = g.base.ranges := by
  unfold giveUp failAttempt
  split
  · exact ⟨rfl, rfl, rfl⟩
  · exact ⟨rfl, rfl, rfl⟩

/-- **What a worker does** whose GETs are refused: it writes and refreshes nothing. -/
theorem fruitless_act {base : Nat} {g g' : Fetching} {l l' : Fetcher} {a : FetchStep}
    (hl : l.fruitless = true) (hanswer : ∀ b, a ≠ .answer b) (hfailed : a ≠ .failed true)
    (h : l.act base g a = some (g', l')) :
    l'.fruitless = true ∧ g'.refreshes = g.refreshes ∧ g'.base.ranges = g.base.ranges := by
  cases fetches_of_act h with
  | work w w' a g' ha hact =>
    obtain ⟨hfruitless, hranges⟩ := fruitless_work hl ha hact
    exact ⟨hfruitless, rfl, hranges⟩
  | send | abortGet => exact ⟨rfl, rfl, rfl⟩
  | answer c retries w' a => exact absurd rfl (hanswer a)
  | ask => exact absurd rfl hfailed
  | refuse c retries => exact fruitless_giveUp g c retries
  | lock | usedUp | check | refresh | refreshFails | charge | abortLock | abortRefresh =>
    exact absurd hl (by simp [Fetcher.fruitless])

/-- A step of a session whose workers are all like that. -/
theorem fruitless_fetchers {base : Nat} {p q : Pool Fetching Fetcher} {i : Nat} {a : FetchStep}
    (hp : ∀ l ∈ p.tasks, l.fruitless = true) (hanswer : ∀ b, a ≠ .answer b)
    (hfailed : a ≠ .failed true) (h : fetchers base p (i, a) = some q) :
    (∀ l ∈ q.tasks, l.fruitless = true) ∧ q.shared.refreshes = p.shared.refreshes ∧
      q.shared.base.ranges = p.shared.base.ranges := by
  obtain ⟨l, l', hl, hact, -, hmem, -⟩ := Pool.frame h
  obtain ⟨hfruitless, hrefreshes, hranges⟩ :=
    fruitless_act (hp l (List.mem_of_getElem? hl)) hanswer hfailed hact
  refine ⟨fun k hk => ?_, hrefreshes, hranges⟩
  rcases hmem k hk with rfl | hk
  · exact hfruitless
  · exact hp k hk

/-- A session starts like that. -/
theorem fruitless_sessionInit (ranges : ByteRanges) (fileSize : Nat) (args : DownloaderArgs) :
    (∀ l ∈ (sessionInit ranges fileSize args).tasks, l.fruitless = true) ∧
      (sessionInit ranges fileSize args).shared.refreshes = 0 ∧
      (sessionInit ranges fileSize args).shared.base.ranges = ranges := by
  obtain ⟨hshared, workers, -, htasks⟩ := sessionInit_shape ranges fileSize args
  refine ⟨fun l hl => ?_, by rw [hshared], by rw [hshared]⟩
  obtain rfl := List.eq_of_mem_replicate (htasks ▸ hl)
  rfl

theorem fruitless_serves (ranges : ByteRanges) (fileSize : Nat) (spawned : DownloaderArgs) (own : Bool) :
    Fruitless (serves ranges fileSize spawned own) := by
  obtain ⟨htasks, hrefreshes, -⟩ := fruitless_sessionInit ranges fileSize spawned
  exact ⟨htasks, by rw [Serving.refreshes, serves, hrefreshes]⟩

def ServeStep.isWrite : ServeStep → Bool
  | .write _ _ => true
  | _ => false

/-- The step lemma: fruitless stays fruitless, and only another session adds a range. -/
theorem fruitless_step {fileSize : Nat} {args : DownloaderArgs} {s t : Serving} {e : ServeStep}
    (hs : Fruitless s) (he : e.unavailable = true) (h : serveStep fileSize args s e = some t) :
    Fruitless t ∧ (e.isWrite = false → t.ranges = s.ranges) := by
  -- a step of the session's workers
  have hsession : ∀ p, (∀ l ∈ p.tasks, l.fruitless = true) ∧
      p.shared.refreshes = s.session.shared.refreshes ∧
      p.shared.base.ranges = s.session.shared.base.ranges →
      Fruitless { s with session := p } ∧ (e.isWrite = false → p.shared.base.ranges = s.ranges) := by
    rintro p ⟨htasks, hrefreshes, hranges⟩
    refine ⟨⟨htasks, ?_⟩, fun _ => hranges⟩
    show s.left + p.shared.refreshes = 0
    rw [hrefreshes]
    exact hs.refreshes
  cases e with
  | work i a =>
    rw [serveStep] at h
    split at h
    · cases h
    · rename_i hnot
      obtain ⟨p, hp, rfl⟩ := Option.map_eq_some_iff.mp h
      refine hsession p (fruitless_fetchers hs.tasks ?_ ?_ hp)
      · rintro b rfl
        cases he
      · rintro rfl
        exact hnot rfl
  | getFails i e =>
    obtain ⟨p, hp, rfl⟩ := Option.map_eq_some_iff.mp h
    obtain rfl := of_decide_eq_true he
    exact hsession p (fruitless_fetchers hs.tasks (fun b => by simp) (by
      simp [RdError.shouldRefreshViaUnrestrict, Rd.DownloadError.shouldRefreshViaUnrestrict]) hp)
  | write start stop =>
    obtain rfl := Option.some.inj h
    exact ⟨⟨hs.tasks, hs.refreshes⟩, fun hw => by cases hw⟩
  | notify =>
    obtain rfl := Option.some.inj h
    exact ⟨⟨hs.tasks, hs.refreshes⟩, fun _ => rfl⟩
  | returns =>
    rw [serveStep] at h
    split at h
    · obtain rfl := Option.some.inj h
      exact ⟨⟨hs.tasks, hs.refreshes⟩, fun _ => rfl⟩
    · cases h
  | killed =>
    obtain rfl := Option.some.inj h
    exact ⟨⟨hs.tasks, hs.refreshes⟩, fun _ => rfl⟩
  | go =>
    obtain ⟨w, -, rfl⟩ := Option.map_eq_some_iff.mp h
    exact ⟨⟨hs.tasks, hs.refreshes⟩, fun _ => rfl⟩
  | timeout =>
    rw [serveStep] at h
    split at h
    · obtain rfl := Option.some.inj h
      split
      · exact ⟨⟨hs.tasks, hs.refreshes⟩, fun _ => rfl⟩
      · -- the session is left without a refresh, the new one starts without
        obtain ⟨htasks, hrefreshes, hranges⟩ := fruitless_sessionInit s.ranges fileSize args
        refine ⟨⟨htasks, ?_⟩, fun _ => hranges⟩
        show s.refreshes + (sessionInit s.ranges fileSize args).shared.refreshes = 0
        rw [hs.refreshes, hrefreshes]
    · cases h
  | cancel =>
    rw [serveStep] at h
    split at h
    · obtain rfl := Option.some.inj h
      exact ⟨⟨hs.tasks, hs.refreshes⟩, fun _ => rfl⟩
    · cases h

/-! ## A call of `read_at` -/

/-- `CacheReadError`; the text of an I/O error is left out. -/
inductive CacheReadError where
  | cancelled
  | downloadFailed
  | io
deriving Repr, DecidableEq

/-- A wait of `read_at`, from its session to its end. -/
structure Wait where
  fileSize : Nat
  args : DownloaderArgs
  /-- what is there when the session is spawned -/
  before : ByteRanges
  spawned : DownloaderArgs
  own : Bool
  steps : List ServeStep
  after : Serving
  outcome : ReadOutcome
  runs : run (serveStep fileSize args) (serves before fileSize spawned own) steps = some after
  ends : after.reader = .returned outcome

/-- What happens in a call of `read_at`.  `data` is what `read_from_file` answers in the end, `none`
    its error. -/
inductive Fetch where
  /-- past the end of the file, or with all of the range there: no session is asked -/
  | atOnce (data : Option (List UInt8))
  | waited (w : Wait) (data : Option (List UInt8))

/-- `read_from_file` is asked only when the wait has ended with the range present. -/
def ReadOutcome.result (data : Option (List UInt8)) :
    ReadOutcome → Except CacheReadError (List UInt8)
  | .ok => data.elim (.error .io) .ok
  | .cancelled => .error .cancelled
  | .downloadFailed => .error .downloadFailed

/-- What `read_at` returns. -/
def Fetch.result : Fetch → Except CacheReadError (List UInt8)
  | .atOnce data => data.elim (.error .io) .ok
  | .waited w data => w.outcome.result data

/-- The link refreshes spent in the call. -/
def Fetch.refreshes : Fetch → Nat
  | .atOnce _ => 0
  | .waited w _ => w.after.refreshes

/-- No GET of the call is answered, and each one that fails does so with `FileUnavailable`. -/
def Fetch.unavailable : Fetch → Bool
  | .atOnce _ => true
  | .waited w _ => w.steps.all ServeStep.unavailable

theorem Wait.fruitless (w : Wait) (h : ∀ e ∈ w.steps, e.unavailable = true) : Fruitless w.after := by
  have hstep : ∀ s (e : ServeStep) t, Fruitless s → e.unavailable = true →
      serveStep w.fileSize w.args s e = some t → Fruitless t := fun s e t hs he h =>
    (fruitless_step hs he h).1
  exact run_inv hstep w.steps _ _ (fruitless_serves w.before w.fileSize w.spawned w.own)
    (along_of_forall_mem w.steps _ h) w.runs

/-- **No link refresh is spent** on a file that is unavailable. -/
theorem unavailable_spends_nothing (f : Fetch) (h : f.unavailable = true) : f.refreshes = 0 := by
  cases f with
  | atOnce data => rfl
  | waited w data => exact (w.fruitless (List.all_eq_true.mp h)).refreshes

theorem Waiter.ok_of_next {w : Waiter} {present registered : Bool}
    (h : w.next present registered = some (.returned .ok)) : present = true := by
  cases w with
  | looks => cases registered <;> simp_all [Waiter.next]
  | awaits notified => cases notified <;> simp_all [Waiter.next]
  | enters | loops | armed _ | wakes | leaves | kicks | returned _ =>
    cases present <;> simp_all [Waiter.next]

/-- While no other session writes, the range that is missing stays missing. -/
structure Starved (before : ByteRanges) (s : Serving) : Prop where
  fruitless : Fruitless s
  ranges : s.ranges = before
  reader : s.reader ≠ .returned .ok

theorem starved_step {fileSize : Nat} {args : DownloaderArgs} {before : ByteRanges} {s t : Serving}
    {e : ServeStep} (hmiss : before.hasRange args.start args.end_ = false) (hs : Starved before s)
    (he : e.unavailable = true ∧ e.isWrite = false) (h : serveStep fileSize args s e = some t) :
    Starved before t := by
  obtain ⟨hfruitless, hranges⟩ := fruitless_step hs.fruitless he.1 h
  refine ⟨hfruitless, (hranges he.2).trans hs.ranges, ?_⟩
  have hnotify : s.reader.notify ≠ .returned .ok := fun hn =>
    hs.reader (Waiter.notify_eq hn (by simp) (by simp))
  cases e with
  | work i a =>
    rw [serveStep] at h
    split at h
    · cases h
    · obtain ⟨p, -, rfl⟩ := Option.map_eq_some_iff.mp h
      exact hs.reader
  | getFails i e =>
    obtain ⟨p, -, rfl⟩ := Option.map_eq_some_iff.mp h
    exact hs.reader
  | write start stop => cases he.2
  | notify =>
    obtain rfl := Option.some.inj h
    exact hnotify
  | returns =>
    rw [serveStep] at h
    split at h
    · obtain rfl := Option.some.inj h
      exact hnotify
    · cases h
  | killed =>
    obtain rfl := Option.some.inj h
    exact hnotify
  | go =>
    obtain ⟨w, hw, rfl⟩ := Option.map_eq_some_iff.mp h
    rintro rfl
    rw [hs.ranges, hmiss] at hw
    cases Waiter.ok_of_next hw
  | timeout =>
    rw [serveStep] at h
    split at h
    · obtain rfl := Option.some.inj h
      split
      · simp
      · simp [Serving.kick]
    · cases h
  | cancel =>
    rw [serveStep] at h
    split at h
    · obtain rfl := Option.some.inj h
      simp
    · cases h

/-- **An unavailable range is not served**: if it is missing and no other session writes, `read_at`
    ends with an error. -/
theorem unavailable_not_served (w : Wait) (data : Option (List UInt8))
    (hmiss : w.before.hasRange w.args.start w.args.end_ = false)
    (h : ∀ e ∈ w.steps, e.unavailable = true ∧ e.isWrite = false) :
    (Fetch.waited w data).result = .error .downloadFailed ∨
      (Fetch.waited w data).result = .error .cancelled := by
  have hstart : Starved w.before (serves w.before w.fileSize w.spawned w.own) :=
    ⟨fruitless_serves _ _ _ _, (fruitless_sessionInit _ _ _).2.2, by simp [serves]⟩
  have hstep : ∀ s (e : ServeStep) t, Starved w.before s →
      e.unavailable = true ∧ e.isWrite = false → serveStep w.fileSize w.args s e = some t →
      Starved w.before t := fun s e t hs he ht => starved_step hmiss hs he ht
  have hend : Starved w.before w.after :=
    run_inv hstep w.steps _ _ hstart (along_of_forall_mem w.steps _ h) w.runs
  have hnot := hend.reader
  rw [w.ends] at hnot
  show w.outcome.result data = _ ∨ w.outcome.result data = _
  cases hout : w.outcome with
  | ok => exact absurd (by rw [hout]) hnot
  | cancelled => exact Or.inr rfl
  | downloadFailed => exact Or.inl rfl

end RdRs.Cache

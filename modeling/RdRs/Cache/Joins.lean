/-
  `cache/item_read_at.rs` — a read that waits for another read's download.

  `read_at` joins the first registered session whose window has the read's OFFSET.  It then waits
  until the whole range is there, and gives up when the session is no longer registered.  The session
  fetches its own window, which is that of the read that spawned it, and its end may lie inside the
  range of the read that joined.

  The waiting loop is taken step by step, with writes, notifications, ending workers and new sessions
  in between.  A wait of five seconds makes the reader go on with a session of its own, which is left
  out here.

  * `Attends` — what holds while the reader waits, as long as the session ends with its window
    present;
  * `joined_read_served_iff` — joining is enough exactly when the bytes past the window are present
    from the start.
-/
import RdRs.Cache.Sessions
import RdRs.Cache.ByteRanges

set_option linter.unusedVariables false

namespace RdRs.Cache

open RdRs.Runs

/-! ## The waiting loop -/

/-- `end` in `read_at`; the addition wraps around. -/
def readEnd (fileSize offset size : Nat) : Nat := min ((offset + size) % 2 ^ 64) fileSize

/-- What `read_at` returns: the bytes (`read_from_file`), or an error. -/
inductive ReadOutcome where
  | ok
  | cancelled
  | downloadFailed
deriving DecidableEq

/-- Where the reader is. -/
inductive Waiter where
  /-- before the test in front of the loop -/
  | enters
  /-- top of the loop -/
  | loops
  /-- `notified()` is created, and has been notified or not -/
  | armed (notified : Bool)
  | awaits (notified : Bool)
  /-- the wait is over -/
  | wakes
  /-- about to look for the session -/
  | looks
  /-- the session is not registered any more -/
  | leaves
  /-- the wait took too long: the reader goes on with a session of its own -/
  | kicks
  | returned (outcome : ReadOutcome)
deriving DecidableEq

/-- The item, and a reader of it that has joined a session. -/
structure Reading where
  ranges : ByteRanges
  sessions : Sessions
  reader : Waiter

/-- `has_range` and the registered sessions decide where the reader goes. -/
def Waiter.next (present registered : Bool) : Waiter → Option Waiter
  | .enters => some (if present then .returned .ok else .loops)
  | .loops => some (.armed false)
  | .armed notified => some (if present then .returned .ok else .awaits notified)
  | .awaits true => some .wakes
  | .awaits false => none
  | .wakes => some (if present then .returned .ok else .looks)
  | .looks => some (if registered then .loops else .leaves)
  | .leaves => some (.returned (if present then .ok else .downloadFailed))
  | .kicks => none
  | .returned _ => none

/-- `notify_waiters` reaches who has a `notified()`. -/
def Waiter.notify : Waiter → Waiter
  | .armed _ => .armed true
  | .awaits _ => .awaits true
  | w => w

/-- The reader is in the loop, or in front of it. -/
def Waiter.waiting : Waiter → Bool
  | .kicks => false
  | .returned _ => false
  | _ => true

inductive WaitStep where
  /-- a worker inserts a range -/
  | write (start stop : Nat)
  | notify
  /-- the task of a session ends -/
  | exit (id : Nat)
  /-- another read spawns a session -/
  | register (anchor fetchUntil : Nat)
  /-- the reader's own step -/
  | go
  /-- five seconds without a notification -/
  | timeout
  /-- the FUSE request is cancelled -/
  | cancel
deriving DecidableEq

/-- One step around a reader of `[offset, stop)` that has joined session `id`. -/
def waitStep (id offset stop : Nat) (r : Reading) : WaitStep → Option Reading
  | .write start end_ => some { r with ranges := r.ranges.insert start end_ }
  | .notify => some { r with reader := r.reader.notify }
  | .exit id' => some { r with sessions := r.sessions.unregister id' }
  | .register anchor fetchUntil =>
    some { r with
      sessions := (r.sessions.spawnWorker anchor fetchUntil).push r.sessions.all.length }
  | .go =>
    (r.reader.next (r.ranges.hasRange offset stop)
      (decide (id ∈ r.sessions.activeWorkers))).map fun w => { r with reader := w }
  | .timeout =>
    match r.reader with
    | .awaits _ => some { r with reader := .kicks }
    | _ => none
  | .cancel => if r.reader.waiting then some { r with reader := .returned .cancelled } else none

/-- The session's downloader ends only when its window is present. -/
def EndsFull (id : Nat) (s : Session) (r : Reading) (e : WaitStep) : Prop :=
  e = .exit id → Set.Ico s.anchor s.fetchUntil ⊆ r.ranges.bytes

/-- **The reader is served** once the session has ended: all of its range is present, it has not
    failed, and if it is still waiting a notification and two steps make it return the bytes. -/
def Served (id offset stop : Nat) (r : Reading) : Prop :=
  id ∉ r.sessions.activeWorkers →
    Set.Ico offset stop ⊆ r.ranges.bytes ∧ r.reader ≠ .returned .downloadFailed ∧
    (r.reader.waiting = true → ∃ n ≤ 2, ∃ r', run (waitStep id offset stop) r
      (.notify :: List.replicate n .go) = some r' ∧ r'.reader = .returned .ok)

/-! ## While the reader waits -/

/-- What holds in every state: bytes stay, the window is present once the session has ended, and who
    leaves or has failed has seen it end. -/
structure Attends (id : Nat) (s : Session) (before : ByteRanges) (offset stop : Nat) (r : Reading) :
    Prop where
  bytes : before.bytes ⊆ r.ranges.bytes
  known : id < r.sessions.all.length
  window : id ∉ r.sessions.activeWorkers → Set.Ico s.anchor s.fetchUntil ⊆ r.ranges.bytes
  leaves : r.reader = .leaves → id ∉ r.sessions.activeWorkers
  failed : r.reader = .returned .downloadFailed → id ∉ r.sessions.activeWorkers ∧
    ¬Set.Ico offset stop ⊆ before.bytes ∪ Set.Ico s.anchor s.fetchUntil

theorem Waiter.leaves_of_next {w : Waiter} {present registered : Bool}
    (h : w.next present registered = some .leaves) : registered = false := by
  cases w with
  | looks => cases registered <;> simp_all [Waiter.next]
  | awaits notified => cases notified <;> simp_all [Waiter.next]
  | enters | loops | armed _ | wakes | leaves | kicks | returned _ =>
    cases present <;> simp_all [Waiter.next]

theorem Waiter.failed_of_next {w : Waiter} {present registered : Bool}
    (h : w.next present registered = some (.returned .downloadFailed)) :
    w = .leaves ∧ present = false := by
  cases w with
  | looks => cases registered <;> simp_all [Waiter.next]
  | awaits notified => cases notified <;> simp_all [Waiter.next]
  | enters | loops | armed _ | wakes | leaves | kicks | returned _ =>
    cases present <;> simp_all [Waiter.next]

theorem Waiter.notify_eq {w w' : Waiter} (h : w.notify = w') (ha : ∀ n, w' ≠ .armed n)
    (hb : ∀ n, w' ≠ .awaits n) : w = w' := by
  cases w with
  | armed n => exact absurd h.symm (ha true)
  | awaits n => exact absurd h.symm (hb true)
  | enters | loops | wakes | looks | leaves | kicks | returned _ => exact h

theorem mem_unregister {g : Sessions} {id j : Nat} :
    id ∈ (g.unregister j).activeWorkers ↔ id ∈ g.activeWorkers ∧ id ≠ j := by
  simp [Sessions.unregister]

theorem attends_step {id : Nat} {s : Session} {before : ByteRanges} {offset stop : Nat}
    (r : Reading) (e : WaitStep) (r' : Reading) (h : Attends id s before offset stop r)
    (hfull : EndsFull id s r e) (hstep : waitStep id offset stop r e = some r') :
    Attends id s before offset stop r' := by
  cases e with
  | write start end_ =>
    obtain rfl := Option.some.inj hstep
    have hgrow : r.ranges.bytes ⊆ (r.ranges.insert start end_).bytes := by
      rw [ByteRanges.bytes_insert]
      exact Set.subset_union_left
    exact ⟨h.bytes.trans hgrow, h.known, fun hout => (h.window hout).trans hgrow, h.leaves, h.failed⟩
  | notify =>
    obtain rfl := Option.some.inj hstep
    exact ⟨h.bytes, h.known, h.window,
      fun hl => h.leaves (Waiter.notify_eq hl (by simp) (by simp)),
      fun hf => h.failed (Waiter.notify_eq hf (by simp) (by simp))⟩
  | exit j =>
    obtain rfl := Option.some.inj hstep
    have hout : id ∉ r.sessions.activeWorkers →
        id ∉ (r.sessions.unregister j).activeWorkers := fun hno hmem =>
      hno (mem_unregister.mp hmem).1
    refine ⟨h.bytes, h.known, fun hno => ?_, fun hl => hout (h.leaves hl),
      fun hf => ⟨hout (h.failed hf).1, (h.failed hf).2⟩⟩
    by_cases hj : id = j
    · exact hfull (by rw [hj])
    · exact h.window fun hmem => hno (mem_unregister.mpr ⟨hmem, hj⟩)
  | register anchor fetchUntil =>
    obtain rfl := Option.some.inj hstep
    -- the new session has another index
    have hsame : id ∈ r.sessions.activeWorkers ++ [r.sessions.all.length] ↔
        id ∈ r.sessions.activeWorkers := by
      have hne := Nat.ne_of_lt h.known
      simp [hne]
    refine ⟨h.bytes, ?_, fun hno => h.window (mt hsame.mpr hno),
      fun hl => mt hsame.mp (h.leaves hl), fun hf => ⟨mt hsame.mp (h.failed hf).1, (h.failed hf).2⟩⟩
    show id < (r.sessions.all ++ _).length
    rw [List.length_append]
    exact Nat.lt_add_right _ h.known
  | go =>
    obtain ⟨w, hw, rfl⟩ := Option.map_eq_some_iff.mp hstep
    refine ⟨h.bytes, h.known, h.window, ?_, ?_⟩
    · rintro rfl
      exact of_decide_eq_false (Waiter.leaves_of_next hw)
    · rintro rfl
      obtain ⟨hleaves, habsent⟩ := Waiter.failed_of_next hw
      refine ⟨h.leaves hleaves, fun hall => ?_⟩
      have hpresent : r.ranges.hasRange offset stop = true := by
        rw [ByteRanges.hasRange_iff]
        exact hall.trans (Set.union_subset h.bytes (h.window (h.leaves hleaves)))
      exact absurd (habsent.symm.trans hpresent) (by simp)
  | timeout =>
    simp only [waitStep] at hstep
    split at hstep
    · obtain rfl := Option.some.inj hstep
      exact ⟨h.bytes, h.known, h.window, fun hl => absurd hl (by simp), fun hf => absurd hf (by simp)⟩
    · exact absurd hstep (by simp)
  | cancel =>
    simp only [waitStep] at hstep
    split at hstep
    · obtain rfl := Option.some.inj hstep
      exact ⟨h.bytes, h.known, h.window, fun hl => absurd hl (by simp), fun hf => absurd hf (by simp)⟩
    · exact absurd hstep (by simp)

/-- With all of its range present and the session gone, a waiting reader returns the bytes: after a
    notification, in at most two of its steps. -/
theorem returns_ok {id offset stop : Nat} {r : Reading} (hwait : r.reader.waiting = true)
    (hall : r.ranges.hasRange offset stop = true) (hout : id ∉ r.sessions.activeWorkers) :
    ∃ n ≤ 2, ∃ r', run (waitStep id offset stop) r (.notify :: List.replicate n .go) = some r' ∧
      r'.reader = .returned .ok := by
  obtain ⟨ranges, sessions, reader⟩ := r
  -- the reader's steps, from where the notification leaves it
  have hgo : ∀ w w', w.next true false = some w' → ∀ es,
      run (waitStep id offset stop) ⟨ranges, sessions, w⟩ (.go :: es) =
        run (waitStep id offset stop) ⟨ranges, sessions, w'⟩ es := by
    intro w w' hw es
    refine run_step es ?_
    show (w.next (ranges.hasRange offset stop) (decide (id ∈ sessions.activeWorkers))).map _ = _
    rw [show ranges.hasRange offset stop = true from hall, decide_eq_false hout, hw]
    rfl
  have hnotify : ∀ es, run (waitStep id offset stop) ⟨ranges, sessions, reader⟩ (.notify :: es) =
      run (waitStep id offset stop) ⟨ranges, sessions, reader.notify⟩ es := fun es =>
    run_step es rfl
  cases reader with
  | enters => exact ⟨1, by decide, _, (hnotify _).trans (hgo _ _ rfl []), rfl⟩
  | loops =>
    exact ⟨2, by decide, _, (hnotify _).trans ((hgo _ _ rfl [.go]).trans (hgo _ _ rfl [])), rfl⟩
  | armed n => exact ⟨1, by decide, _, (hnotify _).trans (hgo _ _ rfl []), rfl⟩
  | awaits n =>
    exact ⟨2, by decide, _, (hnotify _).trans ((hgo _ _ rfl [.go]).trans (hgo _ _ rfl [])), rfl⟩
  | wakes => exact ⟨1, by decide, _, (hnotify _).trans (hgo _ _ rfl []), rfl⟩
  | looks =>
    exact ⟨2, by decide, _, (hnotify _).trans ((hgo _ _ rfl [.go]).trans (hgo _ _ rfl [])), rfl⟩
  | leaves => exact ⟨1, by decide, _, (hnotify _).trans (hgo _ _ rfl []), rfl⟩
  | kicks => exact absurd hwait (by simp [Waiter.waiting])
  | returned outcome => exact absurd hwait (by simp [Waiter.waiting])

/-! ## Who is served -/

theorem covering_some {g : Sessions} {offset id : Nat} {s : Session}
    (h : g.covering offset = some id) (hs : g.all[id]? = some s) :
    id ∈ g.activeWorkers ∧ s.anchor ≤ offset ∧ offset < s.fetchUntil := by
  have hcovers := List.find?_some h
  rw [hs] at hcovers
  simp only [Option.any_some, Session.coversFuseOffset, Bool.and_eq_true, decide_eq_true_eq]
    at hcovers
  exact ⟨List.mem_of_find?_eq_some h, hcovers⟩

/-- The reader as it joins. -/
def joined (ranges : ByteRanges) (g : Sessions) : Reading := ⟨ranges, g, .enters⟩

/-- The reader waits, the session fetches its window and ends, and the reader is woken. -/
def waitsForWindow (id : Nat) (s : Session) : List WaitStep :=
  [.go, .go, .go, .write s.anchor s.fetchUntil, .exit id, .notify, .go, .go, .go, .go]

/-- A byte that is missing and past the window is missing in the end, and the read fails. -/
theorem fails_past_window {ranges : ByteRanges} (g : Sessions) (id : Nat) {offset stop : Nat}
    {s : Session}
    (hmiss : ranges.hasRange offset stop = false)
    (hpast : ¬Set.Ico offset stop ⊆ (ranges.insert s.anchor s.fetchUntil).bytes) :
    Along (waitStep id offset stop) (EndsFull id s) (joined ranges g) (waitsForWindow id s) ∧
      run (waitStep id offset stop) (joined ranges g) (waitsForWindow id s) =
        some ⟨ranges.insert s.anchor s.fetchUntil, g.unregister id, .returned .downloadFailed⟩ := by
  have hmiss' : (ranges.insert s.anchor s.fetchUntil).hasRange offset stop = false := by
    rw [Bool.eq_false_iff]
    exact fun h => hpast ((ByteRanges.hasRange_iff _ _ _).mp h)
  have hout : decide (id ∈ (g.unregister id).activeWorkers) = false :=
    decide_eq_false fun hmem => (mem_unregister.mp hmem).2 rfl
  -- before and after the window is fetched
  have hgo : ∀ w w', w.next false (decide (id ∈ g.activeWorkers)) = some w' →
      waitStep id offset stop ⟨ranges, g, w⟩ .go = some ⟨ranges, g, w'⟩ := by
    intro w w' hw
    show (w.next (ranges.hasRange offset stop) (decide (id ∈ g.activeWorkers))).map _ = _
    rw [hmiss, hw]
    rfl
  have hgo' : ∀ w w', w.next false false = some w' →
      waitStep id offset stop ⟨ranges.insert s.anchor s.fetchUntil, g.unregister id, w⟩ .go =
        some ⟨ranges.insert s.anchor s.fetchUntil, g.unregister id, w'⟩ := by
    intro w w' hw
    show (w.next ((ranges.insert s.anchor s.fetchUntil).hasRange offset stop)
      (decide (id ∈ (g.unregister id).activeWorkers))).map _ = _
    rw [hmiss', hout, hw]
    rfl
  have h1 := hgo .enters .loops rfl
  have h2 := hgo .loops (.armed false) rfl
  have h3 := hgo (.armed false) (.awaits false) rfl
  have h7 := hgo' (.awaits true) .wakes rfl
  have h8 := hgo' .wakes .looks rfl
  have h9 := hgo' .looks .leaves rfl
  have h10 := hgo' .leaves (.returned .downloadFailed) rfl
  have hno : ∀ (r : Reading) (e : WaitStep), e ≠ .exit id → EndsFull id s r e := fun r e hne heq =>
    absurd heq hne
  refine ⟨?_, ?_⟩
  · refine (along_cons h1).mpr ⟨hno _ _ (by simp), (along_cons h2).mpr ⟨hno _ _ (by simp),
      (along_cons h3).mpr ⟨hno _ _ (by simp), (along_cons rfl).mpr ⟨hno _ _ (by simp),
      (along_cons rfl).mpr ⟨fun _ => ?_, (along_cons rfl).mpr ⟨hno _ _ (by simp),
      (along_cons h7).mpr ⟨hno _ _ (by simp), (along_cons h8).mpr ⟨hno _ _ (by simp),
      (along_cons h9).mpr ⟨hno _ _ (by simp), (along_cons h10).mpr ⟨hno _ _ (by simp),
      trivial⟩⟩⟩⟩⟩⟩⟩⟩⟩⟩
    show Set.Ico s.anchor s.fetchUntil ⊆ (ranges.insert s.anchor s.fetchUntil).bytes
    rw [ByteRanges.bytes_insert]
    exact Set.subset_union_right
  · exact (run_step _ h1).trans ((run_step _ h2).trans ((run_step _ h3).trans ((run_step _ rfl).trans
      ((run_step _ rfl).trans ((run_step _ rfl).trans ((run_step _ h7).trans ((run_step _ h8).trans
      ((run_step _ h9).trans (run_step _ h10)))))))))

/-- **When joining a session is enough.**  A read that is not cached and joins a session is served in
    every run in which that session ends with its window present — exactly when the bytes of the read
    past the end of the window are present already. -/
theorem joined_read_served_iff (ranges : ByteRanges) (g : Sessions)
    (fileSize offset size id : Nat) (s : Session)
    (hmiss : ranges.hasRange offset (readEnd fileSize offset size) = false)
    (hjoin : g.covering offset = some id) (hs : g.all[id]? = some s) :
    (∀ es r, Along (waitStep id offset (readEnd fileSize offset size)) (EndsFull id s)
        (joined ranges g) es →
      run (waitStep id offset (readEnd fileSize offset size)) (joined ranges g) es = some r →
      Served id offset (readEnd fileSize offset size) r) ↔
    Set.Ico s.fetchUntil (readEnd fileSize offset size) ⊆ ranges.bytes := by
  obtain ⟨hactive, hanchor, hinside⟩ := covering_some hjoin hs
  generalize readEnd fileSize offset size = stop at hmiss ⊢
  constructor
  · intro hserved
    by_contra hpast
    obtain ⟨b, hb, hnot⟩ := Set.not_subset.mp hpast
    have hstill : ¬Set.Ico offset stop ⊆ (ranges.insert s.anchor s.fetchUntil).bytes := by
      intro hall
      have hin := hall (show b ∈ Set.Ico offset stop from
        ⟨Nat.le_trans (Nat.le_of_lt hinside) hb.1, hb.2⟩)
      rw [ByteRanges.bytes_insert] at hin
      rcases hin with hin | hin
      · exact hnot hin
      · exact absurd hin.2 (Nat.not_lt.mpr hb.1)
    obtain ⟨halong, hrun⟩ := fails_past_window g id hmiss hstill
    refine (hserved _ _ halong hrun fun hmem => (mem_unregister.mp hmem).2 rfl).2.1 rfl
  · intro hpast es r halong hrun hout
    have hinit : Attends id s ranges offset stop (joined ranges g) :=
      ⟨Set.Subset.rfl, (List.getElem?_eq_some_iff.mp hs).1, fun hno => absurd hactive hno,
        fun h => absurd h (by simp [joined]), fun h => absurd h (by simp [joined])⟩
    have hr := run_inv attends_step es _ r hinit halong hrun
    have hcover : Set.Ico offset stop ⊆ ranges.bytes ∪ Set.Ico s.anchor s.fetchUntil := by
      intro x hx
      rcases Nat.lt_or_ge x s.fetchUntil with hlt | hge
      · exact Or.inr ⟨Nat.le_trans hanchor hx.1, hlt⟩
      · exact Or.inl (hpast ⟨hge, hx.2⟩)
    have hall : Set.Ico offset stop ⊆ r.ranges.bytes :=
      hcover.trans (Set.union_subset hr.bytes (hr.window hout))
    exact ⟨hall, fun hfailed => (hr.failed hfailed).2 hcover, fun hwait =>
      returns_ok hwait ((ByteRanges.hasRange_iff _ _ _).mpr hall) hout⟩

/-- A session that was spawned by a read of the first ten bytes, without read-ahead. -/
def firstTen : Sessions := ⟨[⟨0, 10, 1, false⟩], [0]⟩

/-- A read of ten bytes at five joins it, the session fetches its ten bytes, and the read fails. -/
theorem read_past_window_fails :
    ByteRanges.new.hasRange 5 (readEnd 20 5 10) = false ∧ firstTen.covering 5 = some 0 ∧
    ∃ r, run (waitStep 0 5 (readEnd 20 5 10)) (joined .new firstTen)
        (waitsForWindow 0 ⟨0, 10, 1, false⟩) = some r ∧
      r.ranges.hasRange 0 10 = true ∧ r.reader = .returned .downloadFailed ∧
      r.ranges.hasRange 5 15 = false :=
  ⟨by decide, by decide, _, rfl, by decide, rfl, by decide⟩

/-- A read of three bytes at five lies in the window. -/
theorem joined_read_served_iff_insideWindow :
    ByteRanges.new.hasRange 5 (readEnd 20 5 3) = false ∧
    ∃ r, run (waitStep 0 5 (readEnd 20 5 3)) (joined .new firstTen)
        [.go, .go, .go, .write 0 10, .exit 0] = some r ∧ r.reader.waiting = true ∧
      Served 0 5 (readEnd 20 5 3) r := by
  refine ⟨by decide, _, rfl, by decide, ?_⟩
  refine (joined_read_served_iff .new firstTen 20 5 3 0 ⟨0, 10, 1, false⟩ (by decide) (by decide)
    rfl).mpr ?_ [.go, .go, .go, .write 0 10, .exit 0] _ ?_ rfl
  · show Set.Ico 10 8 ⊆ _
    rw [Set.Ico_eq_empty (by decide)]
    exact Set.empty_subset _
  · refine (along_cons rfl).mpr ⟨fun h => absurd h (by simp), (along_cons rfl).mpr
      ⟨fun h => absurd h (by simp), (along_cons rfl).mpr ⟨fun h => absurd h (by simp),
      (along_cons rfl).mpr ⟨fun h => absurd h (by simp), (along_cons rfl).mpr ⟨fun _ => ?_,
      trivial⟩⟩⟩⟩⟩
    exact (ByteRanges.hasRange_iff _ 0 10).mp (by decide)

end RdRs.Cache

/-
  `rd/client/rate_limit.rs` — the rate limiter that every attempt of a rate-limited client waits for.

  `wait` takes a mutex and, with it, waits for the next tick of an interval.  The mutex is fair: whoever
  asks for it first gets it first.  The interval ticks when its deadline is over, at once or late; a
  tick that is no later than a slack leaves the next one where it was planned, and one that is later puts
  it a period after itself (`MissedTickBehavior::Delay`).  A caller can go away at any time
  (`list_all_torrents` drops the pages it waits for when one fails): in the queue, or with the mutex,
  where the deadline stays as it is.

  1. **Pace** — `turns_paced`: however many callers there are, and whoever goes away, a window has only
     as many turns as periods fit into it, and one more; a minute has the configured number, and one
     more, if the slack is small.
  2. **Order** — `turns_in_order`: turns are in the order of the calls, and no caller who goes away
     delays the next turn.
-/
import RdRs.Lib.Runs
import RdRs.Lib.Spaced

set_option linter.unusedVariables false

namespace RdRs.Rd.RateLimit

open RdRs.Runs RdRs.Spacing

/-! ## The limiter -/

/-- A minute, in nanoseconds. -/
def minute : Nat := 60 * 10 ^ 9

/-- The period of an interval. -/
def periodOf (ratePerMinute : Nat) : Nat := minute / ratePerMinute

/-- `RateLimiter`: its interval, its mutex, and whom it has let through. -/
structure RateLimiter where
  now : Nat
  period : Nat
  /-- of the next tick -/
  deadline : Nat
  /-- the mutex -/
  holder : Option Nat
  queue : List Nat
  /-- every caller there was, in the order of the calls -/
  calls : List Nat
  /-- the callers whose `wait` has returned, and when -/
  turns : List (Nat × Nat)
deriving DecidableEq

/-- `RateLimiter::new`: the first tick is immediate. -/
def RateLimiter.new (ratePerMinute now : Nat) : RateLimiter where
  now := now
  period := periodOf ratePerMinute
  deadline := now
  holder := none
  queue := []
  calls := []
  turns := []

/-- What happens at a limiter. -/
inductive Act where
  | elapse (nanos : Nat)
  /-- `wait` is called. -/
  | wait (caller : Nat)
  /-- `lock` returns -/
  | lock
  /-- `tick` returns, and with it `wait` -/
  | tick
  /-- a caller goes away -/
  | drop (caller : Nat)
deriving DecidableEq

section

-- how late a tick may be without being missed
variable (slack : Nat)

/-- `Interval::tick`, with `MissedTickBehavior::Delay`: where the next tick is planned. -/
def nextTick (period deadline now : Nat) : Nat :=
  if now ≤ deadline + slack then deadline + period else now + period

/-- A step; a caller calls once. -/
def RateLimiter.step (l : RateLimiter) : Act → Option RateLimiter
  | .elapse nanos => some { l with now := l.now + nanos }
  | .wait caller =>
    if caller ∈ l.calls then none
    else some { l with calls := l.calls ++ [caller], queue := l.queue ++ [caller] }
  | .lock =>
    match l.holder, l.queue with
    | none, caller :: queue => some { l with holder := some caller, queue := queue }
    | _, _ => none
  | .tick =>
    match l.holder with
    | some caller =>
      if l.deadline ≤ l.now then some { l with
        holder := none
        deadline := nextTick slack l.period l.deadline l.now
        turns := l.turns ++ [(caller, l.now)] }
      else none
    | none => none
  | .drop caller => some { l with
      holder := l.holder.filter (· ≠ caller)
      queue := l.queue.filter (· ≠ caller) }

/-! ## What a step does -/

/-- A turn. -/
def Turned (l l' : RateLimiter) : Prop :=
  ∃ caller, l.holder = some caller ∧ l.deadline ≤ l.now ∧ l' = { l with
    holder := none
    deadline := nextTick slack l.period l.deadline l.now
    turns := l.turns ++ [(caller, l.now)] }

/-- Every other step leaves the interval as it is, and of those who wait it drops some, or adds one who
    has just called. -/
structure Queued (l l' : RateLimiter) : Prop where
  period : l'.period = l.period
  deadline : l'.deadline = l.deadline
  turns : l'.turns = l.turns
  waiting : l'.calls = l.calls ∧ (l'.holder.toList ++ l'.queue).Sublist (l.holder.toList ++ l.queue) ∨
    ∃ caller, caller ∉ l.calls ∧ l'.calls = l.calls ++ [caller] ∧
      l'.holder.toList ++ l'.queue = l.holder.toList ++ l.queue ++ [caller]

variable {slack} {l l' : RateLimiter} {a : Act}

theorem step_cases (h : l.step slack a = some l') : Turned slack l l' ∨ Queued l l' := by
  cases a with
  | elapse nanos =>
    obtain rfl := Option.some.inj h
    exact Or.inr ⟨rfl, rfl, rfl, Or.inl ⟨rfl, List.Sublist.refl _⟩⟩
  | wait caller =>
    rw [RateLimiter.step] at h
    split at h
    · cases h
    · rename_i hnew
      obtain rfl := Option.some.inj h
      exact Or.inr ⟨rfl, rfl, rfl, Or.inr ⟨caller, hnew, rfl, (List.append_assoc _ _ _).symm⟩⟩
  | lock =>
    rw [RateLimiter.step] at h
    split at h
    · rename_i caller queue hholder hqueue
      obtain rfl := Option.some.inj h
      refine Or.inr ⟨rfl, rfl, rfl, Or.inl ⟨rfl, ?_⟩⟩
      rw [hholder, hqueue]
      exact List.Sublist.refl _
    · cases h
  | tick =>
    rw [RateLimiter.step] at h
    split at h
    · rename_i caller hholder
      split at h
      · rename_i hdue
        exact Or.inl ⟨caller, hholder, hdue, (Option.some.inj h).symm⟩
      · cases h
    · cases h
  | drop caller =>
    obtain rfl := Option.some.inj h
    refine Or.inr ⟨rfl, rfl, rfl, Or.inl ⟨rfl, List.Sublist.append ?_ List.filter_sublist⟩⟩
    cases l.holder with
    | none => exact List.Sublist.refl _
    | some other =>
      by_cases hne : other ≠ caller
      · rw [Option.filter_some, if_pos (decide_eq_true hne)]
      · rw [Option.filter_some, if_neg (by simpa using hne)]
        exact List.nil_sublist _

/-! ## Pace -/

/-- When the last turn was; before the first one, when the limiter was made. -/
def RateLimiter.last (l : RateLimiter) (made : Nat) : Nat := ((l.turns.map Prod.snd).getLast?).getD made

/-- **The deadline goes with the turns**: they keep their distance up to it, and it is no more than a
    period away from the last one. -/
structure Paced (period made slack : Nat) (l : RateLimiter) : Prop where
  steady : l.period = period
  spaced : Spaced period slack (l.turns.map Prod.snd)
  ahead : Ahead period slack (l.turns.map Prod.snd) l.deadline
  prompt : l.deadline ≤ l.last made + period

/-- **Who waits has called**, and has not had its turn, and nobody overtakes. -/
structure Ordered (l : RateLimiter) : Prop where
  calls : l.calls.Nodup
  waiting : (l.turns.map Prod.fst ++ (l.holder.toList ++ l.queue)).Sublist l.calls

variable {period made : Nat}

theorem Paced.step (h : Paced period made slack l) (hs : l.step slack a = some l') :
    Paced period made slack l' := by
  rcases step_cases hs with ⟨caller, -, hdue, rfl⟩ | hq
  · have hmap : (l.turns ++ [(caller, l.now)]).map Prod.snd = l.turns.map Prod.snd ++ [l.now] := by
      rw [List.map_append]
      rfl
    have hnext : l.deadline + period ≤ nextTick slack l.period l.deadline l.now ∧
        l.now + period ≤ nextTick slack l.period l.deadline l.now + slack ∧
        nextTick slack l.period l.deadline l.now ≤ l.now + period := by
      rw [nextTick, h.steady]
      split <;> omega
    refine ⟨h.steady, ?_, ?_, ?_⟩
    · show Spaced period slack ((l.turns ++ [(caller, l.now)]).map Prod.snd)
      rw [hmap]
      exact h.spaced.snoc h.ahead hdue
    · show Ahead period slack ((l.turns ++ [(caller, l.now)]).map Prod.snd)
        (nextTick slack l.period l.deadline l.now)
      rw [hmap]
      exact h.ahead.snoc hnext.1 hnext.2.1
    · show nextTick slack l.period l.deadline l.now ≤
        (((l.turns ++ [(caller, l.now)]).map Prod.snd).getLast?).getD made + period
      rw [hmap, List.getLast?_concat]
      exact hnext.2.2
  · refine ⟨hq.period.trans h.steady, ?_, ?_, ?_⟩
    · rw [hq.turns]
      exact h.spaced
    · rw [hq.turns, hq.deadline]
      exact h.ahead
    · rw [RateLimiter.last, hq.turns, hq.deadline]
      exact h.prompt

theorem Ordered.step (h : Ordered l) (hs : l.step slack a = some l') : Ordered l' := by
  rcases step_cases hs with ⟨caller, hholder, -, rfl⟩ | hq
  · refine ⟨h.calls, ?_⟩
    have hwaiting := h.waiting
    rw [hholder] at hwaiting
    show (((l.turns ++ [(caller, l.now)]).map Prod.fst) ++ l.queue).Sublist l.calls
    rw [List.map_append, List.append_assoc]
    exact hwaiting
  · rcases hq.waiting with ⟨hcalls, hsub⟩ | ⟨caller, hnew, hcalls, hwaiting⟩
    · refine ⟨hcalls ▸ h.calls, ?_⟩
      rw [hq.turns, hcalls]
      exact ((List.Sublist.refl _).append hsub).trans h.waiting
    · refine ⟨?_, ?_⟩
      · rw [hcalls]
        refine List.nodup_append.mpr ⟨h.calls, List.nodup_singleton caller, fun b hb c hc => ?_⟩
        rw [List.mem_singleton.mp hc]
        rintro rfl
        exact hnew hb
      · rw [hq.turns, hcalls, hwaiting, ← List.append_assoc]
        exact h.waiting.append (List.Sublist.refl _)

/-! ## Runs -/

/-- A rate is a `u32`: its period is not 0. -/
theorem periodOf_pos {ratePerMinute : Nat} (hpos : 0 < ratePerMinute) (hfits : ratePerMinute < 2 ^ 32) :
    0 < periodOf ratePerMinute :=
  Nat.div_pos (by rw [minute]; omega) hpos

/-- A period is a minute's part: what the division leaves is less than one nanosecond for each turn. -/
theorem minute_div {ratePerMinute : Nat} (hpos : 0 < ratePerMinute)
    (hslack : slack + ratePerMinute ≤ periodOf ratePerMinute) :
    (minute + slack) / periodOf ratePerMinute = ratePerMinute := by
  have hmod := Nat.mod_lt minute hpos
  have hsplit := Nat.div_add_mod minute ratePerMinute
  have hperiod : minute / ratePerMinute = periodOf ratePerMinute := rfl
  rw [hperiod] at hsplit
  refine Nat.div_eq_of_lt_le ?_ ?_
  · omega
  · rw [Nat.succ_mul]
    omega

theorem run_paced {ratePerMinute : Nat} {es : List Act}
    (hr : run (RateLimiter.step slack) (.new ratePerMinute made) es = some l) :
    Paced (periodOf ratePerMinute) made slack l :=
  run_inv' (fun _ _ _ h hs => h.step hs) es _ l
    ⟨rfl, spaced_nil, ahead_nil, Nat.le_add_right _ _⟩ hr

/-- The turns within a window of time. -/
def RateLimiter.turnsIn (l : RateLimiter) (start width : Nat) : List Nat :=
  (l.turns.map Prod.snd).filter fun t => decide (start ≤ t) && decide (t ≤ start + width)

/-- **The pace.**  Of however many callers, who come and go as they like, no more have their turn in a
    window than periods fit into it (and into the slack), and one more; in a minute no more than the
    rate, and one more. -/
theorem turns_paced {ratePerMinute : Nat} {es : List Act} (hpos : 0 < ratePerMinute)
    (hfits : ratePerMinute < 2 ^ 32)
    (hr : run (RateLimiter.step slack) (.new ratePerMinute made) es = some l) (start width : Nat) :
    (l.turnsIn start width).length ≤ (width + slack) / periodOf ratePerMinute + 1 ∧
      (slack + ratePerMinute ≤ periodOf ratePerMinute →
        (l.turnsIn start minute).length ≤ ratePerMinute + 1) := by
  have hspaced := (run_paced hr).spaced
  have hperiod := periodOf_pos hpos hfits
  refine ⟨hspaced.count_le hperiod, fun hslack => ?_⟩
  have hcount : (l.turnsIn start minute).length ≤ _ := hspaced.count_le hperiod
  rw [minute_div hpos hslack] at hcount
  exact hcount

/-- One call in a minute: a caller goes away with the mutex, and the next has its turn in time; both
    ends of the minute count. -/
theorem turns_paced_one : ∃ l, run (RateLimiter.step 0) (.new 1 0)
      [.wait 0, .wait 1, .wait 2, .lock, .tick, .lock, .drop 1, .lock, .elapse minute, .tick] = some l ∧
    l.turns = [(0, 0), (2, minute)] ∧ (l.turnsIn 0 minute).length ≤ 1 + 1 := by
  obtain ⟨l, hr, hturns⟩ : ∃ l, run (RateLimiter.step 0) (.new 1 0)
      [.wait 0, .wait 1, .wait 2, .lock, .tick, .lock, .drop 1, .lock, .elapse minute, .tick] = some l ∧
      l.turns = [(0, 0), (2, minute)] :=
    Option.map_eq_some_iff.mp (by decide)
  exact ⟨l, hr, hturns, (turns_paced (by decide) (by decide) hr 0 minute).2 (by decide)⟩

/-- **The order.**  Turns, and then those who wait, are in the order of the calls; and whoever goes
    away, the next turn can be taken a period after the last one. -/
theorem turns_in_order {ratePerMinute : Nat} {es : List Act}
    (hr : run (RateLimiter.step slack) (.new ratePerMinute made) es = some l) :
    l.calls.Nodup ∧ (l.turns.map Prod.fst ++ (l.holder.toList ++ l.queue)).Sublist l.calls ∧
      l.deadline ≤ l.last made + periodOf ratePerMinute := by
  have hordered : Ordered l :=
    run_inv' (fun _ _ _ h hs => h.step hs) es _ l ⟨List.nodup_nil, List.Sublist.refl _⟩ hr
  exact ⟨hordered.calls, hordered.waiting, (run_paced hr).prompt⟩

/-- The same run: the turn of the one who went away is the next one's. -/
theorem turns_in_order_one : ∃ l, run (RateLimiter.step 0) (.new 1 0)
      [.wait 0, .wait 1, .wait 2, .lock, .tick, .lock, .drop 1, .lock] = some l ∧
    (l.holder, l.deadline) = (some 2, minute) ∧ l.deadline ≤ l.last 0 + periodOf 1 := by
  obtain ⟨l, hr, hstate⟩ : ∃ l, run (RateLimiter.step 0) (.new 1 0)
      [.wait 0, .wait 1, .wait 2, .lock, .tick, .lock, .drop 1, .lock] = some l ∧
      (l.holder, l.deadline) = (some 2, minute) :=
    Option.map_eq_some_iff.mp (by decide)
  exact ⟨l, hr, hstate, (turns_in_order hr).2.2⟩

end

end RdRs.Rd.RateLimit

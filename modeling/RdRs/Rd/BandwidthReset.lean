/-
  `rd/bandwidth_reset.rs` and the reset loop of `main.rs` — when the flags of the tokens are cleared.

  The loop sleeps until the next local midnight, clears the flags and stamps the date; after a start it
  clears at once if the date of the stamp is over.  `duration_until_timezone_midnight` looks up today's
  midnight, then tomorrow's, and answers an hour where a lookup finds nothing.

  * `crosses_iff` — for which instants the duration leads to a later local date;
  * `resetStep_inv` — the dates of the clears, phase by phase;
  * `clears_once_per_date` — both, over whole runs of the loop;
  * `flags_kept` — no flag goes away without a clear.

  An instant is a number of nanoseconds.  The time zone is that of one configuration.
-/
import RdRs.Lib.Runs
import RdRs.Lib.Zones
import RdRs.Rd.Cdn
import RdRs.Rd.TokenPool

set_option linter.unusedVariables false

namespace RdRs.Rd

open RdRs.Runs RdRs.Zones

/-! ## The next midnight -/

/-- The time zones by name, and `Europe/Paris`. -/
structure TzDb where
  fromStr : String → Option Zone
  paris : Zone

/-- A malformed name falls back to `Europe/Paris`. -/
def TzDb.zone (db : TzDb) (tzName : String) : Zone := (db.fromStr tzName).getD db.paris

/-- `TimeDelta::to_std` -/
def toStd (d : Int) : Option Nat := if 0 ≤ d then some d.toNat else none

/-- `Duration::from_secs(3600)` -/
def oneHour : Nat := 3600000000000

/-- `duration_until_timezone_midnight`, in a zone. -/
def durationUntilMidnight (z : Zone) (zoned : Int) : Nat :=
  match (z.fromLocal (Zone.midnight (z.date zoned))).latest with
  | none => oneHour
  | some midZ =>
    if midZ ≤ zoned then
      match (z.fromLocal (Zone.midnight (z.date zoned + 1))).latest with
      | none => oneHour
      | some midZ => (toStd (midZ - zoned)).getD oneHour
    else (toStd (midZ - zoned)).getD oneHour

/-- `duration_until_timezone_midnight` at the instant `now`. -/
def durationUntilTimezoneMidnight (db : TzDb) (tzName : String) (now : Int) : Nat :=
  durationUntilMidnight (db.zone tzName) now

/-- The duration is positive and leads to a later local date. -/
def CrossesMidnight (z : Zone) (now : Int) (d : Nat) : Prop := 0 < d ∧ z.date now < z.date (now + d)

/-- Today's midnight does not come again, and either it has been and tomorrow's is to come, or the date
    is a later one in an hour. -/
def MidnightAhead (z : Zone) (now : Int) : Prop :=
  (∀ t, z.toLocal t = Zone.midnight (z.date now) → t ≤ now) ∧
  (((∃ t, z.toLocal t = Zone.midnight (z.date now)) ∧
      ∃ t, now < t ∧ z.toLocal t = Zone.midnight (z.date now + 1)) ∨
    z.date now < z.date (now + oneHour))

/-- The same by the two lookups. -/
theorem midnightAhead_iff_latest (z : Zone) (now : Int) :
    MidnightAhead z now ↔
      (∀ l ∈ (z.fromLocal (Zone.midnight (z.date now))).latest, l ≤ now) ∧
      (((z.fromLocal (Zone.midnight (z.date now))).latest.isSome ∧
          ∃ l ∈ (z.fromLocal (Zone.midnight (z.date now + 1))).latest, now < l) ∨
        z.date now < z.date (now + oneHour)) := by
  have hlast : ∀ x, (∀ t, z.toLocal t = x → t ≤ now) ↔ ∀ l ∈ (z.fromLocal x).latest, l ≤ now := by
    intro x
    constructor
    · intro h l hl
      exact h l (z.toLocal_latest hl)
    · intro h t ht
      cases hl : (z.fromLocal x).latest with
      | none => exact absurd ht (z.latest_eq_none.mp hl t)
      | some l => exact (z.le_latest hl ht).trans (h l hl)
  have hsome : ∀ x, (∃ t, z.toLocal t = x) ↔ (z.fromLocal x).latest.isSome := by
    intro x
    rw [← Option.ne_none_iff_isSome, Ne, z.latest_eq_none]
    push Not
    rfl
  have hafter : ∀ x, (∃ t, now < t ∧ z.toLocal t = x) ↔ ∃ l ∈ (z.fromLocal x).latest, now < l := by
    intro x
    have h := not_congr (hlast x)
    push Not at h
    simpa only [and_comm] using h
  rw [MidnightAhead, hlast, hsome, hafter]

instance (z : Zone) (now : Int) : Decidable (MidnightAhead z now) :=
  decidable_of_iff _ (midnightAhead_iff_latest z now).symm

/-- **The duration leads to a later date** exactly when midnight is ahead. -/
theorem crosses_iff (z : Zone) (now : Int) :
    CrossesMidnight z now (durationUntilMidnight z now) ↔ MidnightAhead z now := by
  have hhour : CrossesMidnight z now oneHour ↔ z.date now < z.date (now + oneHour) :=
    and_iff_right (by decide)
  -- a midnight to come is reached by the difference
  have hreach : ∀ l, now < l → toStd (l - now) = some (l - now).toNat ∧
      (CrossesMidnight z now (l - now).toNat ↔ z.date now < z.date l) := by
    intro l hl
    refine ⟨if_pos (by omega), ?_⟩
    rw [CrossesMidnight, Int.toNat_of_nonneg (by omega), add_sub_cancel]
    exact and_iff_right (by omega)
  rw [midnightAhead_iff_latest, durationUntilMidnight]
  cases htoday : (z.fromLocal (Zone.midnight (z.date now))).latest with
  | none => simp [hhour]
  | some l =>
    have hdate : z.date l = z.date now := z.date_of_midnight (z.toLocal_latest htoday)
    by_cases hle : l ≤ now
    · simp only [if_pos hle]
      cases htomorrow : (z.fromLocal (Zone.midnight (z.date now + 1))).latest with
      | none => simp [hhour, hle]
      | some m =>
        have hnext : z.date m = z.date now + 1 := z.date_of_midnight (z.toLocal_latest htomorrow)
        obtain hlt | hge := lt_or_ge now m
        · obtain ⟨hstd, hcross⟩ := hreach m hlt
          simp [hstd, hcross, hnext, hle, hlt]
        · -- the clock was put back over tomorrow's midnight, and both are over
          have hne : m ≠ now := fun heq => by
            rw [heq] at hnext
            omega
          have hstd : toStd (m - now) = none := if_neg (by omega)
          simp [hstd, hhour, hle, not_lt.mpr hge]
    · obtain ⟨hstd, hcross⟩ := hreach l (not_le.mp hle)
      simp [hstd, hcross, hdate, hle]

/-! ## The stamp -/

/-- `format("%Y-%m-%d")` of a date and the parser for it. -/
structure DateText where
  format : Int → String
  parse : List Char → Option Int
  parse_format : ∀ d, parse (trim (format d).toList) = some d

/-- What a call on the stamp file meets: whether it can be read, and, if writing it fails, what is then
    in it. -/
structure StampIo where
  readOk : Bool
  writeFails : Option (Option String)

/-- `startup_reset_needed`, on the content of the file if there is one. -/
def startupResetNeeded (dates : DateText) (z : Zone) (file : Option String) (io : StampIo) (now : Int) :
    Bool :=
  let last := if io.readOk then file.bind fun text => dates.parse (trim text.toList) else none
  match last with
  | some d => !decide (z.date now ≤ d)
  | none => true

/-- `stamp_reset`; a write that fails is only reported. -/
def stampReset (dates : DateText) (z : Zone) (io : StampIo) (now : Int) : Option String :=
  match io.writeFails with
  | none => some (dates.format (z.date now))
  | some left => left

/-! ## The loop -/

/-- Where the loop is. -/
inductive ResetPc where
  | check
  | clearMissed
  | stampMissed
  | measure
  | asleep (wakeAt : Int)
  | clear
  | stamp
  | stopped

/-- The last reading of the clock, the stamp file, the pool, and the instants of the clears, the last
    one first. -/
structure ResetState where
  now : Int
  pc : ResetPc
  file : Option String
  pool : TokenPool
  cleared : List Int

def ResetState.start (now : Int) (file : Option String) (pool : TokenPool) : ResetState :=
  ⟨now, .check, file, pool, []⟩

/-- The loop goes on at the instant `t`, another task marks a token, or the service shuts down. -/
inductive ResetEv where
  | go (t : Int) (io : StampIo)
  | mark (token : String)
  | shutdown

/-- `clear_all_exhausted`, noted. -/
def ResetState.clearAll (s : ResetState) (t : Int) (pc : ResetPc) : ResetState :=
  { s with now := t, pc := pc, pool := s.pool.clearAllExhausted, cleared := t :: s.cleared }

section

variable (dates : DateText) (db : TzDb) (tzName : String)

/-- One step of the reset loop of `run_fuse_mount`; time does not go back, and a sleep is not cut
    short. -/
def resetStep (s : ResetState) : ResetEv → Option ResetState
  | .mark token => some { s with pool := s.pool.markExhausted token }
  | .shutdown =>
    match s.pc with
    | .asleep _ => some { s with pc := .stopped }
    | _ => none
  | .go t io =>
    if t < s.now then none
    else
      match s.pc with
      | .check =>
        let needed := startupResetNeeded dates (db.zone tzName) s.file io t
        some { s with now := t, pc := if needed then .clearMissed else .measure }
      | .clearMissed => some (s.clearAll t .stampMissed)
      | .stampMissed =>
        some { s with now := t, pc := .measure, file := stampReset dates (db.zone tzName) io t }
      | .measure =>
        some { s with now := t, pc := .asleep (t + durationUntilTimezoneMidnight db tzName t) }
      | .asleep wakeAt => if t < wakeAt then none else some { s with now := t, pc := .clear }
      | .clear => some (s.clearAll t .stamp)
      | .stamp =>
        some { s with now := t, pc := .check, file := stampReset dates (db.zone tzName) io t }
      | .stopped => none

/-- What a phase asks of the instant at which the loop goes on there. -/
def KeptAt (z : Zone) (t : Int) (io : StampIo) : ResetPc → Prop
  | .check => io.readOk = true
  | .stampMissed => io.writeFails = none
  | .stamp => io.writeFails = none
  | .measure => MidnightAhead z t
  | .asleep wakeAt => z.date wakeAt ≤ z.date t
  | _ => True

/-- The local date does not go back, the stamp is read and written, and whenever the loop measures,
    midnight is ahead. -/
def Kept (z : Zone) (s : ResetState) : ResetEv → Prop
  | .go t io => z.date s.now ≤ z.date t ∧ KeptAt z t io s.pc
  | _ => True

instance (z : Zone) (t : Int) (io : StampIo) : ∀ pc : ResetPc, Decidable (KeptAt z t io pc)
  | .check => inferInstanceAs (Decidable (io.readOk = true))
  | .stampMissed => inferInstanceAs (Decidable (io.writeFails = none))
  | .stamp => inferInstanceAs (Decidable (io.writeFails = none))
  | .measure => inferInstanceAs (Decidable (MidnightAhead z t))
  | .asleep wakeAt => inferInstanceAs (Decidable (z.date wakeAt ≤ z.date t))
  | .clearMissed => inferInstanceAs (Decidable True)
  | .clear => inferInstanceAs (Decidable True)
  | .stopped => inferInstanceAs (Decidable True)

instance (z : Zone) (s : ResetState) : ∀ e : ResetEv, Decidable (Kept z s e)
  | .go t io => inferInstanceAs (Decidable (z.date s.now ≤ z.date t ∧ KeptAt z t io s.pc))
  | .mark _ => inferInstanceAs (Decidable True)
  | .shutdown => inferInstanceAs (Decidable True)

/-! ## The dates of the clears -/

/-- Every clear was on the date or before it. -/
def ClearedUpTo (z : Zone) (cleared : List Int) (date : Int) : Prop := ∀ c ∈ cleared, z.date c ≤ date

/-- Every clear was before the date. -/
def ClearedBefore (z : Zone) (cleared : List Int) (date : Int) : Prop := ∀ c ∈ cleared, z.date c < date

/-- What each phase knows of the clears so far. -/
def PhaseInv (dates : DateText) (z : Zone) (s : ResetState) : ResetPc → Prop
  | .check => ClearedUpTo z s.cleared (z.date s.now) ∧
      (s.cleared ≠ [] → ∃ d, s.file = some (dates.format d) ∧ ClearedUpTo z s.cleared d)
  | .clearMissed => ClearedBefore z s.cleared (z.date s.now)
  | .stampMissed => ClearedUpTo z s.cleared (z.date s.now)
  | .measure => ClearedUpTo z s.cleared (z.date s.now)
  | .asleep wakeAt => ClearedBefore z s.cleared (z.date wakeAt)
  | .clear => ClearedBefore z s.cleared (z.date s.now)
  | .stamp => ClearedUpTo z s.cleared (z.date s.now)
  | .stopped => True

theorem ClearedUpTo.mono {z : Zone} {cleared : List Int} {d d' : Int} (h : ClearedUpTo z cleared d)
    (hle : d ≤ d') : ClearedUpTo z cleared d' := fun c hc => (h c hc).trans hle

theorem ClearedUpTo.before {z : Zone} {cleared : List Int} {d d' : Int} (h : ClearedUpTo z cleared d)
    (hlt : d < d') : ClearedBefore z cleared d' := fun c hc => (h c hc).trans_lt hlt

theorem ClearedBefore.mono {z : Zone} {cleared : List Int} {d d' : Int} (h : ClearedBefore z cleared d)
    (hle : d ≤ d') : ClearedBefore z cleared d' := fun c hc => (h c hc).trans_le hle

theorem ClearedBefore.cons {z : Zone} {cleared : List Int} {t : Int}
    (h : ClearedBefore z cleared (z.date t)) : ClearedUpTo z (t :: cleared) (z.date t) := by
  intro c hc
  rcases List.mem_cons.mp hc with rfl | hc
  · exact le_rfl
  · exact (h c hc).le

structure ResetInv (dates : DateText) (z : Zone) (s : ResetState) : Prop where
  later : (s.cleared.map z.date).Pairwise (· > ·)
  phase : PhaseInv dates z s s.pc

variable {dates : DateText} {db : TzDb} {tzName : String}

/-- A clear after the dates of all others. -/
theorem clearAll_later {z : Zone} {s : ResetState} {t : Int} (pc : ResetPc)
    (hlater : (s.cleared.map z.date).Pairwise (· > ·)) (h : ClearedBefore z s.cleared (z.date t)) :
    ((s.clearAll t pc).cleared.map z.date).Pairwise (· > ·) := by
  rw [ResetState.clearAll, List.map_cons, List.pairwise_cons]
  refine ⟨fun d hd => ?_, hlater⟩
  obtain ⟨c, hc, rfl⟩ := List.mem_map.mp hd
  exact h c hc

/-- What the stamp says: no clear is needed only on the date of the stamp or before it. -/
theorem not_needed_le {z : Zone} {d t : Int} {io : StampIo} (hread : io.readOk = true)
    (h : startupResetNeeded dates z (some (dates.format d)) io t = true) : d < z.date t := by
  simpa [startupResetNeeded, hread, dates.parse_format] using h

/-- What the loop does in a phase, at the instant `t`. -/
inductive Goes (dates : DateText) (db : TzDb) (tzName : String) (s : ResetState) (t : Int) (io : StampIo) :
    ResetPc → ResetState → Prop where
  | missed (h : startupResetNeeded dates (db.zone tzName) s.file io t = true) :
      Goes dates db tzName s t io .check { s with now := t, pc := .clearMissed }
  | notMissed : Goes dates db tzName s t io .check { s with now := t, pc := .measure }
  | clearMissed : Goes dates db tzName s t io .clearMissed (s.clearAll t .stampMissed)
  | stampMissed : Goes dates db tzName s t io .stampMissed
      { s with now := t, pc := .measure, file := stampReset dates (db.zone tzName) io t }
  | measure : Goes dates db tzName s t io .measure
      { s with now := t, pc := .asleep (t + durationUntilTimezoneMidnight db tzName t) }
  | wake {wakeAt : Int} (h : wakeAt ≤ t) :
      Goes dates db tzName s t io (.asleep wakeAt) { s with now := t, pc := .clear }
  | clear : Goes dates db tzName s t io .clear (s.clearAll t .stamp)
  | stamp : Goes dates db tzName s t io .stamp
      { s with now := t, pc := .check, file := stampReset dates (db.zone tzName) io t }

theorem resetStep_go {s s' : ResetState} {t : Int} {io : StampIo}
    (h : resetStep dates db tzName s (.go t io) = some s') :
    s.now ≤ t ∧ Goes dates db tzName s t io s.pc s' := by
  by_cases htime : t < s.now
  · simp [resetStep, htime] at h
  refine ⟨not_lt.mp htime, ?_⟩
  cases hpc : s.pc with
  | check =>
    simp only [resetStep, htime, if_false, hpc, Option.some.injEq] at h
    subst h
    cases hneeded : startupResetNeeded dates (db.zone tzName) s.file io t with
    | true => exact Goes.missed hneeded
    | false => exact Goes.notMissed
  | asleep wakeAt =>
    by_cases hwake : t < wakeAt
    · simp [resetStep, hpc, hwake] at h
    simp only [resetStep, htime, if_false, hpc, hwake, Option.some.injEq] at h
    subst h
    exact Goes.wake (not_lt.mp hwake)
  | stopped => simp [resetStep, htime, hpc] at h
  | _ =>
    simp only [resetStep, htime, if_false, hpc, Option.some.injEq] at h
    subst h
    constructor

/-- Only a sleep is shut down. -/
theorem resetStep_shutdown {s s' : ResetState} (h : resetStep dates db tzName s .shutdown = some s') :
    s' = { s with pc := .stopped } := by
  cases hpc : s.pc with
  | asleep wakeAt => simpa [resetStep, hpc] using h.symm
  | _ => simp [resetStep, hpc] at h

/-- **One step** keeps the clears on different dates. -/
theorem resetStep_inv {s s' : ResetState} {e : ResetEv} (hinv : ResetInv dates (db.zone tzName) s)
    (hkept : Kept (db.zone tzName) s e) (h : resetStep dates db tzName s e = some s') :
    ResetInv dates (db.zone tzName) s' := by
  obtain ⟨hlater, hphase⟩ := hinv
  cases e with
  | mark token =>
    obtain rfl := Option.some.inj h
    refine ⟨hlater, ?_⟩
    cases hpc : s.pc <;> rw [hpc] at hphase <;> exact hphase
  | shutdown =>
    obtain rfl := resetStep_shutdown h
    exact ⟨hlater, trivial⟩
  | go t io =>
    obtain ⟨hdate, hat⟩ := hkept
    obtain ⟨-, hgo⟩ := resetStep_go h
    generalize s.pc = pc at hphase hat hgo
    cases hgo with
    | missed hneeded =>
      refine ⟨hlater, fun c hc => ?_⟩
      obtain ⟨d, hfile, hd⟩ := hphase.2 (List.ne_nil_of_mem hc)
      rw [hfile] at hneeded
      exact (hd c hc).trans_lt (not_needed_le hat hneeded)
    | notMissed => exact ⟨hlater, hphase.1.mono hdate⟩
    | clearMissed =>
      have hbefore := ClearedBefore.mono hphase hdate
      exact ⟨clearAll_later _ hlater hbefore, hbefore.cons⟩
    | stampMissed => exact ⟨hlater, ClearedUpTo.mono hphase hdate⟩
    | measure =>
      have hcross := ((crosses_iff (db.zone tzName) t).mpr hat).2
      exact ⟨hlater, ClearedUpTo.before hphase (hdate.trans_lt hcross)⟩
    | wake hwake => exact ⟨hlater, ClearedBefore.mono hphase hat⟩
    | clear =>
      have hbefore := ClearedBefore.mono hphase hdate
      exact ⟨clearAll_later _ hlater hbefore, hbefore.cons⟩
    | stamp =>
      have hupto := ClearedUpTo.mono hphase hdate
      have hfile : stampReset dates (db.zone tzName) io t =
          some (dates.format ((db.zone tzName).date t)) := by
        rw [stampReset, hat]
      exact ⟨hlater, hupto, fun _ => ⟨_, hfile, hupto⟩⟩

/-! ## The flags -/

/-- What a step does to the pool: nothing, a mark, or a clear that is noted. -/
theorem resetStep_pool {s s' : ResetState} {e : ResetEv} (h : resetStep dates db tzName s e = some s') :
    (s'.pool = s.pool ∧ s'.cleared = s.cleared) ∨
    (∃ token, s'.pool = s.pool.markExhausted token ∧ s'.cleared = s.cleared) ∨
    ∃ t, s'.pool = s.pool.clearAllExhausted ∧ s'.cleared = t :: s.cleared := by
  cases e with
  | mark token =>
    obtain rfl := Option.some.inj h
    exact Or.inr (Or.inl ⟨token, rfl, rfl⟩)
  | shutdown =>
    obtain rfl := resetStep_shutdown h
    exact Or.inl ⟨rfl, rfl⟩
  | go t io =>
    obtain ⟨-, hgo⟩ := resetStep_go h
    generalize s.pc = pc at hgo
    cases hgo with
    | clearMissed => exact Or.inr (Or.inr ⟨t, rfl, rfl⟩)
    | clear => exact Or.inr (Or.inr ⟨t, rfl, rfl⟩)
    | _ => exact Or.inl ⟨rfl, rfl⟩

theorem mem_markExhausted {p : TokenPool} {flagged : String} (h : (flagged, true) ∈ p.slots)
    (token : String) : (flagged, true) ∈ (p.markExhausted token).slots := by
  show (flagged, true) ∈ TokenPool.markSlots token p.slots
  rw [TokenPool.markSlots_eq_map token p.slots p.nodup]
  exact List.mem_map.mpr ⟨(flagged, true), h, by rw [Bool.true_or]⟩

/-- The flag is set, or there has been a clear since there were `n`. -/
def FlagKept (flagged : String) (n : Nat) (s : ResetState) : Prop :=
  n ≤ s.cleared.length ∧ ((flagged, true) ∈ s.pool.slots ∨ n < s.cleared.length)

theorem resetStep_flagKept {flagged : String} {n : Nat} {s s' : ResetState} {e : ResetEv}
    (hkept : FlagKept flagged n s) (h : resetStep dates db tzName s e = some s') :
    FlagKept flagged n s' := by
  obtain ⟨hle, hflag⟩ := hkept
  obtain ⟨hpool, hcleared⟩ | ⟨token, hpool, hcleared⟩ | ⟨t, hpool, hcleared⟩ := resetStep_pool h
  · rw [FlagKept, hpool, hcleared]
    exact ⟨hle, hflag⟩
  · rw [FlagKept, hpool, hcleared]
    exact ⟨hle, hflag.imp_left fun hset => mem_markExhausted hset token⟩
  · rw [FlagKept, hcleared, List.length_cons]
    exact ⟨by omega, Or.inr (by omega)⟩

/-- **No flag goes away without a clear.** -/
theorem flags_kept {s s' : ResetState} {es : List ResetEv} {flagged : String}
    (hrun : run (resetStep dates db tzName) s es = some s') (hflag : (flagged, true) ∈ s.pool.slots) :
    (flagged, true) ∈ s'.pool.slots ∨ s.cleared.length < s'.cleared.length := by
  have hstart : FlagKept flagged s.cleared.length s := ⟨le_rfl, Or.inl hflag⟩
  exact (run_inv' (fun _ _ _ hkept hstep => resetStep_flagKept hkept hstep) es s s' hstart hrun).2

/-! ## Over whole runs -/

/-- **The flags are cleared at most once per local date**: the duration leads to a later date exactly
    when midnight is ahead, and in a run of which this holds at every measurement, whose local date
    does not go back and whose stamps are read and written, the dates of the clears increase. -/
theorem clears_once_per_date (dates : DateText) (db : TzDb) (tzName : String) :
    (∀ now, CrossesMidnight (db.zone tzName) now (durationUntilTimezoneMidnight db tzName now) ↔
      MidnightAhead (db.zone tzName) now) ∧
    ∀ (now : Int) (file : Option String) (pool : TokenPool) (es : List ResetEv) (s : ResetState),
      run (resetStep dates db tzName) (ResetState.start now file pool) es = some s →
      Along (resetStep dates db tzName) (Kept (db.zone tzName)) (ResetState.start now file pool) es →
      (s.cleared.map (db.zone tzName).date).Pairwise (· > ·) ∧
        ∀ date, (s.cleared.map (db.zone tzName).date).count date ≤ 1 := by
  refine ⟨crosses_iff (db.zone tzName), fun now file pool es s hrun hkept => ?_⟩
  have hstart : ResetInv dates (db.zone tzName) (ResetState.start now file pool) := by
    refine ⟨List.Pairwise.nil, ?_, fun hne => absurd rfl hne⟩
    intro c hc
    cases hc
  have hlater := (run_inv (fun _ _ _ hinv hk hstep => resetStep_inv hinv hk hstep) es _ s hstart hkept
    hrun).later
  exact ⟨hlater, List.nodup_iff_count_le_one.mp (hlater.imp fun h => ne_of_gt h)⟩

end

/-! ## Cairo and Paris -/

/-- A day of April 2025, from 0 on, as it is written. -/
def aprilDay (i : Nat) : List Char :=
  "2025-04-".toList ++ [Nat.digitChar ((i + 1) / 10), Nat.digitChar ((i + 1) % 10)]

theorem trim_replicate {c : Char} (h : isWhitespace c = false) (n : Nat) :
    trim (List.replicate n c) = List.replicate n c := by
  simp [trim, h]

theorem aprilDay_ne_replicate {c : Char} (h : c ≠ '2') (i n : Nat) :
    aprilDay i ≠ List.replicate n c := by
  intro heq
  have hmem : '2' ∈ List.replicate n c := by
    rw [← heq]
    exact List.mem_cons_self
  exact h (List.eq_of_mem_replicate hmem).symm

/-- April 2025 in the format of the stamp, and every other date in strokes. -/
def aprilFormat (d : Int) : List Char :=
  if 20179 ≤ d ∧ d < 20209 then aprilDay (d - 20179).toNat
  else if 0 ≤ d then List.replicate d.toNat 'x'
  else List.replicate (-d).toNat 'y'

def aprilParse (text : List Char) : Option Int :=
  match (List.range 30).find? fun i => aprilDay i == text with
  | some i => some (20179 + i)
  | none => if text.head? = some 'y' then some (-text.length) else some text.length

theorem aprilParse_day {i : Nat} (h : i < 30) :
    aprilParse (trim (aprilDay i)) = some (20179 + (i : Int)) := by
  have hall : ∀ i < 30, aprilParse (trim (aprilDay i)) = some (20179 + (i : Int)) := by decide
  exact hall i h

theorem aprilParse_strokes {c : Char} (hc : c ≠ '2') (hblank : isWhitespace c = false) (n : Nat) :
    aprilParse (trim (List.replicate n c)) =
      if (List.replicate n c).head? = some 'y' then some (-(n : Int)) else some (n : Int) := by
  have hfind : (List.range 30).find? (fun i => aprilDay i == List.replicate n c) = none := by
    refine List.find?_eq_none.mpr fun i _ => ?_
    simpa using aprilDay_ne_replicate hc i n
  rw [trim_replicate hblank, aprilParse, hfind, List.length_replicate]

def aprilDates : DateText where
  format d := String.ofList (aprilFormat d)
  parse := aprilParse
  parse_format d := by
    rw [String.toList_ofList, aprilFormat]
    by_cases happril : 20179 ≤ d ∧ d < 20209
    · rw [if_pos happril, aprilParse_day (by omega)]
      exact congrArg some (by omega)
    rw [if_neg happril]
    by_cases hpos : 0 ≤ d
    · have hhead : (List.replicate d.toNat 'x').head? ≠ some 'y' := fun heq =>
        absurd (List.eq_of_mem_replicate (List.mem_of_mem_head? heq)) (by decide)
      rw [if_pos hpos, aprilParse_strokes (by decide) (by decide), if_neg hhead]
      exact congrArg some (by omega)
    · have hhead : (List.replicate (-d).toNat 'y').head? = some 'y' := by
        rw [List.head?_replicate, if_neg (by omega)]
      rw [if_neg hpos, aprilParse_strokes (by decide) (by decide), if_pos hhead]
      exact congrArg some (by omega)

/-- `Africa/Cairo`, whose clock goes from midnight to one on 25 April 2025, and `Europe/Paris`. -/
def tzSpring2025 : TzDb where
  fromStr name :=
    if name = "Africa/Cairo" then
      some (Zone.ofChange (1745532000 * Zone.second) (2 * Zone.hour) (3 * Zone.hour))
    else none
  paris := Zone.ofChange (1743296400 * Zone.second) (1 * Zone.hour) (2 * Zone.hour)

def stampOk : StampIo := ⟨true, none⟩

/-- The rounds of the loop: measured at one instant, awake and through at the next. -/
def resetRounds : List Int → List ResetEv
  | measured :: woken :: rest =>
    [.go measured stampOk, .go measured stampOk, .go woken stampOk, .go woken stampOk,
      .go woken stampOk] ++ resetRounds (woken :: rest)
  | _ => []

/-- On the day before the change, at noon, the loop in Cairo finds no midnight tomorrow, and clears at
    one and at two. -/
theorem cairo_clears_every_hour :
    ¬CrossesMidnight (tzSpring2025.zone "Africa/Cairo") (1745488800 * Zone.second)
        (durationUntilTimezoneMidnight tzSpring2025 "Africa/Cairo" (1745488800 * Zone.second)) ∧
    (run (resetStep aprilDates tzSpring2025 "Africa/Cairo")
        (ResetState.start (1745488800 * Zone.second) (some "2025-04-24") (TokenPool.new "token" []))
        (resetRounds [1745488800 * Zone.second, 1745492400 * Zone.second, 1745496000 * Zone.second])).map
      (fun s => s.cleared.map (tzSpring2025.zone "Africa/Cairo").date) = some [20202, 20202] := by
  constructor
  · rintro ⟨-, hdate⟩
    exact absurd hdate (by decide)
  · decide

/-- From noon of 22 April 2025 on, in Paris, over two midnights; the stamp is that of the day before. -/
def parisEvents : List ResetEv :=
  List.replicate 4 (.go (1745316000 * Zone.second) stampOk) ++
    List.replicate 3 (.go (1745359200 * Zone.second) stampOk) ++
    resetRounds [1745359200 * Zone.second, 1745445600 * Zone.second]

def parisStart : ResetState :=
  ResetState.start (1745316000 * Zone.second) (some "2025-04-21") (TokenPool.new "token" [])

theorem clears_once_per_date_paris :
    ∃ s, run (resetStep aprilDates tzSpring2025 "Europe/Paris") parisStart parisEvents = some s ∧
      s.cleared.map (tzSpring2025.zone "Europe/Paris").date = [20202, 20201, 20200] ∧
      (s.cleared.map (tzSpring2025.zone "Europe/Paris").date).Pairwise (· > ·) := by
  have hrun : ((run (resetStep aprilDates tzSpring2025 "Europe/Paris") parisStart parisEvents).map
      fun s => s.cleared.map (tzSpring2025.zone "Europe/Paris").date) = some [20202, 20201, 20200] := by
    decide
  obtain ⟨s, hs, hdates⟩ := Option.map_eq_some_iff.mp hrun
  exact ⟨s, hs, hdates, ((clears_once_per_date aprilDates tzSpring2025 "Europe/Paris").2 _ _ _ _ s hs
    (along_of_decide (by decide))).1⟩

end RdRs.Rd

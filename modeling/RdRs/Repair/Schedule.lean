/-
  `run_loop` of `repair/engine/mod.rs` — when the periodic scan runs, over any number of starts.

  A scan is due when `every_mins` have gone by since the last one was over.  That moment is kept in
  `app_meta`, in whole seconds, and read again at a tick of the loop; the loop then sleeps for what is
  left, unless somebody asks for a repair meanwhile, which takes it back to its tick.  The program can
  be stopped at any point; a scan counts when its moment has been kept.

  There are two clocks: the wall clock, which is kept, and the one that ticks and sleeps go by, which
  stands still while the machine is suspended.  Neither goes back.

  * `Timely` — what is due and when, phase by phase: the moment that is kept is the end of the last
    scan, and whoever sleeps wakes when it is due;
  * `scans_spaced` — between a scan and the next one lie `every_mins`, but for less than a second.
-/
import RdRs.Db.AppMeta
import RdRs.Rd.RateLimit

set_option linter.unusedVariables false

namespace RdRs.Repair.Schedule

open RdRs.Db RdRs.Runs RdRs.Spacing RdRs.Rd.RateLimit

/-! ## The loop -/

/-- `META_LAST_REPAIR_CYCLE_UNIX` -/
def metaLastRepairCycleUnix : String := "last_repair_cycle_unix"

/-- A second, in nanoseconds. -/
def second : Nat := 10 ^ 9

/-- What the loop is doing; a tick is planned from `selecting` on. -/
inductive Phase where
  /-- no program is running -/
  | down
  /-- the sleep before the loop, to its end -/
  | starting (wake : Nat)
  /-- the outer `select!` -/
  | selecting (tick : Nat)
  /-- the inner `select!`, with its sleep -/
  | throttled (tick wake : Nat)
  /-- a session for the queue -/
  | serving (tick : Nat)
  /-- a periodic session, from its start -/
  | scanning (tick start : Nat)
deriving DecidableEq

/-- The engine, as far as its periodic scans go. -/
structure Engine where
  /-- nanoseconds since 1970 -/
  wall : Nat
  /-- nanoseconds of the clock for ticks and sleeps -/
  mono : Nat
  /-- `repair.enable`, `repair.every_mins` -/
  enable : Bool
  everyMins : Nat
  db : Option AppMeta
  phase : Phase
  /-- the scans whose end has been kept: start and end, by the wall clock -/
  cycles : List (Nat × Nat)

/-- A program has not been started yet. -/
def Engine.start (wall mono : Nat) (enable : Bool) (everyMins : Nat) (db : Option AppMeta) : Engine where
  wall := wall
  mono := mono
  enable := enable
  everyMins := everyMins
  db := db
  phase := .down
  cycles := []

/-- `Utc::now().timestamp()` -/
def timestamp (wall : Nat) : Int64 := Int64.ofNat (wall / second)

/-- The interval between scans, in seconds; the product is a `u64`. -/
def interval (everyMins : Nat) : Nat := max everyMins 1 * 60 % 2 ^ 64

/-- `throttle_wait_duration`, in seconds, from what has been read. -/
def throttleWaitDuration (everyMins : Nat) (last : Option Int64) (now : Int64) : Nat :=
  match last with
  | none => 0
  | some ts =>
    let age := (now - ts).toInt.toNat
    if age < interval everyMins then interval everyMins - age else 0

/-- What happens. -/
inductive Event where
  /-- time passes -/
  | elapse (nanos : Nat)
  /-- the machine is suspended -/
  | suspend (nanos : Nat)
  /-- another configuration is in place -/
  | configure (enable : Bool) (everyMins : Nat)
  /-- the program is started: `init_schema` -/
  | boot
  /-- it ends, or is killed -/
  | stop
  /-- the sleep before the loop is over -/
  | enter
  /-- `repair_notify.notified()`, in either `select!` -/
  | notified
  /-- the session for the queue is over -/
  | served
  /-- `tick.tick()`; whether the read of `app_meta` goes through -/
  | tick (readOk : Bool)
  /-- the inner sleep is over -/
  | slept
  /-- the scan is over and `persist_cycle_ts` has been called; whether the write goes through -/
  | persist (writeOk : Bool)
deriving DecidableEq

section

-- how late a tick may be without being missed
variable (slack : Nat)

/-- The wall clock ends where its seconds are no `i64` any more. -/
def Engine.pass (s : Engine) (nanos mono : Nat) : Option Engine :=
  if s.wall + nanos < 2 ^ 63 * second then some { s with wall := s.wall + nanos, mono := s.mono + mono }
  else none

/-- The branch of the tick. -/
def Engine.tick (s : Engine) (tick : Nat) (readOk : Bool) : Engine :=
  let next := nextTick slack minute tick s.mono
  if s.enable then
    let last := if readOk then (getMetaI64 s.db metaLastRepairCycleUnix).toOption.join else none
    let wait := throttleWaitDuration s.everyMins last (timestamp s.wall)
    if 0 < wait then { s with phase := .throttled next (s.mono + wait * second) }
    else { s with phase := .scanning next s.wall }
  else { s with phase := .selecting next }

/-- `persist_cycle_ts`, and back to the `select!` -/
def Engine.persist (s : Engine) (tick start : Nat) (writeOk : Bool) : Engine :=
  if writeOk then
    match setMetaI64 s.db metaLastRepairCycleUnix (timestamp s.wall) with
    | .ok db => { s with db := db, phase := .selecting tick, cycles := s.cycles ++ [(start, s.wall)] }
    | .error _ => { s with phase := .selecting tick }
  else { s with phase := .selecting tick }

/-- A step. -/
def Engine.step (s : Engine) : Event → Option Engine
  | .elapse nanos => s.pass nanos nanos
  | .suspend nanos => s.pass nanos 0
  | .configure enable everyMins => some { s with enable := enable, everyMins := everyMins }
  | .boot =>
    match s.phase with
    | .down => some { s with db := initSchema s.db, phase := .starting (s.mono + 10 * second) }
    | _ => none
  | .stop => some { s with phase := .down }
  | .enter =>
    match s.phase with
    | .starting wake => if wake ≤ s.mono then some { s with phase := .selecting s.mono } else none
    | _ => none
  | .notified =>
    match s.phase with
    | .selecting tick => some { s with phase := .serving tick }
    | .throttled tick _ => some { s with phase := .serving tick }
    | _ => none
  | .served =>
    match s.phase with
    | .serving tick => some { s with phase := .selecting tick }
    | _ => none
  | .tick readOk =>
    match s.phase with
    | .selecting tick => if tick ≤ s.mono then some (s.tick slack tick readOk) else none
    | _ => none
  | .slept =>
    match s.phase with
    | .throttled tick wake =>
      if wake ≤ s.mono then some { s with phase := .scanning tick s.wall } else none
    | _ => none
  | .persist writeOk =>
    match s.phase with
    | .scanning tick start => some (s.persist tick start writeOk)
    | _ => none

/-! ## What is due when -/

/-- When the next scan is due, with this many seconds between scans. -/
def Engine.due (s : Engine) (every : Nat) : Nat :=
  match s.cycles.getLast? with
  | some cycle => cycle.2 / second * second + every * second
  | none => 0

/-- Between the starts of two scans. -/
def gap (every : Nat) : Nat := every * second + 1 - second

/-- **What is due when**, with at least this many seconds between scans. -/
structure Timely (every : Nat) (s : Engine) : Prop where
  positive : 0 < every
  configured : every ≤ interval s.everyMins
  wall : s.wall < 2 ^ 63 * second
  typed : Typed s.db
  ready : s.phase ≠ .down → Ready s.db
  last : ∀ cycle, s.cycles.getLast? = some cycle → cycle.2 ≤ s.wall ∧
    view s.db metaLastRepairCycleUnix = .ok (some (timestamp cycle.2))
  sleeping : ∀ tick wake, s.phase = .throttled tick wake → s.due every ≤ s.wall + (wake - s.mono)
  scanning : ∀ tick start, s.phase = .scanning tick start → s.due every ≤ start ∧ start ≤ s.wall
  spaced : Spaced (gap every) 0 (s.cycles.map Prod.fst)
  ahead : Ahead (gap every) 0 (s.cycles.map Prod.fst) (s.due every)

/-- What is asked of a run: the reads of `app_meta` go through, and no interval is shorter. -/
def Event.Regular (every : Nat) : Event → Prop
  | .tick readOk => readOk = true
  | .configure _ everyMins => every ≤ interval everyMins
  | _ => True

variable {slack} {every : Nat} {s t : Engine}

/-- Numbers that fit are subtracted without wrapping around. -/
theorem toNat_sub {a b : Nat} (hle : b ≤ a) (ha : a < 2 ^ 63) :
    (Int64.ofNat a - Int64.ofNat b).toInt.toNat = a - b := by
  rw [Int64.toInt_sub, Int64.toInt_ofNat_of_lt ha, Int64.toInt_ofNat_of_lt (by omega),
    Int.bmod_eq_of_le (by omega) (by omega)]
  omega

/-- The age of a moment that is kept. -/
theorem age_eq {w c : Nat} (hle : c ≤ w) (hw : w < 2 ^ 63 * second) :
    (timestamp w - timestamp c).toInt.toNat = w / second - c / second :=
  toNat_sub (Nat.div_le_div_right hle) (Nat.div_lt_of_lt_mul (by rwa [Nat.mul_comm] at hw))

/-- What is read, when the read goes through. -/
theorem Timely.read (h : Timely every s) (hup : s.phase ≠ .down) {cycle : Nat × Nat}
    (hlast : s.cycles.getLast? = some cycle) :
    (getMetaI64 s.db metaLastRepairCycleUnix).toOption.join = some (timestamp cycle.2) := by
  rw [getMetaI64_eq_view (h.ready hup), (h.last cycle hlast).2]
  rfl

/-- **The throttle is exact**: after the wait the next scan is due. -/
theorem Timely.throttle (h : Timely every s) (hup : s.phase ≠ .down) :
    s.due every ≤ s.wall + throttleWaitDuration s.everyMins
      (getMetaI64 s.db metaLastRepairCycleUnix).toOption.join (timestamp s.wall) * second := by
  rw [Engine.due]
  cases hlast : s.cycles.getLast? with
  | none => exact Nat.zero_le _
  | some cycle =>
    have hend := (h.last cycle hlast).1
    have hmod := Nat.div_add_mod s.wall second
    have hdiv : cycle.2 / second ≤ s.wall / second := Nat.div_le_div_right hend
    have hevery := h.configured
    rw [h.read hup hlast, throttleWaitDuration, age_eq hend h.wall]
    show cycle.2 / second * second + every * second ≤ _
    rw [← Nat.add_mul]
    split
    · rename_i hage
      calc (cycle.2 / second + every) * second
          ≤ (s.wall / second + (interval s.everyMins - (s.wall / second - cycle.2 / second))) * second :=
            Nat.mul_le_mul_right _ (by omega)
        _ = second * (s.wall / second) +
            (interval s.everyMins - (s.wall / second - cycle.2 / second)) * second := by
            rw [Nat.add_mul, Nat.mul_comm second]
        _ ≤ _ := by omega
    · rename_i hage
      calc (cycle.2 / second + every) * second ≤ s.wall / second * second :=
            Nat.mul_le_mul_right _ (by omega)
        _ ≤ s.wall := Nat.div_mul_le_self _ _
        _ ≤ _ := Nat.le_add_right _ _

/-- Where nobody waits for the throttle and no scan runs, nothing is asked of the phase. -/
theorem Timely.quiet (h : Timely every s) {phase : Phase}
    (hthrottled : ∀ tick wake, phase ≠ .throttled tick wake)
    (hscanning : ∀ tick start, phase ≠ .scanning tick start) (hready : phase ≠ .down → Ready s.db) :
    Timely every { s with phase := phase } :=
  ⟨h.positive, h.configured, h.wall, h.typed, hready, h.last,
    fun tick wake heq => absurd heq (hthrottled tick wake),
    fun tick start heq => absurd heq (hscanning tick start), h.spaced, h.ahead⟩

theorem Timely.pass (h : Timely every s) {nanos mono : Nat} (hle : mono ≤ nanos)
    (hs : s.pass nanos mono = some t) : Timely every t := by
  rw [Engine.pass] at hs
  split at hs
  · rename_i hwall
    obtain rfl := Option.some.inj hs
    refine ⟨h.positive, h.configured, hwall, h.typed, h.ready, fun cycle hlast => ?_,
      fun tick wake hphase => ?_,
      fun tick start hphase => ?_, h.spaced, h.ahead⟩
    · obtain ⟨hend, hview⟩ := h.last cycle hlast
      exact ⟨hend.trans (Nat.le_add_right _ _), hview⟩
    · have hdue := h.sleeping tick wake hphase
      show s.due every ≤ s.wall + nanos + (wake - (s.mono + mono))
      omega
    · obtain ⟨hdue, hstart⟩ := h.scanning tick start hphase
      exact ⟨hdue, hstart.trans (Nat.le_add_right _ _)⟩
  · cases hs

/-- A scan starts now. -/
theorem Timely.scan (h : Timely every s) (hup : s.phase ≠ .down) (hdue : s.due every ≤ s.wall)
    (tick : Nat) :
    Timely every { s with phase := .scanning tick s.wall } := by
  refine ⟨h.positive, h.configured, h.wall, h.typed, fun _ => h.ready hup, h.last,
    fun _ _ heq => Phase.noConfusion heq,
    fun tick' start heq => ?_, h.spaced, h.ahead⟩
  injection heq with _ hstart
  exact hstart ▸ ⟨hdue, Nat.le_refl _⟩

theorem Timely.tick (h : Timely every s) (hup : s.phase ≠ .down) (tick : Nat) :
    Timely every (s.tick slack tick true) := by
  have hwait := h.throttle hup
  rw [Engine.tick]
  split
  · rw [if_pos rfl]
    simp only
    split
    · refine ⟨h.positive, h.configured, h.wall, h.typed, fun _ => h.ready hup, h.last,
        fun tick' wake heq => ?_,
        fun _ _ heq => Phase.noConfusion heq, h.spaced, h.ahead⟩
      injection heq with _ hwake
      rw [← hwake]
      show s.due every ≤ s.wall + (s.mono + _ - s.mono)
      rw [Nat.add_sub_cancel_left]
      exact hwait
    · rename_i hnone
      refine h.scan hup (hwait.trans ?_) _
      rw [Nat.eq_zero_of_not_pos hnone, Nat.zero_mul]
      exact Nat.le_refl _
  · exact h.quiet (fun _ _ => Phase.noConfusion) (fun _ _ => Phase.noConfusion) fun _ => h.ready hup

/-- A scan is due at a whole second. -/
theorem due_dvd (s : Engine) (every : Nat) : second ∣ s.due every := by
  rw [Engine.due]
  split
  · rw [← Nat.add_mul]
    exact Nat.dvd_mul_left _ _
  · exact Nat.dvd_zero _

/-- From the end of a scan on, whose second is kept, the next one is due a gap after what was due
    before it, and a gap after its start. -/
theorem due_next {every due start wall : Nat} (hpos : 0 < every) (hdvd : second ∣ due) (hdue : due ≤ wall)
    (hstart : start ≤ wall) :
    due + gap every ≤ wall / second * second + every * second ∧
      start + gap every ≤ wall / second * second + every * second + 0 := by
  have hsecond : second = 10 ^ 9 := rfl
  have hmod := Nat.mod_lt wall (show 0 < second by decide)
  have hsplit := Nat.div_add_mod wall second
  have hfloor : due ≤ wall / second * second := by
    obtain ⟨k, rfl⟩ := hdvd
    rw [Nat.mul_comm]
    exact Nat.mul_le_mul_right _ ((Nat.le_div_iff_mul_le (by decide)).mpr (by rwa [Nat.mul_comm]))
  have hall : second ≤ every * second := Nat.le_mul_of_pos_left second hpos
  rw [Nat.mul_comm] at hsplit
  rw [gap]
  generalize wall / second * second = floor at *
  generalize every * second = all at *
  omega

/-- **A scan that is kept** is a gap away from the one before, and the next one is due after a gap. -/
theorem Timely.persist (h : Timely every s) {tick start : Nat} (hphase : s.phase = .scanning tick start)
    (writeOk : Bool) : Timely every (s.persist tick start writeOk) := by
  have hup : s.phase ≠ .down := hphase ▸ Phase.noConfusion
  have hready := h.ready hup
  have hnothing : Timely every { s with phase := .selecting tick } :=
    h.quiet (fun _ _ => Phase.noConfusion) (fun _ _ => Phase.noConfusion) fun _ => hready
  rw [Engine.persist]
  split
  · obtain ⟨db, hset, hready', hview⟩ :=
      setMetaI64_spec hready metaLastRepairCycleUnix (timestamp s.wall)
    rw [hset]
    obtain ⟨hdue, hstart⟩ := h.scanning tick start hphase
    have hmap : (s.cycles ++ [(start, s.wall)]).map Prod.fst = s.cycles.map Prod.fst ++ [start] := by
      rw [List.map_append]
      rfl
    have hlast : (s.cycles ++ [(start, s.wall)]).getLast? = some (start, s.wall) := List.getLast?_concat
    obtain ⟨hnext, hgap⟩ := due_next h.positive (due_dvd s every) (hdue.trans hstart) hstart
    refine ⟨h.positive, h.configured, h.wall, hready'.typed, fun _ => hready', fun cycle hcycle => ?_,
      fun _ _ heq => Phase.noConfusion heq, fun _ _ heq => Phase.noConfusion heq, ?_, ?_⟩
    · obtain rfl := Option.some.inj (hlast.symm.trans hcycle)
      refine ⟨Nat.le_refl _, ?_⟩
      rw [hview, Function.update_self]
    · show Spaced (gap every) 0 ((s.cycles ++ [(start, s.wall)]).map Prod.fst)
      rw [hmap]
      exact h.spaced.snoc h.ahead hdue
    · show Ahead (gap every) 0 ((s.cycles ++ [(start, s.wall)]).map Prod.fst) (Engine.due _ every)
      rw [hmap, Engine.due, hlast]
      exact h.ahead.snoc hnext hgap
  · exact hnothing

/-! ## Runs -/

/-- **Every step keeps what is due.** -/
theorem Timely.step {e : Event} (h : Timely every s) (hregular : e.Regular every)
    (hs : s.step slack e = some t) : Timely every t := by
  cases e with
  | elapse nanos => exact h.pass (Nat.le_refl _) hs
  | suspend nanos => exact h.pass (Nat.zero_le _) hs
  | configure enable everyMins =>
    obtain rfl := Option.some.inj hs
    exact ⟨h.positive, hregular, h.wall, h.typed, h.ready, h.last, h.sleeping, h.scanning, h.spaced,
      h.ahead⟩
  | boot =>
    rw [Engine.step] at hs
    split at hs
    · obtain rfl := Option.some.inj hs
      have hready := ready_initSchema h.typed
      refine ⟨h.positive, h.configured, h.wall, hready.typed, fun _ => hready, fun cycle hlast => ?_,
        fun _ _ heq => Phase.noConfusion heq, fun _ _ heq => Phase.noConfusion heq, h.spaced, h.ahead⟩
      obtain ⟨hend, hview⟩ := h.last cycle hlast
      exact ⟨hend, (congrFun (view_initSchema s.db) _).trans hview⟩
    · cases hs
  | stop =>
    obtain rfl := Option.some.inj hs
    exact h.quiet (fun _ _ => Phase.noConfusion) (fun _ _ => Phase.noConfusion) fun hne => absurd rfl hne
  | enter =>
    rw [Engine.step] at hs
    split at hs
    · rename_i wake hphase
      split at hs
      · obtain rfl := Option.some.inj hs
        exact h.quiet (fun _ _ => Phase.noConfusion) (fun _ _ => Phase.noConfusion)
          fun _ => h.ready (hphase ▸ Phase.noConfusion)
      · cases hs
    · cases hs
  | notified =>
    rw [Engine.step] at hs
    split at hs
    · rename_i tick hphase
      obtain rfl := Option.some.inj hs
      exact h.quiet (fun _ _ => Phase.noConfusion) (fun _ _ => Phase.noConfusion)
        fun _ => h.ready (hphase ▸ Phase.noConfusion)
    · rename_i tick wake hphase
      obtain rfl := Option.some.inj hs
      exact h.quiet (fun _ _ => Phase.noConfusion) (fun _ _ => Phase.noConfusion)
        fun _ => h.ready (hphase ▸ Phase.noConfusion)
    · cases hs
  | served =>
    rw [Engine.step] at hs
    split at hs
    · rename_i tick hphase
      obtain rfl := Option.some.inj hs
      exact h.quiet (fun _ _ => Phase.noConfusion) (fun _ _ => Phase.noConfusion)
        fun _ => h.ready (hphase ▸ Phase.noConfusion)
    · cases hs
  | tick readOk =>
    obtain rfl : readOk = true := hregular
    rw [Engine.step] at hs
    split at hs
    · rename_i tick hphase
      split at hs
      · obtain rfl := Option.some.inj hs
        exact h.tick (hphase ▸ Phase.noConfusion) tick
      · cases hs
    · cases hs
  | slept =>
    rw [Engine.step] at hs
    split at hs
    · rename_i tick wake hphase
      split at hs
      · rename_i hawake
        obtain rfl := Option.some.inj hs
        have hdue := h.sleeping tick wake hphase
        rw [Nat.sub_eq_zero_of_le hawake, Nat.add_zero] at hdue
        exact h.scan (hphase ▸ Phase.noConfusion) hdue tick
      · cases hs
    · cases hs
  | persist writeOk =>
    rw [Engine.step] at hs
    split at hs
    · rename_i tick start hphase
      obtain rfl := Option.some.inj hs
      exact h.persist hphase writeOk
    · cases hs

/-- The scans that have started in a window of time and have been kept. -/
def Engine.scansIn (s : Engine) (start width : Nat) : List Nat :=
  (s.cycles.map Prod.fst).filter fun t => decide (start ≤ t) && decide (t ≤ start + width)

/-- **The schedule holds over restarts.**  However often the program is stopped and started, asked for
    repairs and configured, with an interval that is never shorter than `every` seconds: a scan starts
    more than `every` seconds, less one, after the one before it, if the end of that one was kept; so
    no window has more scans than such gaps fit into it, and one more. -/
theorem scans_spaced {wall mono everyMins : Nat} {enable : Bool} {db : Option AppMeta} {es : List Event}
    (hpos : 0 < every) (hevery : every ≤ interval everyMins) (hwall : wall < 2 ^ 63 * second)
    (hdb : Typed db) (hregular : ∀ e ∈ es, e.Regular every)
    (hr : run (Engine.step slack) (.start wall mono enable everyMins db) es = some s) :
    (∀ (i : Nat) (c d : Nat × Nat), s.cycles[i]? = some c → s.cycles[i + 1]? = some d →
      c.1 + every * second < d.1 + second) ∧
    ∀ start width, (s.scansIn start width).length ≤ width / gap every + 1 := by
  have htimely : Timely every s := by
    refine run_inv (fun _ _ _ h hC hs => h.step hC hs) es _ s ?_ (along_of_forall_mem es _ hregular) hr
    exact ⟨hpos, hevery, hwall, hdb, fun hne => absurd rfl hne, fun cycle hlast =>
        absurd hlast (Option.some_ne_none cycle).symm,
      fun _ _ heq => Phase.noConfusion heq, fun _ _ heq => Phase.noConfusion heq, spaced_nil, ahead_nil⟩
  have hall : second ≤ every * second := Nat.le_mul_of_pos_left second hpos
  refine ⟨fun i c d hc hd => ?_, fun start width => ?_⟩
  · have hgap := htimely.spaced i 1 c.1 d.1 Nat.one_pos (by rw [List.getElem?_map, hc]; rfl)
      (by rw [List.getElem?_map, hd]; rfl)
    rw [one_nsmul, gap] at hgap
    omega
  · exact htimely.spaced.count_le (by rw [gap]; omega)

/-- Every two minutes: a scan at once, then the program is started again while it waits for the second
    one, which starts two minutes after the first was over. -/
theorem scans_spaced_two : ∃ s,
    run (Engine.step 0) (.start 0 0 true 2 none)
      [.boot, .elapse (10 * second), .enter, .tick true, .persist true, .elapse (60 * second),
        .tick true, .stop, .boot, .elapse (10 * second), .enter, .tick true, .elapse (50 * second),
        .slept, .persist true] = some s ∧
    s.cycles = [(10 * second, 10 * second), (130 * second, 130 * second)] ∧
    (s.scansIn 0 (200 * second)).length ≤ 200 * second / gap 120 + 1 := by
  obtain ⟨s, hr, hcycles⟩ : ∃ s, run (Engine.step 0) (.start 0 0 true 2 none)
      [.boot, .elapse (10 * second), .enter, .tick true, .persist true, .elapse (60 * second),
        .tick true, .stop, .boot, .elapse (10 * second), .enter, .tick true, .elapse (50 * second),
        .slept, .persist true] = some s ∧
      s.cycles = [(10 * second, 10 * second), (130 * second, 130 * second)] :=
    Option.map_eq_some_iff.mp (by decide +kernel)
  have hregular : ∀ e ∈ [Event.boot, .elapse (10 * second), .enter, .tick true, .persist true,
      .elapse (60 * second), .tick true, .stop, .boot, .elapse (10 * second), .enter, .tick true,
      .elapse (50 * second), .slept, .persist true], e.Regular 120 := by
    intro e he
    fin_cases he <;> first | rfl | trivial
  exact ⟨s, hr, hcycles, (scans_spaced (by decide) (by decide) (by decide)
    (fun t ht => absurd ht (Option.some_ne_none t).symm) hregular hr).2 0 (200 * second)⟩

end

end RdRs.Repair.Schedule

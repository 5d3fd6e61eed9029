/-
  Time zones: instants, local times, and the lookup of a local time.

  An instant and a local time are numbers of nanoseconds.  A ZONE is any function from instants to local
  times, with the lookup the other way, which finds no instant (the clock was put forward over that
  time), one, or two (it was put back over it).

  * `latest_eq_none` / `latest_eq_some` — what the last instant of a lookup is;
  * `ofChange` — the zone whose clock is changed once, with its lookup.
-/
import Mathlib

set_option linter.unusedVariables false

namespace RdRs.Zones

/-! ## Lookups -/

/-- What the lookup of a local time finds. -/
inductive LocalResult where
  | none
  | single (t : Int)
  | ambiguous (earliest latest : Int)
deriving Repr, DecidableEq

namespace LocalResult

/-- The instants with a local time, in order. -/
def instants : LocalResult → List Int
  | none => []
  | single t => [t]
  | ambiguous earliest latest => [earliest, latest]

/-- `latest` -/
def latest : LocalResult → Option Int
  | none => Option.none
  | single t => some t
  | ambiguous _ latest => some latest

/-- The latest one is the last. -/
theorem latest_eq_getLast (r : LocalResult) : r.latest = r.instants.getLast? := by
  cases r <;> rfl

end LocalResult

/-- A zone: the lookup finds the instants of a local time, in their order. -/
structure Zone where
  toLocal : Int → Int
  fromLocal : Int → LocalResult
  mem_fromLocal : ∀ x t, t ∈ (fromLocal x).instants ↔ toLocal t = x
  ordered : ∀ x, (fromLocal x).instants.Pairwise (· < ·)

namespace Zone

variable (z : Zone)

/-- There is none exactly if the local time is skipped. -/
theorem latest_eq_none {x : Int} : (z.fromLocal x).latest = none ↔ ∀ t, z.toLocal t ≠ x := by
  rw [LocalResult.latest_eq_getLast, List.getLast?_eq_none_iff, List.eq_nil_iff_forall_not_mem]
  exact forall_congr' fun t => not_congr (z.mem_fromLocal x t)

/-- The latest instant has the local time. -/
theorem toLocal_latest {x l : Int} (h : (z.fromLocal x).latest = some l) : z.toLocal l = x := by
  rw [LocalResult.latest_eq_getLast] at h
  exact (z.mem_fromLocal x l).mp (List.mem_of_getLast? h)

/-- No instant with it is later. -/
theorem le_latest {x l t : Int} (h : (z.fromLocal x).latest = some l) (ht : z.toLocal t = x) : t ≤ l := by
  have hmem := (z.mem_fromLocal x t).mpr ht
  have hordered := z.ordered x
  generalize z.fromLocal x = r at h hmem hordered
  cases r with
  | none => cases hmem
  | single s =>
    obtain rfl : s = l := Option.some.inj h
    exact le_of_eq (List.mem_singleton.mp hmem)
  | ambiguous e s =>
    obtain rfl : s = l := Option.some.inj h
    have hlt : e < s := List.rel_of_pairwise_cons hordered List.mem_cons_self
    rcases List.mem_cons.mp hmem with rfl | hmem
    · exact hlt.le
    · exact le_of_eq (List.mem_singleton.mp hmem)

/-! ## Dates -/

/-- Nanoseconds. -/
def second : Int := 1000000000

def hour : Int := 3600 * second

def day : Int := 24 * hour

/-- The local date, as a number of days. -/
def date (t : Int) : Int := z.toLocal t / day

/-- The local time at which a date begins. -/
def midnight (date : Int) : Int := date * day

/-- At midnight the date is the new one. -/
theorem date_of_midnight {t d : Int} (h : z.toLocal t = midnight d) : z.date t = d := by
  rw [date, h, midnight]
  exact Int.mul_ediv_cancel d (by decide)

/-! ## A clock that is changed once -/

/-- The lookup: the instant before the change, if it is one, and the instant after it. -/
def changeFromLocal (change before after x : Int) : LocalResult :=
  if x - before < change then
    if change ≤ x - after then .ambiguous (x - before) (x - after) else .single (x - before)
  else if change ≤ x - after then .single (x - after) else .none

/-- The zone with the offset `before` until the instant `change` and the offset `after` from then on. -/
def ofChange (change before after : Int) : Zone where
  toLocal t := if t < change then t + before else t + after
  fromLocal := changeFromLocal change before after
  mem_fromLocal x t := by
    unfold changeFromLocal
    split_ifs <;> simp [LocalResult.instants] <;> omega
  ordered x := by
    unfold changeFromLocal
    split_ifs <;> simp [LocalResult.instants]
    omega

end Zone

end RdRs.Zones

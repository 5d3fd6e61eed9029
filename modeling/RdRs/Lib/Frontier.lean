/-
  A search along the numbers that goes on behind what it finds.

  The first numbers are tried, and behind every HIT so many more.  Which numbers are tried in the end
  does not depend on the order: it is the least set with the first ones that is closed under "up to
  `ext` behind a hit of it", and it is a front part of the numbers.

  * `Near` — the set, by its rules;
  * `Settled.near_iff` — a ceiling that has been reached by the rules, and that no hit below it would
    raise, is where the set ends;
  * `Near.le_top` — when there is a last hit, there is a last number.
-/
import Mathlib

set_option linter.unusedVariables false

namespace RdRs.Frontier

/-- The numbers that are tried. -/
inductive Near (hit : Nat → Prop) (first ext : Nat) : Nat → Prop
  | first {n : Nat} : n ≤ first → Near hit first ext n
  | behind {m n : Nat} : Near hit first ext m → hit m → n ≤ m + ext → Near hit first ext n

variable {hit : Nat → Prop} {first ext : Nat}

/-- What is before a number that is tried is tried. -/
theorem Near.of_le {m n : Nat} (h : Near hit first ext n) (hle : m ≤ n) : Near hit first ext m := by
  cases h with
  | first hn => exact .first (Nat.le_trans hle hn)
  | behind hk hhit hn => exact .behind hk hhit (Nat.le_trans hle hn)

/-- A ceiling that is tried, and that no hit up to it raises. -/
structure Settled (hit : Nat → Prop) (first ext ceiling : Nat) : Prop where
  near : Near hit first ext ceiling
  first : first ≤ ceiling
  closed : ∀ m, m ≤ ceiling → hit m → m + ext ≤ ceiling

/-- **A ceiling that has settled is where the search ends.** -/
theorem Settled.near_iff {ceiling : Nat} (h : Settled hit first ext ceiling) {n : Nat} :
    Near hit first ext n ↔ n ≤ ceiling := by
  constructor
  · intro hn
    induction hn with
    | first hle => exact Nat.le_trans hle h.first
    | behind _ hhit hle ih => exact Nat.le_trans hle (h.closed _ ih hhit)
  · exact h.near.of_le

/-- How far a search can go when no hit is behind `last`. -/
def top (first ext last : Nat) : Nat := max first (last + ext)

theorem Near.le_top {last n : Nat} (hlast : ∀ m, hit m → m ≤ last) (h : Near hit first ext n) :
    n ≤ top first ext last := by
  cases h with
  | first hn => exact Nat.le_trans hn (Nat.le_max_left _ _)
  | behind _ hhit hn =>
    exact Nat.le_trans hn
      (Nat.le_trans (Nat.add_le_add_right (hlast _ hhit) _) (Nat.le_max_right _ _))

end RdRs.Frontier

/-
  Events on a time line that keep a distance.

  A list of times is SPACED by a period, up to a slack, when two of its times that are `n` places apart
  are `n` periods apart, less one slack at most: the slack is lost once, not at every place.  A list is
  AHEAD of a deadline when the deadline could be its next time.  Times are of any ordered monoid in
  which sums cancel, and a list need not be sorted.

  * `Spaced.snoc`, `Ahead.snoc` — how a process that keeps a deadline builds up a spaced list;
  * `Spaced.window` — so many events in a window take up so many periods of it, which bounds them
    (`Spaced.count_le`).
-/
import Mathlib

set_option linter.unusedVariables false

namespace RdRs.Spacing

/-! ## Two matches -/

/-- A list with `n + 1` matches has two that are `n` places apart. -/
theorem exists_apart {α : Type*} {p : α → Bool} {n : Nat} : ∀ {xs : List α},
    n + 1 ≤ (xs.filter p).length →
    ∃ (i j : Nat) (a b : α), i + n ≤ j ∧ xs[i]? = some a ∧ xs[j]? = some b ∧ p a = true ∧ p b = true
  | [], h => absurd h (Nat.not_succ_le_zero n)
  | x :: xs, h => by
    -- the tail, with `m + 1` matches, one place further on
    have htail : ∀ {m}, m + 1 ≤ (xs.filter p).length → ∃ (i j : Nat) (a b : α), i + m ≤ j ∧
        (x :: xs)[i + 1]? = some a ∧ (x :: xs)[j + 1]? = some b ∧ p a = true ∧ p b = true := by
      intro m hm
      obtain ⟨i, j, a, b, hij, ha, hb, hpa, hpb⟩ := exists_apart hm
      exact ⟨i, j, a, b, hij, ha, hb, hpa, hpb⟩
    cases hx : p x with
    | false =>
      rw [List.filter_cons_of_neg (by rw [hx]; exact Bool.false_ne_true)] at h
      obtain ⟨i, j, a, b, hij, ha, hb, hpa, hpb⟩ := htail h
      exact ⟨i + 1, j + 1, a, b, by omega, ha, hb, hpa, hpb⟩
    | true =>
      rw [List.filter_cons_of_pos hx, List.length_cons] at h
      cases n with
      | zero => exact ⟨0, 0, x, x, Nat.le_refl 0, rfl, rfl, hx, hx⟩
      | succ m =>
        obtain ⟨i, j, a, b, hij, ha, hb, hpa, hpb⟩ := @htail m (by omega)
        exact ⟨0, j + 1, x, b, by omega, rfl, hb, hx, hpb⟩

/-- What a list with one more element has at a place. -/
theorem get_concat {α : Type*} {xs : List α} {x v : α} {k : Nat} (h : (xs ++ [x])[k]? = some v) :
    k < xs.length ∧ xs[k]? = some v ∨ k = xs.length ∧ x = v := by
  have hk := (List.getElem?_eq_some_iff.mp h).1
  rw [List.length_append, List.length_singleton] at hk
  rcases Nat.lt_or_ge k xs.length with hlt | hge
  · rw [List.getElem?_append_left hlt] at h
    exact Or.inl ⟨hlt, h⟩
  · obtain rfl : k = xs.length := by omega
    rw [List.getElem?_concat_length] at h
    exact Or.inr ⟨rfl, Option.some.inj h⟩

/-! ## Spaced lists -/

section

variable {T : Type*} [AddCommMonoid T] [PartialOrder T]

/-- Two times that are `n` places apart are `n` periods apart, less one slack at most. -/
def Spaced (period slack : T) (xs : List T) : Prop :=
  ∀ (i n : Nat) (s t : T), 0 < n → xs[i]? = some s → xs[i + n]? = some t → s + n • period ≤ t + slack

/-- The deadline could be the next time of a spaced list. -/
def Ahead (period slack : T) (xs : List T) (deadline : T) : Prop :=
  ∀ (i n : Nat) (s : T), i + n = xs.length → xs[i]? = some s → s + n • period ≤ deadline + slack

theorem spaced_nil {period slack : T} : Spaced period slack [] := by
  intro i n s t _ hs
  rw [List.getElem?_nil] at hs
  cases hs

theorem ahead_nil {period slack deadline : T} : Ahead period slack [] deadline := by
  intro i n s _ hs
  rw [List.getElem?_nil] at hs
  cases hs

variable [IsOrderedCancelAddMonoid T] {period slack deadline t : T} {xs : List T}

/-- The next event is not before the deadline. -/
theorem Spaced.snoc (h : Spaced period slack xs) (hahead : Ahead period slack xs deadline)
    (ht : deadline ≤ t) : Spaced period slack (xs ++ [t]) := by
  intro i n s u hn hs hu
  have hend := (List.getElem?_eq_some_iff.mp hu).1
  rw [List.length_append, List.length_singleton] at hend
  rcases get_concat hs with ⟨hi, hs⟩ | ⟨hi, -⟩
  · rcases get_concat hu with ⟨-, hu⟩ | ⟨heq, rfl⟩
    · exact h i n s u hn hs hu
    · exact (hahead i n s heq hs).trans (add_le_add_left ht slack)
  · omega

/-- The deadline after an event is a period later than the one before and than the event, which may
    cost the slack. -/
theorem Ahead.snoc {next : T} (h : Ahead period slack xs deadline) (hnext : deadline + period ≤ next)
    (ht : t + period ≤ next + slack) : Ahead period slack (xs ++ [t]) next := by
  intro i n s hn hs
  rw [List.length_append, List.length_singleton] at hn
  rcases get_concat hs with ⟨hi, hs⟩ | ⟨hi, rfl⟩
  · obtain ⟨m, rfl⟩ : ∃ m, n = m + 1 := ⟨n - 1, by omega⟩
    have hold := h i m s (by omega) hs
    calc s + (m + 1) • period = s + m • period + period := by rw [succ_nsmul, add_assoc]
      _ ≤ deadline + slack + period := add_le_add_left hold period
      _ = deadline + period + slack := add_right_comm _ _ _
      _ ≤ next + slack := add_le_add_left hnext slack
  · obtain rfl : n = 1 := by omega
    rw [one_nsmul]
    exact ht

/-- **A window**: `n + 1` events in it take up `n` periods. -/
theorem Spaced.window (h : Spaced period slack xs) (hperiod : 0 ≤ period) {start width : T} {n : Nat}
    [DecidableLE T]
    (hn : n + 1 ≤ (xs.filter fun t => decide (start ≤ t) && decide (t ≤ start + width)).length) :
    n • period ≤ width + slack ∨ n = 0 := by
  obtain ⟨i, j, s, t, hij, hs, ht, hps, hpt⟩ := exists_apart hn
  simp only [Bool.and_eq_true, decide_eq_true_eq] at hps hpt
  rcases Nat.eq_zero_or_pos n with hzero | hpos
  · exact Or.inr hzero
  · obtain ⟨m, rfl⟩ := Nat.exists_eq_add_of_le (show i ≤ j by omega)
    have hspaced := h i m s t (by omega) hs ht
    refine Or.inl (le_of_add_le_add_left (a := start) ?_)
    calc start + n • period ≤ s + m • period :=
          add_le_add hps.1 (nsmul_le_nsmul_left hperiod (by omega))
      _ ≤ t + slack := hspaced
      _ ≤ start + width + slack := add_le_add_left hpt.2 slack
      _ = start + (width + slack) := add_assoc _ _ _

end

/-- **How many events a window can have**, where times are numbers. -/
theorem Spaced.count_le {period slack start width : Nat} {xs : List Nat}
    (h : Spaced period slack xs) (hperiod : 0 < period) :
    (xs.filter fun t => decide (start ≤ t) && decide (t ≤ start + width)).length ≤
      (width + slack) / period + 1 := by
  rcases Nat.eq_zero_or_pos
    (xs.filter fun t => decide (start ≤ t) && decide (t ≤ start + width)).length with hnone | hsome
  · rw [hnone]
    exact Nat.zero_le _
  · obtain ⟨n, hn⟩ := Nat.exists_eq_succ_of_ne_zero (Nat.ne_of_gt hsome)
    have hle : n ≤ (width + slack) / period := by
      rcases h.window (Nat.zero_le period) (Nat.le_of_eq hn.symm) with hwindow | hzero
      · rw [smul_eq_mul] at hwindow
        exact (Nat.le_div_iff_mul_le hperiod).mpr hwindow
      · rw [hzero]
        exact Nat.zero_le _
    rw [hn]
    exact Nat.succ_le_succ hle

end RdRs.Spacing

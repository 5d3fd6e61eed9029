/-
  The partition point of a list, by halving.

  `partitionPoint l p` is the index of the first element of `l` that fails `p`, computed by the
  usual halving loop (`bisect`) and therefore only meaningful when `l` is PARTITIONED by `p`: every
  element that satisfies `p` stands before every element that does not.  The loop is written with an
  explicit fuel bound (structural recursion, so that closed instances reduce in the kernel);
  `bisect_eq` shows once that the list's length is enough fuel.

  The one lemma a user needs is `partitionPoint_append`: on `A ++ B` with `p` true on `A` and false
  on `B` the answer is `A.length`.
-/
import Mathlib

set_option linter.unusedVariables false

namespace RdRs.BinSearch

/-- The halving loop on `[lo, hi)`; `fuel` bounds the number of rounds. -/
def bisect (p : Nat → Bool) : Nat → Nat → Nat → Nat
  | 0, lo, _ => lo
  | fuel + 1, lo, hi =>
    if lo < hi then
      if p ((lo + hi) / 2) then bisect p fuel ((lo + hi) / 2 + 1) hi
      else bisect p fuel lo ((lo + hi) / 2)
    else lo

/-- The loop finds the cut `k` of any predicate that is true exactly below `k` on the interval.
    Induction on the fuel; each round keeps `lo ≤ k ≤ hi` and shrinks `hi - lo`. -/
theorem bisect_eq (p : Nat → Bool) (k : Nat) : ∀ (fuel lo hi : Nat), hi - lo ≤ fuel →
    lo ≤ k → k ≤ hi → (∀ i, lo ≤ i → i < hi → (p i = true ↔ i < k)) →
    bisect p fuel lo hi = k := by
  intro fuel
  induction fuel with
  | zero =>
    intro lo hi hf hlo hhi _
    show lo = k
    omega
  | succ n ih =>
    intro lo hi hf hlo hhi hp
    rw [bisect]
    by_cases hlt : lo < hi
    · rw [if_pos hlt]
      have hmid := hp ((lo + hi) / 2) (by omega) (by omega)
      by_cases hpm : p ((lo + hi) / 2) = true
      · rw [if_pos hpm]
        have hk : (lo + hi) / 2 < k := hmid.mp hpm
        exact ih _ hi (by omega) (by omega) hhi (fun i h1 h2 => hp i (by omega) h2)
      · rw [if_neg hpm]
        have hk : ¬ (lo + hi) / 2 < k := fun h => hpm (hmid.mpr h)
        exact ih lo _ (by omega) hlo (by omega) (fun i h1 h2 => hp i h1 (by omega))
    · rw [if_neg hlt]
      omega

/-- `slice::partition_point`: the index of the first element of `l` for which `p` is false. -/
def partitionPoint {α : Type*} (l : List α) (p : α → Bool) : Nat :=
  bisect (fun i => (l[i]?.map p).getD false) l.length 0 l.length

/-- **The partition point of a partitioned list** is the length of its true part. -/
theorem partitionPoint_append {α : Type*} {A B : List α} {p : α → Bool}
    (hA : ∀ a ∈ A, p a = true) (hB : ∀ b ∈ B, p b = false) :
    partitionPoint (A ++ B) p = A.length := by
  refine bisect_eq _ A.length _ 0 _ (by omega) (Nat.zero_le _) (by simp) ?_
  intro i _ hi
  rcases Nat.lt_or_ge i A.length with h | h
  · have hget : (A ++ B)[i]? = some A[i] := by
      rw [List.getElem?_append_left h, List.getElem?_eq_getElem h]
    rw [hget]
    simp [hA _ (List.getElem_mem h), h]
  · have hb : i - A.length < B.length := by
      rw [List.length_append] at hi; omega
    have hget : (A ++ B)[i]? = some B[i - A.length] := by
      rw [List.getElem?_append_right h, List.getElem?_eq_getElem hb]
    rw [hget]
    simp [hB _ (List.getElem_mem hb), Nat.not_lt.mpr h]

end RdRs.BinSearch

/-
  Numbering the copies of equal entries in a sorted list.

  A listing that wants different labels for entries with equal names walks the sorted list with the
  name seen last and a counter: an entry whose name repeats gets the next number, any other entry
  starts again at 0.  `number` is that walk, over any payload and any linearly ordered names.

  * `number_map_fst` — the walk keeps the entries, in order;
  * `nodup_labels`, `mem_labels` — on a sorted list the (name, number) pairs are all different, and
    which ones occur depends on the name counts alone, not on the order of the payloads.
-/
import Mathlib

set_option linter.unusedVariables false

namespace RdRs.CopyNumbers

variable {α β : Type*} [LinearOrder α]

/-- Number each entry among the ones of its name: `prev` is the name seen last and `dup` its last
    number. -/
def number (name : β → α) (prev : α) (dup : Nat) : List β → List (β × Nat)
  | [] => []
  | b :: bs =>
    if name b = prev then (b, dup + 1) :: number name prev (dup + 1) bs
    else (b, 0) :: number name (name b) 0 bs

/-- The (name, number) pairs the walk hands out. -/
def labels (name : β → α) (prev : α) (dup : Nat) (bs : List β) : List (α × Nat) :=
  (number name prev dup bs).map fun p => (name p.1, p.2)

/-- The same name once more has the next number. -/
theorem labels_cons_eq {name : β → α} {b : β} {prev : α} (h : name b = prev) (dup : Nat)
    (bs : List β) :
    labels name prev dup (b :: bs) = (prev, dup + 1) :: labels name prev (dup + 1) bs := by
  rw [labels, number, if_pos h, List.map_cons, h]
  rfl

/-- Another name starts at zero. -/
theorem labels_cons_ne {name : β → α} {b : β} {prev : α} (h : name b ≠ prev) (dup : Nat)
    (bs : List β) : labels name prev dup (b :: bs) = (name b, 0) :: labels name (name b) 0 bs := by
  rw [labels, number, if_neg h, List.map_cons]
  rfl

theorem number_map_fst (name : β → α) : ∀ (bs : List β) (prev : α) (dup : Nat),
    (number name prev dup bs).map Prod.fst = bs := by
  intro bs
  induction bs with
  | nil => intro prev dup; rfl
  | cons b bs ih =>
    intro prev dup
    rw [number]
    split
    · rw [List.map_cons, ih]
    · rw [List.map_cons, ih]

/-- **Which labels occur.**  The name seen last goes on from its counter, every other name `a` uses
    the numbers below its count. -/
theorem mem_labels (name : β → α) : ∀ (bs : List β) (prev : α) (dup : Nat),
    bs.Pairwise (fun a b => name a ≤ name b) → (∀ b ∈ bs, prev ≤ name b) → ∀ (a : α) (k : Nat),
      ((a, k) ∈ labels name prev dup bs ↔
        if a = prev then dup < k ∧ k ≤ dup + (bs.map name).count a
        else k < (bs.map name).count a) := by
  intro bs
  induction bs with
  | nil =>
    intro prev dup _ _ a k
    split
    · simp only [labels, number, List.map_nil, List.not_mem_nil, List.count_nil, false_iff]
      omega
    · simp [labels, number]
  | cons b bs ih =>
    intro prev dup hs hprev a k
    obtain ⟨hb, hs'⟩ := List.pairwise_cons.mp hs
    by_cases h : name b = prev
    · have hih := ih prev (dup + 1) hs' (fun c hc => h ▸ hb c hc) a k
      rw [labels_cons_eq h, List.mem_cons, hih, List.map_cons, h, Prod.mk.injEq]
      by_cases ha : a = prev
      · subst ha
        rw [if_pos rfl, if_pos rfl, List.count_cons_self]
        constructor
        · rintro (⟨-, hk⟩ | hk) <;> omega
        · rintro ⟨h1, h2⟩
          by_cases hk : k = dup + 1
          · exact Or.inl ⟨rfl, hk⟩
          · exact Or.inr ⟨by omega, by omega⟩
      · rw [if_neg ha, if_neg ha, List.count_cons_of_ne (Ne.symm ha)]
        simp [ha]
    · have hih := ih (name b) 0 hs' hb a k
      rw [labels_cons_ne h, List.mem_cons, hih, List.map_cons, Prod.mk.injEq]
      by_cases ha : a = name b
      · subst ha
        rw [if_pos rfl, if_neg h, List.count_cons_self]
        constructor
        · rintro (⟨-, hk⟩ | hk) <;> omega
        · intro hlt
          by_cases hk : k = 0
          · exact Or.inl ⟨rfl, hk⟩
          · exact Or.inr ⟨by omega, by omega⟩
      · rw [if_neg ha, List.count_cons_of_ne (Ne.symm ha)]
        by_cases hap : a = prev
        · -- everything still to come is beyond the old name
          subst hap
          have hnone : (bs.map name).count a = 0 := by
            refine List.count_eq_zero.mpr fun hmem => ?_
            obtain ⟨c, hc, hca⟩ := List.mem_map.mp hmem
            have hle : name b ≤ a := hca ▸ hb c hc
            exact ha (le_antisymm (hprev b List.mem_cons_self) hle)
          rw [hnone, if_pos rfl]
          constructor
          · rintro (⟨hab, -⟩ | hlt)
            · exact absurd hab ha
            · omega
          · omega
        · rw [if_neg hap]
          simp [ha]

/-- **No label is handed out twice.** -/
theorem nodup_labels (name : β → α) : ∀ (bs : List β) (prev : α) (dup : Nat),
    bs.Pairwise (fun a b => name a ≤ name b) → (∀ b ∈ bs, prev ≤ name b) →
      (labels name prev dup bs).Nodup := by
  intro bs
  induction bs with
  | nil => intro prev dup _ _; exact List.nodup_nil
  | cons b bs ih =>
    intro prev dup hs hprev
    obtain ⟨hb, hs'⟩ := List.pairwise_cons.mp hs
    by_cases h : name b = prev
    · have hb' : ∀ c ∈ bs, prev ≤ name c := fun c hc => h ▸ hb c hc
      rw [labels_cons_eq h, List.nodup_cons, mem_labels name bs prev (dup + 1) hs' hb', if_pos rfl]
      exact ⟨by omega, ih prev (dup + 1) hs' hb'⟩
    · rw [labels_cons_ne h, List.nodup_cons, mem_labels name bs (name b) 0 hs' hb, if_pos rfl]
      exact ⟨by omega, ih (name b) 0 hs' hb⟩

end RdRs.CopyNumbers

/-
  Lists of half-open spans over a linear order.

  A span is a pair `(s, e)`, read as `[s, e)`; a list of spans denotes the union `cover` of its
  members.  Two ways of keeping such a list are developed here, for any linear order:

  * `Separated` — the CANONICAL form: every span is non-empty and each one ends strictly before the
    next begins.  A separated list is determined by the set it covers (`Separated.ext`), a non-empty
    interval is covered exactly when ONE span holds it (`Separated.subset_iff`), and replacing the
    spans that touch a new interval by their hull keeps the list separated and adds exactly the new
    interval (`Separated.merge`, `cover_merge`).  Its members are the MAXIMAL runs of the set
    (`Separated.mem_iff_maximalRun`).
  * `tally` — the ACCOUNTING form: `tally l x` is the number of spans that hold `x`.  Disjointness
    of a list is `tally ≤ 1` (`pairwise_disjoint_iff_tally`), and moving spans between lists or
    cutting one in two leaves the tally alone, so partitions are kept by counting.
-/
import Mathlib

set_option linter.unusedVariables false

namespace RdRs.Spans

variable {α : Type*} [LinearOrder α]

/-! ## The set a list of spans denotes -/

/-- The points held by some span of `l`. -/
def cover (l : List (α × α)) : Set α := {x | ∃ p ∈ l, p.1 ≤ x ∧ x < p.2}

/-- A point is covered by one of the spans. -/
theorem mem_cover {l : List (α × α)} {x : α} : x ∈ cover l ↔ ∃ p ∈ l, p.1 ≤ x ∧ x < p.2 :=
  Iff.rfl

@[simp] theorem cover_nil : cover ([] : List (α × α)) = ∅ := by
  ext x
  simp [cover]

@[simp] theorem cover_cons (p : α × α) (l : List (α × α)) :
    cover (p :: l) = Set.Ico p.1 p.2 ∪ cover l := by
  ext x
  simp [cover, Set.mem_Ico]

@[simp] theorem cover_append (l m : List (α × α)) : cover (l ++ m) = cover l ∪ cover m := by
  induction l with
  | nil => simp
  | cons p l ih => rw [List.cons_append, cover_cons, cover_cons, ih, Set.union_assoc]

/-! ## The canonical form -/

/-- Every span is non-empty and ends strictly before every later one begins. -/
structure Separated (l : List (α × α)) : Prop where
  lt : ∀ p ∈ l, p.1 < p.2
  gap : l.Pairwise (fun p q => p.2 < q.1)

theorem Separated.nil : Separated ([] : List (α × α)) :=
  ⟨fun p hp => absurd hp List.not_mem_nil, List.Pairwise.nil⟩

/-- The first span ends before all others begin. -/
theorem separated_cons {p : α × α} {l : List (α × α)} :
    Separated (p :: l) ↔ p.1 < p.2 ∧ (∀ q ∈ l, p.2 < q.1) ∧ Separated l := by
  constructor
  · rintro ⟨hlt, hgap⟩
    rw [List.pairwise_cons] at hgap
    exact ⟨hlt p List.mem_cons_self, hgap.1,
      fun q hq => hlt q (List.mem_cons_of_mem p hq), hgap.2⟩
  · rintro ⟨hp, hpl, hlt, hgap⟩
    refine ⟨fun q hq => ?_, List.pairwise_cons.mpr ⟨hpl, hgap⟩⟩
    rcases List.mem_cons.mp hq with rfl | hq
    · exact hp
    · exact hlt q hq

/-- Two separated lists with room between them. -/
theorem separated_append {l m : List (α × α)} :
    Separated (l ++ m) ↔ Separated l ∧ Separated m ∧ ∀ p ∈ l, ∀ q ∈ m, p.2 < q.1 := by
  constructor
  · rintro ⟨hlt, hgap⟩
    rw [List.pairwise_append] at hgap
    exact ⟨⟨fun p hp => hlt p (List.mem_append_left m hp), hgap.1⟩,
      ⟨fun p hp => hlt p (List.mem_append_right l hp), hgap.2.1⟩, hgap.2.2⟩
  · rintro ⟨hl, hm, hlm⟩
    refine ⟨fun p hp => ?_, List.pairwise_append.mpr ⟨hl.gap, hm.gap, hlm⟩⟩
    rcases List.mem_append.mp hp with hp | hp
    · exact hl.lt p hp
    · exact hm.lt p hp

/-- Any two members of a separated list are equal or lie apart. -/
theorem Separated.trichotomy {l : List (α × α)} (h : Separated l) :
    ∀ p ∈ l, ∀ q ∈ l, p = q ∨ p.2 < q.1 ∨ q.2 < p.1 := by
  induction l with
  | nil => intro p hp; exact absurd hp List.not_mem_nil
  | cons r l ih =>
    obtain ⟨-, hrl, hl⟩ := separated_cons.mp h
    intro p hp q hq
    rcases List.mem_cons.mp hp with hpr | hpl
    · rcases List.mem_cons.mp hq with hqr | hql
      · exact Or.inl (hpr.trans hqr.symm)
      · exact Or.inr (Or.inl (hpr ▸ hrl q hql))
    · rcases List.mem_cons.mp hq with hqr | hql
      · exact Or.inr (Or.inr (hqr ▸ hrl p hpl))
      · exact ih hl p hpl q hql

/-- **A covered interval lies in one span.**  The end of a span is a point that no span of a
    separated list holds, so an interval cannot cross it. -/
theorem Separated.subset_iff {l : List (α × α)} (h : Separated l) {s e : α} (hse : s < e) :
    Set.Ico s e ⊆ cover l ↔ ∃ p ∈ l, p.1 ≤ s ∧ e ≤ p.2 := by
  constructor
  · intro hsub
    obtain ⟨p, hp, hps, hsp⟩ := hsub (show s ∈ Set.Ico s e from ⟨le_refl s, hse⟩)
    refine ⟨p, hp, hps, ?_⟩
    by_contra hlt
    have hpe : p.2 < e := not_le.mp hlt
    obtain ⟨q, hq, hqp, hpq⟩ := hsub (show p.2 ∈ Set.Ico s e from ⟨le_of_lt hsp, hpe⟩)
    rcases h.trichotomy p hp q hq with rfl | hpq' | hqp'
    · exact lt_irrefl _ hpq
    · exact absurd hqp (not_le.mpr hpq')
    · exact lt_irrefl _ (lt_trans (lt_trans (h.lt p hp) hpq) hqp')
  · rintro ⟨p, hp, hps, hep⟩ x ⟨hsx, hxe⟩
    exact ⟨p, hp, le_trans hps hsx, lt_of_lt_of_le hxe hep⟩

/-- A MAXIMAL run of `T`: a non-empty interval inside `T` that no wider interval inside `T`
    contains. -/
structure MaximalRun (T : Set α) (p : α × α) : Prop where
  lt : p.1 < p.2
  inside : Set.Ico p.1 p.2 ⊆ T
  widest : ∀ s e, s ≤ p.1 → p.2 ≤ e → Set.Ico s e ⊆ T → s = p.1 ∧ e = p.2

/-- **The members of a separated list are the maximal runs of the set it covers.** -/
theorem Separated.mem_iff_maximalRun {l : List (α × α)} (h : Separated l) {p : α × α} :
    p ∈ l ↔ MaximalRun (cover l) p := by
  constructor
  · intro hp
    have hlt := h.lt p hp
    refine ⟨hlt, fun x hx => ⟨p, hp, hx⟩, fun s e hs he hsub => ?_⟩
    have hse : s < e := lt_of_le_of_lt hs (lt_of_lt_of_le hlt he)
    obtain ⟨q, hq, hqs, heq⟩ := (h.subset_iff hse).mp hsub
    rcases h.trichotomy p hp q hq with rfl | hpq | hqp
    · exact ⟨le_antisymm hs hqs, le_antisymm heq he⟩
    · exact absurd (lt_of_lt_of_le hpq (le_trans hqs hs)) (not_lt.mpr (le_of_lt hlt))
    · exact absurd (lt_of_le_of_lt (le_trans he heq) hqp) (not_lt.mpr (le_of_lt hlt))
  · intro hp
    obtain ⟨q, hq, hqs, hpe⟩ := (h.subset_iff hp.lt).mp hp.inside
    obtain ⟨h1, h2⟩ := hp.widest q.1 q.2 hqs hpe fun x hx => ⟨q, hq, hx⟩
    rwa [← Prod.ext h1 h2]

/-- Nothing between two neighbours is covered. -/
theorem Separated.not_mem_between {A B : List (α × α)} {p q : α × α}
    (h : Separated (A ++ p :: q :: B)) {x : α} (hpx : p.2 ≤ x) (hxq : x < q.1) :
    x ∉ cover (A ++ p :: q :: B) := by
  obtain ⟨-, htail, hA⟩ := separated_append.mp h
  obtain ⟨hp, hpl, hql⟩ := separated_cons.mp htail
  rintro ⟨m, hm, hmx, hxm⟩
  rcases List.mem_append.mp hm with hm | hm
  · have hmp := hA m hm p List.mem_cons_self
    exact absurd (lt_trans (lt_of_lt_of_le hxm (le_of_lt hmp)) hp) (not_lt.mpr hpx)
  · rcases List.mem_cons.mp hm with rfl | hm
    · exact absurd hxm (not_lt.mpr hpx)
    · rcases List.mem_cons.mp hm with rfl | hm
      · exact absurd hmx (not_le.mpr hxq)
      · have hqm := (separated_cons.mp hql).2.1 m hm
        have hq := (separated_cons.mp hql).1
        exact absurd (le_trans (le_of_lt (lt_trans hq hqm)) hmx) (not_le.mpr hxq)

/-- The points of the tail lie beyond the head's end. -/
theorem Separated.lt_of_mem_tail {p : α × α} {l : List (α × α)} (h : Separated (p :: l)) {x : α}
    (hx : x ∈ cover l) : p.2 < x := by
  obtain ⟨q, hq, hqx, -⟩ := hx
  exact lt_of_lt_of_le ((separated_cons.mp h).2.1 q hq) hqx

/-- The head starts first. -/
theorem Separated.head_le {p : α × α} {l : List (α × α)} (h : Separated (p :: l)) {x : α}
    (hx : x ∈ cover (p :: l)) : p.1 ≤ x := by
  rw [cover_cons] at hx
  rcases hx with hx | hx
  · exact hx.1
  · exact le_of_lt (lt_trans (separated_cons.mp h).1 (h.lt_of_mem_tail hx))

/-- Half of `Separated.ext`: a head of one list is no longer than the head of the other. -/
theorem Separated.head_end_le {p q : α × α} {l m : List (α × α)} (hp : Separated (p :: l))
    (hq : Separated (q :: m)) (hcov : cover (p :: l) = cover (q :: m)) (h1 : p.1 = q.1) :
    p.2 ≤ q.2 := by
  have hplt := (separated_cons.mp hp).1
  have hsub : Set.Ico p.1 p.2 ⊆ cover (q :: m) := by
    rw [← hcov, cover_cons]
    exact Set.subset_union_left
  obtain ⟨r, hr, hrp, hpr⟩ := (hq.subset_iff hplt).mp hsub
  rcases List.mem_cons.mp hr with rfl | hr
  · exact hpr
  · have hqr := (separated_cons.mp hq).2.1 r hr
    have hqlt := (separated_cons.mp hq).1
    rw [h1] at hrp
    exact absurd hrp (not_le.mpr (lt_trans hqlt hqr))

/-- **Canonicity.**  A separated list is determined by the set it covers. -/
theorem Separated.ext {l m : List (α × α)} (hl : Separated l) (hm : Separated m)
    (hcov : cover l = cover m) : l = m := by
  induction l generalizing m with
  | nil =>
    cases m with
    | nil => rfl
    | cons q m =>
      have hq := (separated_cons.mp hm).1
      have : q.1 ∈ cover (q :: m) := by
        rw [cover_cons]; exact Or.inl ⟨le_refl _, hq⟩
      rw [← hcov, cover_nil] at this
      exact absurd this (Set.notMem_empty _)
  | cons p l ih =>
    have hp := (separated_cons.mp hl).1
    have hpmem : p.1 ∈ cover (p :: l) := by
      rw [cover_cons]; exact Or.inl ⟨le_refl _, hp⟩
    cases m with
    | nil =>
      rw [hcov, cover_nil] at hpmem
      exact absurd hpmem (Set.notMem_empty _)
    | cons q m =>
      have hq := (separated_cons.mp hm).1
      have hqmem : q.1 ∈ cover (q :: m) := by
        rw [cover_cons]; exact Or.inl ⟨le_refl _, hq⟩
      have h1 : p.1 = q.1 :=
        le_antisymm (hl.head_le (hcov ▸ hqmem)) (hm.head_le (hcov ▸ hpmem))
      have h2 : p.2 = q.2 :=
        le_antisymm (hl.head_end_le hm hcov h1) (hm.head_end_le hl hcov.symm h1.symm)
      obtain rfl : p = q := Prod.ext h1 h2
      -- the heads agree, and both tails are what lies beyond the head's end
      have htail : cover l = cover m := by
        ext x
        constructor
        · intro hx
          have hlt := hl.lt_of_mem_tail hx
          have : x ∈ cover (p :: m) := by
            rw [← hcov, cover_cons]; exact Or.inr hx
          rw [cover_cons] at this
          rcases this with h | h
          · exact absurd h.2 (not_lt.mpr (le_of_lt hlt))
          · exact h
        · intro hx
          have hlt := hm.lt_of_mem_tail hx
          have : x ∈ cover (p :: l) := by
            rw [hcov, cover_cons]; exact Or.inr hx
          rw [cover_cons] at this
          rcases this with h | h
          · exact absurd h.2 (not_lt.mpr (le_of_lt hlt))
          · exact h
      rw [ih (separated_cons.mp hl).2.2 (separated_cons.mp hm).2.2 htail]

/-! ## Cutting a list in two -/

/-- A list on which `p` only ever turns from true to false is its true part followed by its false
    part. -/
theorem exists_cut {β : Type*} (p : β → Bool) : ∀ l : List β,
    l.Pairwise (fun a b => p b = true → p a = true) →
    ∃ A B, l = A ++ B ∧ (∀ a ∈ A, p a = true) ∧ (∀ b ∈ B, p b = false)
  | [], _ => ⟨[], [], rfl, by simp, by simp⟩
  | x :: l, h => by
    obtain ⟨hx, hl⟩ := List.pairwise_cons.mp h
    cases hpx : p x with
    | true =>
      obtain ⟨A, B, rfl, hA, hB⟩ := exists_cut p l hl
      refine ⟨x :: A, B, rfl, fun a ha => ?_, hB⟩
      rcases List.mem_cons.mp ha with rfl | ha
      · exact hpx
      · exact hA a ha
    | false =>
      refine ⟨[], x :: l, rfl, by simp, fun b hb => ?_⟩
      rcases List.mem_cons.mp hb with rfl | hb
      · exact hpx
      · cases hpb : p b with
        | false => rfl
        | true => rw [hx b hb hpb] at hpx; exact absurd hpx (by decide)

/-- The spans that end before `x`, then the others. -/
theorem Separated.cut_ends {l : List (α × α)} (h : Separated l) (x : α) :
    ∃ A B, l = A ++ B ∧ (∀ a ∈ A, decide (a.2 < x) = true) ∧
      (∀ b ∈ B, decide (b.2 < x) = false) := by
  refine exists_cut (fun p => decide (p.2 < x)) l ?_
  refine h.gap.imp_of_mem ?_
  intro p q hp hq hpq hqx
  rw [decide_eq_true_eq] at hqx ⊢
  exact lt_trans (lt_trans hpq (h.lt q hq)) hqx

/-- The spans that start at or before `x`, then the others. -/
theorem Separated.cut_starts {l : List (α × α)} (h : Separated l) (x : α) :
    ∃ A B, l = A ++ B ∧ (∀ a ∈ A, decide (a.1 ≤ x) = true) ∧
      (∀ b ∈ B, decide (b.1 ≤ x) = false) := by
  refine exists_cut (fun p => decide (p.1 ≤ x)) l ?_
  refine h.gap.imp_of_mem ?_
  intro p q hp hq hpq hqx
  rw [decide_eq_true_eq] at hqx ⊢
  exact le_of_lt (lt_of_lt_of_le (lt_trans (h.lt p hp) hpq) hqx)

/-! ## Replacing the touched spans by their hull -/

/-- The hull of `[s, e)` and the spans of `M`, read off `M`'s two ends. -/
def hull (s e : α) (M : List (α × α)) : α × α :=
  ((M.head?.map fun p => min s p.1).getD s, (M.getLast?.map fun p => max e p.2).getD e)

/-- The first span of a separated list starts first. -/
theorem Separated.head?_le {M : List (α × α)} (h : Separated M) {p : α × α}
    (hp : M.head? = some p) : ∀ m ∈ M, p.1 ≤ m.1 := by
  cases M with
  | nil => simp at hp
  | cons q M =>
    obtain rfl : q = p := by simpa using hp
    intro m hm
    exact h.head_le (mem_cover.mpr ⟨m, hm, le_refl _, h.lt m hm⟩)

/-- The last span of a separated list ends last. -/
theorem Separated.le_getLast? {M : List (α × α)} (h : Separated M) {p : α × α}
    (hp : M.getLast? = some p) : ∀ m ∈ M, m.2 ≤ p.2 := by
  obtain ⟨N, rfl⟩ := List.getLast?_eq_some_iff.mp hp
  intro m hm
  rcases List.mem_append.mp hm with hm | hm
  · have hlt := (separated_append.mp h).2.2 m hm p (List.mem_singleton.mpr rfl)
    exact le_of_lt (lt_trans hlt (h.lt p (by simp)))
  · rw [List.mem_singleton.mp hm]

/-- The hull begins no later than the span. -/
theorem hull_fst_le (s e : α) (M : List (α × α)) : (hull s e M).1 ≤ s := by
  unfold hull
  cases M.head? with
  | none => exact le_refl s
  | some p => exact min_le_left s p.1

/-- The hull ends no earlier than the span. -/
theorem le_hull_snd (s e : α) (M : List (α × α)) : e ≤ (hull s e M).2 := by
  unfold hull
  cases M.getLast? with
  | none => exact le_refl e
  | some p => exact le_max_left e p.2

theorem Separated.hull_fst_le_of_mem {M : List (α × α)} (h : Separated M) (s e : α) :
    ∀ m ∈ M, (hull s e M).1 ≤ m.1 := by
  intro m hm
  unfold hull
  cases hM : M.head? with
  | none => rw [List.head?_eq_none_iff] at hM; rw [hM] at hm; exact absurd hm List.not_mem_nil
  | some p => exact le_trans (min_le_right s p.1) (h.head?_le hM m hm)

theorem Separated.le_hull_snd_of_mem {M : List (α × α)} (h : Separated M) (s e : α) :
    ∀ m ∈ M, m.2 ≤ (hull s e M).2 := by
  intro m hm
  unfold hull
  cases hM : M.getLast? with
  | none => rw [List.getLast?_eq_none_iff] at hM; rw [hM] at hm; exact absurd hm List.not_mem_nil
  | some p => exact le_trans (h.le_getLast? hM m hm) (le_max_right e p.2)

/-- A point of the hull before `s` lies in the first touched span. -/
theorem mem_cover_of_hull_lt {s e x : α} {M : List (α × α)} (hs : ∀ m ∈ M, s ≤ m.2)
    (h1 : (hull s e M).1 ≤ x) (h2 : x < s) : x ∈ cover M := by
  unfold hull at h1
  cases hM : M.head? with
  | none => rw [hM] at h1; exact absurd h2 (not_lt.mpr h1)
  | some p =>
    rw [hM] at h1
    have hp : p ∈ M := List.mem_of_head? hM
    have hmin : min s p.1 ≤ x := h1
    rcases min_le_iff.mp hmin with h | h
    · exact absurd h2 (not_lt.mpr h)
    · exact ⟨p, hp, h, lt_of_lt_of_le h2 (hs p hp)⟩

/-- A point of the hull from `e` on lies in the last touched span. -/
theorem mem_cover_of_le_hull {s e x : α} {M : List (α × α)} (he : ∀ m ∈ M, m.1 ≤ e)
    (h1 : x < (hull s e M).2) (h2 : e ≤ x) : x ∈ cover M := by
  unfold hull at h1
  cases hM : M.getLast? with
  | none => rw [hM] at h1; exact absurd h2 (not_le.mpr h1)
  | some p =>
    rw [hM] at h1
    have hp : p ∈ M := List.mem_of_getLast? hM
    have hmax : x < max e p.2 := h1
    rcases lt_max_iff.mp hmax with h | h
    · exact absurd h2 (not_le.mpr h)
    · exact ⟨p, hp, le_trans (he p hp) h2, h⟩

/-- The hull of an interval and the spans touching it adds exactly the interval. -/
theorem cover_hull {s e : α} {M : List (α × α)} (hM : Separated M) (hs : ∀ m ∈ M, s ≤ m.2)
    (he : ∀ m ∈ M, m.1 ≤ e) :
    Set.Ico (hull s e M).1 (hull s e M).2 = Set.Ico s e ∪ cover M := by
  ext x
  constructor
  · rintro ⟨h1, h2⟩
    rcases lt_or_ge x s with hxs | hsx
    · exact Or.inr (mem_cover_of_hull_lt hs h1 hxs)
    · rcases lt_or_ge x e with hxe | hex
      · exact Or.inl ⟨hsx, hxe⟩
      · exact Or.inr (mem_cover_of_le_hull he h2 hex)
  · rintro (⟨h1, h2⟩ | ⟨m, hm, h1, h2⟩)
    · exact ⟨le_trans (hull_fst_le s e M) h1, lt_of_lt_of_le h2 (le_hull_snd s e M)⟩
    · exact ⟨le_trans (hM.hull_fst_le_of_mem s e m hm) h1,
        lt_of_lt_of_le h2 (hM.le_hull_snd_of_mem s e m hm)⟩

/-- Replacing the touched middle part by the hull adds exactly the interval. -/
theorem cover_merge {s e : α} {A M B : List (α × α)} (hM : Separated M)
    (hs : ∀ m ∈ M, s ≤ m.2) (he : ∀ m ∈ M, m.1 ≤ e) :
    cover (A ++ hull s e M :: B) = cover (A ++ (M ++ B)) ∪ Set.Ico s e := by
  rw [cover_append, cover_cons, cover_hull hM hs he, cover_append, cover_append]
  ext x
  simp only [Set.mem_union]
  tauto

/-- **Merging keeps the list separated**, when the untouched parts lie strictly apart from the
    interval. -/
theorem Separated.merge {s e : α} {A M B : List (α × α)} (h : Separated (A ++ (M ++ B)))
    (hse : s < e) (hA : ∀ a ∈ A, a.2 < s) (hs : ∀ m ∈ M, s ≤ m.2)
    (he : ∀ m ∈ M, m.1 ≤ e) (hB : ∀ b ∈ B, e < b.1) : Separated (A ++ hull s e M :: B) := by
  obtain ⟨hsepA, hMB, hAMB⟩ := separated_append.mp h
  obtain ⟨hM, hsepB, hMB'⟩ := separated_append.mp hMB
  have hlt : (hull s e M).1 < (hull s e M).2 :=
    lt_of_le_of_lt (hull_fst_le s e M) (lt_of_lt_of_le hse (le_hull_snd s e M))
  -- the hull's end is `e` or the end of a touched span; both stop before `B`
  have hhullB : ∀ b ∈ B, (hull s e M).2 < b.1 := by
    intro b hb
    unfold hull
    cases hl : M.getLast? with
    | none => exact hB b hb
    | some p => exact max_lt (hB b hb) (hMB' p (List.mem_of_getLast? hl) b hb)
  have hAhull : ∀ a ∈ A, a.2 < (hull s e M).1 := by
    intro a ha
    unfold hull
    cases hl : M.head? with
    | none => exact hA a ha
    | some p =>
      exact lt_min (hA a ha)
        (hAMB a ha p (List.mem_append_left B (List.mem_of_head? hl)))
  refine separated_append.mpr ⟨hsepA, separated_cons.mpr ⟨hlt, hhullB, hsepB⟩, ?_⟩
  intro a ha q hq
  rcases List.mem_cons.mp hq with rfl | hq
  · exact hAhull a ha
  · exact hAMB a ha q (List.mem_append_right M hq)

/-! ## Counting: the tally of a list of spans -/

/-- How many spans of `l` hold `x`. -/
def tally (l : List (α × α)) (x : α) : Nat := l.countP (fun p => decide (p.1 ≤ x ∧ x < p.2))

@[simp] theorem tally_nil (x : α) : tally ([] : List (α × α)) x = 0 := rfl

theorem tally_cons (p : α × α) (l : List (α × α)) (x : α) :
    tally (p :: l) x = tally l x + if p.1 ≤ x ∧ x < p.2 then 1 else 0 := by
  unfold tally
  rw [List.countP_cons]
  simp

@[simp] theorem tally_append (l m : List (α × α)) (x : α) :
    tally (l ++ m) x = tally l x + tally m x := List.countP_append

/-- A point is counted exactly if it is covered. -/
theorem tally_pos {l : List (α × α)} {x : α} : 0 < tally l x ↔ x ∈ cover l := by
  unfold tally
  rw [List.countP_pos_iff]
  simp [cover]

/-- The counts of several lists add up. -/
theorem tally_flatMap {β : Type*} (f : β → List (α × α)) (l : List β) (x : α) :
    tally (l.flatMap f) x = (l.map fun b => tally (f b) x).sum := by
  induction l with
  | nil => rfl
  | cons b l ih => rw [List.flatMap_cons, tally_append, ih, List.map_cons, List.sum_cons]

/-- Cutting a span in two leaves the count alone. -/
theorem tally_cut {s m e : α} (hsm : s ≤ m) (hme : m ≤ e) (l : List (α × α)) (x : α) :
    tally ((s, m) :: (m, e) :: l) x = tally ((s, e) :: l) x := by
  rw [tally_cons, tally_cons, tally_cons]
  rcases lt_or_ge x m with hx | hx
  · rw [if_neg (show ¬ (m ≤ x ∧ x < e) from fun h => absurd hx (not_lt.mpr h.1))]
    have : (s ≤ x ∧ x < m) ↔ (s ≤ x ∧ x < e) :=
      ⟨fun h => ⟨h.1, lt_of_lt_of_le h.2 hme⟩, fun h => ⟨h.1, hx⟩⟩
    rw [if_congr this rfl rfl, Nat.add_zero]
  · rw [if_neg (show ¬ (s ≤ x ∧ x < m) from fun h => absurd h.2 (not_lt.mpr hx))]
    have : (m ≤ x ∧ x < e) ↔ (s ≤ x ∧ x < e) :=
      ⟨fun h => ⟨le_trans hsm h.1, h.2⟩, fun h => ⟨hx, h.2⟩⟩
    rw [if_congr this rfl rfl, Nat.add_zero]

/-- **Disjointness is a count of at most one.** -/
theorem pairwise_disjoint_iff_tally (l : List (α × α)) :
    l.Pairwise (fun p q => Disjoint (Set.Ico p.1 p.2) (Set.Ico q.1 q.2)) ↔
      ∀ x, tally l x ≤ 1 := by
  induction l with
  | nil => simp
  | cons p l ih =>
    rw [List.pairwise_cons, ih]
    constructor
    · rintro ⟨hp, hl⟩ x
      rw [tally_cons]
      by_cases hx : p.1 ≤ x ∧ x < p.2
      · have hnot : x ∉ cover l := by
          rintro ⟨q, hq, hqx⟩
          exact Set.disjoint_left.mp (hp q hq) hx hqx
        have h0 : tally l x = 0 := by
          have := mt tally_pos.mp hnot
          omega
        rw [if_pos hx, h0]
      · rw [if_neg hx]
        exact hl x
    · intro h
      refine ⟨fun q hq => ?_, fun x => ?_⟩
      · rw [Set.disjoint_left]
        intro x hxp hxq
        have h1 := h x
        have h2 : 0 < tally l x := tally_pos.mpr ⟨q, hq, hxq⟩
        rw [tally_cons, if_pos (show p.1 ≤ x ∧ x < p.2 from hxp)] at h1
        omega
      · have := h x
        rw [tally_cons] at this
        omega

/-! ## Counting the points of a separated list of numbers -/

/-- The summed lengths of a list of spans of numbers. -/
def lengths (l : List (Nat × Nat)) : Nat := (l.map fun p => p.2 - p.1).sum

@[simp] theorem lengths_cons (p : Nat × Nat) (l : List (Nat × Nat)) :
    lengths (p :: l) = (p.2 - p.1) + lengths l := by
  simp [lengths]

/-- Only finitely many numbers are covered. -/
theorem finite_cover (l : List (Nat × Nat)) : (cover l).Finite := by
  induction l with
  | nil => rw [cover_nil]; exact Set.finite_empty
  | cons p l ih => rw [cover_cons]; exact (Set.finite_Ico p.1 p.2).union ih

/-- **The number of covered points** of a separated list is its summed length. -/
theorem Separated.ncard_cover {l : List (Nat × Nat)} (h : Separated l) :
    (cover l).ncard = lengths l := by
  induction l with
  | nil => simp [lengths]
  | cons p l ih =>
    have hdisj : Disjoint (Set.Ico p.1 p.2) (cover l) := by
      rw [Set.disjoint_left]
      intro x hx hxl
      exact absurd hx.2 (not_lt.mpr (le_of_lt (h.lt_of_mem_tail hxl)))
    have hIco : (Set.Ico p.1 p.2).ncard = p.2 - p.1 := by
      rw [← Finset.coe_Ico, Set.ncard_coe_finset, Nat.card_Ico]
    rw [cover_cons, Set.ncard_union_eq hdisj (Set.finite_Ico p.1 p.2) (finite_cover l), hIco,
      ih (separated_cons.mp h).2.2, lengths_cons]

/-- A separated list below `n` has summed length at most `n`. -/
theorem Separated.lengths_le {l : List (Nat × Nat)} (h : Separated l) {n : Nat}
    (hn : ∀ p ∈ l, p.2 ≤ n) : lengths l ≤ n := by
  rw [← h.ncard_cover]
  have hsub : cover l ⊆ ↑(Finset.range n) := by
    rintro x ⟨p, hp, -, hx⟩
    have := hn p hp
    simp only [Finset.coe_range, Set.mem_Iio]
    omega
  calc (cover l).ncard ≤ (↑(Finset.range n) : Set Nat).ncard :=
        Set.ncard_le_ncard hsub (Finset.finite_toSet _)
    _ = n := by rw [Set.ncard_coe_finset, Finset.card_range]

end RdRs.Spans

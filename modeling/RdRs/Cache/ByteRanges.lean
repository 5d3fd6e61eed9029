/-
  `cache/bitmap.rs` — `ByteRanges`, the sorted and merged list of byte intervals of a cache file.

  The interval list is the program's own (`insertIntervals`, `hasRange`, `findMissing` follow the
  Rust bodies: a binary search on the ends, a linear scan on the starts, ONE splice); `ByteRanges`
  carries the documented invariant "sorted by `start`, non-overlapping, non-adjacent" as a field, so
  that a value that breaks it cannot be built.

  1. `insertIntervals_eq` — on a separated list the window found by the two searches is exactly the
     block of spans that touch `[start, end)`, and the splice puts their hull in its place;
  2. `bytes_insert` / `hasRange_iff` / `totalBytes_eq` — the three operations read in terms of the
     SET of covered bytes;
  3. `insertAll_refines_byte_set` — the whole life of a value, from the empty list by any sequence
     of inserts with `u64` arguments;
  4. `findMissing_none_iff` / `findMissing_some` — the gap scan the downloader is driven by.

  Offsets are natural numbers; where the width of `u64` matters (the sum in `total_bytes`) the
  arithmetic is checked explicitly.
-/
import Mathlib
import RdRs.Lib.BinSearch
import RdRs.Lib.Spans

set_option linter.unusedVariables false

namespace RdRs.Cache

open RdRs.BinSearch RdRs.Spans

/-! ## The interval list of the program -/

/-- The scan for the right bound: the first index from `r` on whose interval starts strictly after
    `newEnd` (`fuel` bounds the number of steps). -/
def scanRight (l : List (Nat × Nat)) (newEnd : Nat) : Nat → Nat → Nat
  | 0, r => r
  | fuel + 1, r =>
    match l[r]? with
    | some p => if p.1 ≤ newEnd then scanRight l newEnd fuel (r + 1) else r
    | none => r

/-- `ByteRanges::insert` on the raw interval list. -/
def insertIntervals (l : List (Nat × Nat)) (start stop : Nat) : List (Nat × Nat) :=
  if start ≥ stop then l
  else
    let left := partitionPoint l (fun p => decide (p.2 < start))
    let right := scanRight l stop l.length left
    -- merge all overlapping / adjacent intervals
    let newStart := if left < right then (l[left]?.map fun p => min start p.1).getD start else start
    let newEnd := if left < right then (l[right - 1]?.map fun p => max stop p.2).getD stop else stop
    l.take left ++ (newStart, newEnd) :: l.drop right

/-- The scan passes exactly the spans of `M` when those start at or before `newEnd` and the spans of
    `B` do not. -/
theorem scanRight_eq {newEnd : Nat} {B : List (Nat × Nat)} (hB : ∀ b ∈ B, ¬ b.1 ≤ newEnd) :
    ∀ (M A : List (Nat × Nat)) (fuel : Nat), (∀ m ∈ M, m.1 ≤ newEnd) → M.length ≤ fuel →
      scanRight (A ++ (M ++ B)) newEnd fuel A.length = A.length + M.length := by
  intro M
  induction M with
  | nil =>
    intro A fuel _ _
    cases fuel with
    | zero => rfl
    | succ n =>
      rw [scanRight, List.nil_append, List.getElem?_append_right (Nat.le_refl _), Nat.sub_self]
      cases B with
      | nil => rfl
      | cons b B =>
        have hb := hB b List.mem_cons_self
        simp only [List.getElem?_cons_zero, if_neg hb]
        rfl
  | cons m M ih =>
    intro A fuel hM hf
    cases fuel with
    | zero => rw [List.length_cons] at hf; omega
    | succ n =>
      have hm := hM m List.mem_cons_self
      rw [scanRight, List.getElem?_append_right (Nat.le_refl _), Nat.sub_self]
      simp only [List.cons_append, List.getElem?_cons_zero, if_pos hm]
      have happ : A ++ m :: (M ++ B) = (A ++ [m]) ++ (M ++ B) := by simp
      have hlen : A.length + 1 = (A ++ [m]).length := by simp
      rw [happ, hlen, ih (A ++ [m]) n (fun q hq => hM q (List.mem_cons_of_mem m hq))
        (by rw [List.length_cons] at hf; omega)]
      simp only [List.length_append, List.length_cons, List.length_nil]
      omega

/-- **The merge window.**  On a separated list the two searches cut it into the spans before, the
    spans that touch and the spans after `[start, stop)`, and the splice replaces the middle part by
    its hull with the new interval. -/
theorem insertIntervals_eq {l : List (Nat × Nat)} (h : Separated l) {start stop : Nat}
    (hlt : start < stop) :
    ∃ A M B, l = A ++ (M ++ B) ∧ (∀ a ∈ A, a.2 < start) ∧ (∀ m ∈ M, start ≤ m.2) ∧
      (∀ m ∈ M, m.1 ≤ stop) ∧ (∀ b ∈ B, stop < b.1) ∧
      insertIntervals l start stop = A ++ hull start stop M :: B := by
  obtain ⟨A, R, rfl, hA, hR⟩ := h.cut_ends start
  obtain ⟨M, B, rfl, hM, hB⟩ := (separated_append.mp h).2.1.cut_starts stop
  refine ⟨A, M, B, rfl, fun a ha => of_decide_eq_true (hA a ha), fun m hm => ?_,
    fun m hm => of_decide_eq_true (hM m hm), fun b hb => ?_, ?_⟩
  · exact Nat.le_of_not_lt (of_decide_eq_false (hR m (List.mem_append_left B hm)))
  · exact Nat.lt_of_not_le (of_decide_eq_false (hB b hb))
  · have hleft : partitionPoint (A ++ (M ++ B)) (fun p => decide (p.2 < start)) = A.length :=
      partitionPoint_append hA hR
    have hright : scanRight (A ++ (M ++ B)) stop (A ++ (M ++ B)).length A.length
        = A.length + M.length := by
      refine scanRight_eq (fun b hb => of_decide_eq_false (hB b hb)) M A _
        (fun m hm => of_decide_eq_true (hM m hm)) ?_
      simp only [List.length_append]
      omega
    have hdrop : (A ++ (M ++ B)).drop (A.length + M.length) = B := by
      rw [← List.append_assoc, ← List.length_append, List.drop_left]
    rw [insertIntervals, if_neg (by omega)]
    simp only [hleft, hright, hdrop, List.take_left]
    unfold hull
    cases hMM : M with
    | nil => simp
    | cons m M' =>
      have hlt' : A.length < A.length + (m :: M').length := by simp
      have hhead : (A ++ (m :: M' ++ B))[A.length]? = (m :: M').head? := by simp
      have hlast : (A ++ (m :: M' ++ B))[A.length + (m :: M').length - 1]?
          = (m :: M').getLast? := by
        rw [List.getElem?_append_right (by simp), List.getLast?_eq_getElem?,
          List.getElem?_append_left (by simp only [List.length_cons]; omega)]
        congr 1
        omega
      simp only [if_pos hlt', hhead, hlast]

theorem insertIntervals_separated {l : List (Nat × Nat)} (h : Separated l) (start stop : Nat) :
    Separated (insertIntervals l start stop) := by
  rcases Nat.lt_or_ge start stop with hlt | hge
  · obtain ⟨A, M, B, rfl, hA, hs, he, hB, heq⟩ := insertIntervals_eq h hlt
    rw [heq]
    exact h.merge hlt hA hs he hB
  · rw [insertIntervals, if_pos hge]
    exact h

theorem cover_insertIntervals {l : List (Nat × Nat)} (h : Separated l) (start stop : Nat) :
    cover (insertIntervals l start stop) = cover l ∪ Set.Ico start stop := by
  rcases Nat.lt_or_ge start stop with hlt | hge
  · obtain ⟨A, M, B, rfl, hA, hs, he, hB, heq⟩ := insertIntervals_eq h hlt
    have hM : Separated M := (separated_append.mp (separated_append.mp h).2.1).1
    rw [heq, cover_merge hM hs he]
  · rw [insertIntervals, if_pos hge, Set.Ico_eq_empty (by omega), Set.union_empty]

/-! ## `ByteRanges` and its operations -/

/-- The interval list together with its invariant: sorted by `start`, non-overlapping,
    non-adjacent. -/
structure ByteRanges where
  intervals : List (Nat × Nat)
  separated : Separated intervals

namespace ByteRanges

/-- Two values with the same interval list are equal. -/
@[ext] theorem ext {r t : ByteRanges} (h : r.intervals = t.intervals) : r = t := by
  cases r; cases t; cases h; rfl

instance : DecidableEq ByteRanges := fun r t =>
  decidable_of_iff (r.intervals = t.intervals) ⟨ByteRanges.ext, fun h => h ▸ rfl⟩

/-- `ByteRanges::new` -/
def new : ByteRanges := ⟨[], Separated.nil⟩

/-- `ByteRanges::insert` -/
def insert (r : ByteRanges) (start stop : Nat) : ByteRanges :=
  ⟨insertIntervals r.intervals start stop, insertIntervals_separated r.separated start stop⟩

/-- `ByteRanges::from_intervals` -/
def fromIntervals (l : List (Nat × Nat)) : ByteRanges :=
  l.foldl (fun r p => r.insert p.1 p.2) new

/-- The covered bytes. -/
def bytes (r : ByteRanges) : Set Nat := cover r.intervals

@[simp] theorem bytes_new : new.bytes = ∅ := cover_nil

@[simp] theorem bytes_insert (r : ByteRanges) (start stop : Nat) :
    (r.insert start stop).bytes = r.bytes ∪ Set.Ico start stop :=
  cover_insertIntervals r.separated start stop

/-- The covered set determines the value. -/
theorem eq_of_bytes_eq {r t : ByteRanges} (h : r.bytes = t.bytes) : r = t :=
  ByteRanges.ext (r.separated.ext t.separated h)

/-- A run of inserts adds the union of the inserted ranges. -/
theorem bytes_foldl_insert (l : List (Nat × Nat)) : ∀ r : ByteRanges,
    (l.foldl (fun r p => r.insert p.1 p.2) r).bytes = r.bytes ∪ cover l := by
  induction l with
  | nil => intro r; simp
  | cons p l ih =>
    intro r
    rw [List.foldl_cons, ih, bytes_insert, cover_cons, Set.union_assoc]

theorem bytes_fromIntervals (l : List (Nat × Nat)) : (fromIntervals l).bytes = cover l := by
  rw [fromIntervals, bytes_foldl_insert, bytes_new, Set.empty_union]

/-- `ByteRanges::has_range` — looks at ONE interval, the last that starts at or before `start`. -/
def hasRange (r : ByteRanges) (start stop : Nat) : Bool :=
  if start ≥ stop then true
  else
    let idx := partitionPoint r.intervals (fun p => decide (p.1 ≤ start))
    if idx = 0 then false
    else match r.intervals[idx - 1]? with
      | some p => decide (p.2 ≥ stop)
      | none => false

/-- **`has_range` answers for the set**: one interval is enough because no covered interval crosses
    the end of a span. -/
theorem hasRange_iff (r : ByteRanges) (start stop : Nat) :
    r.hasRange start stop = true ↔ Set.Ico start stop ⊆ r.bytes := by
  rcases Nat.lt_or_ge start stop with hlt | hge
  · have hsep := r.separated
    obtain ⟨A, B, hAB, hA, hB⟩ := hsep.cut_starts start
    have hidx : partitionPoint r.intervals (fun p => decide (p.1 ≤ start)) = A.length := by
      rw [hAB]; exact partitionPoint_append hA hB
    rw [bytes, hsep.subset_iff hlt, hasRange, if_neg (by omega)]
    simp only [hidx]
    rcases List.eq_nil_or_concat' A with rfl | ⟨A', q, rfl⟩
    · -- no interval starts at or before `start`
      constructor
      · intro h; exact absurd h (by simp)
      · rintro ⟨p, hp, hps, -⟩
        rw [hAB, List.nil_append] at hp
        exact absurd hps (of_decide_eq_false (hB p hp))
    · have hlen : (A' ++ [q]).length - 1 = A'.length := by simp
      have hget : r.intervals[A'.length]? = some q := by rw [hAB]; simp
      have hmem : q ∈ r.intervals := by rw [hAB]; simp
      have hqs : q.1 ≤ start := of_decide_eq_true (hA q (by simp))
      rw [hlen, hget, if_neg (by simp), decide_eq_true_eq]
      constructor
      · intro h; exact ⟨q, hmem, hqs, h⟩
      · rintro ⟨p, hp, hps, hep⟩
        rcases hsep.trichotomy p hp q hmem with rfl | hpq | hqp
        · exact hep
        · omega
        · -- a span behind `q` starts after `start`: `q` is the last one that does not
          have hplt := hsep.lt p hp
          have hqlt := hsep.lt q hmem
          rw [hAB] at hp hsep
          rcases List.mem_append.mp hp with hpA | hpB
          · rcases List.mem_append.mp hpA with hpA' | hpq
            · have := (separated_append.mp (separated_append.mp hsep).1).2.2 p hpA' q (by simp)
              omega
            · rw [List.mem_singleton.mp hpq] at hqp
              omega
          · exact absurd hps (of_decide_eq_false (hB p hpB))
  · rw [hasRange, if_pos hge, Set.Ico_eq_empty (by omega)]
    exact ⟨fun _ => Set.empty_subset _, fun _ => rfl⟩

theorem hasRange_byte (r : ByteRanges) (b : Nat) :
    r.hasRange b (b + 1) = true ↔ b ∈ r.bytes := by
  rw [hasRange_iff]
  constructor
  · intro h; exact h ⟨Nat.le_refl b, Nat.lt_succ_self b⟩
  · intro h x hx
    obtain rfl : x = b := by have := hx.1; have := hx.2; omega
    exact h

/-! ### `total_bytes`, with the width of `u64` -/

/-- `u64` addition: `none` where it overflows. -/
def checkedAdd (a b : Nat) : Option Nat := if a + b < 2 ^ 64 then some (a + b) else none

/-- `u64` subtraction: `none` where it underflows. -/
def checkedSub (a b : Nat) : Option Nat := if b ≤ a then some (a - b) else none

/-- `ByteRanges::total_bytes`: the `u64` sum of the interval lengths, `none` on overflow. -/
def totalBytes (r : ByteRanges) : Option Nat :=
  r.intervals.foldl (fun acc p => do checkedAdd (← acc) (← checkedSub p.2 p.1)) (some 0)

/-- The checked sum is the plain sum as long as the latter fits. -/
theorem foldl_checkedAdd : ∀ (l : List (Nat × Nat)) (n : Nat), (∀ p ∈ l, p.1 < p.2) →
    n + lengths l < 2 ^ 64 →
    l.foldl (fun acc p => do checkedAdd (← acc) (← checkedSub p.2 p.1)) (some n)
      = some (n + lengths l)
  | [], n, _, _ => by simp [lengths]
  | p :: l, n, hlt, hn => by
    have hp := hlt p List.mem_cons_self
    rw [lengths_cons] at hn
    have hstep : (do checkedAdd (← some n) (← checkedSub p.2 p.1)) = some (n + (p.2 - p.1)) := by
      simp only [checkedSub, if_pos (Nat.le_of_lt hp), checkedAdd]
      show (if n + (p.2 - p.1) < 2 ^ 64 then _ else _) = _
      rw [if_pos (by omega)]
    rw [List.foldl_cons, hstep, foldl_checkedAdd l _ (fun q hq => hlt q (List.mem_cons_of_mem p hq))
      (by omega), lengths_cons]
    congr 1
    omega

/-- Below the end of `u64`, `total_bytes` does not overflow and counts the covered bytes. -/
theorem totalBytes_eq (r : ByteRanges) (hb : ∀ p ∈ r.intervals, p.2 < 2 ^ 64) :
    r.totalBytes = some r.bytes.ncard := by
  have hle : lengths r.intervals ≤ 2 ^ 64 - 1 :=
    r.separated.lengths_le (fun p hp => by have := hb p hp; omega)
  rw [totalBytes, foldl_checkedAdd r.intervals 0 r.separated.lt (by omega), Nat.zero_add, bytes,
    r.separated.ncard_cover]

/-! ## The whole life of a value -/

/-- The value after a sequence of `insert(start, end)` calls with `u64` arguments. -/
def insertAll (ops : List (UInt64 × UInt64)) : ByteRanges :=
  fromIntervals (ops.map fun p => (p.1.toNat, p.2.toNat))

/-- A span of a separated list ends at a point that is a limit of its set. -/
theorem end_bounded {r : ByteRanges} {n : Nat} (h : r.bytes ⊆ Set.Iio n) :
    ∀ p ∈ r.intervals, p.2 ≤ n := by
  intro p hp
  have hlt := r.separated.lt p hp
  have : p.2 - 1 ∈ r.bytes := ⟨p, hp, by omega, by omega⟩
  have := h this
  simp only [Set.mem_Iio] at this
  omega

theorem bytes_insertAll (ops : List (UInt64 × UInt64)) :
    (insertAll ops).bytes = {b | ∃ p ∈ ops, p.1.toNat ≤ b ∧ b < p.2.toNat} := by
  rw [insertAll, bytes_fromIntervals]
  ext b
  simp [cover]

/-- **`ByteRanges` refines a finite set of bytes.**  After any sequence of inserts the list is
    sorted with non-empty intervals and at least one byte between any two of them, covers exactly
    the union of the inserted ranges, answers `has_range` and `total_bytes` for that set without
    overflow, and does not depend on the order of the inserts. -/
theorem insertAll_refines_byte_set (ops : List (UInt64 × UInt64)) :
    (insertAll ops).intervals.Pairwise (fun p q => p.2 < q.1) ∧
    (∀ p ∈ (insertAll ops).intervals, p.1 < p.2) ∧
    (insertAll ops).bytes = {b | ∃ p ∈ ops, p.1.toNat ≤ b ∧ b < p.2.toNat} ∧
    (∀ s e : UInt64, (insertAll ops).hasRange s.toNat e.toNat = true ↔
      ∀ b, s.toNat ≤ b → b < e.toNat → b ∈ (insertAll ops).bytes) ∧
    (insertAll ops).totalBytes = some (insertAll ops).bytes.ncard ∧
    (∀ ops' : List (UInt64 × UInt64), ops.Perm ops' →
      (insertAll ops').intervals = (insertAll ops).intervals) := by
  refine ⟨(insertAll ops).separated.gap, (insertAll ops).separated.lt, bytes_insertAll ops, ?_,
    ?_, ?_⟩
  · intro s e
    rw [hasRange_iff]
    exact ⟨fun h b h1 h2 => h ⟨h1, h2⟩, fun h b hb => h b hb.1 hb.2⟩
  · refine totalBytes_eq _ (fun p hp => ?_)
    have hsub : (insertAll ops).bytes ⊆ Set.Iio (2 ^ 64 - 1) := by
      rw [bytes_insertAll]
      rintro b ⟨q, -, -, hb⟩
      have := q.2.toNat_lt
      simp only [Set.mem_Iio]
      omega
    have := end_bounded hsub p hp
    omega
  · intro ops' hperm
    have : (insertAll ops').bytes = (insertAll ops).bytes := by
      rw [bytes_insertAll, bytes_insertAll]
      ext b
      simp only [Set.mem_ofPred_eq, hperm.mem_iff]
    rw [eq_of_bytes_eq this]

example : (insertAll [(20, 30), (0, 10), (10, 20), (5, 5)]).intervals = [(0, 30)] := by decide

/-! ## The gap scan -/

/-- The walk over the intervals: the first gap at or after `cursor`, cut at `stop`. -/
def walkGaps (stop : Nat) : List (Nat × Nat) → Nat → Option (Nat × Nat)
  | [], cursor => some (cursor, stop)
  | p :: rest, cursor =>
    if p.1 > cursor then some (cursor, min p.1 stop)
    else
      let cursor := if p.2 > cursor then p.2 else cursor
      if cursor ≥ stop then none else walkGaps stop rest cursor

/-- `ByteRanges::find_missing` -/
def findMissing (r : ByteRanges) (start stop : Nat) : Option (Nat × Nat) :=
  if start ≥ stop || r.hasRange start stop then none
  else walkGaps stop r.intervals start

/-- `(a, b)` is the first gap of `S` at or after `cursor`, cut at `stop`. -/
def FirstGap (S : Set Nat) (cursor stop a b : Nat) : Prop :=
  cursor ≤ a ∧ a < b ∧ b ≤ stop ∧ Set.Ico cursor a ⊆ S ∧ Disjoint (Set.Ico a b) S ∧
    (b = stop ∨ b ∈ S)

/-- What the walk returns, by induction on the intervals; the cursor only passes covered bytes. -/
theorem walkGaps_spec (stop : Nat) : ∀ (l : List (Nat × Nat)) (cursor : Nat), Separated l →
    cursor < stop →
    match walkGaps stop l cursor with
    | none => Set.Ico cursor stop ⊆ cover l
    | some (a, b) => FirstGap (cover l) cursor stop a b
  | [], cursor, _, hlt => by
    refine ⟨Nat.le_refl _, hlt, Nat.le_refl _, ?_, ?_, Or.inl rfl⟩
    · rw [Set.Ico_self]; exact Set.empty_subset _
    · rw [cover_nil]; exact Set.disjoint_empty _
  | p :: l, cursor, hsep, hlt => by
    obtain ⟨hp, hpl, hl⟩ := separated_cons.mp hsep
    rw [walkGaps]
    by_cases hgap : p.1 > cursor
    · rw [if_pos hgap]
      refine ⟨Nat.le_refl _, by omega, Nat.min_le_right _ _, ?_, ?_, ?_⟩
      · rw [Set.Ico_self]; exact Set.empty_subset _
      · rw [Set.disjoint_left]
        intro x hx hxc
        have := hsep.head_le hxc
        have := hx.2
        omega
      · rcases Nat.lt_or_ge p.1 stop with h | h
        · right
          rw [Nat.min_eq_left (Nat.le_of_lt h), cover_cons]
          exact Or.inl ⟨Nat.le_refl _, hp⟩
        · exact Or.inl (Nat.min_eq_right h)
    · rw [if_neg hgap]
      show match (if (if p.2 > cursor then p.2 else cursor) ≥ stop then none
        else walkGaps stop l (if p.2 > cursor then p.2 else cursor)) with
        | none => _
        | some (a, b) => _
      -- the bytes the cursor jumps over belong to the interval it leaves
      have hjump : Set.Ico cursor (if p.2 > cursor then p.2 else cursor) ⊆ cover (p :: l) := by
        intro x hx
        rw [cover_cons]
        obtain ⟨h1, h2⟩ := hx
        split at h2
        · exact Or.inl ⟨by omega, h2⟩
        · omega
      have hbeyond : p.2 ≤ (if p.2 > cursor then p.2 else cursor) := by split <;> omega
      have hmono : cursor ≤ (if p.2 > cursor then p.2 else cursor) := by split <;> omega
      generalize (if p.2 > cursor then p.2 else cursor) = c at hjump hbeyond hmono
      by_cases hstop : c ≥ stop
      · rw [if_pos hstop]
        exact fun x hx => hjump ⟨hx.1, Nat.lt_of_lt_of_le hx.2 hstop⟩
      · rw [if_neg hstop]
        have ih := walkGaps_spec stop l c hl (by omega)
        have hmid : ∀ x, c ≤ x → x ∈ cover (p :: l) → x ∈ cover l := by
          intro x hx hxc
          rw [cover_cons] at hxc
          rcases hxc with h | h
          · have := h.2; omega
          · exact h
        have hsub : cover l ⊆ cover (p :: l) := by
          rw [cover_cons]; exact Set.subset_union_right
        cases hw : walkGaps stop l c with
        | none =>
          rw [hw] at ih
          intro x hx
          rcases Nat.lt_or_ge x c with hxc | hxc
          · exact hjump ⟨hx.1, hxc⟩
          · exact hsub (ih ⟨hxc, hx.2⟩)
        | some g =>
          rw [hw] at ih
          obtain ⟨h1, h2, h3, h4, h5, h6⟩ := ih
          refine ⟨by omega, h2, h3, ?_, ?_, h6.imp_right (fun h => hsub h)⟩
          · intro x hx
            rcases Nat.lt_or_ge x c with hxc | hxc
            · exact hjump ⟨hx.1, hxc⟩
            · exact hsub (h4 ⟨hxc, hx.2⟩)
          · rw [Set.disjoint_left] at h5 ⊢
            intro x hx hxc
            exact h5 hx (hmid x (Nat.le_trans h1 hx.1) hxc)

/-- `find_missing` finds nothing exactly when the range is covered. -/
theorem findMissing_none_iff (r : ByteRanges) (start stop : Nat) :
    r.findMissing start stop = none ↔ Set.Ico start stop ⊆ r.bytes := by
  unfold findMissing
  split
  · rename_i h
    rw [Bool.or_eq_true, decide_eq_true_eq] at h
    refine ⟨fun _ => ?_, fun _ => rfl⟩
    rcases h with h | h
    · rw [Set.Ico_eq_empty (by omega)]; exact Set.empty_subset _
    · exact (r.hasRange_iff start stop).mp h
  · rename_i h
    rw [Bool.or_eq_true, decide_eq_true_eq, not_or] at h
    have hspec := walkGaps_spec stop r.intervals start r.separated (by omega)
    have hnot : ¬ Set.Ico start stop ⊆ r.bytes :=
      fun hs => h.2 ((r.hasRange_iff start stop).mpr hs)
    refine ⟨fun hn => ?_, fun hs => absurd hs hnot⟩
    rw [hn] at hspec
    exact hspec

/-- ... and otherwise the first maximal run of uncovered bytes. -/
theorem findMissing_some {r : ByteRanges} {start stop a b : Nat}
    (h : r.findMissing start stop = some (a, b)) : FirstGap r.bytes start stop a b := by
  unfold findMissing at h
  split at h
  · exact absurd h (by simp)
  · rename_i hc
    rw [Bool.or_eq_true, decide_eq_true_eq, not_or] at hc
    have hspec := walkGaps_spec stop r.intervals start r.separated (by omega)
    rw [h] at hspec
    exact hspec

end ByteRanges

end RdRs.Cache

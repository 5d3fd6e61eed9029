/-
  `cache/worker.rs` — the scan for missing slices at the head of `run_downloader`.

  `missingLoop` is the `while` loop itself; each round moves `pos` past the gap it has found, which
  is why it ends.  The list it pushes is read against the SET of uncovered bytes of the window: its
  members are exactly the maximal runs of that set.

  * `missingLoop_eq` — the loop against the scan with fuel that the downloader's model starts from;
  * `missing_scan_lists_the_gaps` — what the list is, and what one `find_missing` is of it.
-/
import RdRs.Cache.Worker

set_option linter.unusedVariables false

namespace RdRs.Cache

open RdRs.Spans

/-- `while pos < target_end { … }`: push the next gap and go on behind it. -/
def missingLoop (r : ByteRanges) (targetEnd pos : Nat) : List (Nat × Nat) :=
  if pos < targetEnd then
    match hm : r.findMissing pos targetEnd with
    | some (missStart, missEnd) => (missStart, missEnd) :: missingLoop r targetEnd missEnd
    | none => []
  else []
termination_by targetEnd - pos
decreasing_by
  obtain ⟨h1, h2, h3, -⟩ := ByteRanges.findMissing_some hm
  omega

/-- The loop takes no more rounds than the window is long: with that much fuel, or more, the scan
    has its result. -/
theorem missingLoop_eq (r : ByteRanges) (targetEnd : Nat) : ∀ (fuel pos : Nat),
    targetEnd - pos ≤ fuel → missingFrom r targetEnd fuel pos = missingLoop r targetEnd pos := by
  intro fuel
  induction fuel with
  | zero =>
    intro pos hf
    rw [missingFrom, missingLoop, if_neg (by omega)]
  | succ n ih =>
    intro pos hf
    rw [missingFrom, missingLoop]
    by_cases hlt : pos < targetEnd
    · rw [if_pos hlt, if_pos hlt]
      cases hm : r.findMissing pos targetEnd with
      | none => rfl
      | some g =>
        obtain ⟨h1, h2, h3, -⟩ := ByteRanges.findMissing_some (show _ = some (g.1, g.2) from hm)
        show (g.1, g.2) :: missingFrom r targetEnd n g.2 = (g.1, g.2) :: missingLoop r targetEnd g.2
        rw [ih g.2 (by omega)]
    · rw [if_neg hlt, if_neg hlt]

/-- The loop's list is the queue `run_downloader` starts with. -/
theorem missingLoop_eq_missingSlices (r : ByteRanges) (start targetEnd : Nat) :
    missingLoop r targetEnd start = missingSlices r start targetEnd :=
  (missingLoop_eq r targetEnd _ start (Nat.le_refl _)).symm

/-- `find_missing` returns the head of the list the loop makes. -/
theorem head?_missingLoop (r : ByteRanges) (start targetEnd : Nat) :
    (missingLoop r targetEnd start).head? = r.findMissing start targetEnd := by
  rw [missingLoop]
  by_cases hlt : start < targetEnd
  · rw [if_pos hlt]
    cases hm : r.findMissing start targetEnd with
    | none => rfl
    | some g => rfl
  · rw [if_neg hlt, ByteRanges.findMissing, if_pos (by simp; omega)]
    rfl

/-- Neighbours of the list are apart, with covered bytes only between them. -/
theorem neighbours_apart (r : ByteRanges) (start targetEnd : Nat) :
    (missingSlices r start targetEnd).IsChain fun p q =>
      p.2 < q.1 ∧ Set.Ico p.2 q.1 ⊆ r.bytes := by
  rw [List.isChain_iff_forall_rel_of_append_cons_cons]
  intro p q A B hl
  have hsep := missingSlices_separated r start targetEnd
  have hcover := cover_missingSlices r start targetEnd
  rw [hl] at hsep hcover
  obtain ⟨hp, hpl, hqB⟩ := separated_cons.mp (separated_append.mp hsep).2.1
  refine ⟨hpl q List.mem_cons_self, fun x hx => ?_⟩
  -- both slices are in the window, so what lies between them is
  have hp1 : p.1 ∈ Set.Ico start targetEnd \ r.bytes := by
    rw [← hcover]
    exact ⟨p, by simp, Nat.le_refl _, hp⟩
  have hq1 : q.1 ∈ Set.Ico start targetEnd \ r.bytes := by
    rw [← hcover]
    exact ⟨q, by simp, Nat.le_refl _, (separated_cons.mp hqB).1⟩
  have hxwin : x ∈ Set.Ico start targetEnd := by
    have h1 := hp1.1.1
    have h2 := hq1.1.2
    have h3 := hx.1
    have h4 := hx.2
    exact ⟨by omega, by omega⟩
  by_contra hxr
  refine hsep.not_mem_between hx.1 hx.2 ?_
  rw [hcover]
  exact ⟨hxwin, hxr⟩

/-- **The scan lists exactly the gaps.**  The loop ends; its list is in increasing order with
    nothing but covered bytes between neighbours; its members are the maximal runs of uncovered
    bytes of the window, so each is non-empty and uncovered and every uncovered byte lies in exactly
    one.  `find_missing` answers `None` iff the range is covered, and else the first such run. -/
theorem missing_scan_lists_the_gaps (r : ByteRanges) (start targetEnd : Nat) :
    (∀ fuel, targetEnd - start ≤ fuel →
      missingFrom r targetEnd fuel start = missingLoop r targetEnd start) ∧
    (missingLoop r targetEnd start).Pairwise (fun p q => p.2 < q.1) ∧
    (missingLoop r targetEnd start).IsChain
      (fun p q => p.2 < q.1 ∧ Set.Ico p.2 q.1 ⊆ r.bytes) ∧
    (∀ p, p ∈ missingLoop r targetEnd start ↔
      MaximalRun (Set.Ico start targetEnd \ r.bytes) p) ∧
    (∀ p ∈ missingLoop r targetEnd start, p.1 < p.2 ∧ Disjoint (Set.Ico p.1 p.2) r.bytes) ∧
    (∀ b ∈ Set.Ico start targetEnd \ r.bytes,
      ∃! p, p ∈ missingLoop r targetEnd start ∧ b ∈ Set.Ico p.1 p.2) ∧
    (r.findMissing start targetEnd = none ↔ Set.Ico start targetEnd ⊆ r.bytes) ∧
    (missingLoop r targetEnd start).head? = r.findMissing start targetEnd := by
  have hsep := missingSlices_separated r start targetEnd
  have hcover := cover_missingSlices r start targetEnd
  have hhead := head?_missingLoop r start targetEnd
  rw [missingLoop_eq_missingSlices] at hhead ⊢
  have hrun : ∀ p, p ∈ missingSlices r start targetEnd ↔
      MaximalRun (Set.Ico start targetEnd \ r.bytes) p := by
    intro p
    rw [hsep.mem_iff_maximalRun, hcover]
  refine ⟨fun fuel hf => ?_, hsep.gap, neighbours_apart r start targetEnd, hrun, fun p hp => ?_,
    fun b hb => ?_, r.findMissing_none_iff start targetEnd, hhead⟩
  · rw [missingLoop_eq r targetEnd fuel start hf, missingLoop_eq_missingSlices]
  · obtain ⟨hlt, hinside, -⟩ := (hrun p).mp hp
    exact ⟨hlt, Set.disjoint_left.mpr fun x hx => (hinside hx).2⟩
  · rw [← hcover] at hb
    obtain ⟨p, hp, hbp⟩ := hb
    refine ⟨p, ⟨hp, hbp⟩, fun q hq => ?_⟩
    rcases hsep.trichotomy q hq.1 p hp with h | h | h
    · exact h
    · have h1 := hq.2.2
      have h2 := hbp.1
      omega
    · have h1 := hq.2.1
      have h2 := hbp.2
      omega

example : missingSlices ((ByteRanges.new.insert 4 6).insert 9 20) 2 15 = [(2, 4), (6, 9)] := by
  decide

end RdRs.Cache

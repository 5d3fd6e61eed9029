/-
  `cache/item_read_at.rs`, `cache/worker.rs` — the sizes of a configuration in the downloader.

  `read_at` hands the parsed sizes on as they are.  A chunk size of zero gives chunks without a byte:
  the slice goes back to the queue as it was, and the end of the range header lies before its start.

  * `MakesProgress` — what the chunk loop relies on;
  * `makes_progress_iff` — when it holds, for any read under any configuration.
-/
import RdRs.Config
import RdRs.Cache.Heals
import RdRs.Cache.Joins

set_option linter.unusedVariables false

namespace RdRs.Cache

open RdRs.Runs

/-- What `read_at` hands to `run_downloader`. -/
def readArgs (isAlphabetic : Char → Bool) (cfg : Config) (fileSize offset size : Nat) :
    DownloaderArgs where
  start := offset
  end_ := readEnd fileSize offset size
  baseChunk := parseByteSize isAlphabetic cfg.vfs.chunkSize
  readAhead := parseByteSize isAlphabetic cfg.vfs.readAhead
  maxParallelStreams := cfg.vfs.maxParallelStreams

/-- The bytes of the window that are not cached. -/
def missing (ranges : ByteRanges) (fileSize : Nat) (args : DownloaderArgs) : Set Nat :=
  Set.Ico args.start (args.targetEnd fileSize) \ ranges.bytes

/-- **The downloader makes progress**: the end of its window does not overflow, and in every state of
    every session each chunk in hand has a byte and an end to subtract one from, and there were no
    more chunks than missing bytes. -/
def MakesProgress (ranges : ByteRanges) (fileSize : Nat) (args : DownloaderArgs) : Prop :=
  args.end_ + args.readAhead < 2 ^ 64 ∧
  ∀ es p, run (fetchers args.baseChunk) (sessionInit ranges fileSize args) es = some p →
    (∀ l ∈ p.tasks, ∀ c ∈ l.chunk, c.1 < c.2 ∧ 1 ≤ c.2) ∧
    p.shared.pops ≤ (missing ranges fileSize args).ncard

/-- Nothing happens in a session without workers. -/
theorem run_without_tasks {base : Nat} {g : Fetching} :
    ∀ {es : List (Nat × FetchStep)} {p : Pool Fetching Fetcher},
      run (fetchers base) ⟨g, []⟩ es = some p → p = ⟨g, []⟩
  | [], p, h => (Option.some.inj h).symm
  | e :: es, p, h => by
    obtain ⟨t, ht, -⟩ := run_cons h
    exact absurd ht (by simp [Pool.step])

theorem missingSlices_eq_nil {ranges : ByteRanges} {fileSize : Nat} {args : DownloaderArgs} :
    missingSlices ranges args.start (args.targetEnd fileSize) = [] ↔
      missing ranges fileSize args = ∅ := by
  unfold missing
  rw [← cover_missingSlices]
  constructor
  · intro h
    rw [h, Spans.cover_nil]
  · intro h
    by_contra hne
    obtain ⟨c, cs, hcons⟩ := List.exists_cons_of_ne_nil hne
    have hlt := (missingSlices_separated ranges args.start (args.targetEnd fileSize)).lt c
      (by rw [hcons]; exact List.mem_cons_self)
    have hin : c.1 ∈ Spans.cover (missingSlices ranges args.start (args.targetEnd fileSize)) :=
      ⟨c, by rw [hcons]; exact List.mem_cons_self, Nat.le_refl _, hlt⟩
    rw [h] at hin
    exact hin

/-- With a chunk size of zero, the first pop of a session that has something to fetch is empty. -/
theorem first_pop_empty {ranges : ByteRanges} {fileSize : Nat} {args : DownloaderArgs}
    (hzero : args.baseChunk = 0) (hmiss : missing ranges fileSize args ≠ ∅) :
    ∃ p s, run (fetchers args.baseChunk) (sessionInit ranges fileSize args) [(0, .work .pop)] =
        some p ∧ .at_ (.trying (s, s) 0) ∈ p.tasks := by
  obtain ⟨c, cs, hcons⟩ := List.exists_cons_of_ne_nil (mt missingSlices_eq_nil.mp hmiss)
  obtain ⟨k, hk⟩ : ∃ k, max args.maxParallelStreams 1 = k + 1 :=
    ⟨max args.maxParallelStreams 1 - 1, by omega⟩
  have hinit : sessionInit ranges fileSize args =
      ⟨⟨⟨c :: cs, 1, maxSessionLinkHeals, ranges, []⟩, false, 0, 0, 0⟩,
        .at_ .top :: List.replicate k (.at_ .top)⟩ := by
    unfold sessionInit downloaderInit
    rw [if_neg (mt missingSlices_eq_nil.mp hmiss), hcons, hk, poolInit, List.replicate_succ,
      List.map_cons, List.map_replicate]
  have hsize : min (saturatingMul 0 1) (c.2 - c.1) = 0 := Nat.zero_min _
  rw [hinit, hzero]
  refine ⟨⟨⟨⟨if c.1 < c.2 then (c.1, c.2) :: cs else cs, 1, maxSessionLinkHeals, ranges, []⟩, false,
    1, 0, 0⟩, .at_ (.trying (c.1, c.1) 0) :: List.replicate k (.at_ .top)⟩, c.1, ?_,
    List.mem_cons_self⟩
  refine run_step [] ?_
  unfold fetchers Pool.step
  simp only [List.getElem?_cons_zero, Fetcher.act, Worker.act, hsize, Nat.add_zero]
  rfl

theorem not_makesProgress_of_zero {ranges : ByteRanges} {fileSize : Nat} {args : DownloaderArgs}
    (hzero : args.baseChunk = 0) (hmiss : missing ranges fileSize args ≠ ∅) :
    ¬MakesProgress ranges fileSize args := by
  rintro ⟨-, hruns⟩
  obtain ⟨p, s, hrun, hmem⟩ := first_pop_empty hzero hmiss
  exact absurd ((hruns _ p hrun).1 _ hmem (s, s) (List.mem_singleton.mpr rfl)).1 (Nat.lt_irrefl s)

/-- **When the downloader makes progress.**  For every configuration that is accepted and every read:
    exactly when nothing is missing in its window or the chunk size is at least one byte, and the end
    of the read plus the read-ahead is a `u64`. -/
theorem makes_progress_iff (isAlphabetic : Char → Bool) (cfg : Config)
    (hvalid : cfg.validate = .ok ()) (ranges : ByteRanges) (fileSize offset size : Nat) :
    MakesProgress ranges fileSize (readArgs isAlphabetic cfg fileSize offset size) ↔
      (missing ranges fileSize (readArgs isAlphabetic cfg fileSize offset size) = ∅ ∨
        1 ≤ parseByteSize isAlphabetic cfg.vfs.chunkSize) ∧
      readEnd fileSize offset size + parseByteSize isAlphabetic cfg.vfs.readAhead < 2 ^ 64 := by
  generalize hargs : readArgs isAlphabetic cfg fileSize offset size = args
  have hchunk : parseByteSize isAlphabetic cfg.vfs.chunkSize = args.baseChunk := by rw [← hargs]; rfl
  have hahead : parseByteSize isAlphabetic cfg.vfs.readAhead = args.readAhead := by rw [← hargs]; rfl
  have hend : readEnd fileSize offset size = args.end_ := by rw [← hargs]; rfl
  rw [hchunk, hahead, hend]
  constructor
  · intro h
    refine ⟨?_, h.1⟩
    by_contra hno
    obtain ⟨hmiss, hsmall⟩ := not_or.mp hno
    exact not_makesProgress_of_zero (Nat.eq_zero_of_not_pos hsmall) hmiss h
  · rintro ⟨hcase, hfits⟩
    refine ⟨hfits, fun es p hrun => ?_⟩
    rcases hcase with hnone | hbase
    · have hinit : sessionInit ranges fileSize args
          = ⟨(sessionInit ranges fileSize args).shared, []⟩ := by
        unfold sessionInit downloaderInit
        rw [if_pos (missingSlices_eq_nil.mpr hnone)]
        rfl
      rw [hinit] at hrun
      obtain rfl := run_without_tasks hrun
      refine ⟨fun l hl => absurd hl List.not_mem_nil, ?_⟩
      rw [(sessionInit_shape ranges fileSize args).1]
      exact Nat.zero_le _
    · have hp := run_inv' (fun s e t hs ht => (within_step hbase hs ht).1) es _ p
        (within_init ranges fileSize args) hrun
      refine ⟨fun l hl c hc => ?_, ?_⟩
      · have hlt := hp.chunk l hl c hc
        exact ⟨hlt, Nat.lt_of_le_of_lt (Nat.zero_le _) hlt⟩
      · have hbytes := hp.bytes
        unfold missing
        omega

/-- A configuration with the given sizes, and nothing else out of the ordinary. -/
def sizedConfig (chunkSize readAhead : String) : Config :=
  ⟨"TOKEN", ⟨250, 60, .auto, none⟩, ⟨readAhead, chunkSize, 8⟩⟩

/-- A chunk size of `0`, or one that is no number, is accepted, and no chunk has a byte; so is a
    read-ahead that leaves no room for the read. -/
theorem sizes_not_checked :
    (sizedConfig "0" "0").validate = .ok () ∧ (sizedConfig "4,5M" "0").validate = .ok () ∧
    (sizedConfig "4M" "18446744073709551615").validate = .ok () ∧
    ¬MakesProgress .new 10 (readArgs Char.isAlpha (sizedConfig "0" "0") 10 0 10) ∧
    ¬MakesProgress .new 10 (readArgs Char.isAlpha (sizedConfig "4,5M" "0") 10 0 10) ∧
    ¬MakesProgress .new 10
      (readArgs Char.isAlpha (sizedConfig "4M" "18446744073709551615") 10 0 10) := by
  -- the first byte of the file is missing
  have hmiss : ∀ chunkSize, missing .new 10
      (readArgs Char.isAlpha (sizedConfig chunkSize "0") 10 0 10) ≠ ∅ := by
    intro chunkSize hnone
    have hzero : 0 ∈ missing .new 10
        (readArgs Char.isAlpha (sizedConfig chunkSize "0") 10 0 10) := by
      refine ⟨⟨Nat.le_refl 0, ?_⟩, ?_⟩
      · simp only [readArgs, sizedConfig, DownloaderArgs.targetEnd]
        decide
      · rw [ByteRanges.bytes_new]
        exact Set.notMem_empty 0
    rw [hnone] at hzero
    exact hzero
  refine ⟨by decide, by decide, by decide, not_makesProgress_of_zero ?_ (hmiss "0"),
    not_makesProgress_of_zero ?_ (hmiss "4,5M"), fun h => ?_⟩
  · show parseByteSize Char.isAlpha "0" = 0
    decide
  · show parseByteSize Char.isAlpha "4,5M" = 0
    decide
  · have hfits : readEnd 10 0 10 + parseByteSize Char.isAlpha "18446744073709551615" < 2 ^ 64 := h.1
    exact absurd hfits (by decide)

/-- The sizes of the documentation. -/
theorem makes_progress_iff_defaultSizes :
    (sizedConfig "4M" "128M").validate = .ok () ∧
    MakesProgress .new 10 (readArgs Char.isAlpha (sizedConfig "4M" "128M") 10 0 10) :=
  ⟨by decide, (makes_progress_iff Char.isAlpha (sizedConfig "4M" "128M") (by decide) .new 10 0
    10).mpr ⟨Or.inr (by decide), by decide⟩⟩

end RdRs.Cache

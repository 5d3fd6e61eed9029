/-
  `cache/worker.rs` — `run_downloader`: the missing slices of a window, fetched by a pool of chunk
  workers over one shared queue and one shared chunk-size multiplier.

  1. **Program** — `missingSlices` is the scan that fills the queue; `Worker.act` is one worker, cut
     at every point where another worker can run: the pop (under the queue lock), the answer to the
     range GET, each piece of the body, the reset of the multiplier, the push of a split-off tail
     (under the queue lock) and the growth of the multiplier.  What the network, the disk, the
     cancellation token and the semaphore do is the event's.
  2. **Moves** — `Move` lists everything a step can do (`move_of_act`); the invariants below are
     case analyses over it.
  3. **Accounting** — `chunk_queue_partitions_missing`: queued, in-flight and finished chunks
     partition the initially missing bytes in every interleaving.
  4. **Success** — `chunks_exact_iff_bodies_fit`: a finished chunk is cached, and nothing else is
     marked, exactly when the bodies have the requested length, since nothing in the program
     compares the two.
-/
import RdRs.Lib.Runs
import RdRs.Cache.ByteRanges

set_option linter.unusedVariables false

namespace RdRs.Cache

open RdRs.Spans RdRs.Runs

/-! ## The missing slices -/

/-- The scan of `run_downloader`: repeated `find_missing` from the end of the last gap (`fuel`
    bounds the rounds; each one moves `pos` forward). -/
def missingFrom (r : ByteRanges) (targetEnd : Nat) : Nat → Nat → List (Nat × Nat)
  | 0, _ => []
  | fuel + 1, pos =>
    if pos < targetEnd then
      match r.findMissing pos targetEnd with
      | some (missStart, missEnd) => (missStart, missEnd) :: missingFrom r targetEnd fuel missEnd
      | none => []
    else []

/-- The slices of `[start, targetEnd)` that are missing. -/
def missingSlices (r : ByteRanges) (start targetEnd : Nat) : List (Nat × Nat) :=
  missingFrom r targetEnd (targetEnd - start) start

/-- The scan is separated, stays behind `pos`, and covers exactly the uncovered bytes.  Induction on
    the fuel, which the distance to the end bounds. -/
theorem missingFrom_spec (r : ByteRanges) (targetEnd : Nat) : ∀ (fuel pos : Nat),
    targetEnd - pos ≤ fuel →
    Separated (missingFrom r targetEnd fuel pos) ∧
    (∀ p ∈ missingFrom r targetEnd fuel pos, pos ≤ p.1 ∧ p.1 ∉ r.bytes) ∧
    cover (missingFrom r targetEnd fuel pos) = Set.Ico pos targetEnd \ r.bytes := by
  intro fuel
  induction fuel with
  | zero =>
    intro pos hf
    refine ⟨Separated.nil, fun p hp => absurd hp List.not_mem_nil, ?_⟩
    rw [missingFrom, cover_nil, Set.Ico_eq_empty (by omega), Set.empty_sdiff]
  | succ n ih =>
    intro pos hf
    rw [missingFrom]
    by_cases hlt : pos < targetEnd
    · rw [if_pos hlt]
      cases hm : r.findMissing pos targetEnd with
      | none =>
        refine ⟨Separated.nil, fun p hp => absurd hp List.not_mem_nil, ?_⟩
        have hcov := (r.findMissing_none_iff pos targetEnd).mp hm
        rw [cover_nil, Set.sdiff_eq_empty.mpr hcov]
      | some g =>
        obtain ⟨a, b⟩ := g
        obtain ⟨h1, h2, h3, h4, h5, h6⟩ := ByteRanges.findMissing_some hm
        obtain ⟨ih1, ih2, ih3⟩ := ih b (by omega)
        have ha : a ∉ r.bytes := fun h =>
          Set.disjoint_left.mp h5 (show a ∈ Set.Ico a b from ⟨Nat.le_refl a, h2⟩) h
        -- the byte at the end of a gap is covered, so the next gap starts strictly later
        have hgap : ∀ q ∈ missingFrom r targetEnd n b, b < q.1 := by
          intro q hq
          obtain ⟨hbq, hqn⟩ := ih2 q hq
          rcases h6 with h6 | h6
          · have hq1 : q.1 ∈ cover (missingFrom r targetEnd n b) :=
              ⟨q, hq, Nat.le_refl _, ih1.lt q hq⟩
            rw [ih3, h6, Set.Ico_self, Set.empty_sdiff] at hq1
            exact absurd hq1 (Set.notMem_empty _)
          · rcases Nat.lt_or_eq_of_le hbq with h | h
            · exact h
            · rw [h] at h6; exact absurd h6 hqn
        refine ⟨separated_cons.mpr ⟨h2, hgap, ih1⟩, ?_, ?_⟩
        · intro p hp
          rcases List.mem_cons.mp hp with rfl | hp
          · exact ⟨h1, ha⟩
          · exact ⟨by have := (ih2 p hp).1; omega, (ih2 p hp).2⟩
        · rw [cover_cons, ih3]
          ext x
          constructor
          · rintro (hx | hx)
            · exact ⟨⟨Nat.le_trans h1 hx.1, Nat.lt_of_lt_of_le hx.2 h3⟩,
                Set.disjoint_left.mp h5 hx⟩
            · exact ⟨⟨by have := hx.1.1; omega, hx.1.2⟩, hx.2⟩
          · rintro ⟨⟨hx1, hx2⟩, hxn⟩
            rcases Nat.lt_or_ge x a with hxa | hxa
            · exact absurd (h4 ⟨hx1, hxa⟩) hxn
            · rcases Nat.lt_or_ge x b with hxb | hxb
              · exact Or.inl ⟨hxa, hxb⟩
              · exact Or.inr ⟨⟨hxb, hx2⟩, hxn⟩
    · rw [if_neg hlt]
      refine ⟨Separated.nil, fun p hp => absurd hp List.not_mem_nil, ?_⟩
      rw [cover_nil, Set.Ico_eq_empty (by omega), Set.empty_sdiff]

theorem missingSlices_separated (r : ByteRanges) (start targetEnd : Nat) :
    Separated (missingSlices r start targetEnd) :=
  (missingFrom_spec r targetEnd _ start (Nat.le_refl _)).1

theorem cover_missingSlices (r : ByteRanges) (start targetEnd : Nat) :
    cover (missingSlices r start targetEnd) = Set.Ico start targetEnd \ r.bytes :=
  (missingFrom_spec r targetEnd _ start (Nat.le_refl _)).2.2

/-! ## One worker -/

/-- `MAX_DOWNLOAD_RETRIES` -/
def maxDownloadRetries : Nat := 3

/-- `MAX_SESSION_LINK_HEALS` -/
def maxSessionLinkHeals : Nat := 3

/-- `u64::saturating_mul` -/
def saturatingMul (a b : Nat) : Nat := min (a * b) (2 ^ 64 - 1)

/-- What the workers share.  `finished` records the chunks whose retry loop was left with success;
    the program keeps no such list. -/
structure Shared where
  queue : List (Nat × Nat)
  multiplier : Nat
  healRemaining : Nat
  ranges : ByteRanges
  finished : List (Nat × Nat)

/-- Where a worker stands.  A chunk `c` is `[c.1, c.2)` = `[chunk_start, chunk_end)`. -/
inductive Worker where
  /-- top of the chunk loop -/
  | top
  /-- top of the retry loop -/
  | trying (c : Nat × Nat) (retries : Nat)
  /-- in the body loop, at `current_pos` -/
  | body (c : Nat × Nat) (retries : Nat) (pos : Nat)
  /-- after a failed attempt: the multiplier is reset, the tail not yet split off -/
  | splitting (c : Nat × Nat) (retries : Nat)
  /-- the retry loop was left with success, the multiplier has not grown yet -/
  | growing
  /-- returned `Ok` without a chunk in hand -/
  | exited
  /-- returned with a chunk in hand: with an error, or (`Ok`) on cancellation -/
  | stopped (c : Nat × Nat) (failed : Bool)
deriving DecidableEq

/-- What happens to a worker. -/
inductive Act where
  /-- lock the queue and take a chunk off the front slice -/
  | pop
  /-- cancellation is seen, or the task is aborted, at an await -/
  | cancel
  /-- the semaphore is closed -/
  | semaphoreClosed
  /-- no response headers in time -/
  | headerTimeout
  /-- the range GET fails; `healed` when a link refresh was granted and succeeded -/
  | httpError (healed : Bool)
  /-- the range GET succeeds -/
  | response (status200 contentRange : Bool)
  /-- `resp.chunk()` gives `len` bytes; `written` is the outcome of `write_range` -/
  | piece (len : Nat) (written : Bool)
  /-- clean end of the stream -/
  | bodyEnd
  /-- stream error, or no progress in time -/
  | bodyError
  /-- lock the queue and push the tail back, if the chunk is longer than `base_chunk` -/
  | split
  /-- double the multiplier -/
  | grow
deriving DecidableEq

/-- The common end of a failed attempt: give up after the third, else reset the multiplier. -/
def failAttempt (g : Shared) (c : Nat × Nat) (retries : Nat) : Shared × Worker :=
  if retries + 1 ≥ maxDownloadRetries then (g, .stopped c true)
  else ({ g with multiplier := 1 }, .splitting c (retries + 1))

/-- One step of a worker of `run_downloader` with the given `base_chunk`. -/
def Worker.act (base : Nat) (g : Shared) : Worker → Act → Option (Shared × Worker)
  | .top, .pop =>
    match g.queue with
    | [] => some (g, .exited)
    | s :: q =>
      let chunkSize := min (saturatingMul base g.multiplier) (s.2 - s.1)
      let chunkEnd := s.1 + chunkSize
      -- the remainder goes back to the front of the queue
      some ({ g with queue := if chunkEnd < s.2 then (chunkEnd, s.2) :: q else q },
        .trying (s.1, chunkEnd) 0)
  | .top, .cancel => some (g, .exited)
  | .trying c _, .cancel => some (g, .stopped c false)
  | .trying c _, .semaphoreClosed => some (g, .stopped c true)
  | .trying c retries, .headerTimeout => some (failAttempt g c retries)
  | .trying c retries, .httpError healed =>
    if healed then
      -- a refreshed link starts the count of retries over
      if 0 < g.healRemaining then
        some ({ g with healRemaining := g.healRemaining - 1 }, .trying c 0)
      else none
    else some (failAttempt g c retries)
  | .trying c retries, .response status200 contentRange =>
    -- a 200 without Content-Range is the whole file: discard and retry, no split
    if status200 ∧ contentRange = false ∧ c.1 > 0 then
      if retries + 1 ≥ maxDownloadRetries then some (g, .stopped c true)
      else some (g, .trying c (retries + 1))
    else some (g, .body c retries c.1)
  | .body c _ _, .cancel => some (g, .stopped c false)
  | .body c retries pos, .piece len written =>
    if len = 0 then some (g, .body c retries pos)
    else if written then
      some ({ g with ranges := g.ranges.insert pos (pos + len) }, .body c retries (pos + len))
    else some (failAttempt g c retries)
  -- wherever `current_pos` is by then
  | .body c _ _, .bodyEnd => some ({ g with finished := c :: g.finished }, .growing)
  | .body c retries _, .bodyError => some (failAttempt g c retries)
  | .splitting c retries, .split =>
    if c.2 - c.1 > base then
      some ({ g with queue := (c.1 + base, c.2) :: g.queue }, .trying (c.1, c.1 + base) retries)
    else some (g, .trying c retries)
  | .growing, .grow => some ({ g with multiplier := min (g.multiplier * 2) 16 }, .top)
  | _, _ => none

/-- The pool at the start of `run_downloader`: every worker at the top of its loop. -/
def poolInit (slices : List (Nat × Nat)) (ranges : ByteRanges) (workers : Nat) :
    Pool Shared Worker :=
  ⟨⟨slices, 1, maxSessionLinkHeals, ranges, []⟩, List.replicate workers .top⟩

/-- What `run_downloader` reads of its arguments. -/
structure DownloaderArgs where
  start : Nat
  end_ : Nat
  baseChunk : Nat
  readAhead : Nat
  maxParallelStreams : Nat

/-- `target_end`: the requested end plus the read-ahead, a sum of `u64`s that wraps, inside the file. -/
def DownloaderArgs.targetEnd (args : DownloaderArgs) (fileSize : Nat) : Nat :=
  min ((args.end_ + args.readAhead) % 2 ^ 64) fileSize

/-- The end of the window that is asked for. -/
def DownloaderArgs.wantedEnd (args : DownloaderArgs) (fileSize : Nat) : Nat :=
  min (args.end_ + args.readAhead) fileSize

/-- Without a wrap the window is the one that is asked for. -/
theorem DownloaderArgs.targetEnd_eq {args : DownloaderArgs} (h : args.end_ + args.readAhead < 2 ^ 64)
    (fileSize : Nat) : args.targetEnd fileSize = args.wantedEnd fileSize := by
  rw [targetEnd, wantedEnd, Nat.mod_eq_of_lt h]

/-- `run_downloader`'s pool: no worker is spawned when nothing of the window is missing, and at
    least one otherwise. -/
def downloaderInit (ranges : ByteRanges) (fileSize : Nat) (args : DownloaderArgs) :
    Pool Shared Worker :=
  if missingSlices ranges args.start (args.targetEnd fileSize) = [] then poolInit [] ranges 0
  else poolInit (missingSlices ranges args.start (args.targetEnd fileSize)) ranges
    (max args.maxParallelStreams 1)

/-- The chunk a worker answers for. -/
def Worker.held : Worker → List (Nat × Nat)
  | .trying c _ => [c]
  | .body c _ _ => [c]
  | .splitting c _ => [c]
  | .stopped c _ => [c]
  | .top => []
  | .growing => []
  | .exited => []

/-- All chunks the pool answers for: queued, in flight (those of stopped workers included) and
    finished. -/
def allChunks (p : Pool Shared Worker) : List (Nat × Nat) :=
  p.shared.queue ++ p.tasks.flatMap Worker.held ++ p.shared.finished

/-! ## What a step can do -/

/-- Every move of a worker. -/
inductive Move (base : Nat) (g : Shared) : Worker → Act → Shared → Worker → Prop where
  | popEmpty : g.queue = [] → Move base g .top .pop g .exited
  | pop (s : Nat × Nat) (q : List (Nat × Nat)) (n : Nat) : g.queue = s :: q →
      n = min (saturatingMul base g.multiplier) (s.2 - s.1) →
      Move base g .top .pop
        { g with queue := if s.1 + n < s.2 then (s.1 + n, s.2) :: q else q }
        (.trying (s.1, s.1 + n) 0)
  | cancelTop : Move base g .top .cancel g .exited
  | stop (w : Worker) (c : Nat × Nat) (a : Act) (failed : Bool) : w.held = [c] →
      (failed = false → a = .cancel) → Move base g w a g (.stopped c failed)
  | reset (w : Worker) (c : Nat × Nat) (a : Act) (retries : Nat) : w.held = [c] →
      Move base g w a { g with multiplier := 1 } (.splitting c retries)
  | heal (c : Nat × Nat) (retries : Nat) : 0 < g.healRemaining →
      Move base g (.trying c retries) (.httpError true)
        { g with healRemaining := g.healRemaining - 1 } (.trying c 0)
  | discard (c : Nat × Nat) (retries : Nat) (s r : Bool) :
      Move base g (.trying c retries) (.response s r) g (.trying c (retries + 1))
  | accept (c : Nat × Nat) (retries : Nat) (s r : Bool) :
      Move base g (.trying c retries) (.response s r) g (.body c retries c.1)
  | emptyPiece (c : Nat × Nat) (retries pos : Nat) (written : Bool) :
      Move base g (.body c retries pos) (.piece 0 written) g (.body c retries pos)
  | piece (c : Nat × Nat) (retries pos len : Nat) : 0 < len →
      Move base g (.body c retries pos) (.piece len true)
        { g with ranges := g.ranges.insert pos (pos + len) } (.body c retries (pos + len))
  | finish (c : Nat × Nat) (retries pos : Nat) :
      Move base g (.body c retries pos) .bodyEnd { g with finished := c :: g.finished } .growing
  | split (c : Nat × Nat) (retries : Nat) : c.2 - c.1 > base →
      Move base g (.splitting c retries) .split { g with queue := (c.1 + base, c.2) :: g.queue }
        (.trying (c.1, c.1 + base) retries)
  | keep (c : Nat × Nat) (retries : Nat) :
      Move base g (.splitting c retries) .split g (.trying c retries)
  | grow : Move base g .growing .grow { g with multiplier := min (g.multiplier * 2) 16 } .top

/-- A failed attempt stops the worker or resets the multiplier. -/
theorem move_of_failAttempt {base : Nat} {g g' : Shared} {w w' : Worker} {c : Nat × Nat} {a : Act}
    {retries : Nat} (hw : w.held = [c]) (h : failAttempt g c retries = (g', w')) :
    Move base g w a g' w' := by
  unfold failAttempt at h
  split at h
  · obtain ⟨rfl, rfl⟩ := Prod.mk.inj h
    exact .stop w c a true hw (fun h => absurd h (by decide))
  · obtain ⟨rfl, rfl⟩ := Prod.mk.inj h
    exact .reset w c a _ hw

/-- **The inversion of a step.** -/
theorem move_of_act {base : Nat} {g g' : Shared} {w w' : Worker} {a : Act}
    (h : w.act base g a = some (g', w')) : Move base g w a g' w' := by
  cases w with
  | top =>
    cases a with
    | pop =>
      cases hq : g.queue with
      | nil =>
        simp only [Worker.act, hq, Option.some.injEq, Prod.mk.injEq] at h
        obtain ⟨rfl, rfl⟩ := h
        exact .popEmpty hq
      | cons s q =>
        simp only [Worker.act, hq, Option.some.injEq, Prod.mk.injEq] at h
        obtain ⟨rfl, rfl⟩ := h
        exact .pop s q _ hq rfl
    | cancel =>
      simp only [Worker.act, Option.some.injEq, Prod.mk.injEq] at h
      obtain ⟨rfl, rfl⟩ := h
      exact .cancelTop
    | semaphoreClosed | headerTimeout | httpError | response | piece | bodyEnd | bodyError | split
    | grow => exact absurd h (by simp [Worker.act])
  | trying c retries =>
    cases a with
    | cancel =>
      simp only [Worker.act, Option.some.injEq, Prod.mk.injEq] at h
      obtain ⟨rfl, rfl⟩ := h
      exact .stop _ c _ false rfl (fun _ => rfl)
    | semaphoreClosed =>
      simp only [Worker.act, Option.some.injEq, Prod.mk.injEq] at h
      obtain ⟨rfl, rfl⟩ := h
      exact .stop _ c _ true rfl (fun h => absurd h (by decide))
    | headerTimeout => exact move_of_failAttempt rfl (by simpa [Worker.act] using h)
    | httpError healed =>
      cases healed with
      | true =>
        simp only [Worker.act, if_true] at h
        split at h
        · rename_i hpos
          simp only [Option.some.injEq, Prod.mk.injEq] at h
          obtain ⟨rfl, rfl⟩ := h
          exact .heal c retries hpos
        · exact absurd h (by simp)
      | false => exact move_of_failAttempt rfl (by simpa [Worker.act] using h)
    | response s r =>
      simp only [Worker.act] at h
      split at h
      · split at h
        · simp only [Option.some.injEq, Prod.mk.injEq] at h
          obtain ⟨rfl, rfl⟩ := h
          exact .stop _ c _ true rfl (fun h => absurd h (by decide))
        · simp only [Option.some.injEq, Prod.mk.injEq] at h
          obtain ⟨rfl, rfl⟩ := h
          exact .discard c retries s r
      · simp only [Option.some.injEq, Prod.mk.injEq] at h
        obtain ⟨rfl, rfl⟩ := h
        exact .accept c retries s r
    | pop | piece | bodyEnd | bodyError | split | grow => exact absurd h (by simp [Worker.act])
  | body c retries pos =>
    cases a with
    | cancel =>
      simp only [Worker.act, Option.some.injEq, Prod.mk.injEq] at h
      obtain ⟨rfl, rfl⟩ := h
      exact .stop _ c _ false rfl (fun _ => rfl)
    | piece len written =>
      simp only [Worker.act] at h
      split at h
      · rename_i h0
        subst h0
        simp only [Option.some.injEq, Prod.mk.injEq] at h
        obtain ⟨rfl, rfl⟩ := h
        exact .emptyPiece c retries pos written
      · rename_i h0
        cases written with
        | true =>
          simp only [if_true, Option.some.injEq, Prod.mk.injEq] at h
          obtain ⟨rfl, rfl⟩ := h
          exact .piece c retries pos len (by omega)
        | false => exact move_of_failAttempt rfl (by simpa using h)
    | bodyEnd =>
      simp only [Worker.act, Option.some.injEq, Prod.mk.injEq] at h
      obtain ⟨rfl, rfl⟩ := h
      exact .finish c retries pos
    | bodyError => exact move_of_failAttempt rfl (by simpa [Worker.act] using h)
    | pop | semaphoreClosed | headerTimeout | httpError | response | split | grow =>
      exact absurd h (by simp [Worker.act])
  | splitting c retries =>
    cases a with
    | split =>
      simp only [Worker.act] at h
      split at h
      · rename_i hlong
        simp only [Option.some.injEq, Prod.mk.injEq] at h
        obtain ⟨rfl, rfl⟩ := h
        exact .split c retries hlong
      · simp only [Option.some.injEq, Prod.mk.injEq] at h
        obtain ⟨rfl, rfl⟩ := h
        exact .keep c retries
    | pop | cancel | semaphoreClosed | headerTimeout | httpError | response | piece | bodyEnd
    | bodyError | grow => exact absurd h (by simp [Worker.act])
  | growing =>
    cases a with
    | grow =>
      simp only [Worker.act, Option.some.injEq, Prod.mk.injEq] at h
      obtain ⟨rfl, rfl⟩ := h
      exact .grow
    | pop | cancel | semaphoreClosed | headerTimeout | httpError | response | piece | bodyEnd
    | bodyError | split => exact absurd h (by simp [Worker.act])
  | exited => cases a <;> exact absurd h (by simp [Worker.act])
  | stopped c failed => cases a <;> exact absurd h (by simp [Worker.act])

/-! ## The accounting of bytes -/

/-- Spans that start no later than they end. -/
def Ordered (l : List (Nat × Nat)) : Prop := ∀ p ∈ l, p.1 ≤ p.2

/-- **A move conserves bytes**: popping cuts a slice in two, splitting cuts a chunk in two, the
    other moves hand a chunk on or leave it where it is. -/
theorem tally_move {base : Nat} {g g' : Shared} {w w' : Worker} {a : Act}
    (hq : Ordered g.queue) (h : Move base g w a g' w') (b : Nat) :
    (tally g'.queue b + tally g'.finished b) + tally w'.held b
      = (tally g.queue b + tally g.finished b) + tally w.held b := by
  cases h with
  | pop s q n hqueue hn =>
    -- the chunk and what is left of its slice, against the slice
    have hle : s.1 ≤ s.2 := hq s (by rw [hqueue]; exact List.mem_cons_self)
    have hcut := tally_cut (show s.1 ≤ s.1 + n by omega) (show s.1 + n ≤ s.2 by omega) q b
    show (tally (if s.1 + n < s.2 then (s.1 + n, s.2) :: q else q) b + _)
      + tally [(s.1, s.1 + n)] b = (tally g.queue b + _) + tally [] b
    rw [hqueue]
    rw [tally_cons (s.1, s.1 + n), tally_cons (s.1 + n, s.2), tally_cons (s.1, s.2)] at hcut
    by_cases hlt : s.1 + n < s.2
    · rw [if_pos hlt, tally_cons, tally_cons, tally_cons]
      simp only [tally_nil] at hcut ⊢
      omega
    · -- the whole slice is taken: no remainder is pushed back
      rw [if_neg hlt, tally_cons, tally_cons]
      rw [if_neg (show ¬ (s.1 + n ≤ b ∧ b < s.2) from by omega)] at hcut
      simp only [tally_nil] at hcut ⊢
      omega
  | stop w c a failed hw _ => rw [hw]; rfl
  | reset w c a retries hw => rw [hw]; rfl
  | finish c retries pos =>
    show (tally g.queue b + tally (c :: g.finished) b) + tally [] b
      = (tally g.queue b + tally g.finished b) + tally [c] b
    rw [tally_cons, tally_cons]
    simp only [tally_nil]
    omega
  | split c retries hlong =>
    have hcut := tally_cut (show c.1 ≤ c.1 + base by omega) (show c.1 + base ≤ c.2 by omega)
      g.queue b
    show (tally ((c.1 + base, c.2) :: g.queue) b + _) + tally [(c.1, c.1 + base)] b
      = (tally g.queue b + _) + tally [c] b
    rw [tally_cons (c.1, c.1 + base), tally_cons (c.1 + base, c.2), tally_cons (c.1, c.2)] at hcut
    rw [tally_cons, tally_cons, tally_cons]
    simp only [tally_nil] at hcut ⊢
    omega
  | popEmpty _ => rfl
  | cancelTop => rfl
  | heal c retries _ => rfl
  | discard c retries s r => rfl
  | accept c retries s r => rfl
  | emptyPiece c retries pos written => rfl
  | piece c retries pos len _ => rfl
  | keep c retries => rfl
  | grow => rfl

/-- The queue stays ordered: what is pushed is the rest of something longer. -/
theorem ordered_move {base : Nat} {g g' : Shared} {w w' : Worker} {a : Act}
    (hq : Ordered g.queue) (h : Move base g w a g' w') : Ordered g'.queue := by
  cases h with
  | pop s q n hqueue hn =>
    rw [hqueue] at hq
    show Ordered (if s.1 + n < s.2 then (s.1 + n, s.2) :: q else q)
    intro p hp
    split at hp
    · rename_i hlt
      rcases List.mem_cons.mp hp with rfl | hp
      · exact Nat.le_of_lt hlt
      · exact hq p (List.mem_cons_of_mem s hp)
    · exact hq p (List.mem_cons_of_mem s hp)
  | split c retries hlong =>
    intro p hp
    rcases List.mem_cons.mp hp with rfl | hp
    · show c.1 + base ≤ c.2
      omega
    · exact hq p hp
  | popEmpty _ => exact hq
  | cancelTop => exact hq
  | stop w c a failed _ _ => exact hq
  | reset w c a retries _ => exact hq
  | heal c retries _ => exact hq
  | discard c retries s r => exact hq
  | accept c retries s r => exact hq
  | emptyPiece c retries pos written => exact hq
  | piece c retries pos len _ => exact hq
  | finish c retries pos => exact hq
  | keep c retries => exact hq
  | grow => exact hq

/-- The count of all chunks of the pool, spread over the shared state and the workers. -/
theorem tally_allChunks (p : Pool Shared Worker) (b : Nat) :
    tally (allChunks p) b = (tally p.shared.queue b + tally p.shared.finished b)
      + (p.tasks.map fun w => tally w.held b).sum := by
  rw [allChunks, tally_append, tally_append, tally_flatMap]
  omega

/-- The pool answers for the bytes of `init`, each as often as `init` does. -/
def Accounts (init : List (Nat × Nat)) (p : Pool Shared Worker) : Prop :=
  Ordered p.shared.queue ∧ ∀ b, tally (allChunks p) b = tally init b

theorem accounts_step {base : Nat} {init : List (Nat × Nat)} {p q : Pool Shared Worker}
    {e : Nat × Act} (hp : Accounts init p) (h : Pool.step (Worker.act base) p e = some q) :
    Accounts init q := by
  obtain ⟨hord, htally⟩ := hp
  refine ⟨?_, fun b => ?_⟩
  · obtain ⟨xs, w, ys, g', w', -, -, hact, rfl⟩ := Pool.step_cases h
    exact ordered_move hord (move_of_act hact)
  · have hsum := Pool.sum_step (w := fun g => tally g.queue b + tally g.finished b)
      (v := fun w => tally w.held b)
      (fun w _ g' w' hact => tally_move hord (move_of_act hact) b) h
    rw [tally_allChunks, hsum, ← tally_allChunks, htally b]

theorem accounts_poolInit {slices : List (Nat × Nat)} (h : Ordered slices) (ranges : ByteRanges)
    (workers : Nat) : Accounts slices (poolInit slices ranges workers) := by
  refine ⟨h, fun b => ?_⟩
  have hheld : (List.replicate workers Worker.top).flatMap Worker.held = [] := by
    rw [List.flatMap_eq_nil_iff]
    intro w hw
    rw [(List.mem_replicate.mp hw).2]
    rfl
  rw [allChunks, poolInit, hheld, List.append_nil, List.append_nil]

/-! ## Chunks are non-empty and the multiplier is a power of two -/

/-- The shared half: non-empty queue and finished chunks, a multiplier in 1, 2, 4, 8, 16. -/
def ChunksOk (g : Shared) : Prop :=
  (∀ p ∈ g.queue, p.1 < p.2) ∧ (∀ p ∈ g.finished, p.1 < p.2) ∧
    ∃ k, k ≤ 4 ∧ g.multiplier = 2 ^ k

theorem saturatingMul_pos {a b : Nat} (ha : 1 ≤ a) (hb : 1 ≤ b) : 1 ≤ saturatingMul a b := by
  have := Nat.mul_le_mul ha hb
  unfold saturatingMul
  omega

theorem doubled_power {m k : Nat} (hk : k ≤ 4) (hm : m = 2 ^ k) :
    ∃ j, j ≤ 4 ∧ min (m * 2) 16 = 2 ^ j := by
  subst hm
  rcases Nat.lt_or_ge k 4 with h | h
  · refine ⟨k + 1, h, ?_⟩
    have := Nat.pow_le_pow_right (show 1 ≤ 2 by decide) (show k + 1 ≤ 4 by omega)
    rw [Nat.pow_succ] at this ⊢
    omega
  · obtain rfl : k = 4 := by omega
    exact ⟨4, Nat.le_refl 4, by decide⟩

theorem chunksOk_move {base : Nat} (hbase : 1 ≤ base) {g g' : Shared} {w w' : Worker} {a : Act}
    (hg : ChunksOk g) (hw : ∀ c ∈ w.held, c.1 < c.2) (h : Move base g w a g' w') :
    ChunksOk g' ∧ ∀ c ∈ w'.held, c.1 < c.2 := by
  obtain ⟨hq, hf, k, hk, hm⟩ := hg
  have hone : ∀ {c : Nat × Nat}, c.1 < c.2 → ∀ d ∈ [c], d.1 < d.2 := by
    intro c hc d hd
    rw [List.mem_singleton.mp hd]
    exact hc
  cases h with
  | popEmpty _ => exact ⟨⟨hq, hf, k, hk, hm⟩, fun c hc => absurd hc List.not_mem_nil⟩
  | pop s q n hqueue hn =>
    have hs : s.1 < s.2 := hq s (by rw [hqueue]; exact List.mem_cons_self)
    have hpos : 1 ≤ saturatingMul base g.multiplier :=
      saturatingMul_pos hbase (by rw [hm]; exact Nat.one_le_two_pow)
    rw [hqueue] at hq
    refine ⟨⟨fun p hp => ?_, hf, k, hk, hm⟩, hone (show s.1 < s.1 + n by omega)⟩
    change p ∈ (if s.1 + n < s.2 then (s.1 + n, s.2) :: q else q) at hp
    split at hp
    · rename_i hlt
      rcases List.mem_cons.mp hp with rfl | hp
      · exact hlt
      · exact hq p (List.mem_cons_of_mem s hp)
    · exact hq p (List.mem_cons_of_mem s hp)
  | cancelTop => exact ⟨⟨hq, hf, k, hk, hm⟩, fun c hc => absurd hc List.not_mem_nil⟩
  | stop w c a failed hheld _ =>
    exact ⟨⟨hq, hf, k, hk, hm⟩, hone (hw c (by rw [hheld]; exact List.mem_singleton.mpr rfl))⟩
  | reset w c a retries hheld =>
    exact ⟨⟨hq, hf, 0, Nat.zero_le 4, rfl⟩,
      hone (hw c (by rw [hheld]; exact List.mem_singleton.mpr rfl))⟩
  | heal c retries _ => exact ⟨⟨hq, hf, k, hk, hm⟩, hw⟩
  | discard c retries s r => exact ⟨⟨hq, hf, k, hk, hm⟩, hw⟩
  | accept c retries s r => exact ⟨⟨hq, hf, k, hk, hm⟩, hw⟩
  | emptyPiece c retries pos written => exact ⟨⟨hq, hf, k, hk, hm⟩, hw⟩
  | piece c retries pos len _ => exact ⟨⟨hq, hf, k, hk, hm⟩, hw⟩
  | finish c retries pos =>
    refine ⟨⟨hq, fun p hp => ?_, k, hk, hm⟩, fun c hc => absurd hc List.not_mem_nil⟩
    rcases List.mem_cons.mp hp with rfl | hp
    · exact hw _ (List.mem_singleton.mpr rfl)
    · exact hf p hp
  | split c retries hlong =>
    refine ⟨⟨fun p hp => ?_, hf, k, hk, hm⟩, hone (show c.1 < c.1 + base by omega)⟩
    rcases List.mem_cons.mp hp with rfl | hp
    · show c.1 + base < c.2
      omega
    · exact hq p hp
  | keep c retries => exact ⟨⟨hq, hf, k, hk, hm⟩, hw⟩
  | grow =>
    exact ⟨⟨hq, hf, doubled_power hk hm⟩, fun c hc => absurd hc List.not_mem_nil⟩

/-- **The chunk queue neither loses nor duplicates bytes.**  In every interleaving of any number of
    workers the queued, in-flight and finished chunks are non-empty and pairwise disjoint, their
    union is the set of initially missing bytes, and the multiplier is a power of two between 1 and
    16. -/
theorem chunk_queue_partitions_missing (base : Nat) (hbase : 1 ≤ base)
    (slices : List (Nat × Nat)) (hne : ∀ s ∈ slices, s.1 < s.2)
    (hdisj : slices.Pairwise fun s t => Disjoint (Set.Ico s.1 s.2) (Set.Ico t.1 t.2))
    (ranges : ByteRanges) (workers : Nat) (es : List (Nat × Act)) (p : Pool Shared Worker)
    (h : run (Pool.step (Worker.act base)) (poolInit slices ranges workers) es = some p) :
    (∀ c ∈ allChunks p, c.1 < c.2) ∧
    (allChunks p).Pairwise (fun c d => Disjoint (Set.Ico c.1 c.2) (Set.Ico d.1 d.2)) ∧
    cover (allChunks p) = cover slices ∧
    ∃ k, k ≤ 4 ∧ p.shared.multiplier = 2 ^ k := by
  have hacc : Accounts slices p :=
    run_inv' (fun q e t hq ht => accounts_step hq ht) es _ p
      (accounts_poolInit (fun s hs => Nat.le_of_lt (hne s hs)) ranges workers) h
  have hok : ChunksOk p.shared ∧ ∀ w ∈ p.tasks, ∀ c ∈ w.held, c.1 < c.2 := by
    refine run_inv' (I := fun q : Pool Shared Worker =>
        ChunksOk q.shared ∧ ∀ w ∈ q.tasks, ∀ c ∈ w.held, c.1 < c.2)
      (fun q e t hq ht => Pool.inv_step (I := ChunksOk)
        (J := fun (_ : Shared) (w : Worker) => ∀ c ∈ w.held, c.1 < c.2)
        (fun g w a g' w' hg hw ha => chunksOk_move hbase hg hw (move_of_act ha))
        (fun g w a g' w' v _ _ hv _ => hv) hq ht)
      es _ p ⟨⟨hne, fun s hs => absurd hs List.not_mem_nil, 0, Nat.zero_le 4, rfl⟩, ?_⟩ h
    intro w hw c hc
    rw [(List.mem_replicate.mp hw).2] at hc
    exact absurd hc List.not_mem_nil
  obtain ⟨⟨hq, hf, hmult⟩, hheld⟩ := hok
  refine ⟨fun c hc => ?_, ?_, ?_, hmult⟩
  · rcases List.mem_append.mp hc with hc | hc
    · rcases List.mem_append.mp hc with hc | hc
      · exact hq c hc
      · obtain ⟨w, hw, hcw⟩ := List.mem_flatMap.mp hc
        exact hheld w hw c hcw
    · exact hf c hc
  · -- disjoint is: no byte is counted twice, and the counts are those of the start
    rw [pairwise_disjoint_iff_tally] at hdisj ⊢
    intro b
    rw [hacc.2 b]
    exact hdisj b
  · ext b
    rw [← tally_pos, ← tally_pos, hacc.2 b]

/-- Two workers on one slice of ten bytes, chunks of four: the first finishes a chunk and grows the
    multiplier, the second fails on an eight-byte chunk's headers and hands the tail back. -/
def growThenSplit : List (Nat × Act) :=
  [(0, .pop), (0, .response false true), (0, .piece 4 true), (0, .bodyEnd), (0, .grow),
    (1, .pop), (1, .headerTimeout), (1, .split)]

/-- Where they are then: one chunk in the queue, one in flight, one finished. -/
def grownThenSplit : Pool Shared Worker :=
  ⟨⟨[(8, 10)], 1, 3, ByteRanges.new.insert 0 4, [(0, 4)]⟩, [.top, .trying (4, 8) 1]⟩

theorem chunk_queue_partitions_missing_split :
    run (Pool.step (Worker.act 4)) (poolInit [(0, 10)] ByteRanges.new 2) growThenSplit =
      some grownThenSplit ∧
    allChunks grownThenSplit = [(8, 10), (4, 8), (0, 4)] ∧
    (∀ c ∈ allChunks grownThenSplit, c.1 < c.2) ∧
    (allChunks grownThenSplit).Pairwise (fun c d => Disjoint (Set.Ico c.1 c.2) (Set.Ico d.1 d.2)) ∧
    cover (allChunks grownThenSplit) = cover [(0, 10)] ∧
    ∃ k, k ≤ 4 ∧ grownThenSplit.shared.multiplier = 2 ^ k :=
  ⟨rfl, rfl, chunk_queue_partitions_missing 4 (by decide) [(0, 10)] (by decide)
    (List.pairwise_singleton _ _) ByteRanges.new 2 growThenSplit grownThenSplit rfl⟩

/-! ## What a finished chunk leaves in the cache -/

/-- A step marks offsets of the worker's own chunk only, and every finished chunk is cached. -/
def ExactMove (g : Shared) (w : Worker) (g' : Shared) : Prop :=
  g'.ranges.bytes ⊆ g.ranges.bytes ∪ cover w.held ∧ cover g'.finished ⊆ g'.ranges.bytes

/-- The body keeps to the request: a piece runs past the requested end, and the stream ends before
    it, only over offsets that are already present. -/
def Worker.BodyFits (g : Shared) : Worker → Act → Prop
  | .body c _ pos, .piece len true => Set.Ico (max pos c.2) (pos + len) ⊆ g.ranges.bytes
  | .body c _ pos, .bodyEnd => Set.Ico pos c.2 ⊆ g.ranges.bytes
  | _, _ => True

/-- In the body loop everything up to `current_pos` is present. -/
def Worker.BodySound (g : Shared) : Worker → Prop
  | .body c _ pos => c.1 ≤ pos ∧ Set.Ico c.1 pos ⊆ g.ranges.bytes
  | _ => True

/-- Nothing is ever unmarked. -/
theorem bytes_move {base : Nat} {g g' : Shared} {w w' : Worker} {a : Act}
    (h : Move base g w a g' w') : g.ranges.bytes ⊆ g'.ranges.bytes := by
  cases h with
  | piece c retries pos len hlen =>
    show g.ranges.bytes ⊆ (g.ranges.insert pos (pos + len)).bytes
    rw [ByteRanges.bytes_insert]
    exact Set.subset_union_left
  | popEmpty _ | pop _ _ _ _ _ | cancelTop | stop _ _ _ _ _ _ | reset _ _ _ _ _ | heal _ _ _
  | discard _ _ _ _ | accept _ _ _ _ | emptyPiece _ _ _ _ | finish _ _ _ | split _ _ _ | keep _ _
  | grow => exact Set.Subset.rfl

theorem bodySound_mono {g g' : Shared} (hg : g.ranges.bytes ⊆ g'.ranges.bytes) :
    ∀ {w : Worker}, w.BodySound g → w.BodySound g'
  | .body _ _ _, h => ⟨h.1, h.2.trans hg⟩
  | .top, _ | .trying _ _, _ | .splitting _ _, _ | .growing, _ | .exited, _ | .stopped _ _, _ =>
    trivial

theorem bodySound_move {base : Nat} {g g' : Shared} {w w' : Worker} {a : Act}
    (hw : w.BodySound g) (h : Move base g w a g' w') : w'.BodySound g' := by
  cases h with
  | accept c retries s r =>
    refine ⟨Nat.le_refl _, ?_⟩
    rw [Set.Ico_self]
    exact Set.empty_subset _
  | emptyPiece c retries pos written => exact hw
  | piece c retries pos len hlen =>
    obtain ⟨hpos, hsub⟩ := hw
    refine ⟨by omega, ?_⟩
    show Set.Ico c.1 (pos + len) ⊆ (g.ranges.insert pos (pos + len)).bytes
    rw [ByteRanges.bytes_insert, ← Set.Ico_union_Ico_eq_Ico hpos (Nat.le_add_right pos len)]
    exact Set.union_subset_union_left _ hsub
  | popEmpty _ | pop _ _ _ _ _ | cancelTop | stop _ _ _ _ _ _ | reset _ _ _ _ _ | heal _ _ _
  | discard _ _ _ _ | finish _ _ _ | split _ _ _ | keep _ _ | grow => trivial

/-- **One step is exact iff the body fits there.** -/
theorem exact_iff_bodyFits {base : Nat} {g : Shared} {w : Worker} {a : Act}
    (hw : w.BodySound g) (hfin : cover g.finished ⊆ g.ranges.bytes) :
    (∀ g' w', w.act base g a = some (g', w') → ExactMove g w g') ↔ w.BodyFits g a := by
  constructor
  · intro h
    -- only a written piece and the end of the stream are constrained
    match w, a with
    | .body c retries pos, .piece len true =>
      intro b hb
      have hlen : len ≠ 0 := by
        rintro rfl
        have := hb.1
        have := hb.2
        omega
      have hact : Worker.act base g (.body c retries pos) (.piece len true)
          = some ({ g with ranges := g.ranges.insert pos (pos + len) },
              .body c retries (pos + len)) := by
        simp [Worker.act, hlen]
      have hex := (h _ _ hact).1
      have hmem : b ∈ (g.ranges.insert pos (pos + len)).bytes := by
        rw [ByteRanges.bytes_insert]
        exact Or.inr ⟨Nat.le_trans (Nat.le_max_left _ _) hb.1, hb.2⟩
      rcases hex hmem with hb' | ⟨d, hd, hbd⟩
      · exact hb'
      · rw [List.mem_singleton.mp hd] at hbd
        have := hb.1
        omega
    | .body c retries pos, .bodyEnd =>
      have hex := (h _ _ rfl).2
      intro b hb
      exact hex ⟨c, List.mem_cons_self, Nat.le_trans hw.1 hb.1, hb.2⟩
    | .body _ _ _, .piece _ false | .body _ _ _, .pop | .body _ _ _, .cancel
    | .body _ _ _, .semaphoreClosed | .body _ _ _, .headerTimeout | .body _ _ _, .httpError _
    | .body _ _ _, .response _ _ | .body _ _ _, .bodyError | .body _ _ _, .split
    | .body _ _ _, .grow | .top, _ | .trying _ _, _ | .splitting _ _, _ | .growing, _ | .exited, _
    | .stopped _ _, _ => trivial
  · intro hfit g' w' hact
    have hmove := move_of_act hact
    clear hact
    have hsame : ExactMove g w g := ⟨Set.subset_union_left, hfin⟩
    cases hmove with
    | piece c retries pos len hlen =>
      obtain ⟨hpos, hsub⟩ := hw
      refine ⟨?_, ?_⟩
      · show (g.ranges.insert pos (pos + len)).bytes ⊆ _
        rw [ByteRanges.bytes_insert]
        refine Set.union_subset Set.subset_union_left ?_
        intro b hb
        rcases Nat.lt_or_ge b c.2 with hbc | hbc
        · exact Or.inr ⟨c, List.mem_singleton.mpr rfl, Nat.le_trans hpos hb.1, hbc⟩
        · exact Or.inl (hfit ⟨Nat.max_le.mpr ⟨hb.1, hbc⟩, hb.2⟩)
      · show cover g.finished ⊆ (g.ranges.insert pos (pos + len)).bytes
        rw [ByteRanges.bytes_insert]
        exact hfin.trans Set.subset_union_left
    | finish c retries pos =>
      refine ⟨Set.subset_union_left, ?_⟩
      show cover (c :: g.finished) ⊆ g.ranges.bytes
      rw [cover_cons]
      refine Set.union_subset (fun b hb => ?_) hfin
      rcases Nat.lt_or_ge b pos with hbp | hbp
      · exact hw.2 ⟨hb.1, hbp⟩
      · exact hfit ⟨hbp, hb.2⟩
    | popEmpty _ | pop _ _ _ _ _ | cancelTop | stop _ _ _ _ _ _ | reset _ _ _ _ _ | heal _ _ _
    | discard _ _ _ _ | accept _ _ _ _ | emptyPiece _ _ _ _ | split _ _ _ | keep _ _ | grow =>
      exact hsame

/-! ## What a successful run leaves in the cache -/

/-- Whatever the named worker does next is exact. -/
def ChunkExact (base : Nat) (p : Pool Shared Worker) (e : Nat × Act) : Prop :=
  ∀ w, p.tasks[e.1]? = some w →
    ∀ g' w', w.act base p.shared e.2 = some (g', w') → ExactMove p.shared w g'

/-- The body the named worker is receiving keeps to its request. -/
def BodyFits (p : Pool Shared Worker) (e : Nat × Act) : Prop :=
  ∀ w, p.tasks[e.1]? = some w → w.BodyFits p.shared e.2

/-- The worker's task returned `Ok`. -/
def Worker.returnedOk : Worker → Bool
  | .exited => true
  | .stopped _ failed => !failed
  | _ => false


/-- What holds along a run without cancellation whose bodies fit.  The queue may fill up again after
    a worker has left, but not after ALL have. -/
structure Covering (slices : List (Nat × Nat)) (before : ByteRanges) (p : Pool Shared Worker) :
    Prop where
  accounts : Accounts slices p
  kept : before.bytes ⊆ p.shared.ranges.bytes
  cached : cover p.shared.finished ⊆ p.shared.ranges.bytes
  sound : ∀ w ∈ p.tasks, w.BodySound p.shared
  uncancelled : ∀ w ∈ p.tasks, ∀ c, w ≠ .stopped c false
  drained : (∀ w ∈ p.tasks, w = .exited) → p.shared.queue = []

theorem sound_step {base : Nat} {p q : Pool Shared Worker} {e : Nat × Act}
    (hp : ∀ w ∈ p.tasks, w.BodySound p.shared) (h : Pool.step (Worker.act base) p e = some q) :
    ∀ w ∈ q.tasks, w.BodySound q.shared :=
  (Pool.inv_step (I := fun (_ : Shared) => True) (J := fun g w => Worker.BodySound g w)
    (fun g w a g' w' _ hw ha => ⟨trivial, bodySound_move hw (move_of_act ha)⟩)
    (fun g w a g' w' v _ _ hv ha => bodySound_mono (bytes_move (move_of_act ha)) hv)
    ⟨trivial, hp⟩ h).2

/-- The step of the named worker, when the pool takes one. -/
theorem exact_step {base : Nat} {p q : Pool Shared Worker} {e : Nat × Act}
    (hex : ChunkExact base p e) (h : Pool.step (Worker.act base) p e = some q) :
    ∃ w, ExactMove p.shared w q.shared := by
  obtain ⟨xs, w, ys, g', w', htasks, hlen, hact, rfl⟩ := Pool.step_cases h
  refine ⟨w, hex w ?_ g' w' hact⟩
  rw [htasks, ← hlen, List.getElem?_append_right (Nat.le_refl _), Nat.sub_self]
  rfl

/-- A worker returns `Ok` with a chunk in hand on cancellation only. -/
theorem cancel_of_stopped {base : Nat} {g g' : Shared} {w : Worker} {a : Act} {c : Nat × Nat}
    (h : Move base g w a g' (.stopped c false)) : a = .cancel := by
  cases h with
  | stop w c a failed _ hf => exact hf rfl

/-- A worker leaves its loop on an empty queue or on cancellation. -/
theorem drained_of_exited {base : Nat} {g g' : Shared} {w : Worker} {a : Act}
    (h : Move base g w a g' .exited) : g'.queue = [] ∨ a = .cancel := by
  cases h with
  | popEmpty hq => exact Or.inl hq
  | cancelTop => exact Or.inr rfl

theorem covering_step {base : Nat} {slices : List (Nat × Nat)} {before : ByteRanges}
    {p q : Pool Shared Worker} {e : Nat × Act} (hp : Covering slices before p)
    (hex : ChunkExact base p e) (hcancel : e.2 ≠ .cancel)
    (h : Pool.step (Worker.act base) p e = some q) : Covering slices before q := by
  obtain ⟨-, -, hcached⟩ := exact_step hex h
  refine ⟨accounts_step hp.accounts h, ?_, hcached, sound_step hp.sound h, ?_, ?_⟩
  · obtain ⟨xs, w, ys, g', w', -, -, hact, rfl⟩ := Pool.step_cases h
    exact hp.kept.trans (bytes_move (move_of_act hact))
  · obtain ⟨xs, w, ys, g', w', htasks, -, hact, rfl⟩ := Pool.step_cases h
    intro v hv c
    rcases List.mem_append.mp hv with hv | hv
    · exact hp.uncancelled v (by rw [htasks]; simp [hv]) c
    · rcases List.mem_cons.mp hv with rfl | hv
      · rintro rfl
        exact hcancel (cancel_of_stopped (move_of_act hact))
      · exact hp.uncancelled v (by rw [htasks]; simp [hv]) c
  · obtain ⟨xs, w, ys, g', w', htasks, -, hact, rfl⟩ := Pool.step_cases h
    intro hall
    obtain rfl : w' = .exited := hall w' (by simp)
    exact (drained_of_exited (move_of_act hact)).resolve_right hcancel

theorem covering_poolInit {slices : List (Nat × Nat)} (hs : Ordered slices) (ranges : ByteRanges)
    {workers : Nat} (hw : workers = 0 → slices = []) :
    Covering slices ranges (poolInit slices ranges workers) := by
  have htop : ∀ w ∈ (poolInit slices ranges workers).tasks, w = .top := fun w hw =>
    (List.mem_replicate.mp hw).2
  refine ⟨accounts_poolInit hs ranges workers, Set.Subset.rfl, ?_, ?_, ?_, ?_⟩
  · show cover ([] : List (Nat × Nat)) ⊆ ranges.bytes
    rw [cover_nil]
    exact Set.empty_subset _
  · intro w hw
    rw [htop w hw]
    trivial
  · intro w hw c
    rw [htop w hw]
    exact Worker.noConfusion
  · intro hall
    cases workers with
    | zero => exact hw rfl
    | succ n => exact absurd (hall .top List.mem_cons_self) (by decide)

theorem covering_downloaderInit (ranges : ByteRanges) (fileSize : Nat) (args : DownloaderArgs) :
    Covering (missingSlices ranges args.start (args.targetEnd fileSize)) ranges
      (downloaderInit ranges fileSize args) := by
  have hsep := missingSlices_separated ranges args.start (args.targetEnd fileSize)
  unfold downloaderInit
  split
  · rename_i hnil
    rw [hnil]
    exact covering_poolInit (fun s hs => absurd hs List.not_mem_nil) ranges (fun _ => rfl)
  · refine covering_poolInit (fun s hs => Nat.le_of_lt (hsep.lt s hs)) ranges (fun h0 => ?_)
    omega

/-- When every worker has returned `Ok`, the window is cached. -/
theorem Covering.window {r : ByteRanges} {start targetEnd : Nat} {p : Pool Shared Worker}
    (hp : Covering (missingSlices r start targetEnd) r p)
    (hok : ∀ w ∈ p.tasks, w.returnedOk = true) :
    Set.Ico start targetEnd ⊆ p.shared.ranges.bytes := by
  have hexit : ∀ w ∈ p.tasks, w = .exited := by
    intro w hw
    have h1 := hok w hw
    have h2 := hp.uncancelled w hw
    cases w with
    | exited => rfl
    | stopped c failed =>
      cases failed with
      | true => exact absurd h1 Bool.noConfusion
      | false => exact absurd rfl (h2 c)
    | top | trying _ _ | body _ _ _ | splitting _ _ | growing => exact absurd h1 Bool.noConfusion
  have hheld : p.tasks.flatMap Worker.held = [] := by
    rw [List.flatMap_eq_nil_iff]
    intro w hw
    rw [hexit w hw]
    rfl
  have hall : allChunks p = p.shared.finished := by
    rw [allChunks, hp.drained hexit, hheld]
    rfl
  intro b hb
  by_cases hbr : b ∈ r.bytes
  · exact hp.kept hbr
  · have hmiss : b ∈ cover (missingSlices r start targetEnd) := by
      rw [cover_missingSlices]
      exact ⟨hb, hbr⟩
    rw [← tally_pos, ← hp.accounts.2 b, tally_pos, hall] at hmiss
    exact hp.cached hmiss

/-- **Finished chunks are cached, and nothing outside them is marked, exactly when the bodies have
    the requested length.**  Nothing in the program compares the received length with the request,
    so both parts rest on the server: along every run of the downloader each step is exact iff each
    body fits, and then `Ok` without cancellation means that the whole window is present, which is
    the window that is asked for if its end does not wrap. -/
theorem chunks_exact_iff_bodies_fit (ranges : ByteRanges) (fileSize : Nat) (args : DownloaderArgs)
    (es : List (Nat × Act)) (p : Pool Shared Worker)
    (h : run (Pool.step (Worker.act args.baseChunk)) (downloaderInit ranges fileSize args) es
      = some p) :
    (Along (Pool.step (Worker.act args.baseChunk)) (ChunkExact args.baseChunk)
        (downloaderInit ranges fileSize args) es ↔
      Along (Pool.step (Worker.act args.baseChunk)) BodyFits
        (downloaderInit ranges fileSize args) es) ∧
    (Along (Pool.step (Worker.act args.baseChunk)) BodyFits
        (downloaderInit ranges fileSize args) es →
      (∀ e ∈ es, e.2 ≠ .cancel) → (∀ w ∈ p.tasks, w.returnedOk = true) →
      Set.Ico args.start (args.targetEnd fileSize) ⊆ p.shared.ranges.bytes ∧
      (args.end_ + args.readAhead < 2 ^ 64 →
        Set.Ico args.start (args.wantedEnd fileSize) ⊆ p.shared.ranges.bytes)) := by
  have hinit := covering_downloaderInit ranges fileSize args
  have hiff : Along (Pool.step (Worker.act args.baseChunk)) (ChunkExact args.baseChunk)
      (downloaderInit ranges fileSize args) es ↔
      Along (Pool.step (Worker.act args.baseChunk)) BodyFits
        (downloaderInit ranges fileSize args) es := by
    refine along_congr (I := fun q : Pool Shared Worker =>
        (∀ w ∈ q.tasks, w.BodySound q.shared) ∧ cover q.shared.finished ⊆ q.shared.ranges.bytes)
      (fun q e t hq hex ht => ?_) (fun q e hq => ?_) es _ ⟨hinit.sound, hinit.cached⟩
    · obtain ⟨-, -, hcached⟩ := exact_step hex ht
      exact ⟨sound_step hq.1 ht, hcached⟩
    · exact forall_congr' fun w => forall_congr' fun hw =>
        exact_iff_bodyFits (hq.1 w (List.mem_of_getElem? hw)) hq.2
  refine ⟨hiff, fun hfit hcancel hok => ?_⟩
  have hcov : Covering (missingSlices ranges args.start (args.targetEnd fileSize)) ranges p :=
    run_inv (C := fun q e => ChunkExact args.baseChunk q e ∧ e.2 ≠ .cancel)
      (fun q e t hq hC ht => covering_step hq hC.1 hC.2 ht) es _ p hinit
      (Along.and es _ (hiff.mpr hfit) (along_of_forall_mem es _ hcancel)) h
  have hwindow := hcov.window hok
  exact ⟨hwindow, fun hfits => DownloaderArgs.targetEnd_eq hfits fileSize ▸ hwindow⟩

/-- A ten-byte window in one chunk. -/
def tenBytes : DownloaderArgs := ⟨0, 10, 10, 0, 1⟩

/-- The requested ten bytes in two pieces, after one header timeout. -/
theorem chunks_exact_iff_bodies_fit_tenBytes :
    Set.Ico 0 10 ⊆ ((ByteRanges.new.insert 0 4).insert 4 10).bytes := by
  refine ((chunks_exact_iff_bodies_fit ByteRanges.new 10 tenBytes
    [(0, .pop), (0, .headerTimeout), (0, .split), (0, .response false true), (0, .piece 4 true),
      (0, .piece 6 true), (0, .bodyEnd), (0, .grow), (0, .pop)]
    ⟨⟨[], 2, 3, (ByteRanges.new.insert 0 4).insert 4 10, [(0, 10)]⟩, [.exited]⟩ rfl).2
    ?_ (by decide) (by decide)).2 (by decide)
  have hno : ∀ (q : Pool Shared Worker) (w : Worker) (a : Act), q.tasks = [w] →
      w.BodyFits q.shared a → BodyFits q (0, a) := by
    intro q w a hq hw v hv
    rw [hq] at hv
    obtain rfl := Option.some.inj hv
    exact hw
  have hnil : ∀ {a b : Nat} {s : Set Nat}, b ≤ a → Set.Ico a b ⊆ s := by
    intro a b s hab
    rw [Set.Ico_eq_empty (by omega)]
    exact Set.empty_subset s
  refine (along_cons rfl).mpr ⟨hno _ _ _ rfl trivial, ?_⟩
  refine (along_cons rfl).mpr ⟨hno _ _ _ rfl trivial, ?_⟩
  refine (along_cons rfl).mpr ⟨hno _ _ _ rfl trivial, ?_⟩
  refine (along_cons rfl).mpr ⟨hno _ _ _ rfl trivial, ?_⟩
  refine (along_cons rfl).mpr ⟨hno _ _ _ rfl (hnil (by decide)), ?_⟩
  refine (along_cons rfl).mpr ⟨hno _ _ _ rfl (hnil (by decide)), ?_⟩
  refine (along_cons rfl).mpr ⟨hno _ _ _ rfl (hnil (by decide)), ?_⟩
  refine (along_cons rfl).mpr ⟨hno _ _ _ rfl trivial, ?_⟩
  exact (along_cons rfl).mpr ⟨hno _ _ _ rfl trivial, trivial⟩

/-- Ten bytes and a read-ahead of `u64::MAX`: the window ends at 9. -/
def tenBytesAndAll : DownloaderArgs := ⟨0, 10, 10, 2 ^ 64 - 1, 1⟩

/-- A body of three of the ten bytes ends cleanly: the chunk counts as finished and the downloader
    returns `Ok` with seven bytes missing.  A body of twelve bytes marks two offsets past the
    chunk.  And with the greatest read-ahead the downloader returns `Ok` without the tenth byte. -/
theorem short_and_long_bodies_count_as_success :
    (∃ p, run (Pool.step (Worker.act 10)) (downloaderInit ByteRanges.new 20 tenBytes)
        [(0, .pop), (0, .response false true), (0, .piece 3 true), (0, .bodyEnd), (0, .grow),
          (0, .pop)] = some p ∧
      (∀ w ∈ p.tasks, w.returnedOk = true) ∧ (0, 10) ∈ p.shared.finished ∧
      ¬ Set.Ico 0 (tenBytes.targetEnd 20) ⊆ p.shared.ranges.bytes) ∧
    (∃ p, run (Pool.step (Worker.act 10)) (downloaderInit ByteRanges.new 20 tenBytes)
        [(0, .pop), (0, .response false true), (0, .piece 12 true), (0, .bodyEnd), (0, .grow),
          (0, .pop)] = some p ∧
      (∀ w ∈ p.tasks, w.returnedOk = true) ∧ (0, 10) ∈ p.shared.finished ∧
      10 ∈ p.shared.ranges.bytes) ∧
    (∃ p, run (Pool.step (Worker.act 10)) (downloaderInit ByteRanges.new 20 tenBytesAndAll)
        [(0, .pop), (0, .response false true), (0, .piece 9 true), (0, .bodyEnd), (0, .grow),
          (0, .pop)] = some p ∧
      (∀ w ∈ p.tasks, w.returnedOk = true) ∧
      ¬ Set.Ico 0 (tenBytesAndAll.wantedEnd 20) ⊆ p.shared.ranges.bytes) := by
  refine ⟨⟨⟨⟨[], 2, 3, ByteRanges.new.insert 0 3, [(0, 10)]⟩, [.exited]⟩, rfl, by decide, by decide,
    ?_⟩, ⟨⟨⟨[], 2, 3, ByteRanges.new.insert 0 12, [(0, 10)]⟩, [.exited]⟩, rfl, by decide,
    by decide, ?_⟩, ⟨⟨[], 2, 3, ByteRanges.new.insert 0 9, [(0, 9)]⟩, [.exited]⟩, rfl, by decide,
    ?_⟩
  · intro hall
    have h5 := hall (show 5 ∈ Set.Ico 0 (tenBytes.targetEnd 20) from ⟨by decide, by decide⟩)
    rw [← ByteRanges.hasRange_byte] at h5
    exact absurd h5 (by decide)
  · rw [← ByteRanges.hasRange_byte]
    decide
  · intro hall
    have h9 := hall (show 9 ∈ Set.Ico 0 (tenBytesAndAll.wantedEnd 20) from ⟨by decide, by decide⟩)
    rw [← ByteRanges.hasRange_byte] at h9
    exact absurd h9 (by decide)

end RdRs.Cache

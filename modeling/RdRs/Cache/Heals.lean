/-
  `cache/worker.rs`, `cache/link_heal.rs` — how often a download session asks, and that it ends.

  `Worker.act` takes a range GET and its answer, a link refresh included, as one step.  Here the two
  are apart: a GET is sent and later answered, and `attempt_cdn_link_refresh` is its own sequence of
  steps under the session's lock (lock, look at `heal_remaining`, refresh, `fetch_sub`), with the
  other workers in between.  Everything else a worker does is `Worker.act`.

  The counters `pops`, `gets` and `refreshes` are not the program's.

  1. **Steps** — `Fetches` lists everything a step can do, and `Spends` what it does to the chunks,
     the lock, the budget and the three potentials (`spends_of_fetch`);
  2. **Invariant** — `Within`, kept by every step (`within_step`): a pop is paid for by a missing
     byte, a GET by a pop or a heal;
  3. **Refinement** — `erase_run`: with the calls inside a GET left out, a run of a session is a run
     of the pool of `Worker.act`;
  4. **Result** — `session_is_bounded`: the bounds, and that no run goes on for ever.  Waiting for a
     permit of the connection semaphore is part of `send`.
-/
import RdRs.Cache.Worker

set_option linter.unusedVariables false

namespace RdRs.Cache

open RdRs.Spans RdRs.Runs

/-! ## A worker, call by call -/

/-- What the workers share: the state of `Worker.act` and the refresh lock. -/
structure Fetching where
  base : Shared
  locked : Bool
  pops : Nat
  gets : Nat
  refreshes : Nat

/-- Where a worker stands: as in `Worker.act`, or inside the answer to a GET. -/
inductive Fetcher where
  | at_ (w : Worker)
  /-- the GET is on its way -/
  | requested (c : Nat × Nat) (retries : Nat)
  /-- `attempt_cdn_link_refresh`, waiting for the lock -/
  | asking (c : Nat × Nat) (retries : Nat)
  /-- with the lock, before the budget is looked at -/
  | checking (c : Nat × Nat) (retries : Nat)
  /-- `refresh_cdn_url` is on its way -/
  | refreshing (c : Nat × Nat) (retries : Nat)
  /-- the URL is refreshed, the budget not yet charged -/
  | refreshed (c : Nat × Nat) (retries : Nat)
deriving DecidableEq

inductive FetchStep where
  /-- a step outside the GET -/
  | work (a : Act)
  | send
  /-- no headers in time, or a response -/
  | answer (a : Act)
  /-- the GET fails; `refreshable` is `should_refresh_via_unrestrict` -/
  | failed (refreshable : Bool)
  | lock
  | check
  | refresh (ok : Bool)
  | charge
  /-- cancellation is seen, or the task is aborted, in the middle of a call -/
  | abort
deriving DecidableEq

/-- The answers to a GET. -/
def Act.isAnswer : Act → Bool
  | .headerTimeout => true
  | .httpError _ => true
  | .response _ _ => true
  | .pop => false
  | .cancel => false
  | .semaphoreClosed => false
  | .piece _ _ => false
  | .bodyEnd => false
  | .bodyError => false
  | .split => false
  | .grow => false

/-- An answer other than an error. -/
def Act.isPlainAnswer : Act → Bool
  | .headerTimeout => true
  | .response _ _ => true
  | _ => false

/-- The attempt has failed for good: one retry is used up. -/
def giveUp (g : Fetching) (c : Nat × Nat) (retries : Nat) : Fetching × Fetcher :=
  ({ g with base := (failAttempt g.base c retries).1 }, .at_ (failAttempt g.base c retries).2)

/-- `AtomicU32::fetch_sub(1)`, which wraps around. -/
def fetchSub (n : Nat) : Nat := if n = 0 then 2 ^ 32 - 1 else n - 1

/-- A chunk was taken off the queue. -/
def popped : Act → Worker → Nat
  | .pop, .trying _ _ => 1
  | _, _ => 0

/-- One step of a worker. -/
def Fetcher.act (base : Nat) (g : Fetching) : Fetcher → FetchStep → Option (Fetching × Fetcher)
  | .at_ w, .work a =>
    if a.isAnswer then none
    else (w.act base g.base a).map fun r =>
      ({ g with base := r.1, pops := g.pops + popped a r.2 }, .at_ r.2)
  | .at_ (.trying c retries), .send =>
    some ({ g with gets := g.gets + 1 }, .requested c retries)
  | .requested c retries, .answer a =>
    if a.isPlainAnswer then
      (Worker.act base g.base (.trying c retries) a).map fun r => ({ g with base := r.1 }, .at_ r.2)
    else none
  | .requested c retries, .failed refreshable =>
    if refreshable then some (g, .asking c retries) else some (giveUp g c retries)
  | .requested c _, .abort => some (g, .at_ (.stopped c false))
  | .asking c retries, .lock =>
    if g.locked then none else some ({ g with locked := true }, .checking c retries)
  | .asking c _, .abort => some (g, .at_ (.stopped c false))
  | .checking c retries, .check =>
    -- returning releases the lock
    if g.base.healRemaining = 0 then some (giveUp { g with locked := false } c retries)
    else some (g, .refreshing c retries)
  | .refreshing c retries, .refresh ok =>
    if ok then some ({ g with refreshes := g.refreshes + 1 }, .refreshed c retries)
    else some (giveUp { g with locked := false } c retries)
  | .refreshing c _, .abort => some ({ g with locked := false }, .at_ (.stopped c false))
  | .refreshed c _, .charge =>
    some ({ g with
      locked := false
      base := { g.base with healRemaining := fetchSub g.base.healRemaining } }, .at_ (.trying c 0))
  | _, _ => none

/-- All workers of a session. -/
abbrev fetchers (base : Nat) := Pool.step (Fetcher.act base)

/-- The session at the start of `run_downloader`. -/
def sessionInit (ranges : ByteRanges) (fileSize : Nat) (args : DownloaderArgs) :
    Pool Fetching Fetcher :=
  ⟨⟨(downloaderInit ranges fileSize args).shared, false, 0, 0, 0⟩,
    (downloaderInit ranges fileSize args).tasks.map .at_⟩

/-- The worker's task has returned. -/
def Fetcher.ended : Fetcher → Bool
  | .at_ .exited => true
  | .at_ (.stopped _ _) => true
  | _ => false

/-- Data of a body: the only step a server can repeat at will. -/
def FetchStep.isPiece : FetchStep → Bool
  | .work (.piece _ _) => true
  | _ => false

/-- A step that is a call returning, or the worker's own; not a cancellation, and not more data. -/
def FetchStep.isReturn : FetchStep → Bool
  | .work (.piece _ _) => false
  | .work .cancel => false
  | .work .semaphoreClosed => false
  | .abort => false
  | _ => true

/-! ## What a worker owes -/

/-- The chunk of a worker that has not ended. -/
def Worker.chunk : Worker → List (Nat × Nat)
  | .trying c _ => [c]
  | .body c _ _ => [c]
  | .splitting c _ => [c]
  | .top => []
  | .growing => []
  | .exited => []
  | .stopped _ _ => []

def Fetcher.chunk : Fetcher → List (Nat × Nat)
  | .at_ w => w.chunk
  | .requested c _ => [c]
  | .asking c _ => [c]
  | .checking c _ => [c]
  | .refreshing c _ => [c]
  | .refreshed c _ => [c]

/-- The bytes of the chunk that can go back to the queue: all but the first. -/
def Fetcher.spare (l : Fetcher) : Nat := (l.chunk.map fun c => c.2 - c.1 - 1).sum

/-- GETs that are paid for and not sent. -/
def Worker.credit : Worker → Nat
  | .trying _ retries => 3 - retries
  | .body _ retries _ => 2 - retries
  | .splitting _ retries => 3 - retries
  | _ => 0

def Fetcher.credit : Fetcher → Nat
  | .at_ w => w.credit
  | .requested _ retries => 2 - retries
  | .asking _ retries => 2 - retries
  | .checking _ retries => 2 - retries
  | .refreshing _ retries => 2 - retries
  | .refreshed _ retries => 2 - retries

/-- The steps a worker can still take with its chunk, data apart. -/
def Worker.steps : Worker → Nat
  | .top => 1
  | .growing => 2
  | .trying _ retries => 8 * (3 - retries) + 2
  | .body _ retries _ => 8 * (3 - retries) - 3
  | .splitting _ retries => 8 * (3 - retries) + 3
  | .exited => 0
  | .stopped _ _ => 0

def Fetcher.steps : Fetcher → Nat
  | .at_ w => w.steps
  | .requested _ retries => 8 * (3 - retries) + 1
  | .asking _ retries => 8 * (3 - retries)
  | .checking _ retries => 8 * (3 - retries) - 1
  | .refreshing _ retries => 8 * (3 - retries) - 2
  | .refreshed _ retries => 8 * (3 - retries) - 3

/-- A worker that has failed three times is not there any more. -/
def Worker.RetriesOk : Worker → Prop
  | .trying _ retries => retries ≤ 2
  | .body _ retries _ => retries ≤ 2
  | .splitting _ retries => retries ≤ 2
  | _ => True

def Fetcher.RetriesOk : Fetcher → Prop
  | .at_ w => w.RetriesOk
  | .requested _ retries => retries ≤ 2
  | .asking _ retries => retries ≤ 2
  | .checking _ retries => retries ≤ 2
  | .refreshing _ retries => retries ≤ 2
  | .refreshed _ retries => retries ≤ 2

/-- The worker has the lock. -/
def Fetcher.holds : Fetcher → Nat
  | .checking _ _ => 1
  | .refreshing _ _ => 1
  | .refreshed _ _ => 1
  | _ => 0

/-- A refresh that is not charged yet. -/
def Fetcher.uncharged : Fetcher → Nat
  | .refreshed _ _ => 1
  | _ => 0

/-- The worker has seen a budget that was not used up. -/
def Fetcher.granted : Fetcher → Bool
  | .refreshing _ _ => true
  | .refreshed _ _ => true
  | _ => false

/-! ## What a step spends -/

/-- A failed attempt uses up one retry, and its worker stops at the third. -/
theorem failAttempt_spends (g : Shared) (c : Nat × Nat) {retries : Nat} (hr : retries ≤ 2) :
    (failAttempt g c retries).1.queue = g.queue ∧
    (failAttempt g c retries).1.healRemaining = g.healRemaining ∧
    (failAttempt g c retries).2.RetriesOk ∧
    (failAttempt g c retries).2.credit ≤ 2 - retries ∧
    (failAttempt g c retries).2.steps + 5 ≤ 8 * (3 - retries) ∧
    ((failAttempt g c retries).2.chunk = [c] ∨ (failAttempt g c retries).2.chunk = []) := by
  unfold failAttempt
  have hmax : maxDownloadRetries = 3 := rfl
  split
  · refine ⟨rfl, rfl, trivial, Nat.zero_le _, ?_, Or.inr rfl⟩
    show 0 + 5 ≤ _
    omega
  · refine ⟨rfl, rfl, ?_, ?_, ?_, Or.inl rfl⟩
    · show retries + 1 ≤ 2
      omega
    · show 3 - (retries + 1) ≤ 2 - retries
      omega
    · show 8 * (3 - (retries + 1)) + 3 + 5 ≤ _
      omega

/-- What a step of `Worker.act` spends, heals apart: an answer uses up a paid GET, a pop pays for
    three of them. -/
structure ActSpends (g : Shared) (w : Worker) (a : Act) (g' : Shared) (w' : Worker) : Prop where
  heals : g'.healRemaining = g.healRemaining
  retries : w'.RetriesOk
  credit : w'.credit + (if a.isAnswer then 1 else 0) ≤ w.credit + 3 * popped a w'
  steps : w'.steps + (if a.isAnswer then 2 else if (FetchStep.work a).isPiece then 0 else 1)
    ≤ w.steps + 26 * popped a w'

theorem actSpends_fail {g g' : Shared} {w w' : Worker} {a : Act} {c : Nat × Nat}
    {retries : Nat} (hr : retries ≤ 2) (ha : popped a w' = 0)
    (hcredit : 2 - retries + (if a.isAnswer then 1 else 0) ≤ w.credit)
    (hsteps : 8 * (3 - retries) - 3 ≤ w.steps) (h : failAttempt g c retries = (g', w')) :
    ActSpends g w a g' w' := by
  obtain ⟨-, hheal, hok, hc, hs, -⟩ := failAttempt_spends g c hr
  rw [h] at hheal hok hc hs
  refine ⟨hheal, hok, ?_, ?_⟩
  · change w'.credit ≤ _ at hc
    omega
  · change w'.steps + 5 ≤ _ at hs
    split
    · omega
    · split <;> omega

/-- A step that leaves the shared state and ends the worker. -/
theorem actSpends_stop {g : Shared} {w w' : Worker} {a : Act} (hw' : w'.credit = 0)
    (hsteps : w'.steps = 0) (hok : w'.RetriesOk)
    (hcredit : (if a.isAnswer then 1 else 0) ≤ w.credit)
    (hw : (if a.isAnswer then 2 else 1) ≤ w.steps) : ActSpends g w a g w' := by
  refine ⟨rfl, hok, by omega, ?_⟩
  split
  · rename_i ha
    rw [if_pos ha] at hw
    omega
  · rename_i ha
    rw [if_neg ha] at hw
    split <;> omega

theorem act_spends {base : Nat} {g g' : Shared} {w w' : Worker} {a : Act} (hr : w.RetriesOk)
    (hheal : a ≠ .httpError true) (h : w.act base g a = some (g', w')) :
    ActSpends g w a g' w' := by
  cases w with
  | top =>
    cases a with
    | pop =>
      simp only [Worker.act] at h
      split at h
      · obtain ⟨rfl, rfl⟩ := Prod.mk.inj (Option.some.inj h)
        exact actSpends_stop rfl rfl trivial (Nat.zero_le _) (Nat.le_refl 1)
      · obtain ⟨rfl, rfl⟩ := Prod.mk.inj (Option.some.inj h)
        exact ⟨rfl, Nat.zero_le 2, Nat.le_refl _, Nat.le_refl _⟩
    | cancel =>
      obtain ⟨rfl, rfl⟩ := Prod.mk.inj (Option.some.inj h)
      exact actSpends_stop rfl rfl trivial (Nat.zero_le _) (Nat.le_refl 1)
    | semaphoreClosed | headerTimeout | httpError | response | piece | bodyEnd | bodyError | split
    | grow => exact absurd h (by simp [Worker.act])
  | trying c retries =>
    change retries ≤ 2 at hr
    have hcredit : (Worker.trying c retries).credit = 3 - retries := rfl
    have hsteps : (Worker.trying c retries).steps = 8 * (3 - retries) + 2 := rfl
    cases a with
    | cancel =>
      obtain ⟨rfl, rfl⟩ := Prod.mk.inj (Option.some.inj h)
      exact actSpends_stop rfl rfl trivial (Nat.zero_le _) (by rw [hsteps]; simp [Act.isAnswer])
    | semaphoreClosed =>
      obtain ⟨rfl, rfl⟩ := Prod.mk.inj (Option.some.inj h)
      exact actSpends_stop rfl rfl trivial (Nat.zero_le _) (by rw [hsteps]; simp [Act.isAnswer])
    | headerTimeout =>
      refine actSpends_fail hr rfl ?_ ?_ (Option.some.inj h)
      · show 2 - retries + 1 ≤ 3 - retries
        omega
      · rw [hsteps]
        omega
    | httpError healed =>
      cases healed with
      | true => exact absurd rfl hheal
      | false =>
        refine actSpends_fail hr rfl ?_ ?_ (Option.some.inj h)
        · show 2 - retries + 1 ≤ 3 - retries
          omega
        · rw [hsteps]
          omega
    | response s r =>
      simp only [Worker.act] at h
      have hmax : maxDownloadRetries = 3 := rfl
      split at h
      · split at h
        · obtain ⟨rfl, rfl⟩ := Prod.mk.inj (Option.some.inj h)
          refine actSpends_stop rfl rfl trivial ?_ ?_
          · show 1 ≤ 3 - retries
            omega
          · show 2 ≤ 8 * (3 - retries) + 2
            omega
        · obtain ⟨rfl, rfl⟩ := Prod.mk.inj (Option.some.inj h)
          refine ⟨rfl, ?_, ?_, ?_⟩
          · show retries + 1 ≤ 2
            omega
          · show 3 - (retries + 1) + 1 ≤ 3 - retries + 3 * 0
            omega
          · show 8 * (3 - (retries + 1)) + 2 + 2 ≤ 8 * (3 - retries) + 2 + 26 * 0
            omega
      · obtain ⟨rfl, rfl⟩ := Prod.mk.inj (Option.some.inj h)
        refine ⟨rfl, hr, ?_, ?_⟩
        · show 2 - retries + 1 ≤ 3 - retries + 3 * 0
          omega
        · show 8 * (3 - retries) - 3 + 2 ≤ 8 * (3 - retries) + 2 + 26 * 0
          omega
    | pop | piece | bodyEnd | bodyError | split | grow => exact absurd h (by simp [Worker.act])
  | body c retries pos =>
    change retries ≤ 2 at hr
    have hcredit : (Worker.body c retries pos).credit = 2 - retries := rfl
    have hsteps : (Worker.body c retries pos).steps = 8 * (3 - retries) - 3 := rfl
    cases a with
    | cancel =>
      obtain ⟨rfl, rfl⟩ := Prod.mk.inj (Option.some.inj h)
      refine actSpends_stop rfl rfl trivial (Nat.zero_le _) ?_
      rw [hsteps, if_neg (by decide)]
      omega
    | piece len written =>
      simp only [Worker.act] at h
      split at h
      · obtain ⟨rfl, rfl⟩ := Prod.mk.inj (Option.some.inj h)
        exact ⟨rfl, hr, Nat.le_refl _, Nat.le_refl _⟩
      · cases written with
        | true =>
          obtain ⟨rfl, rfl⟩ := Prod.mk.inj (Option.some.inj h)
          exact ⟨rfl, hr, Nat.le_refl _, Nat.le_refl _⟩
        | false =>
          refine actSpends_fail hr rfl ?_ ?_ (Option.some.inj h)
          · rw [hcredit]
            exact Nat.le_refl _
          · exact Nat.le_of_eq hsteps.symm
    | bodyEnd =>
      obtain ⟨rfl, rfl⟩ := Prod.mk.inj (Option.some.inj h)
      refine ⟨rfl, trivial, ?_, ?_⟩
      · exact Nat.zero_le _
      · show 2 + 1 ≤ 8 * (3 - retries) - 3 + 26 * 0
        omega
    | bodyError =>
      refine actSpends_fail hr rfl ?_ ?_ (Option.some.inj h)
      · rw [hcredit]
        exact Nat.le_refl _
      · exact Nat.le_of_eq hsteps.symm
    | pop | semaphoreClosed | headerTimeout | httpError | response | split | grow =>
      exact absurd h (by simp [Worker.act])
  | splitting c retries =>
    cases a with
    | split =>
      simp only [Worker.act] at h
      split at h
      · obtain ⟨rfl, rfl⟩ := Prod.mk.inj (Option.some.inj h)
        exact ⟨rfl, hr, Nat.le_refl _, Nat.le_refl _⟩
      · obtain ⟨rfl, rfl⟩ := Prod.mk.inj (Option.some.inj h)
        exact ⟨rfl, hr, Nat.le_refl _, Nat.le_refl _⟩
    | pop | cancel | semaphoreClosed | headerTimeout | httpError | response | piece | bodyEnd
    | bodyError | grow => exact absurd h (by simp [Worker.act])
  | growing =>
    cases a with
    | grow =>
      obtain ⟨rfl, rfl⟩ := Prod.mk.inj (Option.some.inj h)
      exact ⟨rfl, trivial, Nat.le_refl _, Nat.le_refl _⟩
    | pop | cancel | semaphoreClosed | headerTimeout | httpError | response | piece | bodyEnd
    | bodyError | split => exact absurd h (by simp [Worker.act])
  | exited => cases a <;> exact absurd h (by simp [Worker.act])
  | stopped c failed => cases a <;> exact absurd h (by simp [Worker.act])

/-- A worker that takes a step has not stopped. -/
theorem chunk_of_act {base : Nat} {g : Shared} {w : Worker} {a : Act} {r : Shared × Worker}
    (h : w.act base g a = some r) : w.chunk = w.held := by
  cases w with
  | stopped c failed => cases a <;> exact absurd h (by simp [Worker.act])
  | top | trying _ _ | body _ _ _ | splitting _ _ | growing | exited => rfl

theorem chunk_subset_held (w : Worker) : w.chunk ⊆ w.held := by
  cases w with
  | stopped c failed => exact List.nil_subset _
  | top | trying _ _ | body _ _ _ | splitting _ _ | growing | exited => exact List.Subset.refl _

/-- **Bytes pay for pops.**  A popped chunk keeps its first byte for good; only the rest can be
    queued again. -/
theorem bytes_act {base : Nat} (hbase : 1 ≤ base) {g g' : Shared} {w w' : Worker} {a : Act}
    (hg : ChunksOk g) (hw : ∀ c ∈ w.chunk, c.1 < c.2) (h : w.act base g a = some (g', w')) :
    popped a w' + lengths g'.queue + (Fetcher.at_ w').spare
      ≤ lengths g.queue + (Fetcher.at_ w).spare := by
  have hchunk := chunk_of_act h
  have hone : ∀ v c, v = Worker.trying c 0 → (Fetcher.at_ v).spare = c.2 - c.1 - 1 := by
    rintro v c rfl
    exact Nat.add_zero _
  cases move_of_act h with
  | pop s q n hqueue hn =>
    have hs : s.1 < s.2 := hg.1 s (by rw [hqueue]; exact List.mem_cons_self)
    obtain ⟨k, -, hm⟩ := hg.2.2
    have hpos : 1 ≤ saturatingMul base g.multiplier :=
      saturatingMul_pos hbase (by rw [hm]; exact Nat.one_le_two_pow)
    have hrest : lengths (if s.1 + n < s.2 then (s.1 + n, s.2) :: q else q)
        = s.2 - (s.1 + n) + lengths q := by
      split
      · rw [lengths_cons]
      · omega
    have hspare : (Fetcher.at_ (.trying (s.1, s.1 + n) 0)).spare = s.1 + n - s.1 - 1 := hone _ _ rfl
    have htop : (Fetcher.at_ .top).spare = 0 := rfl
    show 1 + lengths (if s.1 + n < s.2 then (s.1 + n, s.2) :: q else q) + _ ≤ _
    rw [hrest, hspare, hqueue, lengths_cons, htop]
    omega
  | stop w c a failed hheld _ =>
    have : popped a (.stopped c failed) = 0 := by cases a <;> rfl
    show popped a _ + lengths g.queue + 0 ≤ _
    omega
  | reset w c a retries hheld =>
    have : popped a (.splitting c retries) = 0 := by cases a <;> rfl
    have hsame : (Fetcher.at_ w).spare = (Fetcher.at_ (.splitting c retries)).spare := by
      show ((w.chunk).map _).sum = _
      rw [hchunk, hheld]
      rfl
    show popped a _ + lengths g.queue + _ ≤ _
    omega
  | finish c retries pos =>
    show 0 + lengths g.queue + 0 ≤ _
    omega
  | split c retries hlong =>
    have hlens : lengths ((c.1 + base, c.2) :: g.queue) = c.2 - (c.1 + base) + lengths g.queue :=
      lengths_cons _ _
    show 0 + lengths ((c.1 + base, c.2) :: g.queue) + (c.1 + base - c.1 - 1 + 0)
      ≤ lengths g.queue + (c.2 - c.1 - 1 + 0)
    omega
  | popEmpty _ | cancelTop | grow =>
    show 0 + lengths g.queue + 0 ≤ lengths g.queue + 0
    omega
  | heal c retries _ | discard c retries _ _ | accept c retries _ _ | emptyPiece c retries _ _
  | piece c retries _ _ _ | keep c retries =>
    show 0 + lengths g.queue + (c.2 - c.1 - 1 + 0) ≤ lengths g.queue + (c.2 - c.1 - 1 + 0)
    omega

/-- What a step of a session's worker does: to the chunks, the lock and the budget, and to the three
    sums that the bounds come from. -/
structure Spends (g : Fetching) (l : Fetcher) (a : FetchStep) (g' : Fetching) (l' : Fetcher) :
    Prop where
  chunks : ChunksOk g'.base ∧ ∀ c ∈ l'.chunk, c.1 < c.2
  retries : l'.RetriesOk
  lock : l'.holds + g.locked.toNat = l.holds + g'.locked.toNat
  refreshes : g'.refreshes + g'.base.healRemaining + l.uncharged
    = g.refreshes + g.base.healRemaining + l'.uncharged
  heals : g'.base.healRemaining = g.base.healRemaining ∨
    l.holds = 1 ∧ l'.granted = false ∧ g'.base.healRemaining + 1 = g.base.healRemaining
  granted : l'.granted = true → 0 < g'.base.healRemaining
  bytes : g'.pops + lengths g'.base.queue + l'.spare ≤ g.pops + lengths g.base.queue + l.spare
  gets : g'.gets + 3 * g'.base.healRemaining + l'.credit + 3 * g.pops
    ≤ g.gets + 3 * g.base.healRemaining + l.credit + 3 * g'.pops
  steps : (if a.isPiece then 0 else 1) + 26 * (lengths g'.base.queue + l'.spare)
      + 24 * g'.base.healRemaining + l'.steps
    ≤ 26 * (lengths g.base.queue + l.spare) + 24 * g.base.healRemaining + l.steps

/-- What is known of a worker before its step. -/
structure Ready (g : Fetching) (l : Fetcher) : Prop where
  chunks : ChunksOk g.base
  chunk : ∀ c ∈ l.chunk, c.1 < c.2
  retries : l.RetriesOk
  lock : l.holds ≤ g.locked.toNat
  granted : l.granted = true → 0 < g.base.healRemaining

/-- The attempt of a worker whose GET is sent is given up, and the lock released if it has it. -/
theorem spends_giveUp {g : Fetching} {l : Fetcher} {a : FetchStep} {c : Nat × Nat} {retries : Nat}
    (hl : Ready g l) (locked : Bool) (hlock : g.locked.toNat = l.holds + locked.toNat)
    (hchunk : l.chunk = [c]) (hr : retries ≤ 2) (hcredit : 2 - retries ≤ l.credit)
    (hsteps : 8 * (3 - retries) - 2 ≤ l.steps) (hun : l.uncharged = 0) :
    Spends g l a (giveUp { g with locked := locked } c retries).1
      (giveUp { g with locked := locked } c retries).2 := by
  obtain ⟨hqueue, hheal, hok, hc, hs, hheld⟩ := failAttempt_spends g.base c hr
  have hshared : ChunksOk (failAttempt g.base c retries).1 := by
    unfold failAttempt
    split
    · exact hl.chunks
    · exact ⟨hl.chunks.1, hl.chunks.2.1, 0, Nat.zero_le 4, rfl⟩
  have hspare : (Fetcher.at_ (failAttempt g.base c retries).2).spare ≤ l.spare := by
    show ((failAttempt g.base c retries).2.chunk.map _).sum ≤ (l.chunk.map _).sum
    rcases hheld with h | h
    · rw [h, hchunk]
    · rw [h]
      exact Nat.zero_le _
  refine ⟨⟨hshared, fun d hd => ?_⟩, hok, ?_, ?_, Or.inl hheal, fun h => absurd h Bool.noConfusion,
    ?_, ?_, ?_⟩
  · change d ∈ (failAttempt g.base c retries).2.chunk at hd
    rcases hheld with h | h
    · rw [h] at hd
      exact hl.chunk d (by rw [hchunk]; exact hd)
    · rw [h] at hd
      exact absurd hd List.not_mem_nil
  · show 0 + g.locked.toNat = l.holds + locked.toNat
    omega
  · show g.refreshes + (failAttempt g.base c retries).1.healRemaining + l.uncharged
      = g.refreshes + g.base.healRemaining + 0
    omega
  · show g.pops + lengths (failAttempt g.base c retries).1.queue
      + (Fetcher.at_ (failAttempt g.base c retries).2).spare ≤ _
    rw [hqueue]
    omega
  · show g.gets + 3 * (failAttempt g.base c retries).1.healRemaining
      + (failAttempt g.base c retries).2.credit + 3 * g.pops
      ≤ g.gets + 3 * g.base.healRemaining + l.credit + 3 * g.pops
    omega
  · show (if a.isPiece then 0 else 1) + 26 * (lengths (failAttempt g.base c retries).1.queue
        + (Fetcher.at_ (failAttempt g.base c retries).2).spare)
      + 24 * (failAttempt g.base c retries).1.healRemaining
      + (failAttempt g.base c retries).2.steps ≤ _
    rw [hqueue]
    split <;> omega

/-- A step of `Worker.act`, taken by the worker or by the answer to its GET. -/
theorem spends_act {base : Nat} (hbase : 1 ≤ base) {g : Fetching} {l : Fetcher} {a : FetchStep}
    {w w' : Worker} {b : Act} {g' : Shared} (hl : Ready g l) (hchunk : l.chunk = w.chunk)
    (hr : w.RetriesOk) (hheal : b ≠ .httpError true) (hholds : l.holds = 0) (hun : l.uncharged = 0)
    (hcredit : w.credit ≤ l.credit + if b.isAnswer then 1 else 0)
    (hsteps : w.steps ≤ l.steps + if b.isAnswer then 1 else 0)
    (hpiece : a.isPiece = (FetchStep.work b).isPiece) (h : w.act base g.base b = some (g', w')) :
    Spends g l a { g with base := g', pops := g.pops + popped b w' } (.at_ w') := by
  have hspent := act_spends hr hheal h
  have hspare : (Fetcher.at_ w).spare = l.spare := by
    show (w.chunk.map _).sum = (l.chunk.map _).sum
    rw [hchunk]
  have hbytes := bytes_act hbase hl.chunks (by rw [← hchunk]; exact hl.chunk) h
  have hmove := chunksOk_move hbase hl.chunks (by rw [← chunk_of_act h, ← hchunk]; exact hl.chunk)
    (move_of_act h)
  have h3 := hspent.credit
  have h4 := hspent.steps
  have hheals := hspent.heals
  have hanswer : b.isAnswer = true → (FetchStep.work b).isPiece = false := by
    cases b with
    | piece len written => exact fun h => absurd h Bool.noConfusion
    | _ => exact fun _ => rfl
  rw [hspare] at hbytes
  refine ⟨⟨hmove.1, fun c hc => hmove.2 c (chunk_subset_held w' hc)⟩, hspent.retries, ?_, ?_,
    Or.inl hheals, fun h => absurd h Bool.noConfusion, ?_, ?_, ?_⟩
  · show 0 + g.locked.toNat = l.holds + g.locked.toNat
    omega
  · show g.refreshes + g'.healRemaining + l.uncharged = g.refreshes + g.base.healRemaining + 0
    omega
  · show g.pops + popped b w' + lengths g'.queue + (Fetcher.at_ w').spare ≤ _
    omega
  · show g.gets + 3 * g'.healRemaining + w'.credit + 3 * g.pops
      ≤ g.gets + 3 * g.base.healRemaining + l.credit + 3 * (g.pops + popped b w')
    omega
  · show (if a.isPiece then 0 else 1) + 26 * (lengths g'.queue + (Fetcher.at_ w').spare)
      + 24 * g'.healRemaining + w'.steps ≤ _
    rw [hpiece]
    cases hb : b.isAnswer with
    | true =>
      rw [hanswer hb]
      rw [hb] at h4 hsteps
      simp only [if_true, Bool.false_eq_true, if_false] at h4 hsteps ⊢
      omega
    | false =>
      rw [hb] at h4 hsteps
      simp only [Bool.false_eq_true, if_false] at h4 hsteps
      omega

/-- A step that leaves the shared state of `Worker.act` alone. -/
theorem spends_same {g g' : Fetching} {l l' : Fetcher} {a : FetchStep} (hl : Ready g l)
    (hbase : g'.base = g.base) (hpops : g'.pops = g.pops) (hchunk : l'.chunk = l.chunk ∨ l'.chunk = [])
    (hr : l'.RetriesOk) (hlock : l'.holds + g.locked.toNat = l.holds + g'.locked.toNat)
    (hrefreshes : g'.refreshes + l.uncharged = g.refreshes + l'.uncharged)
    (hgranted : l'.granted = true → 0 < g.base.healRemaining)
    (hgets : g'.gets + l'.credit ≤ g.gets + l.credit) (hsteps : l'.steps < l.steps) :
    Spends g l a g' l' := by
  have hspare : l'.spare ≤ l.spare := by
    show (l'.chunk.map _).sum ≤ (l.chunk.map _).sum
    rcases hchunk with h | h
    · rw [h]
    · rw [h]
      exact Nat.zero_le _
  refine ⟨⟨by rw [hbase]; exact hl.chunks, fun c hc => ?_⟩, hr, hlock, ?_,
    Or.inl (by rw [hbase]), by rw [hbase]; exact hgranted, ?_, ?_, ?_⟩
  · rcases hchunk with h | h
    · exact hl.chunk c (by rw [← h]; exact hc)
    · rw [h] at hc
      exact absurd hc List.not_mem_nil
  · rw [hbase]
    omega
  · rw [hbase, hpops]
    omega
  · rw [hbase, hpops]
    omega
  · rw [hbase]
    split <;> omega

/-- Everything a step of a session's worker can do. -/
inductive Fetches (base : Nat) (g : Fetching) : Fetcher → FetchStep → Fetching → Fetcher → Prop where
  | work (w w' : Worker) (a : Act) (g' : Shared) : a.isAnswer = false →
      w.act base g.base a = some (g', w') →
      Fetches base g (.at_ w) (.work a) { g with base := g', pops := g.pops + popped a w' } (.at_ w')
  | send (c : Nat × Nat) (retries : Nat) :
      Fetches base g (.at_ (.trying c retries)) .send { g with gets := g.gets + 1 }
        (.requested c retries)
  | answer (c : Nat × Nat) (retries : Nat) (w' : Worker) (a : Act) (g' : Shared) :
      a.isPlainAnswer = true → Worker.act base g.base (.trying c retries) a = some (g', w') →
      Fetches base g (.requested c retries) (.answer a) { g with base := g' } (.at_ w')
  | ask (c : Nat × Nat) (retries : Nat) :
      Fetches base g (.requested c retries) (.failed true) g (.asking c retries)
  | refuse (c : Nat × Nat) (retries : Nat) :
      Fetches base g (.requested c retries) (.failed false) (giveUp g c retries).1
        (giveUp g c retries).2
  | lock (c : Nat × Nat) (retries : Nat) : g.locked = false →
      Fetches base g (.asking c retries) .lock { g with locked := true } (.checking c retries)
  | usedUp (c : Nat × Nat) (retries : Nat) : g.base.healRemaining = 0 →
      Fetches base g (.checking c retries) .check (giveUp { g with locked := false } c retries).1
        (giveUp { g with locked := false } c retries).2
  | check (c : Nat × Nat) (retries : Nat) : 0 < g.base.healRemaining →
      Fetches base g (.checking c retries) .check g (.refreshing c retries)
  | refresh (c : Nat × Nat) (retries : Nat) :
      Fetches base g (.refreshing c retries) (.refresh true)
        { g with refreshes := g.refreshes + 1 } (.refreshed c retries)
  | refreshFails (c : Nat × Nat) (retries : Nat) :
      Fetches base g (.refreshing c retries) (.refresh false)
        (giveUp { g with locked := false } c retries).1 (giveUp { g with locked := false } c retries).2
  | charge (c : Nat × Nat) (retries : Nat) :
      Fetches base g (.refreshed c retries) .charge
        { g with
          locked := false
          base := { g.base with healRemaining := fetchSub g.base.healRemaining } }
        (.at_ (.trying c 0))
  | abortGet (c : Nat × Nat) (retries : Nat) :
      Fetches base g (.requested c retries) .abort g (.at_ (.stopped c false))
  | abortLock (c : Nat × Nat) (retries : Nat) :
      Fetches base g (.asking c retries) .abort g (.at_ (.stopped c false))
  | abortRefresh (c : Nat × Nat) (retries : Nat) :
      Fetches base g (.refreshing c retries) .abort { g with locked := false }
        (.at_ (.stopped c false))

/-- **The inversion of a step.** -/
theorem fetches_of_act {base : Nat} {g g' : Fetching} {l l' : Fetcher} {a : FetchStep}
    (h : l.act base g a = some (g', l')) : Fetches base g l a g' l' := by
  unfold Fetcher.act at h
  split at h
  · split at h
    · exact absurd h (by simp)
    · rename_i ha
      obtain ⟨r, hact, hr⟩ := Option.map_eq_some_iff.mp h
      obtain ⟨rfl, rfl⟩ := Prod.mk.inj hr
      exact .work _ _ _ _ (Bool.eq_false_iff.mpr ha) hact
  · obtain ⟨rfl, rfl⟩ := Prod.mk.inj (Option.some.inj h)
    exact .send _ _
  · split at h
    · rename_i ha
      obtain ⟨r, hact, hr⟩ := Option.map_eq_some_iff.mp h
      obtain ⟨rfl, rfl⟩ := Prod.mk.inj hr
      exact .answer _ _ _ _ _ ha hact
    · exact absurd h (by simp)
  · rename_i refreshable
    cases refreshable with
    | true =>
      obtain ⟨rfl, rfl⟩ := Prod.mk.inj (Option.some.inj h)
      exact .ask _ _
    | false =>
      obtain ⟨rfl, rfl⟩ := Prod.mk.inj (Option.some.inj h)
      exact .refuse _ _
  · obtain ⟨rfl, rfl⟩ := Prod.mk.inj (Option.some.inj h)
    exact .abortGet _ _
  · split at h
    · exact absurd h (by simp)
    · rename_i hfree
      obtain ⟨rfl, rfl⟩ := Prod.mk.inj (Option.some.inj h)
      exact .lock _ _ (Bool.eq_false_iff.mpr hfree)
  · obtain ⟨rfl, rfl⟩ := Prod.mk.inj (Option.some.inj h)
    exact .abortLock _ _
  · split at h
    · rename_i hnone
      obtain ⟨rfl, rfl⟩ := Prod.mk.inj (Option.some.inj h)
      exact .usedUp _ _ hnone
    · rename_i hleft
      obtain ⟨rfl, rfl⟩ := Prod.mk.inj (Option.some.inj h)
      exact .check _ _ (Nat.pos_of_ne_zero hleft)
  · rename_i ok
    cases ok with
    | true =>
      obtain ⟨rfl, rfl⟩ := Prod.mk.inj (Option.some.inj h)
      exact .refresh _ _
    | false =>
      obtain ⟨rfl, rfl⟩ := Prod.mk.inj (Option.some.inj h)
      exact .refreshFails _ _
  · obtain ⟨rfl, rfl⟩ := Prod.mk.inj (Option.some.inj h)
    exact .abortRefresh _ _
  · obtain ⟨rfl, rfl⟩ := Prod.mk.inj (Option.some.inj h)
    exact .charge _ _
  · exact absurd h (by simp)

/-- What is known of an answer other than an error. -/
theorem plainAnswer {a : Act} (h : a.isPlainAnswer = true) :
    a.isAnswer = true ∧ a ≠ .httpError true ∧ (∀ w, popped a w = 0) ∧
      (FetchStep.work a).isPiece = false := by
  cases a with
  | headerTimeout => exact ⟨rfl, by simp, fun _ => rfl, rfl⟩
  | response s r => exact ⟨rfl, by simp, fun _ => rfl, rfl⟩
  | _ => exact absurd h Bool.noConfusion

/-- Who has the lock finds it locked. -/
theorem Ready.locked {g : Fetching} {l : Fetcher} (h : Ready g l) (hholds : l.holds = 1) :
    g.locked.toNat = 1 := by
  have h1 := h.lock
  have h2 := Bool.toNat_le g.locked
  omega

/-- A budget that is left is charged by one. -/
theorem fetchSub_of_pos {n : Nat} (h : 0 < n) : fetchSub n + 1 = n := by
  rw [fetchSub, if_neg (Nat.ne_of_gt h)]
  omega

/-- **What every step spends.** -/
theorem spends_of_fetch {base : Nat} (hbase : 1 ≤ base) {g g' : Fetching} {l l' : Fetcher}
    {a : FetchStep} (hl : Ready g l) (h : l.act base g a = some (g', l')) : Spends g l a g' l' := by
  have hr := hl.retries
  cases fetches_of_act h with
  | work w w' b g' hb hact =>
    refine spends_act hbase hl rfl hr ?_ rfl rfl (Nat.le_add_right _ _) (Nat.le_add_right _ _) rfl
      hact
    rintro rfl
    exact absurd hb (by decide)
  | send c retries =>
    change retries ≤ 2 at hr
    refine spends_same hl rfl rfl (Or.inl rfl) hr rfl rfl (fun h => absurd h Bool.noConfusion) ?_
      (Nat.lt_succ_self _)
    show g.gets + 1 + (2 - retries) ≤ g.gets + (3 - retries)
    omega
  | answer c retries w' b g' hb hact =>
    change retries ≤ 2 at hr
    obtain ⟨hanswer, hheal, hpopped, hpiece⟩ := plainAnswer hb
    have hspends := spends_act (a := .answer b) hbase hl (w := .trying c retries) rfl hr hheal rfl
      rfl ?_ ?_ hpiece.symm hact
    · rwa [hpopped, Nat.add_zero] at hspends
    · rw [hanswer, if_pos rfl]
      show 3 - retries ≤ 2 - retries + 1
      omega
    · rw [hanswer, if_pos rfl]
      exact Nat.le_refl _
  | ask c retries =>
    exact spends_same hl rfl rfl (Or.inl rfl) hr rfl rfl (fun h => absurd h Bool.noConfusion)
      (Nat.le_refl _) (Nat.lt_succ_self _)
  | refuse c retries =>
    refine spends_giveUp hl g.locked (Nat.zero_add _).symm rfl hr (Nat.le_refl _) ?_ rfl
    show 8 * (3 - retries) - 2 ≤ 8 * (3 - retries) + 1
    omega
  | lock c retries hfree =>
    change retries ≤ 2 at hr
    refine spends_same hl rfl rfl (Or.inl rfl) hr ?_ rfl (fun h => absurd h Bool.noConfusion)
      (Nat.le_refl _) ?_
    · show 1 + g.locked.toNat = 0 + 1
      rw [hfree]
      rfl
    · show 8 * (3 - retries) - 1 < 8 * (3 - retries)
      omega
  | usedUp c retries _ =>
    refine spends_giveUp hl false (hl.locked rfl) rfl hr (Nat.le_refl _) ?_ rfl
    show 8 * (3 - retries) - 2 ≤ 8 * (3 - retries) - 1
    omega
  | check c retries hleft =>
    change retries ≤ 2 at hr
    refine spends_same hl rfl rfl (Or.inl rfl) hr rfl rfl (fun _ => hleft) (Nat.le_refl _) ?_
    show 8 * (3 - retries) - 2 < 8 * (3 - retries) - 1
    omega
  | refresh c retries =>
    change retries ≤ 2 at hr
    refine spends_same hl rfl rfl (Or.inl rfl) hr rfl rfl (fun _ => hl.granted rfl) (Nat.le_refl _)
      ?_
    show 8 * (3 - retries) - 3 < 8 * (3 - retries) - 2
    omega
  | refreshFails c retries =>
    exact spends_giveUp hl false (hl.locked rfl) rfl hr (Nat.le_refl _) (Nat.le_refl _) rfl
  | charge c retries =>
    change retries ≤ 2 at hr
    have hlocked := hl.locked rfl
    have hcharged := fetchSub_of_pos (hl.granted rfl)
    refine ⟨⟨⟨hl.chunks.1, hl.chunks.2⟩, hl.chunk⟩, ?_, ?_, ?_, Or.inr ⟨rfl, rfl, hcharged⟩,
      fun h => absurd h Bool.noConfusion, ?_, ?_, ?_⟩
    · exact Nat.zero_le 2
    · show 0 + g.locked.toNat = 1 + 0
      omega
    · show g.refreshes + fetchSub g.base.healRemaining + 1 = g.refreshes + g.base.healRemaining + 0
      omega
    · exact Nat.le_refl _
    · show g.gets + 3 * fetchSub g.base.healRemaining + 3 + 3 * g.pops
        ≤ g.gets + 3 * g.base.healRemaining + (2 - retries) + 3 * g.pops
      omega
    · show 1 + 26 * (lengths g.base.queue + (c.2 - c.1 - 1 + 0))
          + 24 * fetchSub g.base.healRemaining + 26
        ≤ 26 * (lengths g.base.queue + (c.2 - c.1 - 1 + 0)) + 24 * g.base.healRemaining
          + (8 * (3 - retries) - 3)
      omega
  | abortGet c retries =>
    exact spends_same hl rfl rfl (Or.inr rfl) trivial rfl rfl (fun h => absurd h Bool.noConfusion)
      (Nat.le_add_right _ _) (Nat.succ_pos _)
  | abortLock c retries =>
    change retries ≤ 2 at hr
    refine spends_same hl rfl rfl (Or.inr rfl) trivial rfl rfl (fun h => absurd h Bool.noConfusion)
      (Nat.le_add_right _ _) ?_
    show 0 < 8 * (3 - retries)
    omega
  | abortRefresh c retries =>
    change retries ≤ 2 at hr
    have hlocked := hl.locked rfl
    refine spends_same hl rfl rfl (Or.inr rfl) trivial ?_ rfl (fun h => absurd h Bool.noConfusion)
      (Nat.le_add_right _ _) ?_
    · show 0 + g.locked.toNat = 1 + 0
      omega
    · show 0 < 8 * (3 - retries) - 2
      omega

/-! ## The session -/

/-- What holds in every state of a session: one worker at most has the lock and a budget that is
    seen is there, pops are paid for by missing bytes, and GETs by pops and heals. -/
structure Within (missing : Nat) (p : Pool Fetching Fetcher) : Prop where
  chunks : ChunksOk p.shared.base
  chunk : ∀ l ∈ p.tasks, ∀ c ∈ l.chunk, c.1 < c.2
  retries : ∀ l ∈ p.tasks, l.RetriesOk
  lock : (p.tasks.map Fetcher.holds).sum = p.shared.locked.toNat
  granted : ∀ l ∈ p.tasks, l.granted = true → 0 < p.shared.base.healRemaining
  refreshes : p.shared.refreshes + p.shared.base.healRemaining
    = maxSessionLinkHeals + (p.tasks.map Fetcher.uncharged).sum
  bytes : p.shared.pops + lengths p.shared.base.queue + (p.tasks.map Fetcher.spare).sum ≤ missing
  gets : p.shared.gets + 3 * p.shared.base.healRemaining + (p.tasks.map Fetcher.credit).sum
    ≤ 3 * p.shared.pops + 9

/-- The steps left to a session, data apart. -/
def stepsLeft (p : Pool Fetching Fetcher) : Nat :=
  26 * lengths p.shared.base.queue + 24 * p.shared.base.healRemaining
    + (p.tasks.map fun l => 26 * l.spare + l.steps).sum

theorem le_sum_of_mem {l : Fetcher} {ls : List Fetcher} (h : l ∈ ls) (v : Fetcher → Nat) :
    v l ≤ (ls.map v).sum :=
  List.single_le_sum (fun n _ => Nat.zero_le n) _ (List.mem_map_of_mem h)

theorem Within.ready {missing : Nat} {p : Pool Fetching Fetcher} (h : Within missing p)
    {l : Fetcher} (hl : l ∈ p.tasks) : Ready p.shared l :=
  ⟨h.chunks, h.chunk l hl, h.retries l hl, h.lock ▸ le_sum_of_mem hl Fetcher.holds, h.granted l hl⟩

theorem holds_of_granted {l : Fetcher} (h : l.granted = true) : l.holds = 1 := by
  cases l with
  | refreshing c retries => rfl
  | refreshed c retries => rfl
  | at_ _ | requested _ _ | asking _ _ | checking _ _ => exact absurd h Bool.noConfusion

/-- The worker that is charged is alone with the lock, so no other has seen the budget before. -/
theorem granted_step {missing base : Nat} {p q : Pool Fetching Fetcher} {e : Nat × FetchStep}
    (hbase : 1 ≤ base) (hp : Within missing p) (h : fetchers base p e = some q) :
    ∀ l ∈ q.tasks, l.granted = true → 0 < q.shared.base.healRemaining := by
  obtain ⟨xs, l, ys, g', l', htasks, -, hact, rfl⟩ := Pool.step_cases h
  have hspends := spends_of_fetch hbase (hp.ready (by rw [htasks]; simp)) hact
  have hother : ∀ k ∈ xs ++ ys, k.granted = true → 0 < g'.base.healRemaining := by
    intro k hk hgranted
    have hbefore := hp.granted k (by rw [htasks]; simp only [List.mem_append] at hk ⊢; grind) hgranted
    rcases hspends.heals with hsame | ⟨hholds, -, -⟩
    · rw [hsame]
      exact hbefore
    · have hsum := hp.lock
      have hle := Bool.toNat_le p.shared.locked
      have hk1 := le_sum_of_mem hk Fetcher.holds
      rw [holds_of_granted hgranted, List.map_append, List.sum_append] at hk1
      rw [htasks] at hsum
      simp only [List.map_append, List.map_cons, List.sum_append, List.sum_cons] at hsum
      omega
  intro k hk hgranted
  rcases List.mem_append.mp hk with hk | hk
  · exact hother k (List.mem_append_left ys hk) hgranted
  · rcases List.mem_cons.mp hk with rfl | hk
    · exact hspends.granted hgranted
    · exact hother k (List.mem_append_right xs hk) hgranted

/-- **A step keeps a session within its bounds**, and pays for itself unless it is data. -/
theorem within_step {missing base : Nat} (hbase : 1 ≤ base) {p q : Pool Fetching Fetcher}
    {e : Nat × FetchStep} (hp : Within missing p) (h : fetchers base p e = some q) :
    Within missing q ∧ stepsLeft q + (if e.2.isPiece then 0 else 1) ≤ stepsLeft p := by
  have hgranted := granted_step hbase hp h
  obtain ⟨l, l', hl, hact, -, hmem, -, hsum⟩ := Pool.frame h
  have hspends := spends_of_fetch hbase (hp.ready (List.mem_of_getElem? hl)) hact
  have hlock := hsum Fetcher.holds
  have huncharged := hsum Fetcher.uncharged
  have hspare := hsum Fetcher.spare
  have hcredit := hsum Fetcher.credit
  have hpotential := hsum fun l => 26 * l.spare + l.steps
  have hlock0 := hp.lock
  have hrefreshes0 := hp.refreshes
  have hbytes0 := hp.bytes
  have hgets0 := hp.gets
  have hlock1 := hspends.lock
  have hrefreshes1 := hspends.refreshes
  have hbytes1 := hspends.bytes
  have hgets1 := hspends.gets
  have hsteps1 := hspends.steps
  refine ⟨⟨hspends.chunks.1, ?_, ?_, by omega, hgranted, by omega, by omega, by omega⟩,
    by unfold stepsLeft; omega⟩
  · intro k hk
    rcases hmem k hk with rfl | hk
    · exact hspends.chunks.2
    · exact hp.chunk k hk
  · intro k hk
    rcases hmem k hk with rfl | hk
    · exact hspends.retries
    · exact hp.retries k hk

theorem lengths_missingSlices (r : ByteRanges) (start targetEnd : Nat) :
    lengths (missingSlices r start targetEnd) = (Set.Ico start targetEnd \ r.bytes).ncard := by
  rw [← cover_missingSlices, (missingSlices_separated r start targetEnd).ncard_cover]

/-- The session starts with the missing slices in the queue and its workers at the top. -/
theorem sessionInit_shape (ranges : ByteRanges) (fileSize : Nat) (args : DownloaderArgs) :
    (sessionInit ranges fileSize args).shared
      = ⟨⟨missingSlices ranges args.start (args.targetEnd fileSize), 1, maxSessionLinkHeals, ranges,
          []⟩, false, 0, 0, 0⟩ ∧
    ∃ workers ≤ max args.maxParallelStreams 1,
      (sessionInit ranges fileSize args).tasks = List.replicate workers (.at_ .top) := by
  unfold sessionInit downloaderInit
  split
  · rename_i hnone
    exact ⟨by rw [hnone]; rfl, 0, Nat.zero_le _, rfl⟩
  · exact ⟨rfl, _, Nat.le_refl _, List.map_replicate⟩

theorem within_init (ranges : ByteRanges) (fileSize : Nat) (args : DownloaderArgs) :
    Within (Set.Ico args.start (args.targetEnd fileSize) \ ranges.bytes).ncard
      (sessionInit ranges fileSize args) := by
  obtain ⟨hshared, workers, -, htasks⟩ := sessionInit_shape ranges fileSize args
  have htop : ∀ l ∈ (sessionInit ranges fileSize args).tasks, l = .at_ .top := fun l hl =>
    List.eq_of_mem_replicate (htasks ▸ hl)
  have hsum : ∀ v : Fetcher → Nat, v (.at_ .top) = 0 →
      ((sessionInit ranges fileSize args).tasks.map v).sum = 0 := by
    intro v hv
    rw [htasks, List.map_replicate, hv, List.sum_replicate, smul_zero]
  refine ⟨?_, fun l hl => ?_, fun l hl => ?_, ?_, fun l hl => ?_, ?_, ?_, ?_⟩
  · rw [hshared]
    exact ⟨(missingSlices_separated _ _ _).lt, fun c hc => absurd hc List.not_mem_nil, 0,
      Nat.zero_le 4, rfl⟩
  · rw [htop l hl]
    exact fun c hc => absurd hc List.not_mem_nil
  · rw [htop l hl]
    trivial
  · rw [hsum Fetcher.holds rfl, hshared]
    rfl
  · rw [htop l hl]
    exact fun h => absurd h Bool.noConfusion
  · rw [hsum Fetcher.uncharged rfl, hshared]
    rfl
  · rw [hsum Fetcher.spare rfl, hshared, ← lengths_missingSlices]
    exact Nat.le_of_eq (Nat.zero_add _)
  · rw [hsum Fetcher.credit rfl, hshared]
    exact Nat.le_refl _

/-! ## A worker that has not ended can go on -/

/-- A call of the worker can return, unless it waits for the lock. -/
theorem returns_or_asks (base : Nat) (g : Fetching) (l : Fetcher) (h : l.ended = false) :
    (∃ a, a.isReturn = true ∧ (l.act base g a).isSome = true) ∨
      g.locked = true ∧ ∃ c retries, l = .asking c retries := by
  cases l with
  | at_ w =>
    left
    cases w with
    | top =>
      refine ⟨.work .pop, rfl, ?_⟩
      simp only [Fetcher.act, Worker.act]
      cases g.base.queue <;> rfl
    | trying c retries => exact ⟨.send, rfl, rfl⟩
    | body c retries pos => exact ⟨.work .bodyEnd, rfl, rfl⟩
    | splitting c retries =>
      refine ⟨.work .split, rfl, ?_⟩
      simp only [Fetcher.act, Worker.act]
      rw [if_neg (by decide)]
      split <;> rfl
    | growing => exact ⟨.work .grow, rfl, rfl⟩
    | exited => exact absurd h Bool.noConfusion
    | stopped c failed => exact absurd h Bool.noConfusion
  | requested c retries => exact Or.inl ⟨.failed true, rfl, rfl⟩
  | asking c retries =>
    cases hlocked : g.locked with
    | true => exact Or.inr ⟨rfl, c, retries, rfl⟩
    | false =>
      refine Or.inl ⟨.lock, rfl, ?_⟩
      rw [Fetcher.act, hlocked]
      rfl
  | checking c retries =>
    refine Or.inl ⟨.check, rfl, ?_⟩
    rw [Fetcher.act]
    split <;> rfl
  | refreshing c retries => exact Or.inl ⟨.refresh true, rfl, rfl⟩
  | refreshed c retries => exact Or.inl ⟨.charge, rfl, rfl⟩

theorem step_isSome {base : Nat} {p : Pool Fetching Fetcher} {l : Fetcher} {a : FetchStep}
    (hl : l ∈ p.tasks) (ha : (l.act base p.shared a).isSome = true) :
    ∃ i, (fetchers base p (i, a)).isSome = true := by
  obtain ⟨i, hi⟩ := List.mem_iff_getElem?.mp hl
  refine ⟨i, ?_⟩
  unfold fetchers Pool.step
  simp only [hi]
  exact Option.isSome_map.trans ha

/-- **No deadlock**: while a worker has not ended, a call of some worker can return.  If all that are
    left wait for the lock, the one that has it does not. -/
theorem progress (base : Nat) {missing : Nat} {p : Pool Fetching Fetcher} (hp : Within missing p)
    {l : Fetcher} (hl : l ∈ p.tasks) (h : l.ended = false) :
    ∃ e, e.2.isReturn = true ∧ (fetchers base p e).isSome = true := by
  have hmoves : ∀ k ∈ p.tasks, ∀ a, a.isReturn = true → (k.act base p.shared a).isSome = true →
      ∃ e, e.2.isReturn = true ∧ (fetchers base p e).isSome = true := by
    intro k hk a hret ha
    obtain ⟨i, hi⟩ := step_isSome hk ha
    exact ⟨(i, a), hret, hi⟩
  rcases returns_or_asks base p.shared l h with ⟨a, hret, ha⟩ | ⟨hlocked, -⟩
  · exact hmoves l hl a hret ha
  · have hsum : (p.tasks.map Fetcher.holds).sum ≠ 0 := by
      rw [hp.lock, hlocked]
      exact Nat.one_ne_zero
    obtain ⟨k, hk, hholds⟩ : ∃ k ∈ p.tasks, k.holds ≠ 0 := by
      by_contra hno
      push Not at hno
      refine hsum (List.sum_eq_zero fun n hn => ?_)
      obtain ⟨k, hk, rfl⟩ := List.mem_map.mp hn
      exact hno k hk
    have hended : k.ended = false := by
      cases k with
      | at_ w => exact absurd rfl hholds
      | requested _ _ | asking _ _ | checking _ _ | refreshing _ _ | refreshed _ _ => rfl
    rcases returns_or_asks base p.shared k hended with ⟨a, hret, ha⟩ | ⟨-, c, retries, rfl⟩
    · exact hmoves k hk a hret ha
    · exact absurd rfl hholds

/-! ## Against the coarser model -/

/-- A worker inside the answer to its GET is one that has not had it. -/
def Fetcher.erase : Fetcher → Worker
  | .at_ w => w
  | .requested c retries => .trying c retries
  | .asking c retries => .trying c retries
  | .checking c retries => .trying c retries
  | .refreshing c retries => .trying c retries
  | .refreshed c retries => .trying c retries

def erase (p : Pool Fetching Fetcher) : Pool Shared Worker :=
  ⟨p.shared.base, p.tasks.map Fetcher.erase⟩

/-- A step is one of `Worker.act`, or nothing happens there yet. -/
theorem erase_act {base : Nat} {g g' : Fetching} {l l' : Fetcher} {a : FetchStep} (hl : Ready g l)
    (h : l.act base g a = some (g', l')) :
    (∃ b, l.erase.act base g.base b = some (g'.base, l'.erase)) ∨
      g'.base = g.base ∧ l'.erase = l.erase := by
  cases fetches_of_act h with
  | work w w' b g' _ hact => exact Or.inl ⟨b, hact⟩
  | answer c retries w' b g' _ hact => exact Or.inl ⟨b, hact⟩
  | refuse c retries => exact Or.inl ⟨.httpError false, rfl⟩
  | usedUp c retries _ => exact Or.inl ⟨.httpError false, rfl⟩
  | refreshFails c retries => exact Or.inl ⟨.httpError false, rfl⟩
  | charge c retries =>
    have hleft : 0 < g.base.healRemaining := hl.granted rfl
    refine Or.inl ⟨.httpError true, ?_⟩
    show (if 0 < g.base.healRemaining then _ else none) = some (_, Worker.trying c 0)
    rw [if_pos hleft, fetchSub, if_neg (Nat.ne_of_gt hleft)]
  | abortGet c retries => exact Or.inl ⟨.cancel, rfl⟩
  | abortLock c retries => exact Or.inl ⟨.cancel, rfl⟩
  | abortRefresh c retries => exact Or.inl ⟨.cancel, rfl⟩
  | send _ _ | ask _ _ | lock _ _ _ | check _ _ _ | refresh _ _ => exact Or.inr ⟨rfl, rfl⟩

/-- **The session refines the pool of `Worker.act`**: with the calls inside a GET left out, a run
    of one is a run of the other. -/
theorem erase_run {missing base : Nat} (hbase : 1 ≤ base) :
    ∀ (es : List (Nat × FetchStep)) (p q : Pool Fetching Fetcher), Within missing p →
      run (fetchers base) p es = some q →
      ∃ es', run (Pool.step (Worker.act base)) (erase p) es' = some (erase q)
  | [], p, q, _, hr => by
    obtain rfl : p = q := by simpa using hr
    exact ⟨[], rfl⟩
  | e :: es, p, q, hp, hr => by
    obtain ⟨t, ht, hr'⟩ := run_cons hr
    obtain ⟨es', hes'⟩ := erase_run hbase es t q (within_step hbase hp ht).1 hr'
    obtain ⟨l, g', l', hl, hact, rfl⟩ := Pool.step_eq_some ht
    have hmem : l ∈ p.tasks := List.mem_of_getElem? hl
    have hget : (erase p).tasks[e.1]? = some l.erase := by
      show (p.tasks.map Fetcher.erase)[e.1]? = _
      rw [List.getElem?_map, hl]
      rfl
    have hset : (erase ⟨g', p.tasks.set e.1 l'⟩ : Pool Shared Worker)
        = ⟨g'.base, (erase p).tasks.set e.1 l'.erase⟩ := by
      show (⟨g'.base, (p.tasks.set e.1 l').map Fetcher.erase⟩ : Pool Shared Worker) = _
      rw [List.map_set]
      rfl
    rcases erase_act (hp.ready hmem) hact with ⟨b, hb⟩ | ⟨hsame, hstay⟩
    · refine ⟨(e.1, b) :: es', ?_⟩
      have hstep : Pool.step (Worker.act base) (erase p) (e.1, b)
          = some (erase ⟨g', p.tasks.set e.1 l'⟩) := by
        unfold Pool.step
        simp only [hget]
        rw [hset]
        exact congrArg _ hb
      show (Pool.step (Worker.act base) (erase p) (e.1, b)).bind _ = _
      rw [hstep]
      exact hes'
    · refine ⟨es', ?_⟩
      have hskip : erase ⟨g', p.tasks.set e.1 l'⟩ = erase p := by
        obtain ⟨hlt, hi⟩ := List.getElem?_eq_some_iff.mp hget
        rw [hset, hsame, hstay, ← hi, List.set_getElem_self]
        rfl
      rw [← hskip]
      exact hes'

/-! ## The bounds -/

/-- A refresh that is not charged yet still has its budget. -/
theorem uncharged_le {missing : Nat} {p : Pool Fetching Fetcher} (hp : Within missing p) :
    (p.tasks.map Fetcher.uncharged).sum ≤ p.shared.base.healRemaining := by
  by_cases hnone : ∀ l ∈ p.tasks, l.uncharged = 0
  · have hzero : (p.tasks.map Fetcher.uncharged).sum = 0 := by
      refine List.sum_eq_zero fun n hn => ?_
      obtain ⟨l, hl, rfl⟩ := List.mem_map.mp hn
      exact hnone l hl
    omega
  · push Not at hnone
    obtain ⟨l, hl, hun⟩ := hnone
    have hgranted : l.granted = true := by
      cases l with
      | refreshed c retries => rfl
      | at_ _ | requested _ _ | asking _ _ | checking _ _ | refreshing _ _ => exact absurd rfl hun
    have hleft := hp.granted l hl hgranted
    have hle : (p.tasks.map Fetcher.uncharged).sum ≤ (p.tasks.map Fetcher.holds).sum := by
      refine List.sum_le_sum fun k _ => ?_
      cases k with
      | refreshed c retries => exact Nat.le_refl 1
      | at_ _ | requested _ _ | asking _ _ | checking _ _ | refreshing _ _ => exact Nat.zero_le _
    have hlock := hp.lock
    have hone := Bool.toNat_le p.shared.locked
    omega

theorem stepsLeft_init (ranges : ByteRanges) (fileSize : Nat) (args : DownloaderArgs) :
    stepsLeft (sessionInit ranges fileSize args)
      ≤ 26 * (Set.Ico args.start (args.targetEnd fileSize) \ ranges.bytes).ncard + 72
        + max args.maxParallelStreams 1 := by
  obtain ⟨hshared, workers, hworkers, htasks⟩ := sessionInit_shape ranges fileSize args
  have hsum : ((sessionInit ranges fileSize args).tasks.map fun l => 26 * l.spare + l.steps).sum
      = workers := by
    rw [htasks, List.map_replicate, List.sum_replicate]
    exact Nat.mul_one workers
  have hheals : 24 * maxSessionLinkHeals = 72 := rfl
  rw [stepsLeft, hsum, hshared, ← lengths_missingSlices]
  show 26 * lengths (missingSlices ranges args.start (args.targetEnd fileSize))
    + 24 * maxSessionLinkHeals + workers ≤ _
  omega

/-- The events of a run that are not data. -/
def stepCount (es : List (Nat × FetchStep)) : Nat :=
  (es.map fun e => if e.2.isPiece then 0 else 1).sum

/-- A budget that is charged was not used up. -/
theorem charge_in_budget {missing base : Nat} {p q : Pool Fetching Fetcher} {i : Nat}
    (hp : Within missing p) (h : fetchers base p (i, .charge) = some q) :
    q.shared.base.healRemaining + 1 = p.shared.base.healRemaining := by
  obtain ⟨l, l', hl, hact, -, -, -, -⟩ := Pool.frame h
  have hready := hp.ready (List.mem_of_getElem? hl)
  generalize q.shared = g' at hact ⊢
  cases fetches_of_act hact with
  | charge c retries => exact fetchSub_of_pos (hready.granted rfl)

/-- **Retries and heals are bounded.**  In every state of every session: the budget is not used up
    when it is charged, at most `MAX_SESSION_LINK_HEALS` refreshes have succeeded, at most three GETs
    were sent for each popped chunk and nine more, and no more chunks popped than bytes were
    missing.  Data apart, a session takes a bounded number of steps, and as long as a worker has not
    ended some call can return; so all workers end when every call returns. -/
theorem session_is_bounded (ranges : ByteRanges) (fileSize : Nat) (args : DownloaderArgs)
    (hbase : 1 ≤ args.baseChunk) (es : List (Nat × FetchStep)) (p : Pool Fetching Fetcher)
    (h : run (fetchers args.baseChunk) (sessionInit ranges fileSize args) es = some p) :
    (∀ i q, fetchers args.baseChunk p (i, .charge) = some q →
      q.shared.base.healRemaining + 1 = p.shared.base.healRemaining) ∧
    p.shared.refreshes ≤ maxSessionLinkHeals ∧
    p.shared.gets ≤ 3 * p.shared.pops + 9 ∧
    p.shared.pops ≤ (Set.Ico args.start (args.targetEnd fileSize) \ ranges.bytes).ncard ∧
    stepCount es ≤ 26 * (Set.Ico args.start (args.targetEnd fileSize) \ ranges.bytes).ncard + 72
      + max args.maxParallelStreams 1 ∧
    ((∀ e, e.2.isReturn = true → fetchers args.baseChunk p e = none) →
      ∀ l ∈ p.tasks, l.ended = true) := by
  have hinit := within_init ranges fileSize args
  have hp := run_inv' (fun s e t hs ht => (within_step hbase hs ht).1) es _ p hinit h
  have hcost := run_cost (fun s e t hs ht => within_step hbase hs ht) es _ p hinit h
  refine ⟨fun i q hq => charge_in_budget hp hq, ?_, ?_, ?_, ?_, ?_⟩
  · have hrefreshes := hp.refreshes
    have huncharged := uncharged_le hp
    omega
  · have hgets := hp.gets
    omega
  · have hbytes := hp.bytes
    omega
  · have hleft := stepsLeft_init ranges fileSize args
    unfold stepCount
    omega
  · intro hstuck l hl
    by_contra hended
    obtain ⟨e, hret, hsome⟩ := progress args.baseChunk hp hl (Bool.eq_false_iff.mpr hended)
    rw [hstuck e hret] at hsome
    exact Bool.noConfusion hsome

/-- Ten bytes for two workers in chunks of four. -/
def tenBytesForTwo : DownloaderArgs := ⟨0, 10, 4, 0, 2⟩

/-- Both links have expired: the first worker heals it and the second, which was waiting for the
    lock, uses the next heal. -/
def twoHeals : List (Nat × FetchStep) :=
  [(0, .work .pop), (1, .work .pop), (0, .send), (1, .send), (0, .failed true), (1, .failed true),
    (0, .lock), (0, .check), (0, .refresh true), (0, .charge), (1, .lock), (1, .check),
    (1, .refresh true), (0, .send), (1, .charge)]

/-- Where they are then: three GETs for two chunks, and both heals used. -/
def twiceHealed : Pool Fetching Fetcher :=
  ⟨⟨⟨[(8, 10)], 1, 1, ByteRanges.new, []⟩, false, 2, 3, 2⟩,
    [.requested (0, 4) 0, .at_ (.trying (4, 8) 0)]⟩

theorem session_is_bounded_twoHeals :
    run (fetchers 4) (sessionInit ByteRanges.new 10 tenBytesForTwo) twoHeals = some twiceHealed ∧
    twiceHealed.shared.refreshes ≤ maxSessionLinkHeals ∧
    twiceHealed.shared.gets ≤ 3 * twiceHealed.shared.pops + 9 ∧
    twiceHealed.shared.pops ≤
      (Set.Ico 0 (tenBytesForTwo.targetEnd 10) \ ByteRanges.new.bytes).ncard := by
  have hrun : run (fetchers 4) (sessionInit ByteRanges.new 10 tenBytesForTwo) twoHeals =
      some twiceHealed := rfl
  have h := session_is_bounded ByteRanges.new 10 tenBytesForTwo (by decide) twoHeals twiceHealed hrun
  exact ⟨hrun, h.2.1, h.2.2.1, h.2.2.2.1⟩

end RdRs.Cache

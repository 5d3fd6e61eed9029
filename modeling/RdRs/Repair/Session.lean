/-
  `repair/engine/mod.rs`, `repair/engine/passive_head.rs` — a repair session: which keys it repairs,
  and in which order.

  1. **Program** — `runSessionImpl` drains the queue, appends the candidates of the periodic scan and
     of the passive HEAD check, sorts, drops repeats, and repairs key by key until shutdown.  What it
     does is the list of keys it calls `repair_one_torrent` for.
  2. **Specification** — `HonoursQueue`: every key once, queued keys first and in queue order, the
     front of the queue before everything else.
  3. **The crux** — the sort forgets the queue.  What is repaired is one strictly increasing list
     (`sortDedup_sorted`) with the right members (`mem_sortDedup`), so the order of the queue
     survives exactly if the queue was increasing and below the other candidates already
     (`honoursQueue_iff`).
-/
import RdRs.Repair.RepairOne
import RdRs.Torrent.Mirror

set_option linter.unusedVariables false

namespace RdRs.Repair

open RdRs.Rd RdRs.Programs RdRs.Torrent

/-! ## The candidates -/

/-- What the passive check reads of the configuration. -/
structure HeadCheckConfig where
  headCheckEnabled : Bool
  headCheckMinIntervalMins : Nat
  headUnreachableThreshold : Nat

/-- What a session finds outside the registry. -/
structure Session where
  /-- `repair.enable` -/
  enable : Bool
  ignoreRepairDisabled : Bool
  periodic : Bool
  headCheck : HeadCheckConfig
  /-- nanoseconds since the last probe of a key (`passive_head_last`) -/
  sinceLast : String → Option Nat
  /-- the answers to the probe of a key -/
  outside : String → Outside
  /-- `shutdown.is_cancelled()` before the i-th repair -/
  cancelled : Nat → Bool

/-- The periodic scan. -/
def periodicKeys (torrents : Torrents) : List String :=
  (torrents.entries.filter fun e =>
    e.2.unrepairableReason.isNone && periodicRepairEligible e.2).map fun e => e.2.accessKey

/-- The last probe of the key is recent enough to skip it. -/
def probedRecently (s : Session) (key : String) : Bool :=
  match s.sinceLast key with
  | none => false
  | some elapsed => decide (elapsed < max s.headCheck.headCheckMinIntervalMins 1 * 60 * 10 ^ 9)

/-- `head_candidates`: torrents that are `ok` and have something to probe. -/
def headCandidates (s : Session) (torrents : Torrents) : List String :=
  (torrents.entries.filter fun e =>
    e.2.unrepairableReason.isNone && !periodicRepairEligible e.2 && e.2.state == .ok &&
      (match e.2.info with
      | none => false
      | some info => passiveHeadProbeSlotCount info != 0) &&
      !probedRecently s e.2.accessKey).map fun e => e.2.accessKey

/-- The probe finds enough unreachable links. -/
def unreachable (s : Session) (torrents : Torrents) (key : String) : Bool :=
  match (torrents.lookup key).bind ManagedTorrent.info with
  | none => false
  | some info =>
    match (checkHeadUnreachable (s.outside key) info).value with
    | .error _ => false
    | .ok n => decide (n ≥ max s.headCheck.headUnreachableThreshold 1)

/-- `append_passive_head_candidates` -/
def passiveHeadKeys (s : Session) (torrents : Torrents) : List String :=
  if s.headCheck.headCheckEnabled then (headCandidates s torrents).filter (unreachable s torrents)
  else []

/-- What a session adds to the keys of the queue. -/
def candidates (s : Session) (torrents : Torrents) : List String :=
  if s.periodic then periodicKeys torrents ++ passiveHeadKeys s torrents else []

/-! ## The session -/

/-- `keys.sort(); keys.dedup();` -/
def sortDedup (keys : List String) : List String :=
  (keys.insertionSort (· ≤ ·)).destutter (· ≠ ·)

/-- The keys of a session, in the order of repair. -/
def sessionKeys (s : Session) (m : Manager) : List String :=
  sortDedup (m.repairQueue ++ candidates s m.torrents)

/-- The loop over the keys, from the i-th on, until shutdown. -/
def repairUntil (cancelled : Nat → Bool) : Nat → List String → List String
  | _, [] => []
  | i, key :: keys => if cancelled i then [] else key :: repairUntil cancelled (i + 1) keys

/-- `run_session_impl`: the keys it calls `repair_one_torrent` for, in order. -/
def runSessionImpl (s : Session) (m : Manager) : List String :=
  if !s.ignoreRepairDisabled && !s.enable then []
  else repairUntil s.cancelled 0 (sessionKeys s m)

/-- `repair_peek_front` -/
def repairPeekFront (m : Manager) : Option String := m.repairQueue.head?

theorem repairUntil_eq {cancelled : Nat → Bool} (h : ∀ i, cancelled i = false) :
    ∀ (keys : List String) (i : Nat), repairUntil cancelled i keys = keys
  | [], _ => rfl
  | key :: keys, i => by
    rw [repairUntil, h i, if_neg Bool.false_ne_true, repairUntil_eq h keys (i + 1)]

/-! ## Sorted without repeats -/

theorem sortDedup_eq (keys : List String) :
    sortDedup keys = (keys.insertionSort (· ≤ ·)).dedup :=
  (List.pairwise_insertionSort (· ≤ ·) keys).destutter_eq_dedup

theorem mem_sortDedup {keys : List String} {k : String} : k ∈ sortDedup keys ↔ k ∈ keys := by
  rw [sortDedup_eq, List.mem_dedup, List.mem_insertionSort]

theorem nodup_sortDedup (keys : List String) : (sortDedup keys).Nodup := by
  rw [sortDedup_eq]
  exact List.nodup_dedup _

/-- Every key comes once, however often it was queued or picked. -/
theorem count_sortDedup (keys : List String) (k : String) :
    (sortDedup keys).count k = if k ∈ keys then 1 else 0 := by
  rw [(nodup_sortDedup keys).count]
  simp only [mem_sortDedup]

/-- Sorted and without repeats is strictly increasing. -/
theorem sortDedup_sorted (keys : List String) : (sortDedup keys).Pairwise (· < ·) := by
  have hle : (sortDedup keys).Pairwise (· ≤ ·) := by
    rw [sortDedup_eq]
    exact (List.pairwise_insertionSort (· ≤ ·) keys).sublist (List.dedup_sublist _)
  exact hle.imp₂ (fun a b hab hne => lt_of_le_of_ne hab hne) (nodup_sortDedup keys)

/-- In an increasing list positions are in the order of the elements. -/
theorem idxOf_lt_iff {r : List String} (hr : r.Pairwise (· < ·)) {a b : String} (ha : a ∈ r)
    (hb : b ∈ r) : r.idxOf a < r.idxOf b ↔ a < b := by
  have hmono : ∀ {a b : String}, a ∈ r → b ∈ r → r.idxOf a < r.idxOf b → a < b := by
    intro a b ha hb h
    have hlt := List.pairwise_iff_getElem.mp hr (r.idxOf a) (r.idxOf b) (List.idxOf_lt_length_iff.mpr ha)
      (List.idxOf_lt_length_iff.mpr hb) h
    rwa [List.getElem_idxOf, List.getElem_idxOf] at hlt
  constructor
  · exact hmono ha hb
  · intro hab
    rcases Nat.lt_trichotomy (r.idxOf a) (r.idxOf b) with h | h | h
    · exact h
    · exact absurd ((List.idxOf_inj ha).mp h) hab.ne
    · exact absurd (hmono hb ha h) hab.asymm

/-! ## The queue -/

/-- **The queue is honoured** by a list of repairs: each key once, queued keys before those that are
    only candidates, queued keys in queue order, and the front of the queue first. -/
structure HonoursQueue (queue candidates repaired : List String) : Prop where
  once : ∀ k, repaired.count k = if k ∈ queue ∨ k ∈ candidates then 1 else 0
  before : ∀ q ∈ queue, ∀ c ∈ candidates, c ∉ queue → repaired.idxOf q < repaired.idxOf c
  inOrder : queue.Sublist repaired
  front : ∀ k, queue.head? = some k → repaired.head? = some k

/-- The queue is increasing, and below every key that is only a candidate. -/
def QueueSorted (queue candidates : List String) : Prop :=
  queue.Pairwise (· < ·) ∧ ∀ q ∈ queue, ∀ c ∈ candidates, c ∉ queue → q < c

/-- The front of a sorted queue comes first of all. -/
theorem head_sortDedup {queue candidates : List String} (h : QueueSorted queue candidates)
    {k : String} (hk : queue.head? = some k) : (sortDedup (queue ++ candidates)).head? = some k := by
  obtain ⟨rest, rfl⟩ : ∃ rest, queue = k :: rest := List.head?_eq_some_iff.mp hk
  have hmem : k ∈ sortDedup (k :: rest ++ candidates) := mem_sortDedup.mpr List.mem_cons_self
  have hsorted := sortDedup_sorted (k :: rest ++ candidates)
  cases hr : sortDedup (k :: rest ++ candidates) with
  | nil =>
    rw [hr] at hmem
    exact absurd hmem List.not_mem_nil
  | cons first others =>
    rw [hr] at hmem hsorted
    rcases List.mem_cons.mp hmem with rfl | hlater
    · rfl
    -- what stands first is below `k`, but nothing of the queue or the candidates is
    · have hlt : first < k := (List.pairwise_cons.mp hsorted).1 k hlater
      have hfirst : first ∈ k :: rest ++ candidates := by
        rw [← mem_sortDedup, hr]
        exact List.mem_cons_self
      have hge : ¬first < k := by
        by_cases hq : first ∈ k :: rest
        · rcases List.mem_cons.mp hq with rfl | hq
          · exact lt_irrefl first
          · exact ((List.pairwise_cons.mp h.1).1 first hq).asymm
        · rcases List.mem_append.mp hfirst with hin | hin
          · exact absurd hin hq
          · exact (h.2 k List.mem_cons_self first hin hq).asymm
      exact absurd hlt hge

/-- **A session honours the queue** exactly if the queue is sorted. -/
theorem honoursQueue_iff (s : Session) (m : Manager)
    (hrun : s.ignoreRepairDisabled = true ∨ s.enable = true) (hshutdown : ∀ i, s.cancelled i = false) :
    (HonoursQueue m.repairQueue (candidates s m.torrents) (runSessionImpl s m) ∧
      ∀ k, repairPeekFront m = some k → (runSessionImpl s m).head? = some k) ↔
    QueueSorted m.repairQueue (candidates s m.torrents) := by
  have hrepaired : runSessionImpl s m = sortDedup (m.repairQueue ++ candidates s m.torrents) := by
    have henabled : (!s.ignoreRepairDisabled && !s.enable) = false := by
      rcases hrun with h | h
      · rw [h]
        rfl
      · rw [h, Bool.not_true, Bool.and_false]
    rw [runSessionImpl, henabled, if_neg Bool.false_ne_true, repairUntil_eq hshutdown]
    rfl
  have hsorted := sortDedup_sorted (m.repairQueue ++ candidates s m.torrents)
  have hmem : ∀ k, k ∈ sortDedup (m.repairQueue ++ candidates s m.torrents) ↔
      k ∈ m.repairQueue ∨ k ∈ candidates s m.torrents := by
    intro k
    rw [mem_sortDedup, List.mem_append]
  rw [hrepaired]
  constructor
  · rintro ⟨⟨-, hbefore, hinOrder, -⟩, -⟩
    refine ⟨hsorted.sublist hinOrder, fun q hq c hc hnot => ?_⟩
    exact (idxOf_lt_iff hsorted ((hmem q).mpr (Or.inl hq)) ((hmem c).mpr (Or.inr hc))).mp
      (hbefore q hq c hc hnot)
  · intro h
    refine ⟨⟨fun k => ?_, fun q hq c hc hnot => ?_, ?_, fun k hk => head_sortDedup h hk⟩,
      fun k hk => head_sortDedup h hk⟩
    · rw [count_sortDedup]
      simp only [List.mem_append]
    · exact (idxOf_lt_iff hsorted ((hmem q).mpr (Or.inl hq)) ((hmem c).mpr (Or.inr hc))).mpr
        (h.2 q hq c hc hnot)
    · have hnodup : m.repairQueue.Nodup := h.1.imp fun hab => hab.ne
      have hsub : m.repairQueue.Subperm (sortDedup (m.repairQueue ++ candidates s m.torrents)) :=
        hnodup.subperm fun k hk => (hmem k).mpr (Or.inl hk)
      exact List.sublist_of_subperm_of_pairwise hsub (h.1.imp fun hab => hab.le)
        (hsorted.imp fun hab => hab.le)

/-- A session woken by the queue: no scan, no shutdown. -/
def woken : Session where
  enable := true
  ignoreRepairDisabled := false
  periodic := false
  headCheck := ⟨false, 60, 1⟩
  sinceLast := fun _ => none
  outside := fun _ => outOfTraffic
  cancelled := fun _ => false

/-- `enqueue_repair` of the first film. -/
def firstQueued : Manager :=
  ((enqueueRepair "HASH1/Film").eval performAlone (atRest ∅ ∅) fun _ => answering [] true).2.1

/-- Then `enqueue_repair_front` of the second. -/
def secondInFront : Manager :=
  ((enqueueRepairFront "HASH2/Film" false).eval performAlone firstQueued
    fun _ => answering [] true).2.1

/-- The second film was put in front, and the first is repaired first. -/
theorem front_key_repaired_last :
    repairPeekFront secondInFront = some "HASH2/Film" ∧
      runSessionImpl woken secondInFront = ["HASH1/Film", "HASH2/Film"] ∧
      ¬HonoursQueue secondInFront.repairQueue (candidates woken secondInFront.torrents)
        (runSessionImpl woken secondInFront) := by
  have hrun : runSessionImpl woken secondInFront = ["HASH1/Film", "HASH2/Film"] := by decide
  refine ⟨by decide, hrun, fun h => ?_⟩
  have hfront := h.front "HASH2/Film" (by decide)
  rw [hrun] at hfront
  exact absurd hfront (by decide)

/-- A third film is broken, the second is queued, and the first is put in front. -/
def inKeyOrder : Manager :=
  let third : ManagedTorrent := { soundFilm with accessKey := "HASH3/Film", state := .broken }
  let queued := ((enqueueRepair "HASH2/Film").eval performAlone
    (atRest (AList.singleton "HASH3/Film" third) ∅) fun _ => answering [] true).2.1
  ((enqueueRepairFront "HASH1/Film" false).eval performAlone queued
    fun _ => answering [] true).2.1

/-- A session with the periodic scan. -/
def scanning : Session := { woken with periodic := true }

/-- Two queued films and one that only the scan finds: the keys happen to be in order. -/
theorem honoursQueue_iff_inKeyOrder :
    inKeyOrder.repairQueue = ["HASH1/Film", "HASH2/Film"] ∧
      candidates scanning inKeyOrder.torrents = ["HASH3/Film"] ∧
      HonoursQueue inKeyOrder.repairQueue (candidates scanning inKeyOrder.torrents)
        (runSessionImpl scanning inKeyOrder) ∧
      (runSessionImpl scanning inKeyOrder).head? = some "HASH1/Film" := by
  have hqueue : inKeyOrder.repairQueue = ["HASH1/Film", "HASH2/Film"] := rfl
  have hscan : candidates scanning inKeyOrder.torrents = ["HASH3/Film"] := by decide
  have hsorted : QueueSorted inKeyOrder.repairQueue (candidates scanning inKeyOrder.torrents) := by
    rw [hqueue, hscan]
    refine ⟨by decide, fun q hq c hc _ => ?_⟩
    rw [List.mem_singleton] at hc
    subst hc
    rcases List.mem_cons.mp hq with rfl | hq
    · decide
    · rw [List.mem_singleton] at hq
      subst hq
      decide
  obtain ⟨hhonours, hfront⟩ := (honoursQueue_iff scanning inKeyOrder (Or.inr rfl) fun i => rfl).mpr
    hsorted
  exact ⟨hqueue, hscan, hhonours, hfront _ rfl⟩

end RdRs.Repair

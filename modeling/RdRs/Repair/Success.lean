/-
  What a successful cascade leaves on Real-Debrid.

  1. **Readiness** — `Magnet.ready` says of a magnet's answers alone that it is added, selected and
     found complete; each strategy's result is read off it (`react_ready`, `react_not_ready`).
  2. **Kept magnets** — a success has kept the magnet of strategy 1 or of strategy 3, whose guard is
     dismissed (`EndsKeeping`), or none (`executeCascade_success`).
  3. **Liveness** — `success_leaves_live_iff`: a kept magnet is live; without one the registry's ids
     are the old ones, which strategy 1 has deleted.
-/
import RdRs.Repair.Survival

set_option linter.unusedVariables false

namespace RdRs.Repair

open RdRs.Rd RdRs.Effects

/-! ## Which magnets are ready -/

/-- One of the polls to come finds the torrent ready, before one fails. -/
def pollReady (info : Nat → Except RdError TorrentInfo) : Nat → Nat → Bool
  | 0, _ => false
  | left + 1, attempt =>
    match info attempt with
    | .error _ => false
    | .ok i => infoIsReady i || pollReady info left (attempt + 1)

/-- The magnet is added, its files are selected, and one of three polls finds it ready. -/
def Magnet.ready (m : Magnet) : Bool :=
  match m.add, m.select with
  | .ok _, .ok () => pollReady m.info 3 0
  | _, _ => false

/-- Where the polls end ready, so does `info_ready`. -/
theorem infoReadyFrom_ready (m : Magnet) (id : String) (restrictCached : Bool) :
    ∀ left attempt, pollReady m.info left attempt = true →
      (infoReadyFrom m id restrictCached left attempt).value = .ok ⟨true, false⟩
  | 0, _, h => absurd h (by simp [pollReady])
  | left + 1, attempt, h => by
    rw [infoReadyFrom, bind_value, bind_value]
    rw [pollReady] at h
    cases hi : m.info attempt with
    | error e =>
      rw [hi] at h
      exact absurd h Bool.noConfusion
    | ok i =>
      rw [hi] at h
      by_cases hr : infoIsReady i = true
      · simp [hr]
      · simp only [hr, Bool.false_eq_true, if_false]
        simp only [hr, Bool.false_or] at h
        exact infoReadyFrom_ready m id restrictCached left (attempt + 1) h

/-- Where the polls do not end ready, no outcome of `info_ready` is. -/
theorem infoReadyFrom_not_ready (m : Magnet) (id : String) (restrictCached : Bool) :
    ∀ left attempt, pollReady m.info left attempt = false →
      ∀ out, (infoReadyFrom m id restrictCached left attempt).value = .ok out → out.isReady = false
  | 0, _, _, out, hout => by
    obtain rfl := Except.ok.inj hout
    rfl
  | left + 1, attempt, h, out, hout => by
    rw [infoReadyFrom, bind_value, bind_value] at hout
    rw [pollReady] at h
    split at hout
    · exact absurd hout (by simp)
    · rename_i i hi
      rw [hi] at h
      obtain ⟨hr, hrest⟩ := Bool.or_eq_false_iff.mp h
      simp only [hr, Bool.false_eq_true, if_false] at hout
      exact infoReadyFrom_not_ready m id restrictCached left (attempt + 1) hrest out hout

/-- An error of Real-Debrid is no success. -/
theorem mapRd_ne_success (e : RdError) (ids : Option (List String)) : mapRd e ≠ .success ids := by
  unfold mapRd
  split
  · exact CascadeOutcome.noConfusion
  · split
    · exact CascadeOutcome.noConfusion
    · exact CascadeOutcome.noConfusion

/-- The end of a failed cascade is no success. -/
theorem finishFailure_ne_success (mt : ManagedTorrent) (ids : Option (List String)) :
    finishFailure mt ≠ .success ids := by
  unfold finishFailure
  split
  · nofun
  · nofun

theorem deleteNotCached_ne_success (m : Magnet) (id : String) (ids : Option (List String)) :
    (deleteNotCached m id).value ≠ .success ids := by
  rw [deleteNotCached, bind_value]
  split
  · exact CascadeOutcome.noConfusion
  · split
    · exact CascadeOutcome.noConfusion
    · exact mapRd_ne_success _ ids

section Readiness

variable {m : Magnet} {hash files : String} {restrictCached : Bool}

/-- A magnet that is ready is added, selected and found ready. -/
theorem openMagnet_ready (h : m.ready = true) (hash files : String) (restrictCached : Bool) :
    ∃ id, m.add = .ok id ∧ m.select = .ok () ∧
      (openMagnet m hash files restrictCached).value = .checked id (.ok ⟨true, false⟩) := by
  unfold Magnet.ready at h
  split at h
  · rename_i id hadd hsel
    refine ⟨id, hadd, hsel, ?_⟩
    rw [openMagnet, hadd]
    simp only [bind_value, hsel, pure_value]
    rw [infoReady, infoReadyFrom_ready m id restrictCached 3 0 h]
  · exact absurd h (by decide)

/-- A magnet that is not ready is never found so. -/
theorem openMagnet_not_ready (h : m.ready = false) {id : String} {out : InfoReadyOutcome}
    (hv : (openMagnet m hash files restrictCached).value = .checked id (.ok out)) :
    out.isReady = false := by
  unfold openMagnet at hv
  split at hv
  · exact absurd hv (by simp)
  · rename_i id' hadd
    simp only [bind_value] at hv
    split at hv
    · exact absurd hv (by simp)
    · rename_i hsel
      simp only [bind_value, pure_value, Probe.checked.injEq] at hv
      have hpoll : pollReady m.info 3 0 = false := by
        simpa [Magnet.ready, hadd, hsel] using h
      exact infoReadyFrom_not_ready m id' restrictCached 3 0 hpoll out hv.2

/-- The result is that of the continuation at what the magnet shows. -/
theorem withMagnet_value {β : Type} (k : Probe → Traced Ev β) :
    (withMagnet m hash files restrictCached k).value
      = (k (openMagnet m hash files restrictCached).value).value := by
  rw [withMagnet, bind_value, bind_value]
  split
  · rfl
  · rfl
  · rfl

/-- A magnet that is not ready ends with what its failure makes of it. -/
theorem react_not_ready {β : Type} {P : β → Prop} {onError : RdError → β}
    {onReady : String → Traced Ev β} {exit : CascadeOutcome → β} {notReady : β}
    (h : m.ready = false) (herr : ∀ e, P (onError e))
    (hexit : ∀ o, (∀ ids, o ≠ .success ids) → P (exit o)) (hnot : P notReady) :
    P (withMagnet m hash files restrictCached (react m onError onReady exit notReady)).value := by
  rw [withMagnet_value]
  match hv : (openMagnet m hash files restrictCached).value with
  | .addFailed e | .selectFailed _ e | .checked _ (.error e) => exact herr e
  | .checked id (.ok out) =>
    have hr := openMagnet_not_ready h hv
    rw [react]
    simp only [hr, Bool.false_eq_true, if_false]
    split
    · exact hexit _ (deleteNotCached_ne_success m id)
    · exact hnot

theorem react_ready {β : Type} {onError : RdError → β} {onReady : String → Traced Ev β}
    {exit : CascadeOutcome → β} {notReady : β} (h : m.ready = true) :
    ∃ id, m.add = .ok id ∧
      (withMagnet m hash files restrictCached (react m onError onReady exit notReady)).value
        = (onReady id).value := by
  obtain ⟨id, hadd, -, hv⟩ := openMagnet_ready h hash files restrictCached
  refine ⟨id, hadd, ?_⟩
  rw [withMagnet_value, hv]
  rfl

end Readiness

/-! ## What a success has kept -/

/-- The first strategy succeeds with the id of a magnet that is ready. -/
theorem reinsert_ready {a : Answers} (h : (a.magnet .reinsert).ready = true) (mt : ManagedTorrent)
    (files : String) (restrictCached : Bool) :
    ∃ id, (a.magnet .reinsert).add = .ok id ∧
      (tryStrategy1Reinsert a mt files restrictCached).value = some (.success (some [id])) :=
  react_ready h

/-- The first strategy does not succeed with a magnet that is not ready. -/
theorem reinsert_not_ready {a : Answers} (h : (a.magnet .reinsert).ready = false)
    (mt : ManagedTorrent) (files : String) (restrictCached : Bool) (ids : Option (List String)) :
    (tryStrategy1Reinsert a mt files restrictCached).value ≠ some (.success ids) := by
  refine react_not_ready (P := fun r : Option CascadeOutcome => r ≠ some (.success ids)) h ?_ ?_ ?_
  · intro e he
    exact mapRd_ne_success e ids (Option.some.inj he)
  · intro o ho he
    exact ho ids (Option.some.inj he)
  · nofun

/-- Neither a ready magnet nor the success of the cascade. -/
def Unsuccessful (r : Except CascadeOutcome Bool) : Prop :=
  r ≠ .ok true ∧ ∀ ids, r ≠ .error (.success ids)

theorem unsuccessful_not_ready {m : Magnet} (h : m.ready = false) {hash files : String}
    {restrictCached : Bool} (onReady : String → Traced Ev (Except CascadeOutcome Bool)) :
    Unsuccessful (withMagnet m hash files restrictCached
      (react m deferOr onReady .error (.ok false))).value := by
  refine react_not_ready h ?_ ?_ ?_
  · intro e
    unfold deferOr
    split
    · exact ⟨nofun, nofun⟩
    · exact ⟨nofun, nofun⟩
  · intro o ho
    exact ⟨nofun, fun ids he => ho ids (Except.error.inj he)⟩
  · exact ⟨nofun, nofun⟩

/-- A magnet of strategies 2 and 4 counts exactly when it is ready, and never ends in success. -/
theorem probe_value (m : Magnet) (hash files : String) (restrictCached : Bool) :
    ((withMagnet m hash files restrictCached (probeReact m)).value = .ok true ↔ m.ready = true) ∧
    ∀ ids, (withMagnet m hash files restrictCached (probeReact m)).value
      ≠ .error (.success ids) := by
  cases h : m.ready with
  | true =>
    have hv : (withMagnet m hash files restrictCached (probeReact m)).value = .ok true := by
      obtain ⟨id, -, hv⟩ := react_ready (m := m) h
      exact hv
    rw [hv]
    exact ⟨by simp, nofun⟩
  | false =>
    have hn : Unsuccessful (withMagnet m hash files restrictCached (probeReact m)).value :=
      unsuccessful_not_ready h _
    exact ⟨by simp [hn.1], hn.2⟩

section Values

variable {a : Answers} {hash : String} {restrictCached : Bool}

/-- The file-by-file strategy never ends the cascade with a success. -/
theorem individualFiles_ne_success (ids : Option (List String)) :
    ∀ (files : List File) (i : Nat) (b : Bool),
      (individualFiles a hash restrictCached files i b).value ≠ .error (.success ids)
  | [], _, _ => nofun
  | f :: rest, i, b => by
    rw [individualFiles, bind_value]
    split
    · rename_i out hout
      rw [← hout]
      exact (probe_value _ _ _ _).2 ids
    · exact individualFiles_ne_success ids rest (i + 1) _

/-- Strategy 2 has fixed everything exactly when each file's magnet was ready. -/
theorem individualFiles_value : ∀ (files : List File) (i : Nat) (b r : Bool),
    (individualFiles a hash restrictCached files i b).value = .ok r →
      (r = true ↔ b = true ∧ ∀ j, j < files.length → (a.magnet (.file (i + j))).ready = true)
  | [], i, b, r, h => by
    obtain rfl := Except.ok.inj h
    simp
  | f :: rest, i, b, r, h => by
    rw [individualFiles, bind_value] at h
    split at h
    · exact absurd h nofun
    · rename_i fixed hfixed
      have hready := (probe_value (a.magnet (.file i)) hash (toString f.id) restrictCached).1
      rw [hfixed] at hready
      have hfix : fixed = true ↔ (a.magnet (.file i)).ready = true := by
        rw [← hready]
        exact ⟨fun h => h ▸ rfl, Except.ok.inj⟩
      rw [individualFiles_value rest (i + 1) _ r h, Bool.and_eq_true, hfix, and_assoc]
      refine and_congr_right fun _ => ?_
      constructor
      · rintro ⟨h0, hrest⟩ j hj
        cases j with
        | zero => exact h0
        | succ j =>
          have := hrest j (by simpa using hj)
          rwa [Nat.add_right_comm] at this
      · intro hall
        refine ⟨hall 0 (by simp), fun j hj => ?_⟩
        have := hall (j + 1) (by simpa using hj)
        rwa [← Nat.add_assoc, Nat.add_right_comm] at this

theorem batchDownload_ne_success (ids : Option (List String)) :
    ∀ (chunks : List (List Int)) (j n : Nat),
      (batchDownload a hash restrictCached chunks j n).value ≠ .error (.success ids)
  | [], _, _ => nofun
  | c :: rest, j, n => by
    rw [batchDownload, bind_value]
    split
    · rename_i out hout
      have := (probe_value (a.magnet (.batch j)) hash (joinIds c) restrictCached).2 ids
      rw [hout] at this
      intro h
      exact this (by rw [← Except.error.inj h])
    · exact batchDownload_ne_success ids rest (j + 1) _

end Values

/-! ## The account after a success -/

/-- A poll changes nothing at Real-Debrid. -/
theorem poll_step (w : World) {e : Ev} (h : e.IsPoll) : w.step e = w := by
  rcases h with rfl | ⟨id, rfl⟩
  · rfl
  · rfl

/-- A ready magnet that is kept: its calls, then the dismissed guard goes out of scope. -/
theorem withMagnet_kept_events {β : Type} {m : Magnet} (h : m.ready = true) {hash files : String}
    {restrictCached : Bool} {onError : RdError → β} {exit : CascadeOutcome → β} {notReady : β} :
    (withMagnet m hash files restrictCached (react m onError (keep exit) exit notReady)).events
      = (openMagnet m hash files restrictCached).events ++ [.dismiss, .guardDrop] := by
  obtain ⟨id, -, -, hv⟩ := openMagnet_ready h hash files restrictCached
  rw [withMagnet, bind_events, bind_events, hv]
  rfl

/-- The account gains the kept magnet and nothing is spawned for it. -/
theorem replay_kept {m : Magnet} (h : m.ready = true) {id : String} (hadd : m.add = .ok id)
    {hash files : String} {restrictCached : Bool} (w : World) :
    replay World.step w ((openMagnet m hash files restrictCached).events ++ [.dismiss, .guardDrop])
      = ⟨id :: w.live, none, w.spawned⟩ := by
  obtain ⟨id', hadd', hsel, -⟩ := openMagnet_ready h hash files restrictCached
  have hev : (openMagnet m hash files restrictCached).events
      = [.add hash (some id), .guardNew id, .select id files] ++
        (infoReady m id restrictCached).events := by
    rw [openMagnet, hadd]
    simp only [bind_events, emit_events, hsel, pure_events, List.append_nil]
    rfl
  have hpolls : ∀ w' : World, replay World.step w' (infoReady m id restrictCached).events = w' :=
    fun w' => replay_inv (P := Ev.IsPoll) (I := (· = w')) (fun v e hv he => hv ▸ poll_step v he) _ w'
      rfl (infoReadyFrom_emits m id restrictCached 3 0)
  rw [hev, replay_append, replay_append, hpolls]
  simp [replay, World.step, serverEffect, guardAfter]

/-- Strategy 3 is reached and its magnet is ready: some file's own magnet was not, a non-playable
    file is selected. -/
def ArchiveKept (a : Answers) (info : TorrentInfo) : Prop :=
  (∃ i, i < info.selectedFiles.length ∧ (a.magnet (.file i)).ready = false) ∧
    hasNonPlayableSelected info = true ∧ (a.magnet .archive).ready = true

/-- The cascade ends with the magnet of `slot` as the torrent's only new id, after calls for other
    magnets. -/
def EndsKeeping (slot : Slot) (a : Answers) (hash : String) (restrictCached : Bool)
    (es : List Ev) (ids : Option (List String)) : Prop :=
  (a.magnet slot).ready = true ∧ ∃ id files pre, (a.magnet slot).add = .ok id ∧ ids = some [id] ∧
    es = pre ++ ((openMagnet (a.magnet slot) hash files restrictCached).events
      ++ [.dismiss, .guardDrop]) ∧
    ∀ e ∈ pre, e.Within Set.univ (a.ids {s | s ≠ slot})

/-- When the batch stage succeeds, it hands on no ids. -/
theorem batchStage_success {a : Answers} {mt : ManagedTorrent} {info : TorrentInfo}
    {cfg : RepairConfig} {ids : Option (List String)}
    (h : (batchStage a mt info cfg).value = .success ids) : ids = none := by
  have hfail := finishFailure_ne_success mt ids
  unfold batchStage at h
  split at h
  · rw [bind_value] at h
    split at h
    · rename_i out hout
      obtain rfl : out = .success ids := h
      exact absurd hout (batchDownload_ne_success ids _ 0 0)
    · split at h
      · exact (CascadeOutcome.success.inj h).symm
      · exact absurd h hfail
  · exact absurd h hfail

section Archive

variable {a : Answers} {info : TorrentInfo} (hash : String) (restrictCached : Bool)

/-- The archive strategy keeps the id of a magnet that is ready. -/
theorem archiveAll_ready (hnp : hasNonPlayableSelected info = true)
    (hr : (a.magnet .archive).ready = true) :
    ∃ id, (a.magnet .archive).add = .ok id ∧
      (archiveAll a hash info restrictCached).value = .error (.success (some [id])) ∧
      (archiveAll a hash info restrictCached).events
        = (openMagnet (a.magnet .archive) hash "all" restrictCached).events
          ++ [.dismiss, .guardDrop] := by
  unfold archiveAll
  rw [if_pos hnp]
  obtain ⟨id, hadd, hv⟩ := react_ready (m := a.magnet .archive) hr
  exact ⟨id, hadd, hv, withMagnet_kept_events hr⟩

/-- Without one that is ready, the archive strategy does not succeed. -/
theorem archiveAll_not_ready
    (h : ¬ (hasNonPlayableSelected info = true ∧ (a.magnet .archive).ready = true))
    (ids : Option (List String)) :
    (archiveAll a hash info restrictCached).value ≠ .error (.success ids) := by
  unfold archiveAll
  split
  · rename_i hnp
    have hr : (a.magnet .archive).ready = false := by simpa [hnp] using h
    exact (unsuccessful_not_ready hr _).2 ids
  · nofun

end Archive

/-- Strategies 2 to 4 keep strategy 3's magnet or nothing. -/
theorem laterStrategies_success {a : Answers} {mt : ManagedTorrent} {info : TorrentInfo}
    {cfg : RepairConfig} {ids : Option (List String)}
    (h : (laterStrategies a mt info cfg).value = .success ids) :
    (ArchiveKept a info ∧ EndsKeeping .archive a mt.torrent.hash cfg.restrictToCached
        (laterStrategies a mt info cfg).events ids) ∨
    (¬ ArchiveKept a info ∧ ids = none) := by
  unfold laterStrategies at h ⊢
  rw [bind_value] at h
  rw [bind_events]
  match hv2 : (individualFiles a mt.torrent.hash cfg.restrictToCached info.selectedFiles 0
      true).value with
  | .error out =>
    rw [hv2] at h
    obtain rfl : out = .success ids := h
    exact absurd hv2 (individualFiles_ne_success ids _ 0 true)
  | .ok true =>
    rw [hv2] at h
    have hall := ((individualFiles_value _ 0 true true hv2).mp rfl).2
    refine Or.inr ⟨?_, (CascadeOutcome.success.inj h).symm⟩
    rintro ⟨⟨i, hi, hnot⟩, -⟩
    rw [← Nat.zero_add i, hall i hi] at hnot
    exact absurd hnot (by decide)
  | .ok false =>
    rw [hv2] at h
    simp only [bind_value, bind_events] at h ⊢
    have hsome : ∃ i, i < info.selectedFiles.length ∧ (a.magnet (.file i)).ready = false := by
      by_contra hnone
      refine absurd ((individualFiles_value _ 0 true false hv2).mpr ⟨rfl, fun j hj => ?_⟩) (by decide)
      rw [Nat.zero_add]
      by_contra hj'
      exact hnone ⟨j, hj, by simpa using hj'⟩
    by_cases hk : hasNonPlayableSelected info = true ∧ (a.magnet .archive).ready = true
    · obtain ⟨id, hadd, hv3, hev3⟩ :=
        archiveAll_ready (a := a) mt.torrent.hash cfg.restrictToCached hk.1 hk.2
      rw [hv3] at h ⊢
      refine Or.inl ⟨⟨hsome, hk⟩, hk.2, id, "all", _, hadd, (CascadeOutcome.success.inj h).symm,
        by rw [hev3, pure_events, List.append_nil], fun e he => ?_⟩
      have hw := individualFiles_emits (S := {s | s ≠ .archive}) (fun i => nofun) _ 0 true e he
      exact hw.mono (Set.empty_subset _)
    · refine Or.inr ⟨fun hka => hk hka.2, ?_⟩
      match hv3 : (archiveAll a mt.torrent.hash info cfg.restrictToCached).value with
      | .error out =>
        rw [hv3] at h
        obtain rfl : out = .success ids := h
        exact absurd hv3 (archiveAll_not_ready _ _ hk ids)
      | .ok _ =>
        rw [hv3] at h
        exact batchStage_success h

/-- The cascade keeps a magnet: strategy 1's, or strategy 3's when it is reached. -/
def KeepsMagnet (a : Answers) (mt : ManagedTorrent) : Prop :=
  (a.magnet .reinsert).ready = true ∨ ∃ info, mt.info = some info ∧ ArchiveKept a info

/-- Strategy 1 that keeps its magnet ends the cascade. -/
theorem reinsert_keeps {a : Answers} {mt : ManagedTorrent} {files : String} {restrictCached : Bool}
    {ids : Option (List String)} (hr : (a.magnet .reinsert).ready = true)
    (h : (tryStrategy1Reinsert a mt files restrictCached).value = some (.success ids)) :
    EndsKeeping .reinsert a mt.torrent.hash restrictCached
      (tryStrategy1Reinsert a mt files restrictCached).events ids := by
  obtain ⟨id, hadd, hv⟩ := reinsert_ready hr mt files restrictCached
  rw [hv] at h
  refine ⟨hr, id, files, (deleteIds a mt.rdIds 0).events, hadd,
    (CascadeOutcome.success.inj (Option.some.inj h)).symm, ?_, fun e he => ?_⟩
  · rw [tryStrategy1Reinsert, bind_events]
    exact congrArg _ (withMagnet_kept_events hr)
  · exact within_of_mem (fun e' he' => absurd he' List.not_mem_nil) e (List.mem_append_left [] he)

/-- Strategy 1's own calls, seen from a later strategy. -/
theorem reinsert_emits (a : Answers) (mt : ManagedTorrent) (files : String) (restrictCached : Bool) :
    Emits (Ev.Within Set.univ (a.ids {s | s ≠ .archive}))
      (tryStrategy1Reinsert a mt files restrictCached) :=
  within_of_mem (withMagnet_emits (F := a.ids {s | s ≠ .archive})
    (fun id hid => ⟨.reinsert, nofun, hid⟩) (react_emits (keep_emits _)))

theorem EndsKeeping.prepend {slot : Slot} {a : Answers} {hash : String} {restrictCached : Bool}
    {es fs : List Ev} {ids : Option (List String)}
    (h : EndsKeeping slot a hash restrictCached es ids)
    (hfs : ∀ e ∈ fs, e.Within Set.univ (a.ids {s | s ≠ slot})) :
    EndsKeeping slot a hash restrictCached (fs ++ es) ids := by
  obtain ⟨hr, id, files, pre, hadd, hids, rfl, hpre⟩ := h
  refine ⟨hr, id, files, fs ++ pre, hadd, hids, (List.append_assoc _ _ _).symm, fun e he => ?_⟩
  rcases List.mem_append.mp he with he | he
  · exact hfs e he
  · exact hpre e he

/-- **A successful cascade** has kept one magnet, or none. -/
theorem executeCascade_success {a : Answers} {mt : ManagedTorrent} {cfg : RepairConfig}
    {ids : Option (List String)} (h : (executeCascade a mt cfg).value = .success ids) :
    (KeepsMagnet a mt ∧ ∃ slot, EndsKeeping slot a mt.torrent.hash cfg.restrictToCached
        (executeCascade a mt cfg).events ids) ∨
    (¬ KeepsMagnet a mt ∧ ids = none) := by
  -- when strategy 1 ends the cascade with success, its magnet is ready
  have hreinsert : ∀ files, (tryStrategy1Reinsert a mt files cfg.restrictToCached).value
      = some (.success ids) → (a.magnet .reinsert).ready = true := by
    intro files hv
    by_contra hr
    exact reinsert_not_ready (by simpa using hr) mt files _ ids hv
  unfold executeCascade at h ⊢
  cases hinfo : mt.info with
  | none =>
    rw [hinfo] at h
    simp only at h ⊢
    split at h
    · exact absurd h nofun
    · rename_i hhash
      rw [if_neg hhash, bind_events, pure_events, List.append_nil]
      rw [bind_value, pure_value] at h
      cases hv : (tryStrategy1Reinsert a mt "all" cfg.restrictToCached).value with
      | none =>
        rw [hv] at h
        exact absurd h (finishFailure_ne_success mt ids)
      | some out =>
        rw [hv] at h
        obtain rfl : out = .success ids := h
        exact Or.inl ⟨Or.inl (hreinsert _ hv), .reinsert, reinsert_keeps (hreinsert _ hv) hv⟩
  | some info =>
    rw [hinfo] at h
    simp only at h ⊢
    split at h
    · exact absurd h nofun
    · rename_i hdup
      rw [if_neg hdup]
      split at h
      · exact absurd h nofun
      · rename_i hempty
        rw [if_neg hempty]
        split at h
        · exact absurd h nofun
        · rename_i hplay
          rw [if_neg hplay, bind_events]
          rw [bind_value] at h
          split at h
          · rename_i out hv
            obtain rfl : out = .success ids := h
            rw [pure_events, List.append_nil]
            exact Or.inl ⟨Or.inl (hreinsert _ hv), .reinsert, reinsert_keeps (hreinsert _ hv) hv⟩
          · rename_i hv
            have hr : ¬ (a.magnet .reinsert).ready = true := by
              intro hr
              obtain ⟨id, -, hv'⟩ := reinsert_ready hr mt _ cfg.restrictToCached
              exact absurd (hv.symm.trans hv') nofun
            rcases laterStrategies_success h with ⟨hk, hends⟩ | ⟨hk, hids⟩
            · exact Or.inl ⟨Or.inr ⟨info, hinfo, hk⟩, .archive,
                hends.prepend (reinsert_emits a mt _ _)⟩
            · refine Or.inr ⟨?_, hids⟩
              rintro (hr' | ⟨info', hinfo', hk'⟩)
              · exact hr hr'
              · obtain rfl : info = info' := Option.some.inj (hinfo.symm.trans hinfo')
                exact hk hk'

/-- A kept magnet is live once all drop-deletes have run. -/
theorem EndsKeeping.live {slot : Slot} {a : Answers} {mt : ManagedTorrent} {cfg : RepairConfig}
    {ids : Option (List String)} (hfresh : a.Fresh mt.rdIds)
    (h : EndsKeeping slot a mt.torrent.hash cfg.restrictToCached (executeCascade a mt cfg).events ids)
    (live : List String) :
    registryIds mt ids ≠ [] ∧
      ∀ id ∈ registryIds mt ids, id ∈ (cascadeWorld a mt cfg live).settled a := by
  obtain ⟨hr, id, files, pre, hadd, rfl, hev, hpre⟩ := h
  refine ⟨List.cons_ne_nil id [], fun x hx => ?_⟩
  obtain rfl : x = id := List.mem_singleton.mp hx
  have hother : x ∉ a.ids {s | s ≠ slot} := by
    rintro ⟨s, hs, hsx⟩
    exact hs (hfresh.inj s slot x hsx hadd)
  rw [cascadeWorld, hev, replay_append, replay_kept hr hadd]
  have hguards : World.Guards (a.ids {s | s ≠ slot}) ⟨x :: (replay World.step (World.start live)
      pre).live, none, (replay World.step (World.start live) pre).spawned⟩ :=
    ⟨fun y hy => absurd hy (Option.not_mem_none y), (guards_replay live hpre).2⟩
  exact (mem_settled hguards hother).mpr List.mem_cons_self

/-- **When a successful repair leaves a live torrent.**  After all drop-deletes have run, the ids the
    registry holds exist and are live exactly when the cascade kept a magnet (strategy 1's, or
    strategy 3's after a failed strategy 2), or when the old ids exist, were live, and none of
    strategy 1's deletes succeeded: strategies 2 and 4 report success for probes that their guards
    delete. -/
theorem success_leaves_live_iff (a : Answers) (mt : ManagedTorrent) (cfg : RepairConfig)
    (live : List String) (hfresh : a.Fresh mt.rdIds) (newRdIds : Option (List String))
    (h : (executeCascade a mt cfg).value = .success newRdIds) :
    (registryIds mt newRdIds ≠ [] ∧
      ∀ id ∈ registryIds mt newRdIds, id ∈ (cascadeWorld a mt cfg live).settled a) ↔
    KeepsMagnet a mt ∨
      (mt.rdIds ≠ [] ∧ ∀ i id, mt.rdIds[i]? = some id → id ∈ live ∧ (a.delete i).isOk = false) := by
  rcases executeCascade_success h with ⟨hkeeps, slot, hends⟩ | ⟨hkeeps, rfl⟩
  · exact ⟨fun _ => Or.inl hkeeps, fun _ => hends.live hfresh live⟩
  · -- no magnet is kept: the registry keeps the old ids, which strategy 1 tried to delete
    rcases executeCascade_shape a mt cfg with ⟨-, href⟩ | ⟨rest, hev, hrest⟩
    · rw [h] at href
      exact absurd href id
    · rw [or_iff_right hkeeps]
      refine and_congr_right fun _ => ?_
      constructor
      · intro hall i id hi
        have hid := List.mem_of_getElem? hi
        obtain ⟨hl, hdel⟩ := (old_id_settled hfresh hev hrest hid live).mp (hall id hid)
        exact ⟨hl, hdel i hi⟩
      · intro hall id hid
        rw [old_id_settled hfresh hev hrest hid]
        obtain ⟨i, hi⟩ := List.mem_iff_getElem?.mp hid
        exact ⟨(hall i id hi).1, fun j hj => (hall j id hj).2⟩

/-- One selected playable file, the old id `A`. -/
def loneTorrent : ManagedTorrent :=
  { staleTorrent with
    rdIds := ["A"]
    info := some ⟨"A", 100, 10, [], [⟨1, "/a.mkv", 10, 1⟩]⟩ }

/-- A magnet with the given id and progress on every poll; it has links when it is complete. -/
def added (id : String) (progress : Nat) : Magnet where
  add := .ok id
  select := .ok ()
  info _ := .ok ⟨id, progress, 10, if progress = 100 then ["https://real-debrid.com/d/A"] else [], []⟩
  delete := .ok ()

/-- Strategy 1 deletes `A` and never sees its magnet ready; the file's own magnet is ready. -/
def readyOnSecondTry : Answers where
  delete _ := .ok ()
  magnet s := match s with
    | .reinsert => added "N0" 50
    | .file 0 => added "N1" 100
    | .file _ | .archive | .batch _ => failing trafficExhausted
  dropDelete _ := (.ok (), .ok ())

/-- The repair succeeds, the registry keeps `A`, and no torrent is left on the account. -/
theorem success_without_live_torrent :
    (executeCascade readyOnSecondTry loneTorrent ⟨false, 5⟩).value = .success none ∧
    registryIds loneTorrent none = ["A"] ∧
    (cascadeWorld readyOnSecondTry loneTorrent ⟨false, 5⟩ ["A"]).settled readyOnSecondTry = [] := by
  refine ⟨by decide, by decide, by decide⟩

/-- As `readyOnSecondTry`, but strategy 1's magnet is ready. -/
def readyAtOnce : Answers :=
  { readyOnSecondTry with magnet := fun s => match s with
      | .reinsert => added "N0" 100
      | .file _ | .archive | .batch _ => failing trafficExhausted }

theorem success_leaves_live_iff_readyAtOnce :
    registryIds loneTorrent (some ["N0"]) ≠ [] ∧
      ∀ id ∈ registryIds loneTorrent (some ["N0"]),
        id ∈ (cascadeWorld readyAtOnce loneTorrent ⟨false, 5⟩ ["A"]).settled readyAtOnce := by
  refine (success_leaves_live_iff readyAtOnce loneTorrent ⟨false, 5⟩ ["A"] ⟨?_, ?_⟩ _
    (by decide)).mpr (Or.inl (Or.inl (by decide)))
  · intro s id hs
    cases s with
    | reinsert =>
      obtain rfl := Except.ok.inj hs
      decide
    | file _ | archive | batch _ => exact absurd hs (by simp [readyAtOnce, failing])
  · intro s t id hs ht
    cases s with
    | reinsert => cases t with
      | reinsert => rfl
      | file _ | archive | batch _ => exact absurd ht (by simp [readyAtOnce, failing])
    | file _ | archive | batch _ => exact absurd hs (by simp [readyAtOnce, failing])

end RdRs.Repair

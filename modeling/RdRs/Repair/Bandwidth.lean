/-
  Running out of bandwidth during preflight and the passive probe.

  A bandwidth limit is not a broken link: preflight should put the repair off and the passive probe
  should give up, and neither should mark or count anything.  That works for `unrestrict_link`, whose
  error is asked.  It does not for `verify_link`, whose error has become the text `verify_head` or
  `verify_range`: none of the words that are looked for is in it, so a CDN that has run out of bytes
  reads as a dead link.

  `bandwidth_defers_iff` says exactly when the intended behaviour comes about: some `unrestrict_link`
  fails, and every `verify_link` that fails is one for an orphan link.
-/
import RdRs.Repair.Preflight

set_option linter.unusedVariables false

namespace RdRs.Repair

open RdRs.Rd RdRs.Effects

/-! ## Failing calls -/

/-- The call failed. -/
def LinkEv.failed : LinkEv → Bool
  | .unrestrict _ (.error _) => true
  | .unrestrict _ (.ok _) => false
  | .verify _ a => a != .ok
  | .set _ _ => false

/-- The call failed with an `RdError` that `is_bandwidth_limited`. -/
def LinkEv.bandwidth : LinkEv → Bool
  | .unrestrict _ (.error e) => e.isBandwidthLimited
  | .verify _ (.failed e) => e.isBandwidthLimited
  | _ => false

/-- An `unrestrict_link` that failed. -/
def LinkEv.unrestrictFails : LinkEv → Bool
  | .unrestrict _ (.error _) => true
  | _ => false

/-- A `verify_link` that failed, for a link that is not an orphan's. -/
def LinkEv.selectedVerifyFails : LinkEv → Bool
  | .verify (.orphan _) _ => false
  | .verify _ a => a != .ok
  | _ => false

/-- A file set to `broken`. -/
def LinkEv.marksBroken : LinkEv → Bool
  | .set _ status => status == "broken"
  | _ => false

/-- Only for want of bandwidth does a call fail. -/
def OnlyBandwidth (es : List LinkEv) : Prop := ∀ e ∈ es, e.failed = true → e.bandwidth = true

/-- Some call fails, and only for want of bandwidth. -/
def OutOfBandwidth (es : List LinkEv) : Prop := es.any LinkEv.failed = true ∧ OnlyBandwidth es

instance (es : List LinkEv) : Decidable (OutOfBandwidth es) :=
  inferInstanceAs (Decidable (_ ∧ ∀ e ∈ es, e.failed = true → e.bandwidth = true))

theorem onlyBandwidth_append {es fs : List LinkEv} :
    OnlyBandwidth (es ++ fs) ↔ OnlyBandwidth es ∧ OnlyBandwidth fs := List.forall_mem_append

theorem onlyBandwidth_singleton {e : LinkEv} :
    OnlyBandwidth [e] ↔ (e.failed = true → e.bandwidth = true) := List.forall_mem_singleton

/-! ## One link -/

/-- The context alone never looks like a bandwidth limit. -/
theorem verifyFailedLikeBandwidth_context (o : Outside) :
    verifyFailedLikeBandwidth (verifyContext o) = false := by
  rw [verifyContext]
  split
  · decide
  · decide

/-- **The lost cause.**  A `verify_link` that fails for want of bandwidth fails with a text that does
    not look like it. -/
theorem verifyError_of_bandwidth {o : Outside} {site : Site} {a : VerifyAnswer}
    (h : OnlyBandwidth [.verify site a]) :
    (a = .ok ∧ verifyError o a = none) ∨
    ((a != .ok) = true ∧
      ∃ text, verifyError o a = some text ∧ verifyFailedLikeBandwidth text = false) := by
  rw [onlyBandwidth_singleton] at h
  cases a with
  | ok => exact Or.inl ⟨rfl, rfl⟩
  | failed e => exact Or.inr ⟨rfl, _, rfl, verifyFailedLikeBandwidth_context o⟩
  | closed => exact absurd (h rfl) (by simp [LinkEv.bandwidth])
  | status shown => exact absurd (h rfl) (by simp [LinkEv.bandwidth])

/-- **Trying one link while only bandwidth fails**: the API refuses, or the CDN does and the cause is
    lost, or the link is good. -/
theorem tryLink_cases (o : Outside) (site : Site) (h : OnlyBandwidth (tryLink o site).events) :
    (∃ e, tryLink o site = ⟨[.unrestrict site (.error e)], .refused e⟩ ∧
      e.isBandwidthLimited = true) ∨
    (∃ dl a text, tryLink o site =
        ⟨[.unrestrict site (.ok dl), .verify site a], .unverified text⟩ ∧
      (a != .ok) = true ∧ verifyFailedLikeBandwidth text = false) ∨
    (∃ dl, tryLink o site = ⟨[.unrestrict site (.ok dl), .verify site .ok], .good dl⟩) := by
  cases hu : o.unrestrict site with
  | error e =>
    rw [tryLink_refused hu] at h ⊢
    exact Or.inl ⟨e, rfl, h _ (List.mem_singleton_self _) rfl⟩
  | ok dl =>
    have hv : OnlyBandwidth [.verify site (o.verify site)] := by
      cases hv : verifyError o (o.verify site) with
      | none =>
        rw [tryLink_good hu hv] at h
        exact (onlyBandwidth_append.mp (show OnlyBandwidth ([_] ++ [_]) from h)).2
      | some text =>
        rw [tryLink_unverified hu hv] at h
        exact (onlyBandwidth_append.mp (show OnlyBandwidth ([_] ++ [_]) from h)).2
    rcases verifyError_of_bandwidth (o := o) hv with ⟨hok, hnone⟩ | ⟨hbad, text, htext, hlike⟩
    · rw [tryLink_good hu hnone, hok]
      exact Or.inr (Or.inr ⟨dl, rfl⟩)
    · rw [tryLink_unverified hu htext]
      exact Or.inr (Or.inl ⟨dl, _, text, rfl, hbad, hlike⟩)

/-! ## The loops -/

/-- A write of `ok`. -/
def OkWrite (e : LinkEv) : Prop := ∃ path, e = .set path "ok"

theorem emits_setState (states : FileStates) (path : String) :
    Emits OkWrite (setState states path "ok") :=
  Emits.bind (Emits.emit ⟨path, rfl⟩) (Emits.pure _)

theorem emits_setStates : ∀ (paths : List String) (states : FileStates),
    Emits OkWrite (setStates "ok" paths states)
  | [], states => Emits.pure _
  | p :: ps, states => Emits.bind (emits_setState states p) (emits_setStates ps _)

theorem emits_orInsertOk : ∀ (paths : List String) (states : FileStates),
    Emits OkWrite (orInsertOk paths states)
  | [], states => Emits.pure _
  | p :: ps, states => by
    rw [orInsertOk]
    split
    · exact emits_orInsertOk ps states
    · exact Emits.bind (emits_setState states p) (emits_orInsertOk ps _)

/-- Placing an orphan only writes `ok`. -/
theorem emits_placeOrphan (o : Outside) (d : Draft) (link : String) (dl : Download) :
    Emits OkWrite (placeOrphan o d link dl) := by
  rw [placeOrphan]
  split
  · exact Emits.pure _
  · refine Emits.bind (emits_setState _ _) (Emits.bind ?_ (Emits.pure _))
    rw [applyLoneSelectedRarOkPolicy]
    split
    · exact Emits.pure _
    · split
      · exact Emits.pure _
      · exact emits_setStates _ _

theorem emits_markVerified (mt : ManagedTorrent) (info : TorrentInfo) (path : String) :
    Emits OkWrite (markVerified mt info path) :=
  Emits.bind (emits_setState _ path) (Emits.bind (emits_orInsertOk _ _) (Emits.pure _))

/-- Writes of `ok` are no failures and mark nothing broken. -/
theorem any_eq_false_of_okWrites {es : List LinkEv} (h : ∀ e ∈ es, OkWrite e) :
    es.any LinkEv.unrestrictFails = false ∧ es.any LinkEv.selectedVerifyFails = false ∧
      es.any LinkEv.marksBroken = false := by
  refine ⟨List.any_eq_false.mpr ?_, List.any_eq_false.mpr ?_, List.any_eq_false.mpr ?_⟩
  · intro e he
    obtain ⟨p, rfl⟩ := h e he
    exact Bool.false_ne_true
  · intro e he
    obtain ⟨p, rfl⟩ := h e he
    exact Bool.false_ne_true
  · intro e he
    obtain ⟨p, rfl⟩ := h e he
    simp [LinkEv.marksBroken]

/-- `assign_orphan_links` gives up exactly when an `unrestrict_link` fails; it marks nothing. -/
theorem assignFrom_bandwidth (o : Outside) : ∀ (orphans : List String) (k : Nat) (d : Draft),
    OnlyBandwidth (assignFrom o k orphans d).events →
    limited (assignFrom o k orphans d).value.1 =
      (assignFrom o k orphans d).events.any LinkEv.unrestrictFails ∧
    (assignFrom o k orphans d).events.any LinkEv.selectedVerifyFails = false ∧
    (assignFrom o k orphans d).events.any LinkEv.marksBroken = false := by
  intro orphans
  induction orphans with
  | nil => intro k d _; exact ⟨rfl, rfl, rfl⟩
  | cons link rest ih =>
    intro k d h
    rw [assignFrom] at h ⊢
    rw [bind_events, onlyBandwidth_append] at h
    obtain ⟨htry, hrest⟩ := h
    rw [bind_events, bind_value]
    rcases tryLink_cases o (.orphan k) htry with ⟨e, heq, he⟩ | ⟨dl, a, text, heq, ha, hlike⟩ | ⟨dl, heq⟩
    · rw [heq]
      simp only [he, if_true]
      exact ⟨he, rfl, rfl⟩
    · rw [heq] at hrest ⊢
      simp only [hlike, Bool.false_eq_true, if_false] at hrest ⊢
      exact ih _ _ hrest
    · rw [heq] at hrest ⊢
      rw [bind_events, onlyBandwidth_append] at hrest
      obtain ⟨h1, h2, h3⟩ := any_eq_false_of_okWrites (emits_placeOrphan o d link dl)
      obtain ⟨i1, i2, i3⟩ := ih _ _ hrest.2
      rw [bind_events, bind_value]
      simp only [List.any_append, h1, h2, h3, i1, i2, i3]
      exact ⟨rfl, rfl, rfl⟩

/-- `probe_selected_links` gives up exactly when an `unrestrict_link` fails, and marks a file broken
    exactly when a `verify_link` fails. -/
theorem probeFrom_bandwidth (o : Outside) (info : TorrentInfo) :
    ∀ (files : List (File × Nat)) (states : FileStates),
    OnlyBandwidth (probeFrom o info files states).events →
    limited (probeFrom o info files states).value.1 =
      (probeFrom o info files states).events.any LinkEv.unrestrictFails ∧
    (probeFrom o info files states).events.any LinkEv.marksBroken =
      (probeFrom o info files states).events.any LinkEv.selectedVerifyFails := by
  intro files
  induction files with
  | nil => intro states _; exact ⟨rfl, rfl⟩
  | cons fi rest ih =>
    intro states h
    obtain ⟨file, selI⟩ := fi
    rw [probeFrom] at h ⊢
    split at h
    · rename_i hlink
      rw [if_pos hlink]
      exact ih states h
    · rename_i hlink
      rw [if_neg hlink]
      rw [bind_events, onlyBandwidth_append] at h
      obtain ⟨htry, hrest⟩ := h
      rw [bind_events, bind_value]
      rcases tryLink_cases o (.probe selI) htry with
        ⟨e, heq, he⟩ | ⟨dl, a, text, heq, ha, hlike⟩ | ⟨dl, heq⟩
      · rw [heq]
        simp only [he, if_true]
        exact ⟨he, rfl⟩
      · -- the file is marked for a verify that failed
        rw [heq] at hrest ⊢
        simp only [hlike, Bool.false_eq_true, if_false] at hrest ⊢
        rw [bind_events, onlyBandwidth_append] at hrest
        obtain ⟨i1, -⟩ := ih _ hrest.2
        rw [bind_events, bind_value]
        refine ⟨i1, ?_⟩
        simp only [List.any_append, List.any_cons, LinkEv.selectedVerifyFails, ha, Bool.true_or,
          Bool.or_true]
        rfl
      · rw [heq] at hrest ⊢
        rw [bind_events, onlyBandwidth_append] at hrest
        exact ih _ hrest.2

/-- The shortcut gives up exactly when its `unrestrict_link` fails, and then verifies nothing; it
    marks nothing broken. -/
theorem verifyOneLinkAndClear_bandwidth (o : Outside) (mt : ManagedTorrent)
    (h : OnlyBandwidth (verifyOneLinkAndClear o mt).events) :
    limited (verifyOneLinkAndClear o mt).value =
      (verifyOneLinkAndClear o mt).events.any LinkEv.unrestrictFails ∧
    (verifyOneLinkAndClear o mt).events.any LinkEv.marksBroken = false ∧
    ((verifyOneLinkAndClear o mt).events.any LinkEv.unrestrictFails = true →
      (verifyOneLinkAndClear o mt).events.any LinkEv.selectedVerifyFails = false) := by
  rw [verifyOneLinkAndClear] at h ⊢
  split at h
  · exact ⟨rfl, rfl, fun _ => rfl⟩
  · rename_i info file selI hslot
    rw [bind_events, onlyBandwidth_append] at h
    obtain ⟨htry, hrest⟩ := h
    rw [bind_events, bind_value]
    rcases tryLink_cases o (.shortcut selI) htry with
      ⟨e, heq, he⟩ | ⟨dl, a, text, heq, ha, hlike⟩ | ⟨dl, heq⟩
    · rw [heq]
      exact ⟨he, rfl, fun _ => rfl⟩
    · rw [heq]
      simp only [hlike, Bool.false_eq_true, if_false]
      exact ⟨rfl, rfl, fun h => absurd h Bool.false_ne_true⟩
    · rw [heq]
      obtain ⟨h1, h2, h3⟩ := any_eq_false_of_okWrites (emits_markVerified mt info file.path)
      rw [bind_events, bind_value, pure_events, List.append_nil, List.any_append, List.any_append,
        h1, h3]
      exact ⟨rfl, rfl, fun h => absurd h Bool.false_ne_true⟩

/-- `check_head_unreachable` gives up exactly when an `unrestrict_link` fails. -/
theorem checkHeadFrom_bandwidth (o : Outside) (info : TorrentInfo) :
    ∀ (files : List (File × Nat)) (n : Nat), OnlyBandwidth (checkHeadFrom o info files n).events →
    ((∃ e, (checkHeadFrom o info files n).value = .error e) ↔
      (checkHeadFrom o info files n).events.any LinkEv.unrestrictFails = true) := by
  intro files
  induction files with
  | nil => intro n _; simp [checkHeadFrom]
  | cons fi rest ih =>
    intro n h
    obtain ⟨file, selI⟩ := fi
    rw [checkHeadFrom] at h ⊢
    split at h
    · rename_i hplay
      rw [if_pos hplay]
      exact ih n h
    · rename_i hplay
      rw [if_neg hplay]
      split at h
      · rename_i hlink
        rw [if_pos hlink]
        exact ih n h
      · rename_i hlink
        rw [if_neg hlink]
        rw [bind_events, onlyBandwidth_append] at h
        obtain ⟨htry, hrest⟩ := h
        rw [bind_events, bind_value]
        rcases tryLink_cases o (.probe selI) htry with
          ⟨e, heq, he⟩ | ⟨dl, a, text, heq, ha, hlike⟩ | ⟨dl, heq⟩
        · rw [heq]
          simp only [he, if_true]
          exact ⟨fun _ => rfl, fun _ => ⟨e, rfl⟩⟩
        · rw [heq] at hrest ⊢
          simp only [hlike, Bool.false_eq_true, if_false] at hrest ⊢
          exact ih _ hrest
        · rw [heq] at hrest ⊢
          exact ih _ hrest

/-! ## Preflight and the passive probe -/

/-- Preflight puts the repair off and has marked no file broken. -/
def Defers (t : Traced LinkEv PreflightOutcome) : Prop :=
  t.value = .deferBandwidth ∧ t.events.any LinkEv.marksBroken = false

/-- **The condition on the outcomes.**  Some `unrestrict_link` fails, and every `verify_link` that
    fails is one for an orphan link. -/
def LimitSeen (es : List LinkEv) : Prop :=
  es.any LinkEv.unrestrictFails = true ∧ es.any LinkEv.selectedVerifyFails = false

/-- The shortcut defers exactly when the limit is seen. -/
theorem shortcutStage_bandwidth (o : Outside) (mt : ManagedTorrent)
    (h : OnlyBandwidth (shortcutStage o mt).events) :
    (shortcutStage o mt).events.any LinkEv.marksBroken = false ∧
    ((shortcutStage o mt).value = .deferBandwidth ↔ LimitSeen (shortcutStage o mt).events) := by
  rw [shortcutStage, bind_events, onlyBandwidth_append] at h
  obtain ⟨v1, v2, v3⟩ := verifyOneLinkAndClear_bandwidth o mt h.1
  rw [shortcutStage, bind_events, bind_value, LimitSeen]
  generalize verifyOneLinkAndClear o mt = v at v1 v2 v3 ⊢
  obtain ⟨ves, vval⟩ := v
  simp only at v1 v2 v3
  cases vval with
  | ok r =>
    have hvu : ves.any LinkEv.unrestrictFails = false := v1.symm
    cases r with
    | none => simp [v2, hvu]
    | some fixed => simp [v2, hvu]
  | error e =>
    have hvu : ves.any LinkEv.unrestrictFails = e.isBandwidthLimited := v1.symm
    cases he : e.isBandwidthLimited with
    | true =>
      rw [he] at hvu
      simp [he, v2, hvu, v3 hvu]
    | false =>
      rw [he] at hvu
      simp [he, v2, hvu]

/-- After the orphans, preflight defers and has marked nothing exactly when the limit is seen. -/
theorem probeStage_bandwidth (o : Outside) (mt : ManagedTorrent) (d : Draft)
    (h : OnlyBandwidth (probeStage o mt d).events) :
    Defers (probeStage o mt d) ↔ LimitSeen (probeStage o mt d).events := by
  rw [probeStage, bind_events, onlyBandwidth_append] at h
  obtain ⟨hprobe, hrest⟩ := h
  obtain ⟨p1, p2⟩ := probeFrom_bandwidth o d.info d.info.selectedFiles.zipIdx d.states hprobe
  rw [Defers, LimitSeen, probeStage, bind_events, bind_value]
  rw [show probeFrom o d.info d.info.selectedFiles.zipIdx d.states = probeSelectedLinks o d from rfl]
    at p1 p2
  cases hlim : limited (probeSelectedLinks o d).value.1 with
  | true =>
    -- the probe gives up: it has marked nothing exactly when no verify failed
    rw [hlim] at p1
    simp [← p1, p2]
  | false =>
    rw [hlim] at p1 hrest
    simp only [Bool.false_eq_true, if_false] at hrest ⊢
    obtain ⟨s1, s2⟩ := shortcutStage_bandwidth o _ hrest
    rw [List.any_append, List.any_append, List.any_append, ← p1, p2, s1, s2, LimitSeen,
      Bool.false_or, Bool.or_false]
    cases (probeSelectedLinks o d).events.any LinkEv.selectedVerifyFails with
    | true => simp
    | false => simp

/-- **When a bandwidth limit is taken for what it is.**  While calls fail only for want of bandwidth,
    preflight defers without marking a file exactly when an `unrestrict_link` fails and no
    `verify_link` of a selected file does, and the passive probe gives up exactly when an
    `unrestrict_link` fails. -/
theorem bandwidth_defers_iff (o : Outside) (mt : ManagedTorrent) (info : TorrentInfo) :
    (OutOfBandwidth (runPreflight o mt).events →
      (Defers (runPreflight o mt) ↔ LimitSeen (runPreflight o mt).events)) ∧
    (OutOfBandwidth (checkHeadUnreachable o info).events →
      ((∃ e, (checkHeadUnreachable o info).value = .error e) ↔
        (checkHeadUnreachable o info).events.any LinkEv.unrestrictFails = true)) := by
  refine ⟨fun h => ?_, fun h => checkHeadFrom_bandwidth o info _ 0 h.2⟩
  obtain ⟨hfail, hbw⟩ := h
  cases hinfo : mt.info with
  | none =>
    rw [runPreflight, hinfo] at hfail
    exact absurd hfail Bool.false_ne_true
  | some ti =>
    simp only [runPreflight, hinfo] at hbw ⊢
    rw [bind_events, onlyBandwidth_append] at hbw
    obtain ⟨hassign, hrest⟩ := hbw
    obtain ⟨a1, a2, a3⟩ := assignFrom_bandwidth o _ 0 _ hassign
    rw [show assignFrom o 0 ((orphanRdLinks ti).filter fun l => l != "")
      ⟨ti, mt.fileStates.getD ∅⟩ = assignOrphanLinks o ⟨ti, mt.fileStates.getD ∅⟩ from rfl]
      at a1 a2 a3
    rw [Defers, LimitSeen, bind_events, bind_value]
    cases hlim : limited (assignOrphanLinks o ⟨ti, mt.fileStates.getD ∅⟩).value.1 with
    | true =>
      rw [hlim] at a1
      simp [← a1, a2, a3]
    | false =>
      rw [hlim] at a1 hrest
      simp only [Bool.false_eq_true, if_false] at hrest ⊢
      rw [List.any_append, List.any_append, List.any_append, ← a1, a2, a3, Bool.false_or,
        Bool.false_or, Bool.false_or]
      exact probeStage_bandwidth o mt _ hrest

/-- Every link is answered alike. -/
def sameForAll (unrestrict : Except RdError Download) (verify : VerifyAnswer) : Outside where
  toLowercase := fun s => String.ofList (s.toList.map Char.toLower)
  useRangeVerification := false
  unrestrict := fun _ => unrestrict
  verify := fun _ => verify

/-- A downloaded torrent of one film with its link. -/
def oneFilmInfo : TorrentInfo :=
  ⟨"RD1", 100, 700, ["https://real-debrid.com/d/AAAA"], [⟨1, "/Film.mkv", 700, 1⟩]⟩

/-- The registry's record of it, with its detail loaded. -/
def oneFilm : ManagedTorrent where
  accessKey := "HASH/Film"
  rdIds := ["RD1"]
  torrent := ⟨"RD1", "Film", "HASH", 100, "downloaded", ["https://real-debrid.com/d/AAAA"], 0⟩
  info := some oneFilmInfo
  state := .underRepair
  unrepairableReason := none
  lastRepairedAt := none
  fileStates := none
  underRepairStartedAt := some 0

/-- `BytesLimitReached` from every `verify_link`. -/
def outOfBytes : Outside :=
  sameForAll (.ok ⟨"Film.mkv", 700⟩) (.failed (.download .bytesLimitReached))

/-- `TrafficExhausted` from every `unrestrict_link`. -/
def outOfTraffic : Outside := sameForAll (.error (.api (.trafficExhausted "traffic"))) .ok

/-- The CDN has run out of bytes: preflight marks the film broken and goes on to the cascade, and
    the passive probe counts the link as unreachable. -/
theorem bytes_limit_marks_broken :
    OutOfBandwidth (runPreflight outOfBytes oneFilm).events ∧
      ¬Defers (runPreflight outOfBytes oneFilm) ∧
      (runPreflight outOfBytes oneFilm).events.any LinkEv.marksBroken = true ∧
      OutOfBandwidth (checkHeadUnreachable outOfBytes oneFilmInfo).events ∧
      (checkHeadUnreachable outOfBytes oneFilmInfo).value.toOption = some 1 := by
  refine ⟨by decide, ?_, by decide, by decide, by decide⟩
  rintro ⟨-, h⟩
  exact absurd h (by decide)

/-- The API has run out of traffic: preflight defers and the passive probe gives up. -/
theorem traffic_limit_defers :
    OutOfBandwidth (runPreflight outOfTraffic oneFilm).events ∧
      Defers (runPreflight outOfTraffic oneFilm) ∧
      OutOfBandwidth (checkHeadUnreachable outOfTraffic oneFilmInfo).events ∧
      ∃ e, (checkHeadUnreachable outOfTraffic oneFilmInfo).value = .error e := by
  have h := bandwidth_defers_iff outOfTraffic oneFilm oneFilmInfo
  refine ⟨by decide, (h.1 (by decide)).mpr ⟨by decide, by decide⟩, by decide, ?_⟩
  exact (h.2 (by decide)).mpr (by decide)

end RdRs.Repair

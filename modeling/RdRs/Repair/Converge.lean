/-
  What a repair that ends with `ok` leaves in the registry.

  1. **Candidates** — a torrent just set to `ok` is a candidate again when a selected file has no link
     or a playable file is marked broken (`converged_withState_ok`); after preflight both are matters
     of the links, the marks and the answers it started from (`unassigned_iff`, `probedBroken_last`).
  2. **The run** — `repairPrepared`, alone, by how it ends: the record left under the key
     (`repairPrepared_leaves`).
  3. **Convergence** — that record is no candidate of the next periodic scan exactly when
     `ConvergesWhen` holds of what preflight started from (`converged_iff`).
-/
import RdRs.Repair.FileMarks
import RdRs.Repair.RepairOne
import RdRs.Repair.Success
import RdRs.Torrent.Mirror

set_option linter.unusedVariables false

namespace RdRs.Repair

open RdRs.Rd RdRs.Effects RdRs.Programs RdRs.Torrent

/-! ## Candidates of the periodic scan -/

/-- No candidate of the next scan, and no selected playable file marked broken. -/
def Converged (mt : ManagedTorrent) : Prop :=
  periodicRepairEligible mt = false ∧
    ∀ f ∈ mt.selectedFiles, pathLooksPlayable f.path = true →
      isBroken (mt.fileStates.getD ∅) f.path = false

theorem isBroken_eq_true {states : FileStates} {p : String} :
    isBroken states p = true ↔ states.lookup p = some "broken" := by
  rw [isBroken, beq_iff_eq]

/-- The scan of `file_states` finds no playable path marked broken. -/
theorem any_broken_eq_false (states : FileStates) :
    (states.entries.any fun e => e.2 == "broken" && pathLooksPlayable e.1) = false ↔
      ∀ p, pathLooksPlayable p = true → isBroken states p = false := by
  rw [List.any_eq_false]
  constructor
  · intro h p hp
    rw [Bool.eq_false_iff]
    intro hb
    have he := AList.mem_lookup_iff.mp (isBroken_eq_true.mp hb)
    exact h _ he (by simp [hp])
  · intro h e he hb
    rw [Bool.and_eq_true, beq_iff_eq] at hb
    have hlook : states.lookup e.1 = some "broken" := by
      rw [← hb.1]
      exact AList.mem_lookup_iff.mpr he
    have hnot := h e.1 hb.2
    rw [isBroken_eq_true.mpr hlook] at hnot
    cases hnot

/-- A torrent just set to `ok` has converged when all its selected files have links and no playable
    path is marked broken. -/
theorem converged_withState_ok (mt : ManagedTorrent) (now : Int) :
    Converged (withState mt .ok none now) ↔
      (∀ info, mt.info = some info → unassignedSelectedLinkCount info = 0) ∧
        ∀ p, pathLooksPlayable p = true → isBroken (mt.fileStates.getD ∅) p = false := by
  have hunassigned : (mt.info.any fun info => decide (unassignedSelectedLinkCount info > 0)) = false ↔
      ∀ info, mt.info = some info → unassignedSelectedLinkCount info = 0 := by
    cases mt.info with
    | none => simp
    | some info => simp
  have hbroken : (mt.fileStates.any fun fs =>
        fs.entries.any fun e => e.2 == "broken" && pathLooksPlayable e.1) = false ↔
      ∀ p, pathLooksPlayable p = true → isBroken (mt.fileStates.getD ∅) p = false := by
    cases mt.fileStates with
    | none =>
      refine iff_of_true rfl fun p hp => ?_
      rfl
    | some fs => exact any_broken_eq_false fs
  have heligible : periodicRepairEligible (withState mt .ok none now) =
      ((mt.info.any fun info => decide (unassignedSelectedLinkCount info > 0)) ||
        mt.fileStates.any fun fs =>
          fs.entries.any fun e => e.2 == "broken" && pathLooksPlayable e.1) := by
    rw [periodicRepairEligible]
    cases hinfo : mt.info with
    | none =>
      cases hstates : mt.fileStates with
      | none => simp [withState, hinfo, hstates]
      | some fs => simp [withState, hinfo, hstates]
    | some info =>
      cases hstates : mt.fileStates with
      | none => simp [withState, hinfo, hstates]
      | some fs => simp [withState, hinfo, hstates]
  rw [Converged, heligible, Bool.or_eq_false_iff, hunassigned, hbroken]
  constructor
  · exact And.left
  · intro h
    exact ⟨h, fun f _ hf => h.2 f.path hf⟩

/-- Every selected file has a link of its own or gets an orphan by the rule, and no playable path
    outside the selection is marked broken. -/
def LinksComplete (o : Outside) (mt : ManagedTorrent) : Prop :=
  ∀ info, mt.info = some info →
    (∀ i < info.selectedFiles.length, Linked o (drafted mt info) i) ∧
    ∀ p, p ∉ selectedPaths info → pathLooksPlayable p = true →
      isBroken (mt.fileStates.getD ∅) p = false

/-- The answers to the probe of every playable path are good at the path's last file. -/
def ProbesGood (o : Outside) (mt : ManagedTorrent) : Prop :=
  ∀ info, mt.info = some info → ∀ p fi, pathLooksPlayable p = true →
    lastOf info.selectedFiles.zipIdx p = some fi → answersGood o (.probe fi.2) = true

section Converge

variable {o : Outside} {mt : ManagedTorrent} {info : TorrentInfo}

/-- No selected file is without a link after the assignment when the rule leaves none without. -/
theorem unassigned_iff (hassign : limited (assignOrphanLinks o (drafted mt info)).value.1 = false) :
    unassignedSelectedLinkCount (assigned o mt info).info = 0 ↔
      ∀ i < info.selectedFiles.length, Linked o (drafted mt info) i := by
  rw [unassignedSelectedLinkCount_eq_zero, selectedFiles_assigned]
  exact forall_congr' fun i => forall_congr' fun _ => (assigned_allotted hassign).1 i

/-- Outside the selection the probe leaves the marks preflight began with. -/
theorem probedBroken_other {p : String} (hp : p ∉ selectedPaths info) :
    ProbedBroken o (drafted mt info) p ↔ isBroken (mt.fileStates.getD ∅) p = true := by
  have hno : ∀ (i : Nat) (f : File), info.selectedFiles[i]? = some f → f.path ≠ p := by
    rintro i f hf rfl
    exact hp (List.mem_map_of_mem (List.mem_of_getElem? hf))
  constructor
  · rintro (⟨i, ⟨⟨-, f, hf, hpath⟩, -⟩, -⟩ | ⟨-, hb, -⟩)
    · exact absurd hpath (hno i f hf)
    · exact hb
  · intro hb
    refine Or.inr ⟨fun i f hf hpath => absurd hpath (hno i f hf), hb, ?_⟩
    rintro ⟨i, -, g, hg, hpath | ⟨-, -, hsel⟩⟩
    · exact hno i g hg hpath.symm
    · exact hp hsel

/-- With all links there, a selected path is as the probe finds its last file. -/
theorem probedBroken_last (hlinks : ∀ i < info.selectedFiles.length, Linked o (drafted mt info) i)
    {p : String} {fi : File × Nat} (hlast : lastOf info.selectedFiles.zipIdx p = some fi) :
    ProbedBroken o (drafted mt info) p ↔ answersGood o (.probe fi.2) = false := by
  obtain ⟨f, i⟩ := fi
  obtain ⟨hin, hpath, hmax⟩ := lastOf_eq_some (zipIdx_pairwise _) hlast
  have hf : info.selectedFiles[i]? = some f := List.mk_mem_zipIdx_iff_getElem?.mp hin
  have hlinked := hlinks i (List.getElem?_eq_some_iff.mp hf).1
  have hgreatest : LastLinked o (drafted mt info) p i := by
    refine ⟨⟨hlinked, f, hf, hpath⟩, ?_⟩
    rintro j ⟨-, g, hg, hgp⟩
    exact hmax (g, j) (List.mk_mem_zipIdx_iff_getElem?.mpr hg) hgp
  constructor
  · rintro (⟨j, hj, hdead⟩ | ⟨hnone, -, -⟩)
    · obtain rfl := hj.unique hgreatest
      exact hdead
    · exact absurd hlinked (hnone i f hf hpath)
  · intro hdead
    exact Or.inl ⟨i, hgreatest, hdead⟩

theorem lastOf_isSome {p : String} (hp : p ∈ selectedPaths info) :
    ∃ fi, lastOf info.selectedFiles.zipIdx p = some fi := by
  obtain ⟨f, hf, rfl⟩ := List.mem_map.mp hp
  obtain ⟨i, hi, rfl⟩ := List.mem_iff_getElem.mp hf
  rw [lastOf, ← Option.isSome_iff_exists, List.find?_isSome]
  refine ⟨(info.selectedFiles[i], i), ?_, by simp⟩
  rw [List.mem_reverse, List.mem_zipIdx_iff_getElem?]
  simp [hi]

/-- Past the shortcut: the record converges as it was probed. -/
theorem converged_asProbed_iff (hinfo : mt.info = some info)
    (hassign : limited (assignOrphanLinks o (drafted mt info)).value.1 = false)
    (hprobe : limited (probed o mt info).1 = false) (now : Int) :
    Converged (withState (asProbed o mt info) .ok none now) ↔ LinksComplete o mt ∧ ProbesGood o mt := by
  have hinfo' : ∀ i, mt.info = some i → i = info := by
    intro i hi
    rw [hinfo] at hi
    exact (Option.some.inj hi).symm
  have hmark : ∀ p, isBroken ((asProbed o mt info).fileStates.getD ∅) p = false ↔
      ¬ProbedBroken o (drafted mt info) p := by
    intro p
    rw [← Bool.not_eq_true]
    exact not_congr (isBroken_probed hassign hprobe p)
  rw [converged_withState_ok]
  constructor
  · rintro ⟨hlinks, hbroken⟩
    have hlinked := (unassigned_iff hassign).mp (hlinks _ rfl)
    refine ⟨fun i hi => ?_, fun i hi p fi hp hlast => ?_⟩
    · obtain rfl := hinfo' i hi
      refine ⟨hlinked, fun p hp hplay => ?_⟩
      rw [← Bool.not_eq_true, ← probedBroken_other hp]
      exact (hmark p).mp (hbroken p hplay)
    · obtain rfl := hinfo' i hi
      rw [← Bool.not_eq_false, ← probedBroken_last hlinked hlast]
      exact (hmark p).mp (hbroken p hp)
  · rintro ⟨hcomplete, hgood⟩
    obtain ⟨hlinked, hother⟩ := hcomplete info hinfo
    refine ⟨fun i hi => ?_, fun p hp => (hmark p).mpr ?_⟩
    · obtain rfl := Option.some.inj hi
      exact (unassigned_iff hassign).mpr hlinked
    · by_cases hsel : p ∈ selectedPaths info
      · obtain ⟨fi, hlast⟩ := lastOf_isSome hsel
        rw [probedBroken_last hlinked hlast, Bool.not_eq_false]
        exact hgood info hinfo p fi hp hlast
      · rw [probedBroken_other hsel, Bool.not_eq_true]
        exact hother p hsel hp

/-- By the shortcut: no selected playable file was marked broken, and nothing gets the mark. -/
theorem converged_markVerified_iff (hinfo : mt.info = some info)
    (hassign : limited (assignOrphanLinks o (drafted mt info)).value.1 = false)
    (hprobe : limited (probed o mt info).1 = false) {info' : TorrentInfo} {file : File} {selI : Nat}
    (hslot : shortcutSlot (asProbed o mt info) = some (info', file, selI)) (now : Int) :
    Converged (withState (markVerified (asProbed o mt info) info' file.path).value .ok none now) ↔
      LinksComplete o mt := by
  obtain ⟨hr, -⟩ := shortcutSlot_iff.mp hslot
  obtain rfl : (assigned o mt info).info = info' := Option.some.inj hr
  obtain ⟨-, hf, -, hnone⟩ := (shortcutSlot_asProbed hassign hprobe).mp ⟨_, hslot⟩
  -- a path is broken in the result if the probe left it so and it is not the cleared one
  have hmarks : ∀ p, isBroken ((markVerified (asProbed o mt info) (assigned o mt info).info
      file.path).value.fileStates.getD ∅) p = true ↔
      p ≠ file.path ∧ ProbedBroken o (drafted mt info) p := by
    intro p
    rw [isBroken_markVerified]
    exact and_congr_right fun _ => isBroken_probed hassign hprobe p
  -- and the probe left no selected playable path so
  have hselected : ∀ p ∈ selectedPaths info, pathLooksPlayable p = true →
      ¬ProbedBroken o (drafted mt info) p := by
    intro p hp hplay
    obtain ⟨f, hf, rfl⟩ := List.mem_map.mp hp
    exact hnone f (List.mem_filter.mpr ⟨hf, hplay⟩)
  have hfile : file.path ∈ selectedPaths info := List.mem_map_of_mem (List.mem_of_getElem? hf)
  rw [converged_withState_ok]
  constructor
  · rintro ⟨hlinks, hbroken⟩ i hi
    rw [hinfo] at hi
    obtain rfl := Option.some.inj hi
    refine ⟨(unassigned_iff hassign).mp (hlinks _ rfl), fun p hp hplay => ?_⟩
    rw [Bool.eq_false_iff]
    intro hb
    have hne : p ≠ file.path := by
      rintro rfl
      exact hp hfile
    have hnot := hbroken p hplay
    rw [(hmarks p).mpr ⟨hne, (probedBroken_other hp).mpr hb⟩] at hnot
    cases hnot
  · intro hcomplete
    obtain ⟨hlinked, hother⟩ := hcomplete info hinfo
    refine ⟨fun i hi => ?_, fun p hplay => ?_⟩
    · obtain rfl := Option.some.inj hi
      exact (unassigned_iff hassign).mpr hlinked
    · rw [Bool.eq_false_iff]
      intro hb
      obtain ⟨-, hb⟩ := (hmarks p).mp hb
      by_cases hsel : p ∈ selectedPaths info
      · exact hselected p hsel hplay hb
      · rw [probedBroken_other hsel, hother p hsel hplay] at hb
        cases hb

end Converge

/-! ## The methods alone -/

/-- Each record is filed under its own key. -/
def Keyed (torrents : Torrents) : Prop := ∀ k mt, torrents.lookup k = some mt → mt.accessKey = k

theorem keyed_singleton (mt : ManagedTorrent) :
    Keyed (AList.singleton mt.accessKey mt : Torrents) := by
  intro k r hr
  by_cases hk : k = mt.accessKey
  · subst hk
    have hself : (AList.singleton mt.accessKey mt : Torrents).lookup mt.accessKey = some mt :=
      AList.lookup_insert ∅
    obtain rfl := Option.some.inj (hself.symm.trans hr)
    rfl
  · have hnone : (AList.singleton mt.accessKey mt : Torrents).lookup k = none := by
      rw [AList.lookup_eq_none, AList.mem_keys]
      simpa using hk
    rw [hnone] at hr
    cases hr

theorem updateTorrentState_alone (key : String) (state : TorrentState) (reason : Option String)
    (m : Manager) (env : Nat → Env) : ∃ now,
    ((updateTorrentState key state reason).eval performAlone m env).2.1.torrents =
      match m.torrents.lookup key with
      | none => m.torrents
      | some mt => m.torrents.insert key (withState mt state reason now) := by
  have hget : performAlone m (.get key) (env 0) = (m.torrents.lookup key, m) := rfl
  refine ⟨(env 1).time, ?_⟩
  rw [updateTorrentState, Prog.call_bind, Prog.eval_act, hget]
  dsimp only
  cases m.torrents.lookup key with
  | none => rfl
  | some mt =>
    dsimp only
    rw [Prog.call_bind, Prog.eval_act, Prog.call_bind, Prog.eval_act, Prog.eval_bind, upsert_alone]
    dsimp only
    split
    · exact (onWatch_same _ key _).1
    · rfl

theorem persistTorrentSnapshot_alone (op : WriteOp) (base : Option ManagedTorrent)
    (mt : ManagedTorrent) (m : Manager) (env : Nat → Env) :
    ((persistTorrentSnapshot op base mt).eval performAlone m env).2.1.torrents =
      m.torrents.insert mt.accessKey mt := by
  rw [persistTorrentSnapshot, Prog.call_bind, Prog.eval_act, upsert_alone]
  rfl

theorem replaceRdIdsAfterRepair_alone (key : String) (ids : List String) (m : Manager)
    (env : Nat → Env) :
    ((replaceRdIdsAfterRepair key ids).eval performAlone m env).2.1.torrents =
      match m.torrents.lookup key with
      | none => m.torrents
      | some mt => m.torrents.insert mt.accessKey (withRdIds mt ids) := by
  have hget : performAlone m (.get key) (env 0) = (m.torrents.lookup key, m) := rfl
  rw [replaceRdIdsAfterRepair, Prog.call_bind, Prog.eval_act, hget]
  dsimp only
  cases m.torrents.lookup key with
  | none => rfl
  | some mt => exact persistTorrentSnapshot_alone .replaceRdIds (some mt) (withRdIds mt ids) m _

/-- The cascade does not touch the map; an outcome it has is that of its answers. -/
theorem runCascade_alone (cfg : EngineConfig) (key : String) (mt : ManagedTorrent) (m : Manager)
    (env : Nat → Env) :
    ((runCascade cfg key mt).eval performAlone m env).2.1.torrents = m.torrents ∧
      ∀ out, ((runCascade cfg key mt).eval performAlone m env).1 = some out →
        out = (executeCascade (env 0).answers mt cfg.repair).value := by
  have hcalls : ∀ es (m : Manager) env,
      ((cascadeCalls key es).eval performAlone m env).2.1.torrents = m.torrents := by
    intro es m env
    refine Prog.eval_fold (I := fun _ _ (w : Manager) => w.torrents = m.torrents) ?_ es () m env rfl
    intro _ e _ w env hw
    exact hw
  have hask : performAlone m .cascade (env 0) = (((env 0).answers, (env 0).timeout), m) := rfl
  rw [runCascade, Prog.call_bind, Prog.eval_act, hask]
  dsimp only
  split
  · rw [Prog.eval_bind]
    refine ⟨hcalls _ m _, fun out hout => ?_⟩
    cases hout
  · rw [Prog.eval_bind]
    refine ⟨hcalls _ m _, fun out hout => ?_⟩
    exact (Option.some.inj hout).symm

/-- What `ensure_torrent_info` gives, alone: the record, with its detail as stored or as fetched. -/
theorem ensureTorrentInfo_alone {key : String} {m : Manager} {env : Nat → Env} {mt : ManagedTorrent}
    (h : ((ensureTorrentInfo key).eval performAlone m env).1 = some mt) :
    ∃ old info, m.torrents.lookup key = some old ∧ mt = { old with info := info } ∧
      (old.info.isSome = true → info = old.info) ∧
      ((ensureTorrentInfo key).eval performAlone m env).2.1.torrents.lookup key = some mt := by
  have hget : performAlone m (.get key) (env 0) = (m.torrents.lookup key, m) := rfl
  rw [ensureTorrentInfo, Prog.call_bind, Prog.eval_act, hget] at h ⊢
  dsimp only at h ⊢
  cases hold : m.torrents.lookup key with
  | none =>
    rw [hold] at h
    cases h
  | some old =>
    rw [hold] at h
    dsimp only at h ⊢
    split at h
    · rename_i hinfo
      rw [if_pos hinfo]
      obtain rfl := Option.some.inj h
      exact ⟨old, old.info, rfl, rfl, fun _ => rfl, hold⟩
    · rename_i hinfo
      rw [if_neg hinfo]
      cases hid : old.rdIds.head? with
      | none =>
        rw [hid] at h
        cases h
      | some id =>
        rw [hid] at h
        have hask : performAlone m (.torrentInfo id) (env 1) = ((env 1).info, m) := rfl
        dsimp only at h ⊢
        rw [Prog.call_bind, Prog.eval_act, hask] at h ⊢
        dsimp only at h ⊢
        cases hans : (env 1).info with
        | none =>
          rw [hans] at h
          obtain rfl := Option.some.inj h
          exact ⟨old, old.info, rfl, rfl, fun _ => rfl, hold⟩
        | some info =>
          rw [hans] at h
          -- the record is still there, so the detail goes into the map
          have hinject : performAlone m (.inject key info) (env 2) =
              (some { old with info := some info },
                { m with torrents := m.torrents.insert key { old with info := some info } }) := by
            show perform m (.inject key info) (env 2) = _
            rw [perform, hold]
          dsimp only at h ⊢
          rw [Prog.call_bind, Prog.eval_act, hinject] at h ⊢
          obtain rfl := Option.some.inj h
          exact ⟨old, some info, rfl, rfl, fun hsome => absurd hsome hinfo, AList.lookup_insert _⟩

/-- The copy preflight works on, alone: the record of the key, with the detail stored or fetched. -/
theorem prepare_record {cfg : EngineConfig} {key : String} {m : Manager} {env : Nat → Env}
    {mt : ManagedTorrent} (h : ((prepare cfg key).eval performAlone m env).1 = some mt) :
    ∃ old, m.torrents.lookup key = some old ∧ mt.accessKey = old.accessKey ∧
      mt.fileStates = old.fileStates ∧ (old.info.isSome = true → mt.info = old.info) := by
  have hnow : performAlone m .now (env 0) = ((env 0).time, m) := rfl
  rw [prepare, Prog.call_bind, Prog.eval_act, hnow, Prog.eval_bind] at h
  dsimp only at h
  cases hr : ((ensureTorrentInfo key).eval performAlone m fun n => env (n + 1)).1 with
  | none =>
    rw [hr] at h
    cases h
  | some first =>
    obtain ⟨old, info, hold, hfirst, hinfo, hstored⟩ := ensureTorrentInfo_alone hr
    generalize hm1 : (ensureTorrentInfo key).eval performAlone m (fun n => env (n + 1)) = r1 at h hstored
    rw [hm1] at hr
    rw [hr] at h
    dsimp only at h
    split at h
    · cases h
    · split at h
      · rw [Prog.eval_bind] at h
        cases h
      · have hcap : performAlone r1.2.1 .capacity (r1.2.2 0) = ((r1.2.2 0).ok, r1.2.1) := rfl
        rw [Prog.call_bind, Prog.eval_act, hcap] at h
        dsimp only at h
        split at h
        · rw [Prog.eval_bind] at h
          obtain ⟨now, hup⟩ := updateTorrentState_alone key .underRepair none r1.2.1
            fun n => r1.2.2 (n + 1)
          split at h
          · obtain ⟨old', info', hold', rfl, hinfo', -⟩ := ensureTorrentInfo_alone h
            rw [hup, hstored] at hold'
            obtain rfl : withState first .underRepair none now = old' := by
              simpa using hold'
            subst hfirst
            refine ⟨old, hold, rfl, rfl, fun hsome => ?_⟩
            have hkept : info = old.info := hinfo hsome
            exact (hinfo' (hkept ▸ hsome)).trans hkept
          · cases h
        · cases h

/-- An outcome `Success` without new ids comes from the later strategies, which need the detail. -/
theorem info_of_success_none {a : Answers} {mt : ManagedTorrent} {cfg : RepairConfig}
    (h : (executeCascade a mt cfg).value = .success none) : ∃ info, mt.info = some info := by
  cases hinfo : mt.info with
  | some info => exact ⟨info, rfl⟩
  | none =>
    rw [executeCascade, hinfo] at h
    dsimp only at h
    split at h
    · cases h
    · rw [bind_value, pure_value] at h
      cases hready : (a.magnet .reinsert).ready with
      | true =>
        obtain ⟨id, -, hv⟩ := reinsert_ready hready mt "all" cfg.restrictToCached
        rw [hv] at h
        cases h
      | false =>
        have hnot := reinsert_not_ready hready mt "all" cfg.restrictToCached none
        cases hv : (tryStrategy1Reinsert a mt "all" cfg.restrictToCached).value with
        | none =>
          rw [hv] at h
          exact absurd h (finishFailure_ne_success mt none)
        | some out =>
          rw [hv, Option.getD_some] at h
          rw [hv, h] at hnot
          exact absurd rfl hnot

/-! ## The run -/

/-- The record under the key after an update of a key that has one. -/
theorem updateTorrentState_lookup {key : String} {mt : ManagedTorrent} {m : Manager}
    (h : m.torrents.lookup key = some mt) (state : TorrentState) (reason : Option String)
    (env : Nat → Env) : ∃ now,
    ((updateTorrentState key state reason).eval performAlone m env).2.1.torrents.lookup key =
      some (withState mt state reason now) := by
  obtain ⟨now, hup⟩ := updateTorrentState_alone key state reason m env
  rw [h] at hup
  exact ⟨now, by rw [hup, AList.lookup_insert]⟩

/-- What a repair that ends with `ok` leaves under the key, with the outcome of preflight it has it
    from. -/
inductive Leaves (o : Outside) (mt : ManagedTorrent) (cfg : RepairConfig) :
    RepairEnd → ManagedTorrent → Prop where
  | verifiedOk {m : ManagedTorrent} (now : Int) (h : (runPreflight o mt).value = .verifiedOk m) :
      Leaves o mt cfg .verifiedOk (withState m .ok none now)
  | kept {m : ManagedTorrent} (now : Int) (a : Answers) (h : (runPreflight o mt).value = .proceed m)
      (hc : (executeCascade a m cfg).value = .success none) :
      Leaves o mt cfg (.repaired none) (withState m .ok none now)
  | replaced (m : ManagedTorrent) (ids : List String) (now : Int) :
      Leaves o mt cfg (.repaired (some ids)) (withState (withRdIds m ids) .ok none now)

/-- The end of a repair that sets `ok`. -/
def RepairEnd.isOk : RepairEnd → Bool
  | .verifiedOk | .repaired _ => true
  | .skipped | .broken => false

theorem finishBroken_end (key : String) (reason : Option String) (m : Manager) (env : Nat → Env) :
    ((finishBroken key reason).eval performAlone m env).1 = .broken := by
  rw [finishBroken, Prog.eval_bind]
  rfl

/-- Preflight edits the detail and the file states, nothing else. -/
theorem runPreflight_edits {o : Outside} {mt m : ManagedTorrent}
    (h : (runPreflight o mt).value = .proceed m ∨ (runPreflight o mt).value = .verifiedOk m) :
    ∃ info states, m = { mt with info := info, fileStates := states } := by
  have hne := PreflightOutcome.ne_defer h
  cases hinfo : mt.info with
  | none =>
    rw [runPreflight, hinfo] at h
    rcases h with h | h
    · cases h
      exact ⟨_, _, rfl⟩
    · cases h
  | some info =>
    obtain ⟨-, -, hv⟩ := runPreflight_value hinfo hne
    rw [hv] at h hne
    rcases shortcutStage_cases hne with ⟨hp, -⟩ | ⟨info', file, selI, -, -, hp⟩
    · rw [hp] at h
      rcases h with h | h
      · cases h
        exact ⟨_, _, rfl⟩
      · cases h
    · rw [hp] at h
      rcases h with h | h
      · cases h
      · cases h
        exact ⟨_, _, rfl⟩

/-- The record a successful cascade is finished with. -/
def withNewIds (r : ManagedTorrent) : Option (List String) → ManagedTorrent
  | none => r
  | some ids => withRdIds r ids

theorem finishCascade_ok {key : String} {outcome : Option CascadeOutcome} {m : Manager}
    {env : Nat → Env} {r : ManagedTorrent} (hr : m.torrents.lookup key = some r)
    (hkey : r.accessKey = key)
    (hend : ((finishCascade key outcome).eval performAlone m env).1.isOk = true) :
    ∃ ids now, outcome = some (.success ids) ∧
      ((finishCascade key outcome).eval performAlone m env).1 = .repaired ids ∧
      ((finishCascade key outcome).eval performAlone m env).2.1.torrents.lookup key =
        some (withState (withNewIds r ids) .ok none now) := by
  cases outcome with
  | none =>
    rw [finishCascade, finishBroken_end] at hend
    cases hend
  | some out =>
    cases out with
    | unrepairable reason =>
      rw [finishCascade, finishBroken_end] at hend
      cases hend
    | unrepairableMsg msg =>
      rw [finishCascade, finishBroken_end] at hend
      cases hend
    | deferBandwidth =>
      rw [finishCascade, finishBroken_end] at hend
      cases hend
    | success ids =>
      cases ids with
      | none =>
        obtain ⟨now, hup⟩ := updateTorrentState_lookup hr .ok none env
        rw [finishCascade]
        dsimp only
        rw [Prog.eval_bind]
        exact ⟨none, now, rfl, rfl, hup⟩
      | some ids =>
        have hrep := replaceRdIdsAfterRepair_alone key ids m env
        rw [hr] at hrep
        have hnew : ((replaceRdIdsAfterRepair key ids).eval performAlone m env).2.1.torrents.lookup
            key = some (withRdIds r ids) := by
          rw [hrep, ← hkey, AList.lookup_insert]
        obtain ⟨now, hup⟩ := updateTorrentState_lookup hnew .ok none
          ((replaceRdIdsAfterRepair key ids).eval performAlone m env).2.2
        rw [finishCascade]
        dsimp only
        rw [Prog.eval_bind, Prog.eval_bind]
        exact ⟨some ids, now, rfl, rfl, hup⟩

/-- **What a repair leaves**, alone: `mt` is the copy preflight works on. -/
theorem repairPrepared_leaves {cfg : EngineConfig} {key : String} {mt : ManagedTorrent} {m : Manager}
    {env : Nat → Env} (hkey : mt.accessKey = key)
    (hend : ((repairPrepared cfg key mt).eval performAlone m env).1.isOk = true) :
    ∃ left, ((repairPrepared cfg key mt).eval performAlone m env).2.1.torrents.lookup key =
        some left ∧
      Leaves (env 0).outside mt cfg.repair ((repairPrepared cfg key mt).eval performAlone m env).1
        left := by
  have hask : performAlone m .preflight (env 0) = ((env 0).outside, m) := rfl
  rw [repairPrepared, Prog.call_bind, Prog.eval_act, hask] at hend ⊢
  dsimp only at hend ⊢
  cases hpre : (runPreflight (env 0).outside mt).value with
  | deferBandwidth =>
    rw [hpre] at hend
    dsimp only at hend
    rw [finishBroken_end] at hend
    cases hend
  | verifiedOk r =>
    have hrkey : r.accessKey = key := by
      obtain ⟨_, _, rfl⟩ := runPreflight_edits (Or.inr hpre)
      exact hkey
    have hsnap : ((persistTorrentSnapshot .preflightSnapshot (some mt) r).eval performAlone m
        fun n => env (n + 1)).2.1.torrents.lookup key = some r := by
      rw [persistTorrentSnapshot_alone, ← hrkey, AList.lookup_insert]
    obtain ⟨now, hup⟩ := updateTorrentState_lookup hsnap .ok none
      ((persistTorrentSnapshot .preflightSnapshot (some mt) r).eval performAlone m
        fun n => env (n + 1)).2.2
    dsimp only
    rw [Prog.eval_bind, Prog.eval_bind]
    exact ⟨_, hup, .verifiedOk now hpre⟩
  | proceed r =>
    have hrkey : r.accessKey = key := by
      obtain ⟨_, _, rfl⟩ := runPreflight_edits (Or.inl hpre)
      exact hkey
    have hsnap : ((persistTorrentSnapshot .preflightSnapshot (some mt) r).eval performAlone m
        fun n => env (n + 1)).2.1.torrents.lookup key = some r := by
      rw [persistTorrentSnapshot_alone, ← hrkey, AList.lookup_insert]
    rw [hpre] at hend
    dsimp only at hend ⊢
    rw [Prog.eval_bind, Prog.eval_bind] at hend ⊢
    generalize (persistTorrentSnapshot .preflightSnapshot (some mt) r).eval performAlone m
      (fun n => env (n + 1)) = r1 at hsnap hend ⊢
    obtain ⟨hsame, hout⟩ := runCascade_alone cfg key r r1.2.1 r1.2.2
    generalize (runCascade cfg key r).eval performAlone r1.2.1 r1.2.2 = r2 at hsame hout hend ⊢
    rw [← hsame] at hsnap
    obtain ⟨ids, now, hsucc, hres, hleft⟩ := finishCascade_ok hsnap hrkey hend
    rw [hres]
    refine ⟨_, hleft, ?_⟩
    cases ids with
    | none => exact .kept now _ hpre (hout _ hsucc).symm
    | some ids => exact .replaced r ids now

/-! ## Convergence -/

/-- When the record a repair leaves has converged, by how the repair ended. -/
def ConvergesWhen (o : Outside) (mt : ManagedTorrent) : RepairEnd → Prop
  | .verifiedOk => LinksComplete o mt
  | .repaired none => LinksComplete o mt ∧ ProbesGood o mt
  | .repaired (some _) => True
  | .skipped | .broken => False

theorem Leaves.converges {o : Outside} {mt left : ManagedTorrent} {cfg : RepairConfig}
    {e : RepairEnd} (h : Leaves o mt cfg e left) : Converged left ↔ ConvergesWhen o mt e := by
  cases h with
  | replaced m ids now =>
    rw [converged_withState_ok]
    refine iff_of_true ⟨fun info hinfo => ?_, fun p hp => ?_⟩ trivial
    · cases hinfo
    · rfl
  | @verifiedOk m now h =>
    cases hinfo : mt.info with
    | none =>
      rw [runPreflight, hinfo] at h
      cases h
    | some info =>
      have hne := PreflightOutcome.ne_defer (Or.inr h)
      obtain ⟨hassign, hprobe, hv⟩ := runPreflight_value hinfo hne
      rw [hv] at hne h
      rcases shortcutStage_cases hne with ⟨hp, -⟩ | ⟨info', file, selI, hslot, -, hp⟩
      · rw [h] at hp
        cases hp
      · rw [h] at hp
        cases hp
        exact converged_markVerified_iff hinfo hassign hprobe hslot now
  | @kept m now a h hc =>
    have hne := PreflightOutcome.ne_defer (Or.inl h)
    cases hinfo : mt.info with
    | none =>
      -- without the detail the cascade has no success that keeps the ids
      rw [runPreflight, hinfo] at h
      cases h
      obtain ⟨info, hsome⟩ := info_of_success_none hc
      rw [hinfo] at hsome
      cases hsome
    | some info =>
      obtain ⟨hassign, hprobe, hv⟩ := runPreflight_value hinfo hne
      rw [hv] at hne h
      rcases shortcutStage_cases hne with ⟨hp, -⟩ | ⟨info', file, selI, hslot, -, hp⟩
      · rw [h] at hp
        cases hp
        exact converged_asProbed_iff hinfo hassign hprobe now
      · rw [h] at hp
        cases hp

/-- The answers preflight gets in a repair. -/
def preflightAnswers (cfg : EngineConfig) (key : String) (m : Manager) (env : Nat → Env) : Outside :=
  (((prepare cfg key).eval performAlone m env).2.2 0).outside

/-- **A repair that ends with `ok`** leaves a record under the key, and that record has converged
    exactly when new ids replaced the old, or the links of the copy preflight worked on were complete
    (and, after a cascade, its probes good). -/
theorem converged_iff (cfg : EngineConfig) (key : String) (m : Manager) (env : Nat → Env)
    (mt : ManagedTorrent) (hkeyed : Keyed m.torrents)
    (hprep : ((prepare cfg key).eval performAlone m env).1 = some mt)
    (hend : ((repairOneTorrent cfg key).eval performAlone m env).1.isOk = true) :
    ∃ left, ((repairOneTorrent cfg key).eval performAlone m env).2.1.torrents.lookup key = some left ∧
      (Converged left ↔ ConvergesWhen (preflightAnswers cfg key m env) mt
        ((repairOneTorrent cfg key).eval performAlone m env).1) := by
  obtain ⟨old, hold, hmt, -, -⟩ := prepare_record hprep
  have hkey : mt.accessKey = key := hmt.trans (hkeyed key old hold)
  rw [repairOneTorrent, Prog.eval_bind, hprep] at hend ⊢
  dsimp only at hend ⊢
  obtain ⟨left, hleft, hleaves⟩ := repairPrepared_leaves hkey hend
  exact ⟨left, hleft, hleaves.converges⟩

/-- Every link is good, Real-Debrid has room and the database works. -/
def allGood : Env := { answering [] true with outside := sameForAll (.ok ⟨"Film.mkv", 700⟩) .ok }

/-- Every link is dead. -/
def allDead : Env :=
  { answering [] true with outside := sameForAll (.error (.api (.other 19 "hoster_unavailable"))) .ok }

/-- A repair of up to an hour, with restricted batches. -/
def oneHour : EngineConfig := ⟨⟨false, 8⟩, 60⟩

/-- The film, broken, with these files. -/
def brokenFilm (files : List File) : ManagedTorrent :=
  { soundFilm with state := .broken, info := some { oneFilmInfo with files := files } }

/-- A registry with nothing but this record of the film. -/
def filmOnly (mt : ManagedTorrent) : Manager := atRest (AList.singleton "HASH/Film" mt) ∅

/-- A second selected file has no link: preflight finds the one link good and sets the torrent to
    `ok`, and the next scan picks it again. -/
theorem verified_film_stays_candidate :
    ((repairOneTorrent oneHour "HASH/Film").eval performAlone
        (filmOnly (brokenFilm [⟨1, "/Film.mkv", 700, 1⟩, ⟨2, "/Extra.mkv", 50, 1⟩]))
        fun _ => allGood).1 = .verifiedOk ∧
      ∃ left, ((repairOneTorrent oneHour "HASH/Film").eval performAlone
          (filmOnly (brokenFilm [⟨1, "/Film.mkv", 700, 1⟩, ⟨2, "/Extra.mkv", 50, 1⟩]))
          fun _ => allGood).2.1.torrents.lookup "HASH/Film" = some left ∧ ¬Converged left := by
  refine ⟨by decide, _, rfl, fun h => ?_⟩
  exact absurd h.1 (by decide)

/-- With its one file linked the film converges. -/
theorem converged_iff_oneFile :
    ∃ left, ((repairOneTorrent oneHour "HASH/Film").eval performAlone
        (filmOnly (brokenFilm [⟨1, "/Film.mkv", 700, 1⟩])) fun _ => allGood).2.1.torrents.lookup
        "HASH/Film" = some left ∧ Converged left := by
  have hkeyed : Keyed (filmOnly (brokenFilm [⟨1, "/Film.mkv", 700, 1⟩])).torrents :=
    keyed_singleton (brokenFilm [⟨1, "/Film.mkv", 700, 1⟩])
  obtain ⟨left, hleft, hiff⟩ := converged_iff oneHour "HASH/Film"
    (filmOnly (brokenFilm [⟨1, "/Film.mkv", 700, 1⟩])) (fun _ => allGood) _ hkeyed rfl (by decide)
  refine ⟨left, hleft, hiff.mpr ?_⟩
  intro info hinfo
  obtain rfl := Option.some.inj hinfo
  refine ⟨fun i hi => Or.inl ?_, fun p hp hplay => rfl⟩
  obtain rfl : i = 0 := Nat.lt_one_iff.mp hi
  decide

end RdRs.Repair

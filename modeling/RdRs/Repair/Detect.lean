/-
  `repair/detect.rs` — the passive repair signals read off a torrent's detail.

  The counting loop is the program's own (a running selected-file index beside the counter);
  `unassignedSelectedLinkCount_eq` reads it as "how many selected indices `i` lack a non-empty
  `links[i]`", the rule `hasLink` that the module's comments promise to share with FUSE.
-/
import RdRs.Rd.Types

set_option linter.unusedVariables false

namespace RdRs.Repair

open RdRs.Rd

/-! ## Playable paths -/

/-- `char::to_lowercase` as far as an ASCII suffix can see it: the ASCII letters, and the Kelvin
    sign, the only other character whose lower case is one ASCII letter. -/
def lowerChar (c : Char) : Char := if c = Char.ofNat 0x212A then 'k' else c.toLower

/-- The suffixes of `path_looks_playable`. -/
def playableSuffixes : List String :=
  [".mkv", ".mp4", ".avi", ".webm", ".m4v", ".mpg", ".mpeg", ".mp3", ".flac", ".m4b", ".aac",
    ".opus", ".wav"]

/-- `path_looks_playable` -/
def pathLooksPlayable (path : String) : Bool :=
  playableSuffixes.any fun s => s.toList.isSuffixOf (path.toList.map lowerChar)

/-- `has_non_playable_selected` -/
def hasNonPlayableSelected (info : TorrentInfo) : Bool :=
  info.selectedFiles.any fun f => !pathLooksPlayable f.path

/-- `duplicate_selected_file_ids`: the loop with the set of ids seen so far. -/
def duplicateSelectedFileIds (info : TorrentInfo) : Bool :=
  go [] info.selectedFiles
where
  go (seen : List Int) : List File → Bool
    | [] => false
    | f :: rest => if seen.contains f.id then true else go (f.id :: seen) rest

/-! ## Link slots -/

/-- `links[i]` exists and is non-empty. -/
def hasLink (info : TorrentInfo) (i : Nat) : Bool :=
  match info.links[i]? with
  | some s => s != ""
  | none => false

/-- The loop of `unassigned_selected_link_count`, from the counters `missing` and `selI`. -/
def unassignedFrom (info : TorrentInfo) (missing selI : Nat) : List File → Nat
  | [] => missing
  | f :: rest =>
    if !f.isSelected then unassignedFrom info missing selI rest
    else
      let missing := if !hasLink info selI then missing + 1 else missing
      unassignedFrom info missing (selI + 1) rest

/-- `unassigned_selected_link_count` -/
def unassignedSelectedLinkCount (info : TorrentInfo) : Nat := unassignedFrom info 0 0 info.files

/-- `passive_head_probe_slot_count`: the enumerated selected files that are playable and have a
    link. -/
def passiveHeadProbeSlotCount (info : TorrentInfo) : Nat :=
  (info.selectedFiles.zipIdx.filter fun fi => pathLooksPlayable fi.1.path && hasLink info fi.2).length

/-- `periodic_repair_eligible` -/
def periodicRepairEligible (mt : ManagedTorrent) : Bool :=
  if mt.unrepairableReason.isSome then false
  else
    let unassigned := match mt.info with
      | some info => decide (unassignedSelectedLinkCount info > 0)
      | none => false
    let fileBroken := match mt.fileStates with
      | some fs => fs.entries.any fun e => e.2 == "broken" && pathLooksPlayable e.1
      | none => false
    mt.state == .broken || mt.state == .underRepair ||
      (mt.state == .ok && (unassigned || fileBroken))

/-- The loop counts, from any start, the unassigned ones among the indices it passes. -/
theorem unassignedFrom_eq (info : TorrentInfo) : ∀ (files : List File) (missing selI : Nat),
    unassignedFrom info missing selI files = missing +
      ((List.range' selI (files.filter File.isSelected).length).filter
        (fun i => !hasLink info i)).length := by
  intro files
  induction files with
  | nil => intro missing selI; simp [unassignedFrom]
  | cons f rest ih =>
    intro missing selI
    rw [unassignedFrom]
    by_cases hsel : f.isSelected = true
    · rw [if_neg (by simp [hsel]), List.filter_cons_of_pos hsel, List.length_cons,
        List.range'_succ]
      simp only
      rw [ih]
      by_cases hl : hasLink info selI = true
      · rw [if_neg (by simp [hl]), List.filter_cons_of_neg (by simp [hl])]
      · rw [if_pos (by simp [hl]), List.filter_cons_of_pos (by simp [hl]), List.length_cons]
        omega
    · rw [if_pos (by simp [hsel]), List.filter_cons_of_neg hsel, ih]

/-- **`unassigned_selected_link_count`** is the number of selected indices without a link. -/
theorem unassignedSelectedLinkCount_eq (info : TorrentInfo) :
    unassignedSelectedLinkCount info =
      ((List.range info.selectedFiles.length).filter (fun i => !hasLink info i)).length := by
  rw [unassignedSelectedLinkCount, unassignedFrom_eq, Nat.zero_add, List.range_eq_range']
  rfl

theorem unassignedSelectedLinkCount_eq_zero (info : TorrentInfo) :
    unassignedSelectedLinkCount info = 0 ↔
      ∀ i, i < info.selectedFiles.length → hasLink info i = true := by
  rw [unassignedSelectedLinkCount_eq, List.length_eq_zero_iff, List.filter_eq_nil_iff]
  simp

end RdRs.Repair

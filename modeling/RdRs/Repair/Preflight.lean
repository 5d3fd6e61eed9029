/-
  `repair/preflight.rs` — what a repair does before the cascade, and `check_head_unreachable` of
  `repair/detect.rs`, which asks the same two questions of a link.

  A link is tried with two calls: `unrestrict_link` (the API) and `verify_link` (the CDN).  Both fail
  with an `RdError`, but `verify_head` and `verify_range` wrap theirs in an `anyhow` context, and of
  an `anyhow` error only the outermost text is shown.  So the callers can ask the first error whether
  it is a bandwidth limit, and have to guess it from a text in the second case
  (`verifyFailedLikeBandwidth`).

  What the program asks is answered from outside: `Outside` gives the answer of every call by its
  place in the program, and a run is the list of the calls with their answers and of the writes to
  `file_states` (`Traced`).
-/
import RdRs.Lib.Traced
import RdRs.Rd.Errors
import RdRs.Repair.Cascade
import RdRs.Fuse.Resolve

set_option linter.unusedVariables false

namespace RdRs.Repair

open RdRs.Rd RdRs.Effects

/-! ## The two calls -/

/-- The part of an unrestrict answer that repair reads. -/
structure Download where
  filename : String
  filesize : Int
deriving Repr, DecidableEq

/-- Where in the program a link is tried. -/
inductive Site where
  /-- the `k`-th non-empty orphan link of `assign_orphan_links` -/
  | orphan (k : Nat)
  /-- the link of the `i`-th selected file, in `probe_selected_links` or `check_head_unreachable` -/
  | probe (i : Nat)
  /-- the link of the `i`-th selected file, in `verify_one_link_and_clear` -/
  | shortcut (i : Nat)
deriving Repr, DecidableEq

/-- How the request inside `verify_head` or `verify_range` ends. -/
inductive VerifyAnswer where
  | ok
  /-- the connection semaphore is closed -/
  | closed
  /-- `execute` fails -/
  | failed (e : RdError)
  /-- an answer whose status, shown here, is not a success -/
  | status (shown : String)
deriving Repr, DecidableEq

/-- What comes from outside: the standard library's lower-casing, the configuration, and the answer
    of every call. -/
structure Outside where
  toLowercase : String → String
  useRangeVerification : Bool
  unrestrict : Site → Except RdError Download
  verify : Site → VerifyAnswer

/-- What a run does. -/
inductive LinkEv where
  | unrestrict (site : Site) (answer : Except RdError Download)
  | verify (site : Site) (answer : VerifyAnswer)
  /-- `file_states.insert(path, status)` -/
  | set (path status : String)

/-- The context `verify_link` puts around an error. -/
def verifyContext (o : Outside) : String :=
  if o.useRangeVerification then "verify_range" else "verify_head"

/-- `verify_link`: the text of its `anyhow` error, if it fails.  Of an error of `execute` only the
    context is shown. -/
def verifyError (o : Outside) : VerifyAnswer → Option String
  | .ok => none
  | .closed => some (verifyContext o ++ ": connection semaphore closed")
  | .failed _ => some (verifyContext o)
  | .status shown => some (verifyContext o ++ ": unexpected status " ++ shown)

/-- `verify_failed_like_bandwidth` -/
def verifyFailedLikeBandwidth (text : String) : Bool :=
  let m := String.ofList (text.toList.map lowerChar)
  contains m "traffic" || contains m "bandwidth" || contains m "fair usage"

/-- `rd.unrestrict_link` -/
def unrestrictLink (o : Outside) (site : Site) : Traced LinkEv (Except RdError Download) := do
  emit (.unrestrict site (o.unrestrict site))
  pure (o.unrestrict site)

/-- `rd.verify_link` -/
def verifyLink (o : Outside) (site : Site) : Traced LinkEv (Option String) := do
  emit (.verify site (o.verify site))
  pure (verifyError o (o.verify site))

/-- How trying a link ends. -/
inductive Trial where
  /-- `unrestrict_link` fails -/
  | refused (e : RdError)
  /-- `verify_link` fails, with this text -/
  | unverified (text : String)
  | good (dl : Download)
deriving Repr, DecidableEq

/-- Unrestrict a link, then verify the download. -/
def tryLink (o : Outside) (site : Site) : Traced LinkEv Trial := do
  match ← unrestrictLink o site with
  | .error e => pure (.refused e)
  | .ok dl =>
    match ← verifyLink o site with
    | some text => pure (.unverified text)
    | none => pure (.good dl)

theorem tryLink_refused {o : Outside} {site : Site} {e : RdError} (h : o.unrestrict site = .error e) :
    tryLink o site = ⟨[.unrestrict site (.error e)], .refused e⟩ := by
  simp only [tryLink, unrestrictLink, h]
  rfl

theorem tryLink_unverified {o : Outside} {site : Site} {dl : Download} {text : String}
    (h : o.unrestrict site = .ok dl) (hv : verifyError o (o.verify site) = some text) :
    tryLink o site =
      ⟨[.unrestrict site (.ok dl), .verify site (o.verify site)], .unverified text⟩ := by
  simp only [tryLink, unrestrictLink, verifyLink, h, hv]
  rfl

theorem tryLink_good {o : Outside} {site : Site} {dl : Download} (h : o.unrestrict site = .ok dl)
    (hv : verifyError o (o.verify site) = none) :
    tryLink o site = ⟨[.unrestrict site (.ok dl), .verify site (o.verify site)], .good dl⟩ := by
  simp only [tryLink, unrestrictLink, verifyLink, h, hv]
  rfl

/-! ## Orphan links -/

/-- `file_states`, once it is there. -/
abbrev FileStates := AList (fun _ : String => String)

/-- The two things preflight edits. -/
structure Draft where
  info : TorrentInfo
  states : FileStates

/-- `file_states.insert(path, status)` -/
def setState (states : FileStates) (path status : String) : Traced LinkEv FileStates := do
  emit (.set path status)
  pure (states.insert path status)

/-- `filename_lower` -/
def filenameLower (o : Outside) (path : String) : String :=
  ((Fuse.fileName path).map o.toLowercase).getD ""

/-- `str::ends_with` -/
def endsWith (s suffix : String) : Bool := suffix.toList.isSuffixOf s.toList

/-- `download_matches_file` -/
def downloadMatchesFile (o : Outside) (file : File) (dl : Download) : Bool :=
  if file.bytes > 0 ∧ dl.filesize > 0 ∧ file.bytes ≠ dl.filesize then false
  else
    let fp := filenameLower o file.path
    let dn := o.toLowercase dl.filename
    fp != "" && dn != "" && (endsWith fp dn || endsWith dn fp || fp == dn)

/-- `orphan_rd_links`: the links past the selected files. -/
def orphanRdLinks (info : TorrentInfo) : List String := info.links.drop info.selectedFiles.length

/-- `path.to_lowercase().ends_with(".rar")` -/
def isRar (path : String) : Bool := ".rar".toList.isSuffixOf (path.toList.map lowerChar)

/-- `selected_rar_count` -/
def selectedRarCount (info : TorrentInfo) : Nat :=
  (info.selectedFiles.filter fun f => isRar f.path).length

/-- Set every listed path. -/
def setStates (status : String) : List String → FileStates → Traced LinkEv FileStates
  | [], states => pure states
  | p :: ps, states => do
    let states ← setState states p status
    setStates status ps states

/-- `apply_lone_selected_rar_ok_policy` -/
def applyLoneSelectedRarOkPolicy (info : TorrentInfo) (states : FileStates) (assigned : String) :
    Traced LinkEv FileStates :=
  if selectedRarCount info ≠ 1 then pure states
  else if !isRar assigned then pure states
  else setStates "ok" (info.selectedFiles.map File.path) states

/-- `ensure_link_slot`, then the assignment to the slot. -/
def setLink (links : List String) (i : Nat) (link : String) : List String :=
  (links ++ List.replicate (i + 1 - links.length) "").set i link

/-- The file is marked `broken`. -/
def isBroken (states : FileStates) (path : String) : Bool := states.lookup path == some "broken"

/-- The slots an orphan link may go to: broken or empty, and of a matching file. -/
def takesOrphan (o : Outside) (d : Draft) (dl : Download) (fi : File × Nat) : Bool :=
  (isBroken d.states fi.1.path || !hasLink d.info fi.2) && downloadMatchesFile o fi.1 dl

/-- The inner loop of `assign_orphan_links`: the first slot that takes the link. -/
def placeOrphan (o : Outside) (d : Draft) (link : String) (dl : Download) : Traced LinkEv Draft :=
  match d.info.selectedFiles.zipIdx.find? (takesOrphan o d dl) with
  | none => pure d
  | some (file, selI) => do
    let info := { d.info with links := setLink d.info.links selI link }
    let states ← setState d.states file.path "ok"
    let states ← applyLoneSelectedRarOkPolicy info states file.path
    pure ⟨info, states⟩

/-- The loop of `assign_orphan_links` over the orphans, the first of them being number `k`. -/
def assignFrom (o : Outside) : Nat → List String → Draft → Traced LinkEv (Except RdError Unit × Draft)
  | _, [], d => pure (.ok (), d)
  | k, link :: rest, d => do
    match ← tryLink o (.orphan k) with
    | .refused e =>
      if e.isBandwidthLimited then pure (.error e, d) else assignFrom o (k + 1) rest d
    | .unverified text =>
      if verifyFailedLikeBandwidth text then pure (.error (.api (.trafficExhausted text)), d)
      else assignFrom o (k + 1) rest d
    | .good dl => do
      let d ← placeOrphan o d link dl
      assignFrom o (k + 1) rest d

/-- `assign_orphan_links` -/
def assignOrphanLinks (o : Outside) (d : Draft) : Traced LinkEv (Except RdError Unit × Draft) :=
  assignFrom o 0 ((orphanRdLinks d.info).filter fun l => l != "") d

/-! ## The probe of every selected link -/

/-- The loop of `probe_selected_links` over the enumerated selected files. -/
def probeFrom (o : Outside) (info : TorrentInfo) :
    List (File × Nat) → FileStates → Traced LinkEv (Except RdError Unit × FileStates)
  | [], states => pure (.ok (), states)
  | (file, selI) :: rest, states =>
    if !hasLink info selI then probeFrom o info rest states
    else do
      match ← tryLink o (.probe selI) with
      | .refused e =>
        if e.isBandwidthLimited then pure (.error e, states)
        else do
          let states ← setState states file.path "broken"
          probeFrom o info rest states
      | .unverified text =>
        if verifyFailedLikeBandwidth text then pure (.error (.api (.trafficExhausted text)), states)
        else do
          let states ← setState states file.path "broken"
          probeFrom o info rest states
      | .good _ => do
        let states ← setState states file.path "ok"
        probeFrom o info rest states

/-- `probe_selected_links` -/
def probeSelectedLinks (o : Outside) (d : Draft) : Traced LinkEv (Except RdError Unit × FileStates) :=
  probeFrom o d.info d.info.selectedFiles.zipIdx d.states

/-! ## The verify-ok shortcut -/

/-- The selected files that look playable. -/
def playableSelected (info : TorrentInfo) : List File :=
  info.selectedFiles.filter fun f => pathLooksPlayable f.path

/-- `broken_playable_paths` -/
def brokenPlayablePaths (info : TorrentInfo) (states : FileStates) : List String :=
  ((playableSelected info).filter fun f => isBroken states f.path).map File.path

/-- `any_playable_selected` -/
def anyPlayableSelected (info : TorrentInfo) : Bool := !(playableSelected info).isEmpty

/-- `entry(path).or_insert("ok")` for each listed path. -/
def orInsertOk : List String → FileStates → Traced LinkEv FileStates
  | [], states => pure states
  | p :: ps, states =>
    if (states.lookup p).isSome then orInsertOk ps states
    else do
      let states ← setState states p "ok"
      orInsertOk ps states

/-- The link `verify_one_link_and_clear` tries, if any: the first selected file with a link, of a
    torrent with playable files none of which is marked broken. -/
def shortcutSlot (mt : ManagedTorrent) : Option (TorrentInfo × File × Nat) :=
  match mt.info with
  | none => none
  | some info =>
    if !anyPlayableSelected info then none
    else if brokenPlayablePaths info (mt.fileStates.getD ∅) ≠ [] then none
    else (info.selectedFiles.zipIdx.find? fun fi => hasLink info fi.2).map fun fi => (info, fi)

/-- What a good link does: its file is `ok`, and so is every playable file without a state. -/
def markVerified (mt : ManagedTorrent) (info : TorrentInfo) (path : String) :
    Traced LinkEv ManagedTorrent := do
  let states ← setState (mt.fileStates.getD ∅) path "ok"
  let states ← orInsertOk ((playableSelected info).map File.path) states
  pure { mt with info := some info, fileStates := some states }

/-- `verify_one_link_and_clear` -/
def verifyOneLinkAndClear (o : Outside) (mt : ManagedTorrent) :
    Traced LinkEv (Except RdError (Option ManagedTorrent)) :=
  match shortcutSlot mt with
  | none => pure (.ok none)
  | some (info, file, selI) => do
    match ← tryLink o (.shortcut selI) with
    | .refused e => pure (.error e)
    | .unverified text =>
      if verifyFailedLikeBandwidth text then pure (.error (.api (.trafficExhausted text)))
      else pure (.ok none)
    | .good _ => do
      let fixed ← markVerified mt info file.path
      pure (.ok (some fixed))

/-! ## Preflight -/

/-- `PreflightOutcome` -/
inductive PreflightOutcome where
  | proceed (mt : ManagedTorrent)
  | verifiedOk (mt : ManagedTorrent)
  | deferBandwidth

/-- The result is an error that `is_bandwidth_limited`. -/
def limited {α : Type} : Except RdError α → Bool
  | .error e => e.isBandwidthLimited
  | .ok _ => false

/-- The last step of `run_preflight`: the shortcut, on the record as probed. -/
def shortcutStage (o : Outside) (mt : ManagedTorrent) : Traced LinkEv PreflightOutcome := do
  match ← verifyOneLinkAndClear o mt with
  | .ok (some fixed) => pure (.verifiedOk fixed)
  | .ok none => pure (.proceed mt)
  | .error e => if e.isBandwidthLimited then pure .deferBandwidth else pure (.proceed mt)

/-- `run_preflight` from the probe on, with what the assignment has made of the record. -/
def probeStage (o : Outside) (mt : ManagedTorrent) (d : Draft) : Traced LinkEv PreflightOutcome := do
  let probed ← probeSelectedLinks o d
  if limited probed.1 then pure .deferBandwidth
  else shortcutStage o { mt with info := some d.info, fileStates := some probed.2 }

/-- `run_preflight` -/
def runPreflight (o : Outside) (mt : ManagedTorrent) : Traced LinkEv PreflightOutcome :=
  match mt.info with
  | none => pure (.proceed mt)
  | some info => do
    let assigned ← assignOrphanLinks o ⟨info, mt.fileStates.getD ∅⟩
    if limited assigned.1 then pure .deferBandwidth
    else probeStage o mt assigned.2

/-! ## The passive probe -/

/-- The loop of `check_head_unreachable` over the enumerated selected files. -/
def checkHeadFrom (o : Outside) (info : TorrentInfo) :
    List (File × Nat) → Nat → Traced LinkEv (Except RdError Nat)
  | [], unreachable => pure (.ok unreachable)
  | (file, selI) :: rest, unreachable =>
    if !pathLooksPlayable file.path then checkHeadFrom o info rest unreachable
    else if !hasLink info selI then checkHeadFrom o info rest unreachable
    else do
      match ← tryLink o (.probe selI) with
      | .refused e =>
        if e.isBandwidthLimited then pure (.error e)
        else checkHeadFrom o info rest (unreachable + 1)
      | .unverified text =>
        if verifyFailedLikeBandwidth text then pure (.error (.api (.trafficExhausted text)))
        else checkHeadFrom o info rest (unreachable + 1)
      | .good _ => checkHeadFrom o info rest unreachable

/-- `check_head_unreachable` -/
def checkHeadUnreachable (o : Outside) (info : TorrentInfo) : Traced LinkEv (Except RdError Nat) :=
  checkHeadFrom o info info.selectedFiles.zipIdx 0

end RdRs.Repair

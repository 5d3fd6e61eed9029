/-
  `repair/strategies.rs`, `repair/ephemeral_torrent.rs` — the four-strategy repair cascade and the
  Real-Debrid account it works on.

  1. **Program** — `executeCascade`, with every answer of Real-Debrid taken from `Answers`: each call
     site of the cascade is reached at most once (the delete of the i-th old id, the calls for the
     magnet of one `Slot`), so an answer per site is an answer for every sequence of calls.  What the
     cascade does is its trace: the calls in order, with the life of the one guard
     (`EphemeralRdTorrent`) that is alive at a time.
  2. **Account** — `World.step`: the live torrent ids, the guard, and the drop-deletes spawned.  A
     cascade whose future is dropped at an await leaves the prefix of its trace before that call
     (`droppedAt`), with the call in flight taking effect or not, and the guard dropped.
-/
import RdRs.Lib.Traced
import RdRs.Rd.Errors
import RdRs.Repair.Detect

set_option linter.unusedVariables false

namespace RdRs.Repair

open RdRs.Rd RdRs.Effects

/-! ## Reasons and outcomes -/

/-- `str::contains` -/
def contains (msg needle : String) : Bool := decide (needle.toList <:+: msg.toList)

/-- `reasons::MISSING_TORRENT_DETAIL` -/
def missingTorrentDetail : String := "missing torrent detail (stale or removed rd id)"

/-- `reasons::from_rd_error_message` -/
def fromRdErrorMessage (msg : String) : Option String :=
  let m := String.ofList (msg.toList.map lowerChar)
  if contains m "infringing" then some "infringing torrent"
  else if contains m "unsupported" then some "unsupported torrent"
  else if contains m "unavailable" then some "unavailable torrent"
  else if contains m "invalid" && contains m "torrent" then some "invalid torrent"
  else if contains m "big" || contains m "too large" then some "torrent too big"
  else if contains m "not allowed" then some "torrent not allowed"
  else if contains m "unknown" && (contains m "resource" || contains m "ressource") then
    some missingTorrentDetail
  else none

inductive UnrepairableReason where
  | loneBroken
  | noRepairableFiles
  | duplicateFileIDs
  | invalidFileIDs
  | notCached
deriving Repr, DecidableEq

/-- Outcome of the full cascade for one torrent. -/
inductive CascadeOutcome where
  | success (newRdIds : Option (List String))
  | unrepairable (reason : UnrepairableReason)
  | unrepairableMsg (msg : String)
  | deferBandwidth
deriving Repr, DecidableEq

/-- What the cascade reads of its configuration. -/
structure RepairConfig where
  restrictToCached : Bool
  batchFileGroupSize : Nat

/-- `finish_failure` -/
def finishFailure (mt : ManagedTorrent) : CascadeOutcome :=
  if mt.selectedFiles.length ≤ 1 then .unrepairable .loneBroken
  else .unrepairable .invalidFileIDs

/-- `map_rd` -/
def mapRd (e : RdError) : CascadeOutcome :=
  if e.isBandwidthLimited then .deferBandwidth
  else match fromRdErrorMessage e.display with
    | some r => .unrepairableMsg r
    | none => .unrepairable .invalidFileIDs

/-! ## The answers of Real-Debrid -/

/-- The answers to the calls for one magnet: `add_magnet`, `select_torrent_files`, the polls of
    `get_torrent_info` by attempt, and `delete_torrent` from `delete_ephemeral`. -/
structure Magnet where
  add : Except RdError String
  select : Except RdError Unit
  info : Nat → Except RdError TorrentInfo
  delete : Except RdError Unit

/-- The magnets of a cascade. -/
inductive Slot where
  | reinsert
  | file (i : Nat)
  | archive
  | batch (j : Nat)
deriving DecidableEq

/-- All answers: to strategy 1's delete of the i-th old id, to each magnet's calls, and to the two
    tries of the i-th spawned drop-delete. -/
structure Answers where
  delete : Nat → Except RdError Unit
  magnet : Slot → Magnet
  dropDelete : Nat → Except RdError Unit × Except RdError Unit

/-- `add_magnet` gives new ids: none of the old ones, and never one twice. -/
structure Answers.Fresh (a : Answers) (old : List String) : Prop where
  new : ∀ s id, (a.magnet s).add = .ok id → id ∉ old
  inj : ∀ s t id, (a.magnet s).add = .ok id → (a.magnet t).add = .ok id → s = t

/-- What the cascade does, call by call. -/
inductive Ev where
  /-- strategy 1's `delete_torrent` of an old id -/
  | delete (id : String) (ok : Bool)
  /-- `add_magnet`, with the id when it succeeds -/
  | add (hash : String) (id : Option String)
  /-- `EphemeralRdTorrent::new` -/
  | guardNew (id : String)
  | select (id files : String)
  | info (id : String)
  | sleep
  /-- `EphemeralRdTorrent::dismiss` -/
  | dismiss
  /-- `EphemeralRdTorrent::delete_ephemeral` -/
  | deleteEphemeral (id : String) (ok : Bool)
  /-- the guard goes out of scope -/
  | guardDrop
deriving DecidableEq

/-- The await points. -/
def Ev.isAwait : Ev → Bool
  | .delete _ _ | .add _ _ | .select _ _ | .info _ | .sleep | .deleteEphemeral _ _ => true
  | .guardNew _ | .dismiss | .guardDrop => false

/-! ## The strategies -/

/-- `InfoReadyOutcome` -/
structure InfoReadyOutcome where
  isReady : Bool
  restrictCachedNotReady : Bool

/-- 100 % with links. -/
def infoIsReady (info : TorrentInfo) : Bool := info.progress == 100 && !info.links.isEmpty

/-- The pause before a second and third poll. -/
def pollBackoff (attempt : Nat) : Traced Ev Unit := if attempt > 0 then emit .sleep else pure ()

/-- The poll loop of `info_ready`, with `left` attempts to go. -/
def infoReadyFrom (m : Magnet) (id : String) (restrictCached : Bool) :
    Nat → Nat → Traced Ev (Except RdError InfoReadyOutcome)
  | 0, _ => pure (.ok ⟨false, restrictCached⟩)
  | left + 1, attempt => do
    pollBackoff attempt
    emit (.info id)
    match m.info attempt with
    | .error e => pure (.error e)
    | .ok info =>
      if infoIsReady info then pure (.ok ⟨true, false⟩)
      else infoReadyFrom m id restrictCached left (attempt + 1)

/-- `info_ready` -/
def infoReady (m : Magnet) (id : String) (restrictCached : Bool) :
    Traced Ev (Except RdError InfoReadyOutcome) :=
  infoReadyFrom m id restrictCached 3 0

/-- How far a magnet got. -/
inductive Probe where
  | addFailed (e : RdError)
  | selectFailed (id : String) (e : RdError)
  | checked (id : String) (r : Except RdError InfoReadyOutcome)

/-- Add a magnet, guard it, select files and wait: the opening that all strategies share. -/
def openMagnet (m : Magnet) (hash files : String) (restrictCached : Bool) : Traced Ev Probe :=
  match m.add with
  | .error e => do
    emit (.add hash none)
    pure (.addFailed e)
  | .ok id => do
    emit (.add hash (some id))
    emit (.guardNew id)
    -- from here on every exit runs the guard's destructor
    emit (.select id files)
    match m.select with
    | .error e => pure (.selectFailed id e)
    | .ok () => do
      let r ← infoReady m id restrictCached
      pure (.checked id r)

/-- The scope of the guard around a strategy's reaction `k` to the opening. -/
def withMagnet {β : Type} (m : Magnet) (hash files : String) (restrictCached : Bool)
    (k : Probe → Traced Ev β) : Traced Ev β := do
  let p ← openMagnet m hash files restrictCached
  let b ← k p
  match p with
  | .addFailed _ => pure b
  | .selectFailed _ _ | .checked _ _ => do
    emit .guardDrop
    pure b

/-- `restrict_cached_not_ready`: delete the magnet and give up. -/
def deleteNotCached (m : Magnet) (id : String) : Traced Ev CascadeOutcome := do
  emit (.deleteEphemeral id m.delete.isOk)
  match m.delete with
  | .ok () => pure (.unrepairable .notCached)
  | .error e => if e.isBandwidthLimited then pure .deferBandwidth else pure (mapRd e)

/-- The delete loop of strategy 1; a failure is only logged. -/
def deleteIds (a : Answers) : List String → Nat → Traced Ev Unit
  | [], _ => pure ()
  | id :: ids, i => do
    emit (.delete id (a.delete i).isOk)
    deleteIds a ids (i + 1)

/-- What a strategy makes of its magnet: `onError` after a failed call, `onReady` for a magnet that
    is ready, `exit` to leave with an outcome, `notReady` to go on. -/
def react {β : Type} (m : Magnet) (onError : RdError → β) (onReady : String → Traced Ev β)
    (exit : CascadeOutcome → β) (notReady : β) : Probe → Traced Ev β
  | .addFailed e => pure (onError e)
  | .selectFailed _ e => pure (onError e)
  | .checked _ (.error e) => pure (onError e)
  | .checked id (.ok out) =>
    if out.isReady then onReady id
    else if out.restrictCachedNotReady then do
      let o ← deleteNotCached m id
      pure (exit o)
    else pure notReady

/-- Keep a ready magnet as the torrent's new id. -/
def keep {β : Type} (exit : CascadeOutcome → β) (id : String) : Traced Ev β := do
  emit .dismiss
  pure (exit (.success (some [id])))

/-- Strategy 1: every error ends the cascade. -/
def reinsertReact (m : Magnet) : Probe → Traced Ev (Option CascadeOutcome) :=
  react m (fun e => some (mapRd e)) (keep some) some none

/-- `try_strategy_1_reinsert` -/
def tryStrategy1Reinsert (a : Answers) (mt : ManagedTorrent) (filesToSelect : String)
    (restrictCached : Bool) : Traced Ev (Option CascadeOutcome) := do
  deleteIds a mt.rdIds 0
  withMagnet (a.magnet .reinsert) mt.torrent.hash filesToSelect restrictCached
    (reinsertReact (a.magnet .reinsert))

/-- An error of strategies 2 to 4: defer on a bandwidth limit, else count the magnet as not ready. -/
def deferOr (e : RdError) : Except CascadeOutcome Bool :=
  if e.isBandwidthLimited then .error .deferBandwidth else .ok false

/-- Strategies 2 and 4 (`.error` leaves the cascade): a ready magnet is counted, and its guard
    deletes it. -/
def probeReact (m : Magnet) : Probe → Traced Ev (Except CascadeOutcome Bool) :=
  react m deferOr (fun _ => pure (.ok true)) .error (.ok false)

/-- Strategy 3: as strategies 2 and 4, but a ready magnet is kept. -/
def archiveReact (m : Magnet) : Probe → Traced Ev (Except CascadeOutcome Bool) :=
  react m deferOr (keep .error) .error (.ok false)

/-- Strategy 2: one magnet per selected file. -/
def individualFiles (a : Answers) (hash : String) (restrictCached : Bool) :
    List File → Nat → Bool → Traced Ev (Except CascadeOutcome Bool)
  | [], _, allFixed => pure (.ok allFixed)
  | f :: rest, i, allFixed => do
    let r ← withMagnet (a.magnet (.file i)) hash (toString f.id) restrictCached
      (probeReact (a.magnet (.file i)))
    match r with
    | .error out => pure (.error out)
    | .ok fixed => individualFiles a hash restrictCached rest (i + 1) (allFixed && fixed)

/-- Strategy 3: one magnet with all files, when a non-playable file is selected. -/
def archiveAll (a : Answers) (hash : String) (info : TorrentInfo) (restrictCached : Bool) :
    Traced Ev (Except CascadeOutcome Bool) :=
  if hasNonPlayableSelected info then
    withMagnet (a.magnet .archive) hash "all" restrictCached (archiveReact (a.magnet .archive))
  else pure (.ok false)

/-- The ids as `select_torrent_files` takes them. -/
def joinIds (ids : List Int) : String := String.intercalate "," (ids.map toString)

/-- Strategy 4: one magnet per chunk of the selected ids. -/
def batchDownload (a : Answers) (hash : String) (restrictCached : Bool) :
    List (List Int) → Nat → Nat → Traced Ev (Except CascadeOutcome Nat)
  | [], _, batchesOk => pure (.ok batchesOk)
  | chunk :: rest, j, batchesOk => do
    let r ← withMagnet (a.magnet (.batch j)) hash (joinIds chunk) restrictCached
      (probeReact (a.magnet (.batch j)))
    match r with
    | .error out => pure (.error out)
    | .ok fixed =>
      batchDownload a hash restrictCached rest (j + 1) (if fixed then batchesOk + 1 else batchesOk)

/-- The chunks of strategy 4, of `batch_file_group_size` clamped to 1..32. -/
def batches (info : TorrentInfo) (cfg : RepairConfig) : List (List Int) :=
  (info.selectedFiles.map (·.id)).toChunks (max 1 (min cfg.batchFileGroupSize 32))

/-- Strategy 4, for more than one selected file, and the failure at the end of the cascade. -/
def batchStage (a : Answers) (mt : ManagedTorrent) (info : TorrentInfo) (cfg : RepairConfig) :
    Traced Ev CascadeOutcome :=
  if info.selectedFiles.length > 1 then do
    let r4 ← batchDownload a mt.torrent.hash cfg.restrictToCached (batches info cfg) 0 0
    match r4 with
    | .error out => pure out
    | .ok batchesOk =>
      if batchesOk = (batches info cfg).length then pure (.success none)
      else pure (finishFailure mt)
  else pure (finishFailure mt)

/-- Strategies 2 to 4. -/
def laterStrategies (a : Answers) (mt : ManagedTorrent) (info : TorrentInfo) (cfg : RepairConfig) :
    Traced Ev CascadeOutcome := do
  let r2 ← individualFiles a mt.torrent.hash cfg.restrictToCached info.selectedFiles 0 true
  match r2 with
  | .error out => pure out
  | .ok true => pure (.success none)
  | .ok false => do
    let r3 ← archiveAll a mt.torrent.hash info cfg.restrictToCached
    match r3 with
    | .error out => pure out
    | .ok _ => batchStage a mt info cfg

/-- `execute_cascade` -/
def executeCascade (a : Answers) (mt : ManagedTorrent) (cfg : RepairConfig) :
    Traced Ev CascadeOutcome :=
  match mt.info with
  | none =>
    if mt.torrent.hash = "" then pure (.unrepairableMsg missingTorrentDetail)
    else do
      let r ← tryStrategy1Reinsert a mt "all" cfg.restrictToCached
      pure (r.getD (finishFailure mt))
  | some info =>
    if duplicateSelectedFileIds info then pure (.unrepairable .duplicateFileIDs)
    else if info.selectedFiles = [] then pure (.unrepairable .noRepairableFiles)
    else if info.selectedFiles.all fun f => !pathLooksPlayable f.path then
      pure (.unrepairable .noRepairableFiles)
    else do
      let selectedIds := joinIds (info.selectedFiles.map (·.id))
      let filesToSelect := if selectedIds = "" then "all" else selectedIds
      -- the old ids are deleted in here, before anything replaces them
      let r1 ← tryStrategy1Reinsert a mt filesToSelect cfg.restrictToCached
      match r1 with
      | some out => pure out
      | none => laterStrategies a mt info cfg

/-! ## The account -/

/-- Live torrent ids, the id of the guard in scope, and the ids whose drop-deletes were spawned. -/
structure World where
  live : List String
  guard : Option String
  spawned : List String
deriving DecidableEq

/-- `delete_torrent` of a live id. -/
def remove (live : List String) (id : String) : List String := live.filter fun x => x != id

/-- What a call does to the account. -/
def serverEffect (live : List String) : Ev → List String
  | .delete id true => remove live id
  | .add _ (some id) => id :: live
  | .deleteEphemeral id true => remove live id
  | _ => live

/-- The guard after an event. -/
def guardAfter (guard : Option String) : Ev → Option String
  | .guardNew id => some id
  | .dismiss => none
  | .deleteEphemeral _ true => none
  | .guardDrop => none
  | _ => guard

/-- One event; a guard that goes out of scope with its id spawns a drop-delete. -/
def World.step (w : World) (e : Ev) : World where
  live := serverEffect w.live e
  guard := guardAfter w.guard e
  spawned := if e = .guardDrop then w.spawned ++ w.guard.toList else w.spawned

/-- The account before the cascade. -/
def World.start (live : List String) : World := ⟨live, none, []⟩

/-- The future is dropped at its `k`-th event, an await: the call in flight takes effect on the
    account or not (`arrived`), its answer is lost, and the guard in scope is dropped. -/
def droppedAt (live : List String) (es : List Ev) (k : Nat) (arrived : Bool) : Option World :=
  match es[k]? with
  | none => none
  | some e =>
    if e.isAwait then
      let w := replay World.step (World.start live) (es.take k)
      let w := if arrived then { w with live := serverEffect w.live e } else w
      some (w.step .guardDrop)
    else none

/-- The spawned drop-deletes run, the i-th with the answers `drops i`: a failed delete is tried once
    more. -/
def runDrops (drops : Nat → Except RdError Unit × Except RdError Unit) :
    List String → Nat → List String → List String
  | [], _, live => live
  | id :: ids, i, live =>
    runDrops drops ids (i + 1)
      (if (drops i).1.isOk || (drops i).2.isOk then remove live id else live)

/-- The live ids once all drop-deletes have run. -/
def World.settled (a : Answers) (w : World) : List String := runDrops a.dropDelete w.spawned 0 w.live

/-- The account after a cascade that ran to its end. -/
def cascadeWorld (a : Answers) (mt : ManagedTorrent) (cfg : RepairConfig) (live : List String) :
    World :=
  replay World.step (World.start live) (executeCascade a mt cfg).events

/-- The ids the registry holds after a success (`replace_rd_ids_after_repair` when there are new
    ones). -/
def registryIds (mt : ManagedTorrent) (newRdIds : Option (List String)) : List String :=
  newRdIds.getD mt.rdIds

end RdRs.Repair

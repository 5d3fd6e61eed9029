/-
  `torrent/refresh/mod.rs`, `diff.rs`, `coordination.rs` — one refresh pass.

  `run_once` fetches the list of torrents, asks Real-Debrid to delete errored and stalled ones,
  compares the rest with the map (`diff`) and brings the map up to date: new keys are added, changed
  ones merged, vanished ones removed.  The rows of added and changed keys then go to the database in
  one batch, and the paths of everything that changed to the library hook.

  A torrent that is under repair is protected: `rd_id_belongs_to_under_repair` keeps its ids from
  being deleted and `skip_local_remove_for_state` keeps it in the map.

  Hash maps and sets are walked in the order of first insertion; nothing that is proved depends on
  that order.
-/
import RdRs.Torrent.Manager

set_option linter.unusedVariables false

namespace RdRs.Torrent

open RdRs.Rd RdRs.Repair RdRs.Programs

/-! ## The difference -/

/-- What the list has for one access key: the entry of highest progress, and all ids. -/
structure Fresh where
  torrent : Torrent
  ids : List String
deriving Repr, DecidableEq

/-- The key of a list entry. -/
def keyOf (t : Torrent) : String := accessKey t.hash t.name

/-- One entry of the list goes into `fresh_map`. -/
def addFresh (freshMap : AList (fun _ : String => Fresh)) (t : Torrent) :
    AList (fun _ : String => Fresh) :=
  match freshMap.lookup (keyOf t) with
  | none => freshMap.insert (keyOf t) ⟨t, [t.id]⟩
  | some f => freshMap.insert (keyOf t)
      ⟨if t.progress > f.torrent.progress then t else f.torrent,
        if t.id ∈ f.ids then f.ids else f.ids ++ [t.id]⟩

/-- `fresh_map` -/
def freshMap (fresh : List Torrent) : AList (fun _ : String => Fresh) := fresh.foldl addFresh ∅

/-- `ids_vec`, sorted -/
def sortIds (ids : List String) : List String := ids.insertionSort (· ≤ ·)

/-- The test of `diff` on a key that is in the map and in the list. -/
def isChanged (mt : ManagedTorrent) (f : Fresh) : Bool :=
  f.torrent.status != mt.torrent.status || f.torrent.progress != mt.torrent.progress ||
    (mt.rdIds.length != f.ids.length || mt.rdIds.any fun id => !f.ids.contains id)

/-- `DiffResult` -/
structure DiffResult where
  added : List (Torrent × List String)
  removedKeys : List String
  changed : List (Torrent × List String)
  duplicates : Nat

/-- `diff` -/
def diff (current : Torrents) (fresh : List Torrent) : DiffResult where
  added := (freshMap fresh).entries.filterMap fun e =>
    if e.1 ∈ current then none else some (e.2.torrent, sortIds e.2.ids)
  removedKeys := current.keys.filter fun key => key ∉ freshMap fresh
  changed := (freshMap fresh).entries.filterMap fun e =>
    match current.lookup e.1 with
    | none => none
    | some mt => if isChanged mt e.2 then some (e.2.torrent, sortIds e.2.ids) else none
  duplicates := fresh.length - (freshMap fresh).entries.length

/-! ## The pass -/

/-- `skip_local_remove_for_state` -/
def skipLocalRemoveForState (state : TorrentState) : Bool := state == .underRepair

/-- `rd_id_belongs_to_under_repair` -/
def rdIdBelongsToUnderRepair (torrents : Torrents) (rdId : String) : Bool :=
  torrents.entries.any fun e => e.2.state == .underRepair && e.2.rdIds.contains rdId

/-- What a refresh reads of the configuration. -/
structure RefreshConfig where
  deleteErrorTorrents : Bool
  stalledDownloadMins : Nat

/-- The statuses that are skipped. -/
def isErrored (t : Torrent) : Bool := ["error", "magnet_error", "virus", "dead"].contains t.status

/-- `is_stalled_download_from_list` at time `now` -/
def isStalledDownloadFromList (t : Torrent) (minMins : Nat) (now : Int) : Bool :=
  if t.progress ≥ 100 then false else decide (now - t.added ≥ 60 * minMins)

/-- Ask Real-Debrid to delete an id, unless it belongs to a torrent under repair. -/
def deleteUnlessRepaired (id : String) : M Unit := do
  let torrents ← call .iter
  if rdIdBelongsToUnderRepair torrents id then pure ()
  else do
    let _ ← call (.deleteTorrent id)
    pure ()

/-- One turn of the loop over the downloading torrents. -/
def deleteIfStalled (minMins : Nat) (t : Torrent) : M Unit :=
  if t.status ≠ "downloading" then pure ()
  else do
    let now ← call .now
    if isStalledDownloadFromList t minMins now then deleteUnlessRepaired t.id else pure ()

/-- `to_upsert` and `changed_paths` -/
structure Changes where
  rows : List TorrentRow
  paths : List String

/-- The path sent for a key. -/
def pathOf (key : String) : String := "__all__/" ++ key

/-- The record of a key that is new. -/
def newTorrent (t : Torrent) (ids : List String) : ManagedTorrent where
  accessKey := keyOf t
  rdIds := ids
  torrent := t
  info := none
  state := .ok
  unrepairableReason := none
  lastRepairedAt := none
  fileStates := none
  underRepairStartedAt := none

/-- One turn of the loop over `added`. -/
def addOne (c : Changes) (a : Torrent × List String) : M Changes := do
  call (.write .refreshAdd (keyOf a.1) none (newTorrent a.1 a.2))
  pure ⟨c.rows ++ [torrentToRow (newTorrent a.1 a.2)], c.paths ++ [pathOf (keyOf a.1)]⟩

/-- The merge of a list entry into the record; new ids drop the old detail. -/
def mergeTorrent (existing : ManagedTorrent) (t : Torrent) (ids : List String) : ManagedTorrent :=
  let rdIdsChanged := existing.rdIds.length != ids.length ||
    ids.any (fun id => !existing.rdIds.contains id) ||
    existing.rdIds.any (fun id => !ids.contains id)
  { existing with
    accessKey := keyOf t
    rdIds := ids
    torrent := t
    info := if rdIdsChanged then none else existing.info }

/-- One turn of the loop over `changed`. -/
def mergeOne (c : Changes) (a : Torrent × List String) : M Changes := do
  match ← call (.get (keyOf a.1)) with
  | none => pure c
  | some existing => do
    call (.write .refreshMerge (keyOf a.1) (some existing) (mergeTorrent existing a.1 a.2))
    pure ⟨c.rows ++ [torrentToRow (mergeTorrent existing a.1 a.2)],
      c.paths ++ [pathOf (keyOf a.1)]⟩

/-- One turn of the loop over `removed_keys`.  (The broadcast to the file system's inode maps is left
    out.) -/
def removeOne (c : Changes) (key : String) : M Changes := do
  let mt ← call (.get key)
  if (mt.map fun mt => skipLocalRemoveForState mt.state).getD false then pure c
  else do
    call (.remove key)
    call (.closeWatch key)
    pure { c with paths := c.paths ++ [pathOf key] }

/-- The map is brought up to date with a difference. -/
def applyDiff (d : DiffResult) : M Changes := do
  let c ← Prog.fold addOne ⟨[], []⟩ d.added
  let c ← Prog.fold mergeOne c d.changed
  Prog.fold removeOne c d.removedKeys

/-- The rows go to the database, the paths to the hook. -/
def publish (c : Changes) : M Bool := do
  if c.rows ≠ [] then do
    let ok ← upsert c.rows
    if ok then do
      call (.hook c.paths)
      pure true
    else pure false
  else do
    call (.hook c.paths)
    pure true

/-- The deletes `run_once` asks for before it compares. -/
def deleteDead (cfg : RefreshConfig) (freshAll : List Torrent) : M Unit := do
  Prog.when cfg.deleteErrorTorrents
    (Prog.fold (fun _ t => deleteUnlessRepaired t.id) () (freshAll.filter isErrored))
  Prog.fold (fun _ t => deleteIfStalled (max cfg.stalledDownloadMins 1) t) ()
    (freshAll.filter fun t => !isErrored t)

/-- `run_once` with the list it got. -/
def runOnList (cfg : RefreshConfig) (freshAll : List Torrent) : M Bool := do
  deleteDead cfg freshAll
  let current ← call .iter
  let d := diff current (freshAll.filter fun t => !isErrored t)
  if d.added = [] ∧ d.removedKeys = [] ∧ d.changed = [] then pure true
  else do
    let c ← applyDiff d
    publish c

/-- `run_once`; `false` is an error. -/
def runOnce (cfg : RefreshConfig) : M Bool := do
  match ← call .listTorrents with
  | none => pure false
  | some freshAll => runOnList cfg freshAll

end RdRs.Torrent

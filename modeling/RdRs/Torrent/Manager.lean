/-
  `torrent/mod.rs`, `torrent/state_ops.rs`, `torrent/repair_enqueue.rs`,
  `torrent/fuse_read_coalesce.rs` — `TorrentManager`, the registry every other component works on.

  1. **State** — `Manager`: the map of torrents, the table `torrents`, the jobs waiting for the
     database thread (one thread, first in first out), the watch channels, the paths sent to the hook
     worker, the repair queue and the locks of the fatal-read handlers.
  2. **Actions** — `Act`: what a method does in one go (one map operation, one send, one call).
     Between two actions of a method other methods run.  A write to the map names the operation that
     makes it and carries the copy the new record was made from; neither changes what it does.
  3. **Methods** — each is one program over these actions (`Programs.Prog`), in the source's order.

  The JSON text in the column `file_states` is modelled by the map it encodes.  The rows of
  `repair_jobs` and `last_seen_at` are left out: nothing reads them back.
-/
import RdRs.Lib.Programs
import RdRs.Repair.Preflight

set_option linter.unusedVariables false

namespace RdRs.Torrent

open RdRs.Rd RdRs.Repair RdRs.Programs

/-! ## State -/

/-- The map of torrents by access key. -/
abbrev Torrents := AList (fun _ : String => ManagedTorrent)

/-- `TorrentRow` -/
structure TorrentRow where
  accessKey : String
  rdIds : List String
  hash : String
  name : String
  state : TorrentState
  unrepairableReason : Option String
  fileStates : Option FileStates
  lastRepairedAt : Option Int
  underRepairStartedAt : Option Int

/-- `torrent_to_row` -/
def torrentToRow (mt : ManagedTorrent) : TorrentRow where
  accessKey := mt.accessKey
  rdIds := mt.rdIds
  hash := mt.torrent.hash
  name := mt.torrent.name
  state := mt.state
  unrepairableReason := mt.unrepairableReason
  fileStates := mt.fileStates
  lastRepairedAt := mt.lastRepairedAt
  underRepairStartedAt := mt.underRepairStartedAt

/-- The record `load_from_db` makes of the row of a key at time `now`. -/
def rowToTorrent (key : String) (row : TorrentRow) (now : Int) : ManagedTorrent where
  accessKey := key
  rdIds := row.rdIds
  torrent :=
    { id := row.rdIds.head?.getD key
      hash := row.hash
      name := row.name
      progress := 100
      status := "downloaded"
      links := []
      added := now }
  info := none
  state := row.state
  unrepairableReason := row.unrepairableReason
  lastRepairedAt := row.lastRepairedAt
  fileStates := row.fileStates
  underRepairStartedAt := row.underRepairStartedAt

/-- The table `torrents` by its primary key. -/
abbrev Rows := AList (fun _ : String => TorrentRow)

/-- `upsert_torrents_batch_conn` -/
def upsertRows (rows : Rows) (batch : List TorrentRow) : Rows :=
  batch.foldl (fun rows row => rows.insert row.accessKey row) rows

/-- `load_from_db` into an empty map. -/
def loadFromDb (rows : Rows) (now : Int) : Torrents :=
  ⟨rows.entries.map (.map id fun key row => rowToTorrent key row now),
    List.NodupKeys.map₂ _ _ rows.nodupKeys⟩

@[simp] theorem loadFromDb_lookup (rows : Rows) (now : Int) (key : String) :
    (loadFromDb rows now).lookup key = (rows.lookup key).map fun row => rowToTorrent key row now :=
  List.dlookup_map₂ key

theorem mem_loadFromDb {rows : Rows} {now : Int} {key : String} :
    key ∈ loadFromDb rows now ↔ key ∈ rows := by
  rw [← AList.lookup_isSome, ← AList.lookup_isSome, loadFromDb_lookup, Option.isSome_map]

theorem mem_upsertRows {batch : List TorrentRow} {rows : Rows} {key : String} :
    key ∈ upsertRows rows batch ↔ key ∈ rows ∨ ∃ row ∈ batch, row.accessKey = key := by
  rw [upsertRows]
  induction batch generalizing rows with
  | nil => simp
  | cons row batch ih =>
    rw [List.foldl_cons, ih, AList.mem_insert]
    simp only [List.mem_cons, exists_eq_or_imp]
    tauto

/-- A `tokio::sync::watch` channel: its value, and how many receivers there are. -/
structure Watch where
  value : TorrentState
  receivers : Nat
deriving Repr, DecidableEq

/-- `Sender::send`: without a receiver it fails and the value stays. -/
def Watch.send (w : Watch) (state : TorrentState) : Watch :=
  if w.receivers = 0 then w else { w with value := state }

/-- `TorrentManager` with its database. -/
structure Manager where
  torrents : Torrents
  rows : Rows
  /-- batches waiting for the database thread, oldest first -/
  jobs : List (List TorrentRow)
  /-- how the batches already run have ended, oldest first; a batch is known by its place -/
  done : List Bool
  /-- `repair_state_tx` -/
  watches : AList (fun _ : String => Watch)
  hooks : List (List String)
  repairQueue : List String
  fatalLocks : List (String × String)

/-- The database thread runs the oldest batch. -/
def runJob (m : Manager) (ok : Bool) : Option Manager :=
  match m.jobs with
  | [] => none
  | batch :: rest => some { m with
      rows := if ok then upsertRows m.rows batch else m.rows
      jobs := rest
      done := m.done ++ [ok] }

/-- The database thread runs every batch there is. -/
def drain (ok : Bool) (m : Manager) : Manager :=
  { m with
    rows := if ok then m.jobs.foldl upsertRows m.rows else m.rows
    jobs := []
    done := m.done ++ List.replicate m.jobs.length ok }

/-! ## Actions -/

/-- The operation that writes a record. -/
inductive WriteOp where
  | updateState
  | markBroken (path : String)
  /-- `persist_torrent_snapshot` of what preflight has made of its copy -/
  | preflightSnapshot
  /-- `persist_torrent_snapshot` in `replace_rd_ids_after_repair` -/
  | replaceRdIds
  /-- `run_once`, a key that is new -/
  | refreshAdd
  /-- `run_once`, a key that has changed -/
  | refreshMerge
deriving DecidableEq

/-- One atomic action. -/
inductive Act where
  /-- `torrents.get(key)`, cloned -/
  | get (key : String)
  /-- `torrents.insert(key, mt)`, where `mt` was made from the copy `base` -/
  | write (op : WriteOp) (key : String) (base : Option ManagedTorrent) (mt : ManagedTorrent)
  /-- `torrents.entry(key).and_modify(..)` with the detail just fetched -/
  | inject (key : String) (info : TorrentInfo)
  /-- `torrents.remove(key)` -/
  | remove (key : String)
  /-- `torrents.iter()` -/
  | iter
  /-- `Utc::now()` -/
  | now
  /-- `db.call(..)` hands a batch to the database thread -/
  | enqueue (batch : List TorrentRow)
  /-- the `.await` of that call -/
  | await (ticket : Nat)
  /-- `tx.send(state)`, if the key has a channel -/
  | send (key : String) (state : TorrentState)
  /-- `repair_state_tx.entry(key).or_insert_with(..)` -/
  | openWatch (key : String) (state : TorrentState)
  /-- `tx.send(m.state)` while holding the map entry `m`, if the key has one -/
  | resync (key : String)
  /-- `tx.subscribe()` -/
  | subscribe (key : String)
  /-- a receiver is dropped -/
  | unsubscribe (key : String)
  /-- `repair_state_tx.remove(key)` -/
  | closeWatch (key : String)
  /-- `hook_tx.send(paths)` -/
  | hook (paths : List String)
  /-- push to the back of the repair queue, unless the key is in it -/
  | pushRepair (key : String)
  /-- move or push to the front of the repair queue -/
  | pushRepairFront (key : String)
  | beginFatal (key path : String)
  | endFatal (key path : String)
  /-- `rd.list_all_torrents()` -/
  | listTorrents
  /-- `rd.get_torrent_info(id)` -/
  | torrentInfo (id : String)
  /-- `rd.delete_torrent(id)` of a refresh -/
  | deleteTorrent (id : String)
  /-- `wait_for_repair_capacity` -/
  | capacity
  /-- the answers preflight gets -/
  | preflight
  /-- the answers the cascade gets, and the call at which its timeout strikes, if it does -/
  | cascade
  /-- a call the cascade makes while it repairs `key` -/
  | cascadeCall (key : String) (ev : Ev)

/-- The answer to an action. -/
@[reducible] def Act.Res : Act → Type
  | .get _ => Option ManagedTorrent
  | .inject _ _ => Option ManagedTorrent
  | .iter => Torrents
  | .now => Int
  | .enqueue _ => Nat
  | .await _ => Bool
  | .beginFatal _ _ => Bool
  | .listTorrents => Option (List Torrent)
  | .torrentInfo _ => Option TorrentInfo
  | .deleteTorrent _ => Bool
  | .capacity => Bool
  | .preflight => Outside
  | .cascade => Answers × Option Nat
  | _ => Unit

/-- What comes from outside at an action. -/
structure Env where
  time : Int
  /-- how a call ends that only succeeds or fails -/
  ok : Bool
  list : Option (List Torrent)
  info : Option TorrentInfo
  outside : Outside
  answers : Answers
  timeout : Option Nat

/-- Change the key's channel, if it has one. -/
def onWatch (m : Manager) (key : String) (f : Watch → Watch) : Manager :=
  match m.watches.lookup key with
  | none => m
  | some w => { m with watches := m.watches.insert key (f w) }

theorem onWatch_same (m : Manager) (key : String) (f : Watch → Watch) :
    (onWatch m key f).torrents = m.torrents ∧ (onWatch m key f).rows = m.rows ∧
      (onWatch m key f).jobs = m.jobs ∧ (onWatch m key f).done = m.done := by
  rw [onWatch]
  split
  · exact ⟨rfl, rfl, rfl, rfl⟩
  · exact ⟨rfl, rfl, rfl, rfl⟩

/-- Perform an action. -/
def perform (m : Manager) : (a : Act) → Env → a.Res × Manager
  | .get key, _ => (m.torrents.lookup key, m)
  | .write _ key _ mt, _ => ((), { m with torrents := m.torrents.insert key mt })
  | .inject key info, _ =>
    match m.torrents.lookup key with
    | none => (none, m)
    | some mt => (some { mt with info := some info },
        { m with torrents := m.torrents.insert key { mt with info := some info } })
  | .remove key, _ => ((), { m with torrents := m.torrents.erase key })
  | .iter, _ => (m.torrents, m)
  | .now, e => (e.time, m)
  | .enqueue batch, _ => (m.done.length + m.jobs.length, { m with jobs := m.jobs ++ [batch] })
  | .await ticket, _ => ((m.done[ticket]?).getD false, m)
  | .send key state, _ => ((), onWatch m key fun w => w.send state)
  | .openWatch key state, _ => ((), if key ∈ m.watches then m else
      { m with watches := m.watches.insert key ⟨state, 0⟩ })
  | .resync key, _ => ((), match m.torrents.lookup key with
      | none => m
      | some mt => onWatch m key fun w => w.send mt.state)
  | .subscribe key, _ => ((), onWatch m key fun w => { w with receivers := w.receivers + 1 })
  | .unsubscribe key, _ => ((), onWatch m key fun w => { w with receivers := w.receivers - 1 })
  | .closeWatch key, _ => ((), { m with watches := m.watches.erase key })
  | .hook paths, _ => ((), if paths = [] then m else { m with hooks := m.hooks ++ [paths] })
  | .pushRepair key, _ => ((), if key ∈ m.repairQueue then m else
      { m with repairQueue := m.repairQueue ++ [key] })
  | .pushRepairFront key, _ => ((), { m with repairQueue := key :: m.repairQueue.erase key })
  | .beginFatal key path, _ => (decide ((key, path) ∉ m.fatalLocks),
      { m with fatalLocks := (key, path) :: m.fatalLocks.erase (key, path) })
  | .endFatal key path, _ => ((), { m with fatalLocks := m.fatalLocks.erase (key, path) })
  | .listTorrents, e => (e.list, m)
  | .torrentInfo _, e => (e.info, m)
  | .deleteTorrent _, e => (e.ok, m)
  | .capacity, e => (e.ok, m)
  | .preflight, e => (e.outside, m)
  | .cascade, e => ((e.answers, e.timeout), m)
  | .cascadeCall _ _, _ => ((), m)

/-- An `.await` on the database waits until its batch has run. -/
def blocked (m : Manager) : Act → Bool
  | .await ticket => decide (m.done.length ≤ ticket)
  | _ => false

/-- An action of a task among others. -/
def performAmong (m : Manager) (a : Act) (e : Env) : Option (a.Res × Manager) :=
  if blocked m a then none else some (perform m a e)

/-- An action of a program that runs alone: the database thread works while it waits. -/
def performAlone (m : Manager) (a : Act) (e : Env) : a.Res × Manager :=
  perform (if blocked m a then drain e.ok m else m) a e

/-! ## Methods -/

/-- Programs over the manager. -/
abbrev M := Prog Act Act.Res

/-- One action of a method. -/
abbrev call (a : Act) : M a.Res := Prog.call a

/-- `db.call(..).await` with a batch of rows: whether it succeeds. -/
def upsert (batch : List TorrentRow) : M Bool := do
  let ticket ← call (.enqueue batch)
  call (.await ticket)

/-- `library_paths_for` -/
def libraryPathsFor (mt : ManagedTorrent) : List String := ["__all__/" ++ mt.accessKey]

/-- `persist_torrent_snapshot`; `false` is an error. -/
def persistTorrentSnapshot (op : WriteOp) (base : Option ManagedTorrent) (mt : ManagedTorrent) :
    M Bool := do
  call (.write op mt.accessKey base mt)
  upsert [torrentToRow mt]

/-- The record with a file marked `broken`. -/
def withBroken (mt : ManagedTorrent) (path : String) : ManagedTorrent :=
  { mt with fileStates := some ((mt.fileStates.getD ∅).insert path "broken") }

/-- `mark_file_broken` -/
def markFileBroken (key path : String) : M Bool := do
  match ← call (.get key) with
  | none => pure true
  | some mt => do
    call (.write (.markBroken path) key (some mt) (withBroken mt path))
    upsert [torrentToRow (withBroken mt path)]

/-- The record `update_torrent_state` makes at time `now`. -/
def withState (mt : ManagedTorrent) (state : TorrentState) (reason : Option String) (now : Int) :
    ManagedTorrent :=
  { mt with
    state := state
    unrepairableReason := reason
    lastRepairedAt := if state = .ok then some now else mt.lastRepairedAt
    underRepairStartedAt :=
      if state = .underRepair then
        if mt.state = .underRepair then mt.underRepairStartedAt else some now
      else none }

/-- `update_torrent_state`; `false` is an error. -/
def updateTorrentState (key : String) (state : TorrentState) (reason : Option String) : M Bool := do
  match ← call (.get key) with
  | none => pure true
  | some mt => do
    let now ← call .now
    call (.write .updateState key (some mt) (withState mt state reason now))
    let ok ← upsert [torrentToRow (withState mt state reason now)]
    if ok then do
      call (.hook (libraryPathsFor (withState mt state reason now)))
      call (.send key state)
      pure true
    else pure false

/-- The record with the ids a repair has got: the old detail and file states are dropped. -/
def withRdIds (mt : ManagedTorrent) (rdIds : List String) : ManagedTorrent :=
  { mt with
    rdIds := rdIds
    info := none
    fileStates := none
    torrent := { mt.torrent with id := rdIds.head?.getD mt.torrent.id } }

/-- `replace_rd_ids_after_repair` -/
def replaceRdIdsAfterRepair (key : String) (rdIds : List String) : M Bool := do
  match ← call (.get key) with
  | none => pure true
  | some mt => persistTorrentSnapshot .replaceRdIds (some mt) (withRdIds mt rdIds)

/-- `ensure_torrent_info` -/
def ensureTorrentInfo (key : String) : M (Option ManagedTorrent) := do
  match ← call (.get key) with
  | none => pure none
  | some mt =>
    if mt.info.isSome then pure (some mt)
    else match mt.rdIds.head? with
      | none => pure none
      | some id => do
        match ← call (.torrentInfo id) with
        | none => pure (some mt)
        | some info => do
          match ← call (.inject key info) with
          | some updated => pure (some updated)
          | none => pure (some { mt with info := some info })

/-- `subscribe_repair_state` -/
def subscribeRepairState (key : String) : M Unit := do
  let current ← call (.get key)
  call (.openWatch key ((current.map ManagedTorrent.state).getD .broken))
  call (.resync key)
  call (.subscribe key)

/-- What the leader among the reads of a file does: the torrent and the file are broken, repair is
    asked for. -/
def leadFatalRead (key path : String) : M Unit := do
  let _ ← updateTorrentState key .broken none
  let _ ← markFileBroken key path
  call (.pushRepair key)
  call (.endFatal key path)

/-- What `read` does when a link fails for good; a read that is to wait subscribes to the state
    first. -/
def fatalRead (key path : String) (wait : Bool) : M Unit := do
  let _ ← ensureTorrentInfo key
  let leader ← call (.beginFatal key path)
  Prog.when wait (subscribeRepairState key)
  Prog.when leader (leadFatalRead key path)
  Prog.when wait (call (.unsubscribe key))

/-- `enqueue_repair` -/
def enqueueRepair (key : String) : M Unit := call (.pushRepair key)

/-- `EnqueueRepairAllOptions` -/
structure EnqueueRepairAllOptions where
  clearUnrepairable : Bool
  all : Bool

/-- `enqueue_repair_all` for one key: its reason is cleared. -/
def clearReason (key : String) : M Unit := do
  match ← call (.get key) with
  | none => pure ()
  | some mt =>
    if mt.unrepairableReason.isSome then do
      let _ ← updateTorrentState key .broken none
      pure ()
    else pure ()

/-- `enqueue_repair_all` for one key: it is queued, unless it is no candidate. -/
def queueCandidate (all : Bool) (key : String) : M Unit :=
  if all then call (.pushRepair key)
  else do
    match ← call (.get key) with
    | none => pure ()
    | some mt => if periodicRepairEligible mt then call (.pushRepair key) else pure ()

/-- `enqueue_repair_all` -/
def enqueueRepairAll (opts : EnqueueRepairAllOptions) : M Unit := do
  let torrents ← call .iter
  Prog.when opts.clearUnrepairable (Prog.fold (fun _ key => clearReason key) () torrents.keys)
  Prog.fold (fun _ key => queueCandidate opts.all key) () torrents.keys

/-- `enqueue_repair_front` -/
def enqueueRepairFront (key : String) (clearUnrepairable : Bool) : M Unit := do
  Prog.when clearUnrepairable (do
    let _ ← updateTorrentState key .broken none
    pure ())
  call (.pushRepairFront key)

end RdRs.Torrent

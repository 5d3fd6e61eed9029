/-
  The torrent records of rd-rs: `rd/types.rs` (what Real-Debrid answers), `db/types.rs` (the health
  state) and `torrent/mod.rs` (`ManagedTorrent`, the registry's record).

  Fields that no function of the development reads are left out.  Times are Unix seconds, `i32` and
  `i64` fields are integers.
-/
import Mathlib

set_option linter.unusedVariables false

namespace RdRs.Rd

/-- A file within a torrent; `selected` is 1 for a file that is selected for download. -/
structure File where
  id : Int
  path : String
  bytes : Int
  selected : Int
deriving Repr, DecidableEq

/-- `File::is_selected` -/
def File.isSelected (f : File) : Bool := f.selected == 1

/-- `file.bytes as u64`: a negative `i64` wraps around. -/
def File.fileSize (f : File) : Nat := (f.bytes % 2 ^ 64).toNat

/-- Entry of `GET /torrents`. -/
structure Torrent where
  id : String
  name : String
  hash : String
  progress : Nat
  status : String
  links : List String
  added : Int
deriving Repr, DecidableEq

/-- Detail from `GET /torrents/info/{id}`. -/
structure TorrentInfo where
  id : String
  progress : Nat
  bytes : Int
  links : List String
  files : List File
deriving Repr, DecidableEq

/-- The files selected for download, in order. -/
def TorrentInfo.selectedFiles (info : TorrentInfo) : List File := info.files.filter File.isSelected

/-- Local health of a torrent. -/
inductive TorrentState where
  | ok
  | broken
  | underRepair
deriving Repr, DecidableEq

/-- A torrent as known to rd-rs. -/
structure ManagedTorrent where
  accessKey : String
  rdIds : List String
  torrent : Torrent
  info : Option TorrentInfo
  state : TorrentState
  unrepairableReason : Option String
  lastRepairedAt : Option Int
  /-- Per-file health, `path` to `ok` or `broken`. -/
  fileStates : Option (AList (fun _ : String => String))
  underRepairStartedAt : Option Int

/-- `ManagedTorrent::selected_files` -/
def ManagedTorrent.selectedFiles (mt : ManagedTorrent) : List File :=
  (mt.info.map TorrentInfo.selectedFiles).getD []

/-- `access_key`: `<hash>/<name>` -/
def accessKey (hash name : String) : String := hash ++ "/" ++ name

end RdRs.Rd

/-
  `repair/engine/repair_one.rs` — the repair of one torrent: preflight, then the cascade.

  `repairOneTorrent` is one program over the registry in two halves.  `prepare` loads the detail, turns
  away what is not to be repaired and sets `under_repair`; `repairPrepared` runs preflight on the
  record it was given, stores what preflight has made of it, runs the cascade under its timeout and
  writes the final state.  The copy preflight works on is taken at the end of `prepare`.
-/
import RdRs.Repair.Cascade
import RdRs.Torrent.Manager

set_option linter.unusedVariables false

namespace RdRs.Repair

open RdRs.Rd RdRs.Programs RdRs.Torrent

/-- What a repair reads of the configuration. -/
structure EngineConfig where
  repair : RepairConfig
  timeoutMins : Nat

/-- The `Display` text. -/
def UnrepairableReason.display : UnrepairableReason → String
  | .loneBroken => "lone_broken"
  | .noRepairableFiles => "no_repairable_files"
  | .duplicateFileIDs => "duplicate_file_ids"
  | .invalidFileIDs => "invalid_file_ids"
  | .notCached => "not cached (restricted to cached)"

/-- How a repair ends, as far as the final state goes. -/
inductive RepairEnd where
  /-- turned away, or given up before preflight -/
  | skipped
  /-- set to `broken` -/
  | broken
  /-- set to `ok` because preflight found nothing wrong -/
  | verifiedOk
  /-- set to `ok` after a successful cascade -/
  | repaired (newRdIds : Option (List String))
deriving Repr, DecidableEq

/-- Under repair for longer than the timeout at time `now`. -/
def isStuck (cfg : EngineConfig) (mt : ManagedTorrent) (now : Int) : Bool :=
  mt.state == .underRepair && match mt.underRepairStartedAt with
    | none => false
    | some ts => decide (now - ts > (max cfg.timeoutMins 1 : Nat) * 60)

/-- `repair_one_torrent` up to the copy preflight works on. -/
def prepare (cfg : EngineConfig) (key : String) : M (Option ManagedTorrent) := do
  let now ← call .now
  match ← ensureTorrentInfo key with
  | none => pure none
  | some mt =>
    if mt.unrepairableReason.isSome then pure none
    else if isStuck cfg mt now then do
      let _ ← updateTorrentState key .broken none
      pure none
    else do
      let capacity ← call .capacity
      if capacity then do
        let ok ← updateTorrentState key .underRepair none
        if ok then ensureTorrentInfo key else pure none
      else pure none

/-- The calls of a cascade, one by one. -/
def cascadeCalls (key : String) (es : List Ev) : M Unit :=
  Prog.fold (fun _ e => call (.cascadeCall key e)) () es

/-- The calls a cascade has made when its timeout strikes at an await, if it does. -/
def cutAt (es : List Ev) (timeout : Option Nat) : Option (List Ev) :=
  match timeout with
  | none => none
  | some n =>
    match es[n]? with
    | none => none
    | some e => if e.isAwait then some (es.take (n + 1)) else none

/-- `execute_cascade` under the timeout; `none` when it strikes. -/
def runCascade (cfg : EngineConfig) (key : String) (mt : ManagedTorrent) :
    M (Option CascadeOutcome) := do
  let got ← call .cascade
  match cutAt (executeCascade got.1 mt cfg.repair).events got.2 with
  | some es => do
    cascadeCalls key es
    pure none
  | none => do
    cascadeCalls key (executeCascade got.1 mt cfg.repair).events
    pure (some (executeCascade got.1 mt cfg.repair).value)

/-- The final state of a repair that fails. -/
def finishBroken (key : String) (reason : Option String) : M RepairEnd := do
  let _ ← updateTorrentState key .broken reason
  pure .broken

/-- What the outcome of the cascade does to the registry. -/
def finishCascade (key : String) : Option CascadeOutcome → M RepairEnd
  | none => finishBroken key none
  | some (.success newRdIds) => do
    match newRdIds with
    | none => pure ()
    | some ids => do
      let _ ← replaceRdIdsAfterRepair key ids
      pure ()
    let _ ← updateTorrentState key .ok none
    pure (.repaired newRdIds)
  | some (.unrepairable reason) => finishBroken key (some reason.display)
  | some (.unrepairableMsg msg) => finishBroken key (some msg)
  | some .deferBandwidth => finishBroken key none

/-- `repair_one_torrent` from preflight on. -/
def repairPrepared (cfg : EngineConfig) (key : String) (mt : ManagedTorrent) : M RepairEnd := do
  let outside ← call .preflight
  match (runPreflight outside mt).value with
  | .deferBandwidth => finishBroken key none
  | .verifiedOk m => do
    let _ ← persistTorrentSnapshot .preflightSnapshot (some mt) m
    let _ ← updateTorrentState key .ok none
    pure .verifiedOk
  | .proceed m => do
    let _ ← persistTorrentSnapshot .preflightSnapshot (some mt) m
    let outcome ← runCascade cfg key m
    finishCascade key outcome

/-- `repair_one_torrent` -/
def repairOneTorrent (cfg : EngineConfig) (key : String) : M RepairEnd := do
  match ← prepare cfg key with
  | none => pure .skipped
  | some mt => repairPrepared cfg key mt

end RdRs.Repair

/-
  The table `torrents` of `db/conn.rs`, `db/sql.rs` and `db/types.rs`, with its columns — and the map
  of rows that the registry works with, which it refines.

  A column holds a text, a number or nothing: the ids and the states of the files are JSON, the state of
  the torrent is a word.  A batch is one transaction.  An older version of the program has left the
  table without the column `under_repair_started_at`, which every start adds.

  * `readRow_writeRow` — a row is read back as it was written;
  * `Reads` — the rows of a table, read, are those of a map: kept by batches and by starts;
  * `load_from_db_refines` — after any number of batches and starts, what a start loads is what
    `loadFromDb` makes of the map.

  One row that cannot be read, as its `hash` or its `name` is nothing, fails the whole load.
-/
import RdRs.Lib.Runs
import RdRs.Torrent.Manager

set_option linter.unusedVariables false

namespace RdRs.Db.Torrents

open RdRs.Rd RdRs.Repair RdRs.Torrent RdRs.Runs

/-! ## The table -/

/-- A row, column by column; the first column is the key. -/
structure Row where
  rdIds : String
  hash : Option String
  name : Option String
  state : String
  unrepairable : Option String
  fileStates : Option String
  lastSeenAt : Option Int
  lastRepairedAt : Option Int
  underRepairStartedAt : Option Int
deriving DecidableEq

/-- `torrents` -/
structure Table where
  /-- the column `under_repair_started_at` is there -/
  hasStartedAt : Bool
  rows : AList (fun _ : String => Row)

/-- The column is added, with nothing in it. -/
def addStartedAt (rows : AList (fun _ : String => Row)) : AList (fun _ : String => Row) :=
  ⟨rows.entries.map (.map id fun _ row => { row with underRepairStartedAt := none }),
    List.NodupKeys.map₂ _ _ rows.nodupKeys⟩

/-- `init_schema`: `CREATE TABLE IF NOT EXISTS`, and `ALTER TABLE ADD COLUMN`, which fails where the
    column is there. -/
def initSchema : Option Table → Table
  | none => ⟨true, ∅⟩
  | some t => if t.hasStartedAt then t else ⟨true, addStartedAt t.rows⟩

/-- `TorrentState`, `Display` -/
def stateText : TorrentState → String
  | .ok => "ok"
  | .broken => "broken"
  | .underRepair => "under_repair"

/-- `TorrentState::from_str` -/
def stateOfText (s : String) : Option TorrentState :=
  match s with
  | "ok" => some .ok
  | "broken" => some .broken
  | "under_repair" => some .underRepair
  | _ => none

section

-- `serde_json`, for the ids and for the states of the files
variable (idsText : List String → String) (idsOfText : String → Option (List String))
  (statesText : FileStates → String) (statesOfText : String → Option FileStates)

/-- The parameters of the upsert; `last_seen_at` is the time `torrent_to_row` was called. -/
def writeRow (row : TorrentRow) (now : Int) : Row where
  rdIds := idsText row.rdIds
  hash := some row.hash
  name := some row.name
  state := stateText row.state
  unrepairable := row.unrepairableReason
  fileStates := row.fileStates.map statesText
  lastSeenAt := some now
  lastRepairedAt := row.lastRepairedAt
  underRepairStartedAt := row.underRepairStartedAt

/-- `row_to_torrent`, and the states of the files as `load_from_db` reads them. -/
def readRow (key : String) (row : Row) : Option TorrentRow :=
  match row.hash, row.name with
  | some hash, some name => some {
      accessKey := key
      rdIds := (idsOfText row.rdIds).getD []
      hash := hash
      name := name
      state := (stateOfText row.state).getD .ok
      unrepairableReason := row.unrepairable
      fileStates := row.fileStates.bind statesOfText
      lastRepairedAt := row.lastRepairedAt
      underRepairStartedAt := row.underRepairStartedAt }
  | _, _ => none

/-- `upsert_torrents_batch_conn`, where the column is there. -/
def upsertBatch (t : Table) (batch : List TorrentRow) (now : Int) : Option Table :=
  if t.hasStartedAt then
    some { t with rows := batch.foldl (fun rows row =>
      rows.insert row.accessKey (writeRow idsText statesText row now)) t.rows }
  else none

/-- `get_all_torrents_conn`, row by row. -/
def readAll : List (Sigma fun _ : String => Row) → Option (List TorrentRow)
  | [] => some []
  | ⟨key, row⟩ :: rest =>
    match readRow idsOfText statesOfText key row with
    | none => none
    | some first => (readAll rest).map (first :: ·)

/-- `load_from_db`, into an empty map; `none` is an error. -/
def loadTable (t : Table) (now : Int) : Option Torrents :=
  if t.hasStartedAt then
    (readAll idsOfText statesOfText t.rows.entries).map fun rows =>
      rows.foldl (fun m row => m.insert row.accessKey (rowToTorrent row.accessKey row now)) ∅
  else none

/-! ## A row -/

/-- What is asked of `serde_json` for a row: it reads what it has written. -/
structure Readable (row : TorrentRow) : Prop where
  ids : idsOfText (idsText row.rdIds) = some row.rdIds
  states : ∀ states, row.fileStates = some states → statesOfText (statesText states) = some states

variable {idsText idsOfText statesText statesOfText}

theorem stateOfText_stateText (state : TorrentState) : stateOfText (stateText state) = some state := by
  cases state <;> rfl

/-- **A row is read back as it was written.** -/
theorem readRow_writeRow {row : TorrentRow} (h : Readable idsText idsOfText statesText statesOfText row)
    (now : Int) :
    readRow idsOfText statesOfText row.accessKey (writeRow idsText statesText row now) = some row := by
  have hstates : (row.fileStates.map statesText).bind statesOfText = row.fileStates := by
    cases hrow : row.fileStates with
    | none => rfl
    | some states => exact h.states states hrow
  show some (_ : TorrentRow) = some row
  refine congrArg some ?_
  show (⟨_, (idsOfText (idsText row.rdIds)).getD [], _, _, (stateOfText (stateText row.state)).getD .ok, _,
    (row.fileStates.map statesText).bind statesOfText, _, _⟩ : TorrentRow) = row
  rw [h.ids, stateOfText_stateText, hstates]
  rfl

/-! ## The table and the map -/

variable (idsText idsOfText statesText statesOfText)

/-- **The rows of the table, read, are those of the map.** -/
structure Reads (t : Table) (rows : Rows) : Prop where
  hasStartedAt : t.hasStartedAt = true
  lookup : ∀ key, (t.rows.lookup key).map (readRow idsOfText statesOfText key) =
    (rows.lookup key).map some
  keys : ∀ key row, rows.lookup key = some row → row.accessKey = key

variable {idsText idsOfText statesText statesOfText} {t t' : Table} {rows : Rows}

/-- A fresh database. -/
theorem reads_empty : Reads idsOfText statesOfText (initSchema none) ∅ :=
  ⟨rfl, fun _ => rfl, fun _ row h => absurd h (Option.some_ne_none row).symm⟩

/-- A start leaves a table that can be read as it is. -/
theorem Reads.initSchema (h : Reads idsOfText statesOfText t rows) : initSchema (some t) = t :=
  if_pos h.hasStartedAt

/-- One row of a batch. -/
theorem Reads.insert (h : Reads idsOfText statesOfText t rows) {row : TorrentRow}
    (hrow : Readable idsText idsOfText statesText statesOfText row) (now : Int) :
    Reads idsOfText statesOfText
      { t with rows := t.rows.insert row.accessKey (writeRow idsText statesText row now) }
      (rows.insert row.accessKey row) := by
  refine ⟨h.hasStartedAt, fun key => ?_, fun key row' hlookup => ?_⟩
  · show ((t.rows.insert row.accessKey _).lookup key).map _ = _
    by_cases hkey : key = row.accessKey
    · rw [hkey, AList.lookup_insert, AList.lookup_insert, Option.map_some, Option.map_some,
        readRow_writeRow hrow]
    · rw [AList.lookup_insert_ne hkey, AList.lookup_insert_ne hkey]
      exact h.lookup key
  · by_cases hkey : key = row.accessKey
    · rw [hkey, AList.lookup_insert] at hlookup
      rw [← Option.some.inj hlookup, hkey]
    · rw [AList.lookup_insert_ne hkey] at hlookup
      exact h.keys key row' hlookup

/-- **A batch does to the table what it does to the map.** -/
theorem Reads.upsertBatch (h : Reads idsOfText statesOfText t rows) (batch : List TorrentRow)
    (hbatch : ∀ row ∈ batch, Readable idsText idsOfText statesText statesOfText row) (now : Int) :
    ∃ t', upsertBatch idsText statesText t batch now = some t' ∧
      Reads idsOfText statesOfText t' (upsertRows rows batch) := by
  refine ⟨_, if_pos h.hasStartedAt, ?_⟩
  rw [upsertRows]
  induction batch generalizing t rows with
  | nil => exact h
  | cons row batch ih =>
    rw [List.foldl_cons, List.foldl_cons]
    exact ih (h.insert (hbatch row List.mem_cons_self) now)
      fun r hr => hbatch r (List.mem_cons_of_mem row hr)

/-- Rows that can be read, one by one, can be read all. -/
theorem readAll_eq_some : ∀ {entries : List (Sigma fun _ : String => Row)},
    (∀ e ∈ entries, ∃ row, readRow idsOfText statesOfText e.1 e.2 = some row) →
    ∃ read, readAll idsOfText statesOfText entries = some read ∧
      List.Forall₂ (fun e row => readRow idsOfText statesOfText e.1 e.2 = some row) entries read
  | [], _ => ⟨[], rfl, .nil⟩
  | ⟨key, row⟩ :: entries, h => by
    obtain ⟨first, hfirst⟩ := h _ List.mem_cons_self
    obtain ⟨read, hread, hall⟩ := readAll_eq_some fun e he => h e (List.mem_cons_of_mem _ he)
    refine ⟨first :: read, ?_, .cons hfirst hall⟩
    rw [readAll, hfirst, hread]
    rfl

theorem readRow_accessKey {key : String} {row : Row} {read : TorrentRow}
    (h : readRow idsOfText statesOfText key row = some read) : read.accessKey = key := by
  rw [readRow] at h
  split at h
  · exact (Option.some.inj h) ▸ rfl
  · cases h

/-- Looking for a key among the rows as they are read, or in the table. -/
theorem find_read {key : String} {entries : List (Sigma fun _ : String => Row)} {read : List TorrentRow}
    (h : List.Forall₂ (fun e row => readRow idsOfText statesOfText e.1 e.2 = some row) entries read) :
    (read.find? fun row => row.accessKey == key) =
      (entries.dlookup key).bind (readRow idsOfText statesOfText key) := by
  induction h with
  | nil => rfl
  | @cons e row entries read hrow hall ih =>
    obtain ⟨k, cells⟩ := e
    have hown : row.accessKey = k := readRow_accessKey hrow
    by_cases hkey : k = key
    · subst hkey
      rw [List.dlookup_cons_eq, Option.bind_some, hrow]
      exact List.find?_cons_of_pos (beq_iff_eq.mpr hown)
    · rw [List.dlookup_cons_ne _ _ (Ne.symm hkey), ← ih]
      exact List.find?_cons_of_neg (by rw [beq_iff_eq, hown]; exact hkey)

theorem keys_read {entries : List (Sigma fun _ : String => Row)} {read : List TorrentRow}
    (h : List.Forall₂ (fun e row => readRow idsOfText statesOfText e.1 e.2 = some row) entries read) :
    read.map TorrentRow.accessKey = entries.map Sigma.fst := by
  induction h with
  | nil => rfl
  | cons hrow _ ih => rw [List.map_cons, List.map_cons, ih, readRow_accessKey hrow]

/-- Inserting rows with different keys. -/
theorem lookup_foldl_insert {f : TorrentRow → ManagedTorrent} {key : String} :
    ∀ (rows : List TorrentRow) (m : Torrents), (rows.map TorrentRow.accessKey).Nodup →
      (rows.foldl (fun m row => m.insert row.accessKey (f row)) m).lookup key =
        ((rows.find? fun row => row.accessKey == key).map f).or (m.lookup key)
  | [], m, _ => rfl
  | row :: rows, m, hnodup => by
    rw [List.map_cons, List.nodup_cons] at hnodup
    rw [List.foldl_cons, lookup_foldl_insert rows _ hnodup.2]
    by_cases hkey : row.accessKey = key
    · have hnone : (rows.find? fun row => row.accessKey == key) = none := by
        refine List.find?_eq_none.mpr fun other hother heq => hnodup.1 ?_
        exact List.mem_map.mpr ⟨other, hother, (beq_iff_eq.mp heq).trans hkey.symm⟩
      have hfound : ((row :: rows).find? fun row => row.accessKey == key) = some row :=
        List.find?_cons_of_pos (beq_iff_eq.mpr hkey)
      rw [hnone, hfound, ← hkey, AList.lookup_insert]
      rfl
    · rw [List.find?_cons_of_neg (by rw [beq_iff_eq]; exact hkey),
        AList.lookup_insert_ne (Ne.symm hkey)]

/-- **What a start loads** is what the map has. -/
theorem Reads.load (h : Reads idsOfText statesOfText t rows) (now : Int) :
    ∃ torrents, loadTable idsOfText statesOfText t now = some torrents ∧
      ∀ key, torrents.lookup key = (loadFromDb rows now).lookup key := by
  have hrows : ∀ e ∈ t.rows.entries, ∃ row, readRow idsOfText statesOfText e.1 e.2 = some row := by
    rintro ⟨key, cells⟩ he
    have hlookup := h.lookup key
    rw [AList.mem_lookup_iff.mpr he, Option.map_some] at hlookup
    obtain ⟨row, -, hrow⟩ := Option.map_eq_some_iff.mp hlookup.symm
    exact ⟨row, hrow.symm⟩
  obtain ⟨read, hread, hall⟩ := readAll_eq_some hrows
  refine ⟨_, by rw [loadTable, if_pos h.hasStartedAt, hread]; rfl, fun key => ?_⟩
  rw [lookup_foldl_insert (f := fun row => rowToTorrent row.accessKey row now) read ∅
    (by rw [keys_read hall]; exact t.rows.nodupKeys), find_read hall, loadFromDb_lookup]
  have hlookup := h.lookup key
  cases hrow : rows.lookup key with
  | none =>
    rw [hrow] at hlookup
    have hnone : t.rows.entries.dlookup key = none := Option.map_eq_none_iff.mp hlookup
    rw [hnone]
    rfl
  | some row =>
    rw [hrow] at hlookup
    obtain ⟨cells, hcells, hread⟩ := Option.map_eq_some_iff.mp hlookup
    have hsome : t.rows.entries.dlookup key = some cells := hcells
    rw [hsome, Option.bind_some, hread, Option.map_some, Option.map_some, h.keys key row hrow]
    rfl

/-! ## Runs -/

/-- What is done with the table; a batch that fails leaves it as it is. -/
inductive TableOp where
  /-- a start of the program -/
  | initSchema
  | batch (rows : List TorrentRow) (now : Int) (ok : Bool)

variable (idsText statesText) in
/-- An operation. -/
def tableStep (t : Table) : TableOp → Option Table
  | .initSchema => some (Torrents.initSchema (some t))
  | .batch rows now ok => if ok then Torrents.upsertBatch idsText statesText t rows now else some t

/-- What it does to the map of rows. -/
def rowsStep (rows : Rows) : TableOp → Rows
  | .initSchema => rows
  | .batch batch now ok => if ok then upsertRows rows batch else rows

variable (idsText idsOfText statesText statesOfText) in
/-- What is asked of the rows of an operation. -/
def TableOp.Readable : TableOp → Prop
  | .initSchema => True
  | .batch rows _ _ => ∀ row ∈ rows, Torrents.Readable idsText idsOfText statesText statesOfText row

theorem Reads.step (h : Reads idsOfText statesOfText t rows) {op : TableOp}
    (hop : op.Readable idsText idsOfText statesText statesOfText) :
    ∃ t', tableStep idsText statesText t op = some t' ∧
      Reads idsOfText statesOfText t' (rowsStep rows op) := by
  cases op with
  | initSchema => exact ⟨t, congrArg some h.initSchema, h⟩
  | batch batch now ok =>
    cases ok with
    | true => exact h.upsertBatch batch hop now
    | false => exact ⟨t, rfl, h⟩

theorem Reads.run : ∀ (ops : List TableOp) {t : Table} {rows : Rows},
    Reads idsOfText statesOfText t rows →
    (∀ op ∈ ops, op.Readable idsText idsOfText statesText statesOfText) →
    ∃ t', run (tableStep idsText statesText) t ops = some t' ∧
      Reads idsOfText statesOfText t' (ops.foldl rowsStep rows)
  | [], t, rows, h, _ => ⟨t, rfl, h⟩
  | op :: ops, t, rows, h, hops => by
    obtain ⟨t', hstep, ht'⟩ := h.step (hops op List.mem_cons_self)
    obtain ⟨t'', hr, ht''⟩ := Reads.run ops ht' fun o ho => hops o (List.mem_cons_of_mem op ho)
    exact ⟨t'', (run_step ops hstep).trans hr, ht''⟩

/-- **The table refines the map.**  From whatever database the first start has found, if its rows can be
    read, after any number of starts and batches, of which some fail, the load of a start goes through
    and gives, for every key, what `loadFromDb` makes of the map of rows, if `serde_json` reads what it
    has written. -/
theorem load_from_db_refines {db : Option Table} (h : Reads idsOfText statesOfText (initSchema db) rows)
    (ops : List TableOp) (hops : ∀ op ∈ ops, op.Readable idsText idsOfText statesText statesOfText)
    (now : Int) :
    ∃ t' torrents, run (tableStep idsText statesText) (initSchema db) ops = some t' ∧
      loadTable idsOfText statesOfText t' now = some torrents ∧
      ∀ key, torrents.lookup key = (loadFromDb (ops.foldl rowsStep rows) now).lookup key := by
  obtain ⟨t', hr, ht'⟩ := h.run ops hops
  obtain ⟨torrents, hload, hlookup⟩ := ht'.load now
  exact ⟨t', torrents, hr, hload, hlookup⟩

end

/-- A torrent with one file that is broken. -/
def brokenFilm : TorrentRow where
  accessKey := "film"
  rdIds := ["a"]
  hash := "h"
  name := "Film"
  state := .broken
  unrepairableReason := none
  fileStates := some (AList.singleton "/f.mkv" "broken")
  lastRepairedAt := none
  underRepairStartedAt := none

/-- The JSON of texts that need no escape. -/
def quoted (s : String) : String := "\"" ++ s ++ "\""

/-- Its list of ids. -/
def idsJson (ids : List String) : String :=
  "[" ++ (ids.map quoted).foldl (fun text id => if text = "" then id else text ++ "," ++ id) "" ++ "]"

/-- Its map of states. -/
def statesJson (states : FileStates) : String :=
  "\x7b" ++ (states.entries.map fun e => quoted e.1 ++ ":" ++ quoted e.2).foldl
    (fun text e => if text = "" then e else text ++ "," ++ e) "" ++ "\x7d"

/-- Reading back the ids of that torrent, and its states. -/
def idsOfJson (s : String) : Option (List String) := if s = "[\"a\"]" then some ["a"] else none

def statesOfJson (s : String) : Option FileStates :=
  if s = "\x7b\"/f.mkv\":\"broken\"\x7d" then brokenFilm.fileStates else none

/-- A fresh database, the torrent, a start, and a batch that fails. -/
theorem load_from_db_refines_film : ∃ t' torrents,
    run (tableStep idsJson statesJson) (initSchema none)
      [.batch [brokenFilm] 1 true, .initSchema, .batch [{ brokenFilm with state := .ok }] 2 false] = some t' ∧
    loadTable idsOfJson statesOfJson t' 3 = some torrents ∧
    torrents.lookup "film" = some (rowToTorrent "film" brokenFilm 3) := by
  have hids : idsOfJson (idsJson brokenFilm.rdIds) = some brokenFilm.rdIds := by decide +kernel
  have hstates : ∀ states, brokenFilm.fileStates = some states →
      statesOfJson (statesJson states) = some states := by
    intro states h
    obtain rfl := Option.some.inj h
    exact (if_pos (by decide +kernel)).trans h
  obtain ⟨t', torrents, hr, hload, hlookup⟩ := load_from_db_refines reads_empty
    [.batch [brokenFilm] 1 true, .initSchema, .batch [{ brokenFilm with state := .ok }] 2 false]
    (by
      intro op hop
      fin_cases hop
      · intro row hrow
        rw [List.mem_singleton.mp hrow]
        exact ⟨hids, hstates⟩
      · trivial
      · intro row hrow
        rw [List.mem_singleton.mp hrow]
        exact ⟨hids, hstates⟩) 3
  exact ⟨t', torrents, hr, hload, hlookup "film"⟩

end RdRs.Db.Torrents

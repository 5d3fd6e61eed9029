/-
  `app_meta` of `db/conn.rs` and `db/schema_migrate.rs` — numbers by key, kept over restarts.

  A number is kept as text.  An older version of the program has created the column as INTEGER, so
  `init_schema`, which every start runs, copies such a table to one with a TEXT column.  Reading takes
  only text: without the copy, every key of an old table would be an error.

  * `parseI64_toString` — a number is read back from its text;
  * `view` — what is kept for a key, whatever the column is: the migration does not change it
    (`view_initSchema`), and reading gives it once the migration has run (`getMetaI64_eq_view`);
  * `app_meta_is_map` — over any number of starts and writes the table is a map.
-/
import RdRs.Lib.Runs
import RdRs.Rd.Pages

set_option linter.unusedVariables false

namespace RdRs.Db

open RdRs.Rd RdRs.Runs

/-! ## Numbers as text -/

/-- `str::parse::<i64>`: a sign at most, then ASCII digits, of a number that fits. -/
def parseI64 (s : List Char) : Option Int64 :=
  match s with
  | '-' :: digits =>
    if digits.head? = some '+' then none
    else
      match parseU64 digits with
      | some n => if n ≤ 2 ^ 63 then some (Int64.ofInt (-n)) else none
      | none => none
  | digits =>
    match parseU64 digits with
    | some n => if n < 2 ^ 63 then some (Int64.ofInt n) else none
    | none => none

/-- Where there is no sign `-`, the number is what an unsigned one is, if it fits. -/
theorem parseI64_unsigned {s : List Char} (h : s.head? ≠ some '-') : parseI64 s =
    match parseU64 s with
    | some n => if n < 2 ^ 63 then some (Int64.ofInt n) else none
    | none => none := by
  unfold parseI64
  split
  · exact absurd rfl h
  · rfl

/-- The text of a number starts with a digit. -/
theorem head_toDigits_ne (n : Nat) {c : Char} (hc : c.isDigit = false) :
    (Nat.toDigits 10 n).head? ≠ some c := by
  intro h
  have hdigit := Nat.isDigit_of_mem_toDigits (by decide) (by decide) (List.mem_of_mem_head? h)
  rw [hc] at hdigit
  cases hdigit

/-- **A number is read back from its text.** -/
theorem parseI64_toString (v : Int64) : parseI64 (toString v.toInt).toList = some v := by
  have hle := Int64.le_toInt v
  have hlt := Int64.toInt_lt v
  have hback := Int64.ofInt_toInt v
  cases hv : v.toInt with
  | ofNat n =>
    rw [hv] at hlt hback
    have hfits : n < 2 ^ 63 := Int.ofNat_lt.mp hlt
    have htext : (toString (Int.ofNat n)).toList = Nat.toDigits 10 n := by
      show (toString n).toList = _
      rw [Nat.toString_eq_ofList_toDigits, String.toList_ofList]
    rw [htext, parseI64_unsigned (head_toDigits_ne n (by decide)), parseU64_toDigits (by omega)]
    exact (if_pos hfits).trans (congrArg some hback)
  | negSucc n =>
    rw [hv] at hle hback
    have hfits : n + 1 ≤ 2 ^ 63 := by omega
    have htext : (toString (Int.negSucc n)).toList = '-' :: Nat.toDigits 10 (n + 1) := by
      show ("-" ++ toString (n + 1)).toList = _
      rw [String.toList_append, Nat.toString_eq_ofList_toDigits, String.toList_ofList,
        String.toList_ofList]
      rfl
    rw [htext, parseI64, if_neg (head_toDigits_ne _ (by decide)), parseU64_toDigits (by omega)]
    exact (if_pos hfits).trans (congrArg some hback)

/-! ## The table -/

/-- What a row has in the column `value`. -/
inductive Cell where
  | integer (n : Int64)
  | text (s : String)
deriving DecidableEq

/-- The type the column is declared with. -/
inductive ValueType where
  | integer
  | text
deriving DecidableEq

/-- `app_meta` -/
structure AppMeta where
  valueType : ValueType
  rows : String → Option Cell

inductive MetaError where
  | noSuchTable
  /-- a value that is no text -/
  | invalidColumnType
  /-- a text that is no number -/
  | fromSqlConversionFailure
deriving DecidableEq

/-- `CAST(value AS TEXT)` -/
def castAsText : Cell → Cell
  | .integer n => .text (toString n.toInt)
  | .text s => .text s

/-- `migrate_app_meta_value_to_text`, one transaction -/
def migrateAppMetaValueToText : Option AppMeta → Option AppMeta
  | none => none
  | some t =>
    match t.valueType with
    | .integer => some ⟨.text, fun key => (t.rows key).map castAsText⟩
    | .text => some t

/-- `init_schema`: the table is created if there is none. -/
def initSchema (db : Option AppMeta) : Option AppMeta :=
  migrateAppMetaValueToText (some (db.getD ⟨.text, fun _ => none⟩))

/-- The number a text is. -/
def parseValue (s : String) : Except MetaError (Option Int64) :=
  match parseI64 s.toList with
  | some v => .ok (some v)
  | none => .error .fromSqlConversionFailure

/-- `get_meta_i64_conn` -/
def getMetaI64 (db : Option AppMeta) (key : String) : Except MetaError (Option Int64) :=
  match db with
  | none => .error .noSuchTable
  | some t =>
    match t.rows key with
    | none => .ok none
    | some (.integer _) => .error .invalidColumnType
    | some (.text s) => parseValue s

/-- What the column makes of a text that is a number. -/
def ValueType.store (type : ValueType) (value : Int64) : Cell :=
  match type with
  | .integer => .integer value
  | .text => .text (toString value.toInt)

/-- `set_meta_i64_conn` -/
def setMetaI64 (db : Option AppMeta) (key : String) (value : Int64) : Except MetaError (Option AppMeta) :=
  match db with
  | none => .error .noSuchTable
  | some t => .ok (some { t with rows := Function.update t.rows key (some (t.valueType.store value)) })

/-! ## The table as a map -/

/-- What is kept for a key, in either kind of column. -/
def Cell.value : Cell → Except MetaError (Option Int64)
  | .integer n => .ok (some n)
  | .text s => parseValue s

/-- What is kept in a row, if it is there. -/
def rowValue : Option Cell → Except MetaError (Option Int64)
  | none => .ok none
  | some cell => cell.value

/-- What is kept, by key. -/
def view : Option AppMeta → String → Except MetaError (Option Int64)
  | none, _ => .ok none
  | some t, key => rowValue (t.rows key)

/-- `init_schema` has run: the table is there, and all its values are texts. -/
def Ready (db : Option AppMeta) : Prop :=
  ∃ t, db = some t ∧ t.valueType = .text ∧ ∀ key cell, t.rows key = some cell → ∃ s, cell = .text s

/-- What a column of type TEXT can have. -/
def Typed (db : Option AppMeta) : Prop :=
  ∀ t, db = some t → t.valueType = .text → ∀ key cell, t.rows key = some cell → ∃ s, cell = .text s

section

variable {db : Option AppMeta}

theorem parseValue_toString (v : Int64) : parseValue (toString v.toInt) = .ok (some v) := by
  rw [parseValue, parseI64_toString]

theorem castAsText_value (cell : Cell) : (castAsText cell).value = cell.value := by
  cases cell with
  | integer n => exact parseValue_toString n
  | text s => rfl

theorem castAsText_text (cell : Cell) : ∃ s, castAsText cell = .text s := by
  cases cell with
  | integer n => exact ⟨_, rfl⟩
  | text s => exact ⟨s, rfl⟩

/-- **The migration keeps what is kept.** -/
theorem view_initSchema (db : Option AppMeta) : view (initSchema db) = view db := by
  funext key
  cases db with
  | none => rfl
  | some t =>
    obtain ⟨type, rows⟩ := t
    cases type with
    | text => rfl
    | integer =>
      show rowValue ((rows key).map castAsText) = rowValue (rows key)
      cases rows key with
      | none => rfl
      | some cell => exact castAsText_value cell

/-- After it the table is ready. -/
theorem ready_initSchema (h : Typed db) : Ready (initSchema db) := by
  cases db with
  | none => exact ⟨_, rfl, rfl, fun key cell hcell => absurd hcell (Option.some_ne_none cell).symm⟩
  | some t =>
    obtain ⟨type, rows⟩ := t
    cases type with
    | text => exact ⟨_, rfl, rfl, h _ rfl rfl⟩
    | integer =>
      refine ⟨_, rfl, rfl, fun key cell hcell => ?_⟩
      obtain ⟨old, -, rfl⟩ := Option.map_eq_some_iff.mp hcell
      exact castAsText_text old

theorem Ready.typed (h : Ready db) : Typed db := by
  obtain ⟨t, rfl, -, htexts⟩ := h
  intro t' ht' _
  obtain rfl := Option.some.inj ht'
  exact htexts

/-- **Reading gives what is kept**, once `init_schema` has run. -/
theorem getMetaI64_eq_view (h : Ready db) (key : String) : getMetaI64 db key = view db key := by
  obtain ⟨t, rfl, -, htexts⟩ := h
  rw [getMetaI64, view]
  cases hrow : t.rows key with
  | none => rfl
  | some cell =>
    obtain ⟨s, rfl⟩ := htexts key cell hrow
    rfl

/-- **Writing changes the one key.** -/
theorem setMetaI64_spec (h : Ready db) (key : String) (value : Int64) :
    ∃ db', setMetaI64 db key value = .ok db' ∧ Ready db' ∧
      view db' = Function.update (view db) key (.ok (some value)) := by
  obtain ⟨t, rfl, htype, htexts⟩ := h
  refine ⟨_, rfl, ⟨_, rfl, htype, fun k cell hcell => ?_⟩, ?_⟩
  · have hcell : Function.update t.rows key (some (t.valueType.store value)) k = some cell := hcell
    by_cases hk : k = key
    · rw [hk, Function.update_self, htype] at hcell
      exact ⟨_, (Option.some.inj hcell).symm⟩
    · rw [Function.update_of_ne hk] at hcell
      exact htexts k cell hcell
  · funext k
    show rowValue (Function.update t.rows key (some (t.valueType.store value)) k) = _
    by_cases hk : k = key
    · rw [hk, Function.update_self, Function.update_self, htype]
      exact parseValue_toString value
    · rw [Function.update_of_ne hk, Function.update_of_ne hk]
      rfl

end

/-! ## Runs -/

/-- What is done with the table. -/
inductive MetaOp where
  /-- a start of the program -/
  | initSchema
  | setMetaI64 (key : String) (value : Int64)

/-- An operation; `none` is an error. -/
def metaStep (db : Option AppMeta) : MetaOp → Option (Option AppMeta)
  | .initSchema => some (initSchema db)
  | .setMetaI64 key value => (setMetaI64 db key value).toOption

/-- What it does to a map. -/
def mapStep (m : String → Except MetaError (Option Int64)) :
    MetaOp → String → Except MetaError (Option Int64)
  | .initSchema => m
  | .setMetaI64 key value => Function.update m key (.ok (some value))

theorem metaStep_refines {db : Option AppMeta} (h : Ready db) (op : MetaOp) :
    ∃ db', metaStep db op = some db' ∧ Ready db' ∧ view db' = mapStep (view db) op := by
  cases op with
  | initSchema => exact ⟨_, rfl, ready_initSchema h.typed, view_initSchema db⟩
  | setMetaI64 key value =>
    obtain ⟨db', hset, hready, hview⟩ := setMetaI64_spec h key value
    exact ⟨db', by rw [metaStep, hset]; rfl, hready, hview⟩

theorem run_refines : ∀ (ops : List MetaOp) (db : Option AppMeta), Ready db →
    ∃ db', run metaStep db ops = some db' ∧ Ready db' ∧ view db' = ops.foldl mapStep (view db)
  | [], db, h => ⟨db, rfl, h, rfl⟩
  | op :: ops, db, h => by
    obtain ⟨db', hstep, hready, hview⟩ := metaStep_refines h op
    obtain ⟨db'', hr, hready', hview'⟩ := run_refines ops db' hready
    refine ⟨db'', (run_step ops hstep).trans hr, hready', ?_⟩
    rw [hview', hview, List.foldl_cons]

/-- **The table is a map.**  On whatever table an older version has left, after a start, no later start
    or write fails, and reading a key gives what was written to it last, or what the old table had. -/
theorem app_meta_is_map {db : Option AppMeta} (h : Typed db) (ops : List MetaOp) :
    ∃ db', run metaStep db (.initSchema :: ops) = some db' ∧
      ∀ key, getMetaI64 db' key = ops.foldl mapStep (view db) key := by
  obtain ⟨db', hr, hready, hview⟩ := run_refines ops (initSchema db) (ready_initSchema h)
  refine ⟨db', (run_step ops rfl).trans hr, fun key => ?_⟩
  rw [getMetaI64_eq_view hready, hview, view_initSchema]

/-- A table of an older version, with one number: a start, a write and another start. -/
theorem app_meta_is_map_old :
    ∃ db', run metaStep (some ⟨.integer, fun key => if key = "a" then some (.integer 7) else none⟩)
        [.initSchema, .setMetaI64 "b" (-8), .initSchema] = some db' ∧
      getMetaI64 db' "a" = .ok (some 7) ∧ getMetaI64 db' "b" = .ok (some (-8)) ∧
      getMetaI64 db' "c" = .ok none := by
  obtain ⟨db', hr, hget⟩ := @app_meta_is_map
    (some ⟨.integer, fun key => if key = "a" then some (.integer 7) else none⟩)
    (fun t ht htype => absurd htype (Option.some.inj ht ▸ ValueType.noConfusion))
    [.setMetaI64 "b" (-8), .initSchema]
  exact ⟨db', hr, hget "a", hget "b", hget "c"⟩

end RdRs.Db

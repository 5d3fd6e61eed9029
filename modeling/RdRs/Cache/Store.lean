/-
  `cache/item.rs`, `cache/cache.rs` — the cache: sparse files, their range metadata in memory and in
  the database, and the map of the items in use.

  1. **Files** — a tree of directories and sparse files; paths are lists of components, `..`
     resolved, and a file has a length and its bytes, zero where nothing was written.
  2. **Items** — `CacheItem`; an `Arc` is the item's index in the list of all items ever created, so
     a holder keeps an item that the map has dropped.
  3. **Operations** — as in the source, one function each; what the file system, the database and
     the clock do is an argument.
-/
import RdRs.Lib.FileTree
import RdRs.Cache.RangeDb

set_option linter.unusedVariables false

namespace RdRs.Cache

open RdRs.FileTree

/-! ## Files -/

/-- Components from the root. -/
abbrev Path := List String

/-- The components of a path text; empty ones and `.` are skipped. -/
def components (s : String) : List String :=
  ((s.toList.splitOn '/').filter fun c => c ≠ [] ∧ c ≠ ['.']).map String.ofList

/-- `Path::join`: an absolute path replaces the base. -/
def Path.join (base : Path) (s : String) : Path :=
  if s.toList.head? = some '/' then components s else base ++ components s

/-- The file a path names. -/
def Path.resolve (p : Path) : Path :=
  p.foldl (fun q c => if c = ".." then q.dropLast else q ++ [c]) []

/-- A sparse file. -/
structure SparseFile where
  len : Nat
  data : Nat → UInt8

def SparseFile.empty : SparseFile := ⟨0, fun _ => 0⟩

/-- `File::set_len`: bytes cut off read as zero when the file grows again. -/
def SparseFile.setLen (f : SparseFile) (n : Nat) : SparseFile :=
  ⟨n, fun b => if b < f.len ∧ b < n then f.data b else 0⟩

/-- Bytes written at an offset. -/
def SparseFile.writeAt (f : SparseFile) (offset : Nat) (data : List UInt8) : SparseFile where
  len := if data = [] then f.len else max f.len (offset + data.length)
  data b := if offset ≤ b then data.getD (b - offset) (f.data b) else f.data b

abbrev Fs := Tree String SparseFile

/-! ## Items -/

/-- `FLUSH_DEBOUNCE` in seconds. -/
def flushDebounce : Nat := 2

/-- The largest file offset, `i64::MAX`. -/
def maxOffset : Nat := 2 ^ 63 - 1

/-- `CacheItem`. -/
structure Item where
  path : Path
  fileSize : Nat
  ranges : ByteRanges
  fits : ranges.Fits
  opens : Nat
  atime : Nat
  cacheKey : String
  persistDirty : Bool
  lastPersist : Nat

/-- `CacheItem::is_open` -/
def Item.isOpen (it : Item) : Bool := decide (it.opens > 0)

/-- `CacheItem::open` -/
def Item.open_ (it : Item) (now : Nat) : Item :=
  { it with opens := (it.opens + 1) % 2 ^ 32, atime := now }

/-- `flush_ranges` gets as far as the upsert. -/
def Item.wantsFlush (it : Item) (force : Bool) (now : Nat) : Bool :=
  it.persistDirty && (force || decide (now - it.lastPersist ≥ flushDebounce))

/-- The cache: its directory, the files and rows, every item ever created and the map of those in
    use. -/
structure Store where
  dir : Path
  fs : Fs
  db : RangeDb
  items : List Item
  map : AList fun _ : String => Nat

/-- `Cache::build_key` -/
def buildKey (accessKey filename : String) : String := accessKey ++ "/" ++ filename

namespace Store

/-- The sparse file of a key. -/
def fileOf (s : Store) (accessKey filename : String) : Path :=
  ((s.dir.join accessKey).join filename).resolve

/-! ## Operations -/

/-- `CacheItem::flush_ranges` on item `i`; `dbOk` is the outcome of the upsert. -/
def flushRanges (s : Store) (i : Nat) (force : Bool) (now : Nat) (dbOk : Bool) : Store :=
  match s.items[i]? with
  | none => s
  | some it =>
    if it.wantsFlush force now && dbOk then
      { s with
        db := s.db.upsert it.cacheKey it.fileSize (asI64 now) it.ranges
        items := s.items.set i { it with persistDirty := false, lastPersist := now } }
    else s

/-- The counter of `release`: one handle less, and whether it was the last. -/
def closeHandle (s : Store) (i : Nat) : Store × Bool :=
  match s.items[i]? with
  | none => (s, false)
  | some it =>
    ({ s with items := s.items.set i { it with opens := it.opens - 1 } }, decide (it.opens = 1))

/-- `CacheItem::release` -/
def release (s : Store) (i : Nat) (now : Nat) (dbOk : Bool) : Store :=
  match s.closeHandle i with
  | (s, true) => s.flushRanges i true now dbOk
  | (s, false) => s

/-- How far `write_range` gets: opening and seeking, then all of the data or only the first bytes. -/
structure WriteIo where
  openOk : Bool
  written : Option Nat

/-- `write_range` of non-empty data up to the flush: the data goes to the file and the range is
    marked.  A write past the largest offset is refused by the system. -/
def writeAndMark (s : Store) (i offset : Nat) (data : List UInt8) (io : WriteIo) : Store × Bool :=
  match s.items[i]? with
  | none => (s, false)
  | some it =>
    match s.fs.lookup it.path with
    | none => (s, false)
    | some .dir => (s, false)
    | some (.file f) =>
      if h : io.openOk = true ∧ offset + data.length ≤ maxOffset then
        match io.written with
        | some n =>
          ({ s with fs := s.fs.setFile it.path (f.writeAt offset (data.take n)) }, false)
        | none =>
          ({ s with
            fs := s.fs.setFile it.path (f.writeAt offset data)
            items := s.items.set i
              { it with
                ranges := it.ranges.insert offset (offset + data.length)
                fits := it.fits.insert (Nat.lt_of_le_of_lt h.2 (by decide))
                persistDirty := true } }, true)
      else (s, false)

/-- `CacheItem::write_range` on item `i`, and whether it returned `Ok`. -/
def writeRange (s : Store) (i offset : Nat) (data : List UInt8) (now : Nat) (io : WriteIo)
    (dbOk : Bool) : Store × Bool :=
  if data = [] then (s, true)
  else match s.writeAndMark i offset data io with
    | (s, true) => (s.flushRanges i false now dbOk, true)
    | (s, false) => (s, false)

/-- Why an item could not be opened. -/
inductive OpenError where
  | createDir
  | openFile
  | truncate
  | rangeDb (msg : String)
deriving DecidableEq

/-- What the calls of `open_or_create_with_db` answer; `getErr` is a failure of `RangeDb::get`
    itself. -/
structure OpenIo where
  dirOk : Bool
  openOk : Bool
  setLenOk : Bool
  getErr : Option String
  deleteOk : Bool

/-- Every call succeeds. -/
def OpenIo.allOk : OpenIo := ⟨true, true, true, none, true⟩

/-- The ranges a new item starts with, and the table after a purge on a size mismatch. -/
def restore (db : RangeDb) (key : String) (fileSize : Nat) (io : OpenIo) :
    Except OpenError (RangeDb × {r : ByteRanges // r.Fits}) :=
  match h : db.get key with
  | .error e => .error (.rangeDb e)
  | .ok none => .ok (db, ⟨.new, ByteRanges.fits_new⟩)
  | .ok (some row) =>
    if row.fileSize = fileSize then .ok (db, ⟨row.ranges, RangeDb.get_fits h⟩)
    else if io.setLenOk = false then .error .truncate
    else .ok (if io.deleteOk then db.deleteKeys [key] else db, ⟨.new, ByteRanges.fits_new⟩)

/-- The end of `open_or_create_with_db`, with the file open: the new item is added to the list. -/
def addItem (s : Store) (path : Path) (key : String) (fileSize now : Nat) (io : OpenIo) :
    Store × Except OpenError Nat :=
  match io.getErr with
  | some e => (s, .error (.rangeDb e))
  | none =>
    match restore s.db key fileSize io with
    | .error e => (s, .error e)
    | .ok (db, ranges) =>
      let it : Item := ⟨path, fileSize, ranges.1, ranges.2, 0, now, key, false, now⟩
      ({ s with db := db, items := s.items ++ [it] }, .ok s.items.length)

/-- `CacheItem::open_or_create_with_db` -/
def openOrCreateWithDb (s : Store) (path : Path) (key : String) (fileSize now : Nat) (io : OpenIo) :
    Store × Except OpenError Nat :=
  match if io.dirOk then s.fs.createDirAll path.dropLast else none with
  | none => (s, .error .createDir)
  | some fs =>
    match if io.openOk then fs.openCreate path SparseFile.empty else none with
    | none => ({ s with fs := fs }, .error .openFile)
    | some (fs, f) =>
      if f.len ≠ fileSize ∧ io.setLenOk = false then ({ s with fs := fs }, .error .truncate)
      else { s with fs := fs.setFile path (f.setLen fileSize) }.addItem path key fileSize now io

/-- `CacheItem::open` on item `i`. -/
def openItem (s : Store) (i : Nat) (now : Nat) : Store :=
  match s.items[i]? with
  | none => s
  | some it => { s with items := s.items.set i (it.open_ now) }

/-- `Cache::get_or_create`, with the index of the item it returns. -/
def getOrCreate (s : Store) (accessKey filename : String) (fileSize now : Nat) (io : OpenIo) :
    Store × Except OpenError Nat :=
  let key := buildKey accessKey filename
  match s.map.lookup key with
  | some i => (s.openItem i now, .ok i)
  | none =>
    match s.openOrCreateWithDb (s.fileOf accessKey filename) key fileSize now io with
    | (s, .error e) => (s, .error e)
    | (s, .ok i) => ({ s with map := s.map.insert key i }.openItem i now, .ok i)

/-- `Cache::invalidate` -/
def invalidate (s : Store) (accessKey filename : String) (removeOk dbOk : Bool) : Store :=
  let key := buildKey accessKey filename
  { s with
    map := s.map.erase key
    fs := (s.fs.remove (s.fileOf accessKey filename) removeOk).1
    db := if dbOk then s.db.deleteKeys [key] else s.db }

/-- `remove_if` of an eviction pass: take an item without open handles out of the map. -/
def dropIdle (s : Store) (key : String) : Store × Option Nat :=
  match s.map.lookup key with
  | none => (s, none)
  | some i =>
    match s.items[i]? with
    | none => (s, none)
    | some it => if it.isOpen then (s, none) else ({ s with map := s.map.erase key }, some i)

/-- One idle key of an eviction pass: what is taken out of the map is flushed. -/
def evictIdle (s : Store) (key : String) (now : Nat) (dbOk : Bool) : Store :=
  match s.dropIdle key with
  | (s, some i) => s.flushRanges i true now dbOk
  | (s, none) => s

/-! ## What becomes of the items -/

/-- The same items, up to counters, times and flags. -/
structure SameItems (s s' : Store) : Prop where
  length : s'.items.length = s.items.length
  item : ∀ (i : Nat) (it : Item), s'.items[i]? = some it → ∃ jt : Item,
    s.items[i]? = some jt ∧ it.cacheKey = jt.cacheKey ∧ it.ranges = jt.ranges

theorem SameItems.of_eq {s s' : Store} (h : s'.items = s.items) : SameItems s s' :=
  ⟨by rw [h], fun i it hi => ⟨it, by rw [← h]; exact hi, rfl, rfl⟩⟩

theorem SameItems.of_set {s s' : Store} {i : Nat} {it it' : Item} (hi : s.items[i]? = some it)
    (hs : s'.items = s.items.set i it') (hk : it'.cacheKey = it.cacheKey)
    (hr : it'.ranges = it.ranges) : SameItems s s' := by
  refine ⟨by rw [hs, List.length_set], fun j jt hj => ?_⟩
  rw [hs, List.getElem?_set] at hj
  split at hj
  · rename_i hij
    subst hij
    split at hj
    · obtain rfl := Option.some.inj hj
      exact ⟨it, hi, hk, hr⟩
    · exact absurd hj nofun
  · exact ⟨jt, hj, rfl, rfl⟩

theorem SameItems.trans {s s' s'' : Store} (h : SameItems s s') (h' : SameItems s' s'') :
    SameItems s s'' := by
  refine ⟨h'.length.trans h.length, fun i it hi => ?_⟩
  obtain ⟨jt, hj, hk, hr⟩ := h'.item i it hi
  obtain ⟨kt, hk', hk'', hr'⟩ := h.item i jt hj
  exact ⟨kt, hk', hk.trans hk'', hr.trans hr'⟩

theorem sameItems_flushRanges (s : Store) (i : Nat) (force : Bool) (now : Nat) (dbOk : Bool) :
    SameItems s (s.flushRanges i force now dbOk) := by
  unfold flushRanges
  split
  · exact .of_eq rfl
  · rename_i it hi
    split
    · exact .of_set hi rfl rfl rfl
    · exact .of_eq rfl

theorem sameItems_closeHandle (s : Store) (i : Nat) : SameItems s (s.closeHandle i).1 := by
  unfold closeHandle
  split
  · exact .of_eq rfl
  · rename_i it hi
    exact .of_set hi rfl rfl rfl

theorem sameItems_openItem (s : Store) (i now : Nat) : SameItems s (s.openItem i now) := by
  unfold openItem
  split
  · exact .of_eq rfl
  · rename_i it hi
    exact .of_set hi rfl rfl rfl

theorem dropIdle_items (s : Store) (key : String) : (s.dropIdle key).1.items = s.items := by
  unfold dropIdle
  repeat' split
  all_goals rfl

theorem dropIdle_db (s : Store) (key : String) : (s.dropIdle key).1.db = s.db := by
  unfold dropIdle
  repeat' split
  all_goals rfl

theorem closeHandle_db (s : Store) (i : Nat) : (s.closeHandle i).1.db = s.db := by
  unfold closeHandle
  split <;> rfl

theorem openItem_db (s : Store) (i now : Nat) : (s.openItem i now).db = s.db := by
  unfold openItem
  split <;> rfl

theorem openItem_map (s : Store) (i now : Nat) : (s.openItem i now).map = s.map := by
  unfold openItem
  split <;> rfl

theorem openOrCreateWithDb_map (s : Store) (path : Path) (key : String) (fileSize now : Nat)
    (io : OpenIo) : (s.openOrCreateWithDb path key fileSize now io).1.map = s.map := by
  unfold openOrCreateWithDb addItem
  repeat' split
  all_goals rfl

/-- The map gets at most the one key. -/
theorem getOrCreate_map (s : Store) (accessKey filename : String) (fileSize now : Nat) (io : OpenIo)
    (key : String) :
    (s.getOrCreate accessKey filename fileSize now io).1.map.lookup key = s.map.lookup key ∨
      key = buildKey accessKey filename := by
  have hmap := s.openOrCreateWithDb_map (s.fileOf accessKey filename) (buildKey accessKey filename)
    fileSize now io
  unfold getOrCreate
  simp only
  split
  · exact Or.inl (by rw [openItem_map])
  · split
    · rename_i t e ht
      rw [ht] at hmap
      exact Or.inl (by rw [show t.map = s.map from hmap])
    · rename_i t i ht
      rw [ht] at hmap
      by_cases hkey : key = buildKey accessKey filename
      · exact Or.inr hkey
      · rw [openItem_map]
        show (t.map.insert _ i).lookup key = _ ∨ _
        rw [AList.lookup_insert_ne hkey, show t.map = s.map from hmap]
        exact Or.inl rfl

/-- What a write can do: nothing to rows and items, or mark the range on its item. -/
theorem writeAndMark_cases (s : Store) (i offset : Nat) (data : List UInt8) (io : WriteIo) :
    ((s.writeAndMark i offset data io).2 = false ∧ (s.writeAndMark i offset data io).1.db = s.db ∧
      (s.writeAndMark i offset data io).1.items = s.items) ∨
    ∃ it it', s.items[i]? = some it ∧ (s.writeAndMark i offset data io).2 = true ∧
      (s.writeAndMark i offset data io).1.db = s.db ∧
      (s.writeAndMark i offset data io).1.items = s.items.set i it' ∧
      it'.cacheKey = it.cacheKey ∧ it'.ranges = it.ranges.insert offset (offset + data.length) := by
  cases hi : s.items[i]? with
  | none =>
    have he : s.writeAndMark i offset data io = (s, false) := by simp only [Store.writeAndMark, hi]
    rw [he]
    exact Or.inl ⟨rfl, rfl, rfl⟩
  | some it =>
    cases hf : s.fs.lookup it.path with
    | none =>
      have he : s.writeAndMark i offset data io = (s, false) := by
        simp only [Store.writeAndMark, hi, hf]
      rw [he]
      exact Or.inl ⟨rfl, rfl, rfl⟩
    | some node =>
      cases node with
      | dir =>
        have he : s.writeAndMark i offset data io = (s, false) := by
          simp only [Store.writeAndMark, hi, hf]
        rw [he]
        exact Or.inl ⟨rfl, rfl, rfl⟩
      | file f =>
        by_cases hio : io.openOk = true ∧ offset + data.length ≤ maxOffset
        · rw [Store.writeAndMark, hi]
          simp only [hf, dif_pos hio]
          cases hw : io.written with
          | some k => exact Or.inl ⟨rfl, rfl, rfl⟩
          | none => exact Or.inr ⟨it, _, rfl, rfl, rfl, rfl, rfl, rfl⟩
        · have he : s.writeAndMark i offset data io = (s, false) := by
            simp only [Store.writeAndMark, hi, hf, dif_neg hio]
          rw [he]
          exact Or.inl ⟨rfl, rfl, rfl⟩

/-- A new item starts with what the row offers, or with nothing; rows are only taken away. -/
theorem restore_spec {db db' : RangeDb} {k : String} {fileSize : Nat} {io : Store.OpenIo}
    {r : {r : ByteRanges // r.Fits}} (h : Store.restore db k fileSize io = .ok (db', r)) :
    r.1.bytes ⊆ db.offered k ∧ ∀ key, db'.offered key ⊆ db.offered key := by
  unfold Store.restore at h
  split at h
  · cases h
  · obtain ⟨rfl, rfl⟩ := Prod.mk.inj (Except.ok.inj h)
    refine ⟨?_, fun key => Set.Subset.rfl⟩
    show ByteRanges.new.bytes ⊆ _
    rw [ByteRanges.bytes_new]
    exact Set.empty_subset _
  · rename_i row hrow
    split at h
    · obtain ⟨rfl, rfl⟩ := Prod.mk.inj (Except.ok.inj h)
      refine ⟨?_, fun key => Set.Subset.rfl⟩
      show row.ranges.bytes ⊆ _
      rw [RangeDb.offered, hrow]
    · split at h
      · cases h
      · obtain ⟨rfl, rfl⟩ := Prod.mk.inj (Except.ok.inj h)
        refine ⟨?_, fun key => ?_⟩
        · show ByteRanges.new.bytes ⊆ _
          rw [ByteRanges.bytes_new]
          exact Set.empty_subset _
        · split
          · by_cases hk : key ∈ [k]
            · rw [RangeDb.offered_deleteKeys hk]
              exact Set.empty_subset _
            · rw [RangeDb.offered_deleteKeys_not_mem hk]
          · exact Set.Subset.rfl

end Store

end RdRs.Cache

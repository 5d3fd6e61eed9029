/-
  A file that an eviction pass removed, opened again.

  The promise (`ColdOnReopen`): the next `get_or_create` of its key yields an item that has no range,
  until something is written to it.

  1. **Runs** — operations and passes; only a write changes the ranges of an item
     (`keepsRanges_run`), so it is enough to look at the item that `get_or_create` yields.
  2. **Cold means that nothing is on record** (`coldOnReopen_iff`) — `open_or_create_with_db` trusts
     a row of the right size, whatever the file holds.
  3. **When the promise is kept** (`evicted_file_cold_iff`) — with 2., a question of which rows the
     pass drops.
-/
import RdRs.Cache.Invalidate
import RdRs.Cache.Eviction

set_option linter.unusedVariables false

namespace RdRs.Cache

open RdRs.FileTree RdRs.Runs

/-! ## Runs with eviction passes -/

/-- The operations and the passes. -/
inductive Event where
  | op (op : Op)
  | evict (limits : EvictLimits) (now : Nat) (io : EvictIo)
  | evictDiskLru (threshold now : Nat) (io : EvictIo)

def History.next (h : History) : Event → Option History
  | .op op => h.step op
  | .evict limits now io => some ⟨h.store.evict limits now io, h.log⟩
  | .evictDiskLru threshold now io => some ⟨h.store.evictDiskLru threshold now io, h.log⟩

/-- The item an event writes to. -/
def Event.writesTo : Event → Option Nat
  | .op (.writeRange i _ _ _ _ _) => some i
  | _ => none

/-- The next `get_or_create` of the key, with any size and however the calls of it end, yields an
    item that has no range, until something is written to it. -/
def ColdOnReopen (s : Store) (accessKey filename : String) : Prop :=
  ∀ (fileSize now : Nat) (io : Store.OpenIo) (s' : Store) (i : Nat),
    s.getOrCreate accessKey filename fileSize now io = (s', .ok i) →
    ∀ (log : List (String × (Nat × Nat))) (es : List Event) (h : History),
      (∀ e ∈ es, e.writesTo ≠ some i) → run History.next ⟨s', log⟩ es = some h →
      ∃ it, h.store.items[i]? = some it ∧ ∀ a b, a < b → it.ranges.hasRange a b = false

/-- No bytes are on record for a key: in its item, or in its row when it is not in the map. -/
def NothingOnRecord (s : Store) (key : String) : Prop :=
  match s.map.lookup key with
  | some i => ∃ it, s.items[i]? = some it ∧ it.ranges.bytes = ∅
  | none => s.db.offered key = ∅

theorem bytes_eq_empty_iff (r : ByteRanges) :
    r.bytes = ∅ ↔ ∀ a b, a < b → r.hasRange a b = false := by
  constructor
  · intro h a b hab
    rw [← Bool.not_eq_true, ByteRanges.hasRange_iff, h]
    intro hsub
    exact hsub (Set.mem_Ico.mpr ⟨Nat.le_refl a, hab⟩)
  · intro h
    refine Set.eq_empty_of_forall_notMem fun b hb => ?_
    have htrue := (r.hasRange_byte b).mpr hb
    rw [h b (b + 1) (Nat.lt_succ_self b)] at htrue
    exact absurd htrue nofun

/-! ## Only a write changes the ranges of an item -/

/-- Item `i` is still there, with the same ranges. -/
def KeepsRanges (i : Nat) (s s' : Store) : Prop :=
  ∀ it, s.items[i]? = some it → ∃ it', s'.items[i]? = some it' ∧ it'.ranges = it.ranges

section KeepsRanges

variable {i : Nat} {s s' s'' : Store}

theorem KeepsRanges.trans (h : KeepsRanges i s s') (h' : KeepsRanges i s' s'') :
    KeepsRanges i s s'' := by
  intro it hi
  obtain ⟨jt, hj, hr⟩ := h it hi
  obtain ⟨kt, hk, hr'⟩ := h' jt hj
  exact ⟨kt, hk, hr'.trans hr⟩

/-- The same items have the same ranges. -/
theorem KeepsRanges.of_sameItems (h : s.SameItems s') : KeepsRanges i s s' := by
  intro it hi
  have hlt : i < s'.items.length := by
    rw [h.length]
    exact (List.getElem?_eq_some_iff.mp hi).1
  obtain ⟨jt, hj, -, hr⟩ := h.item i s'.items[i] (List.getElem?_eq_getElem hlt)
  obtain rfl := Option.some.inj (hi.symm.trans hj)
  exact ⟨_, List.getElem?_eq_getElem hlt, hr⟩

theorem KeepsRanges.of_items_eq (h : s'.items = s.items) : KeepsRanges i s s' :=
  .of_sameItems (.of_eq h)

/-- A new item leaves the ranges of the others. -/
theorem KeepsRanges.of_append {its : List Item} (h : s'.items = s.items ++ its) :
    KeepsRanges i s s' := by
  intro it hi
  refine ⟨it, ?_, rfl⟩
  rw [h, List.getElem?_append_left (List.getElem?_eq_some_iff.mp hi).1]
  exact hi

theorem keepsRanges_writeAndMark {j : Nat} (hij : j ≠ i) (offset : Nat) (data : List UInt8)
    (io : Store.WriteIo) : KeepsRanges i s (s.writeAndMark j offset data io).1 := by
  rcases s.writeAndMark_cases j offset data io with ⟨-, -, h⟩ | ⟨it, it', -, -, -, h, -, -⟩
  · exact .of_items_eq h
  · intro jt hi
    refine ⟨jt, ?_, rfl⟩
    rw [h, List.getElem?_set_ne hij]
    exact hi

/-- A write marks ranges of its own item only. -/
theorem keepsRanges_writeRange {j : Nat} (hij : j ≠ i) (offset : Nat) (data : List UInt8)
    (now : Nat) (io : Store.WriteIo) (dbOk : Bool) :
    KeepsRanges i s (s.writeRange j offset data now io dbOk).1 := by
  have hwrite : KeepsRanges i s _ := keepsRanges_writeAndMark hij offset data io
  unfold Store.writeRange
  split
  · exact .of_items_eq rfl
  · split
    · rename_i t ht
      rw [ht] at hwrite
      exact hwrite.trans (.of_sameItems (t.sameItems_flushRanges j false now dbOk))
    · rename_i t ht
      rw [ht] at hwrite
      exact hwrite

/-- A release keeps the ranges. -/
theorem keepsRanges_release (j now : Nat) (dbOk : Bool) :
    KeepsRanges i s (s.release j now dbOk) := by
  have hclose : KeepsRanges i s _ := .of_sameItems (s.sameItems_closeHandle j)
  unfold Store.release
  split
  · rename_i t ht
    rw [ht] at hclose
    exact hclose.trans (.of_sameItems (t.sameItems_flushRanges j true now dbOk))
  · rename_i t ht
    rw [ht] at hclose
    exact hclose

theorem keepsRanges_openOrCreate (path : Path) (key : String) (fileSize now : Nat)
    (io : Store.OpenIo) :
    KeepsRanges i s (s.openOrCreateWithDb path key fileSize now io).1 := by
  unfold Store.openOrCreateWithDb
  split
  · exact .of_items_eq rfl
  · split
    · exact .of_items_eq rfl
    · split
      · exact .of_items_eq rfl
      · -- the file is open: an item is appended, or the row cannot be read
        unfold Store.addItem
        split
        · exact .of_items_eq rfl
        · split
          · exact .of_items_eq rfl
          · exact .of_append rfl

/-- A call of `get_or_create` keeps the ranges of the items that exist. -/
theorem keepsRanges_getOrCreate (accessKey filename : String) (fileSize now : Nat)
    (io : Store.OpenIo) :
    KeepsRanges i s (s.getOrCreate accessKey filename fileSize now io).1 := by
  have hopen : KeepsRanges i s _ := keepsRanges_openOrCreate (s.fileOf accessKey filename)
    (buildKey accessKey filename) fileSize now io
  unfold Store.getOrCreate
  simp only
  split
  · exact .of_sameItems (s.sameItems_openItem _ now)
  · split
    · rename_i t e ht
      rw [ht] at hopen
      exact hopen
    · rename_i t j ht
      rw [ht] at hopen
      have hmap : t.SameItems { t with map := t.map.insert (buildKey accessKey filename) j } :=
        .of_eq rfl
      exact hopen.trans (.of_sameItems (hmap.trans (Store.sameItems_openItem _ j now)))

/-- The eviction of an idle item keeps the ranges. -/
theorem keepsRanges_evictIdle (key : String) (now : Nat) (dbOk : Bool) :
    KeepsRanges i s (s.evictIdle key now dbOk) := by
  have hdrop : KeepsRanges i s (s.dropIdle key).1 := .of_items_eq (s.dropIdle_items key)
  unfold Store.evictIdle
  split
  · rename_i t j ht
    rw [ht] at hdrop
    exact hdrop.trans (.of_sameItems (t.sameItems_flushRanges j true now dbOk))
  · rename_i t ht
    rw [ht] at hdrop
    exact hdrop

theorem keepsRanges_evictIdleItems (now : Nat) (io : EvictIo) :
    KeepsRanges i s (s.evictIdleItems now io) := by
  have hfold : ∀ (keys : List String) (s : Store), KeepsRanges i s
      (keys.foldl (fun s key => s.evictIdle key now (io.flushOk key)) s) := by
    intro keys
    induction keys with
    | nil =>
      intro s
      exact .of_items_eq rfl
    | cons key keys ih =>
      intro s
      exact (keepsRanges_evictIdle key now (io.flushOk key)).trans (ih _)
  exact hfold (s.idleKeys now) s

/-- Every event that does not write to the item keeps its ranges. -/
theorem keepsRanges_next {h h' : History} {e : Event} (hw : e.writesTo ≠ some i)
    (hn : h.next e = some h') : KeepsRanges i h.store h'.store := by
  cases e with
  | evict limits now io =>
    obtain rfl := Option.some.inj hn
    have hremoves := (h.store.evict_frame limits now io).1
    exact (keepsRanges_evictIdleItems now io).trans (.of_items_eq hremoves.items)
  | evictDiskLru threshold now io =>
    obtain rfl := Option.some.inj hn
    exact .of_items_eq (h.store.evictDiskLru_frame threshold now io).items
  | op op =>
    cases op with
    | getOrCreate accessKey filename fileSize now io =>
      obtain rfl := Option.some.inj hn
      exact keepsRanges_getOrCreate accessKey filename fileSize now io
    | release j now dbOk =>
      obtain rfl := Option.some.inj hn
      exact keepsRanges_release j now dbOk
    | flushRanges j force now dbOk =>
      obtain rfl := Option.some.inj hn
      exact .of_sameItems (h.store.sameItems_flushRanges j force now dbOk)
    | writeRange j offset data now io dbOk =>
      have hji : j ≠ i := fun hji => hw (congrArg some hji)
      have hstore : KeepsRanges i h.store (h.store.writeRange j offset data now io dbOk).1 :=
        keepsRanges_writeRange hji offset data now io dbOk
      simp only [History.next, History.step] at hn
      -- the write ended with or without success; only the log differs
      split at hn
      · rename_i t ht
        rw [ht] at hstore
        exact Option.some.inj hn ▸ hstore
      · rename_i t ht
        rw [ht] at hstore
        exact Option.some.inj hn ▸ hstore
    | invalidate accessKey filename removeOk dbOk =>
      obtain rfl := Option.some.inj hn
      exact .of_items_eq rfl
    | evictIdle key now dbOk =>
      obtain rfl := Option.some.inj hn
      exact keepsRanges_evictIdle key now dbOk

/-- **A run without a write to an item leaves its ranges.** -/
theorem keepsRanges_run : ∀ (es : List Event) {h h' : History},
    (∀ e ∈ es, e.writesTo ≠ some i) → run History.next h es = some h' →
      KeepsRanges i h.store h'.store
  | [], h, h', _, hr => by
    obtain rfl := Option.some.inj hr
    exact .of_items_eq rfl
  | e :: es, h, h', hw, hr => by
    obtain ⟨t, ht, hr'⟩ := run_cons hr
    have hstep := keepsRanges_next (hw e List.mem_cons_self) ht
    exact hstep.trans (keepsRanges_run es (fun e' he' => hw e' (List.mem_cons_of_mem e he')) hr')

end KeepsRanges

/-! ## With the file gone -/

section Reopen

variable {s : Store} {accessKey filename : String}

/-- A row whose size is asked for is trusted. -/
theorem restore_of_get {db : RangeDb} {key : String} {row : RangeRow} (io : Store.OpenIo)
    (h : db.get key = .ok (some row)) :
    ∃ r, Store.restore db key row.fileSize io = .ok (db, r) ∧ r.1 = row.ranges := by
  unfold Store.restore
  split
  · rename_i e he
    exact absurd (h.symm.trans he) nofun
  · rename_i he
    exact absurd (h.symm.trans he) nofun
  · rename_i row' hrow
    obtain rfl := Option.some.inj (Except.ok.inj (h.symm.trans hrow))
    rw [if_pos rfl]
    exact ⟨_, rfl, rfl⟩

/-- An item that is opened has the ranges of its row. -/
theorem addItem_of_row {row : RangeRow} {key : String} (path : Path) (now : Nat)
    (hrow : s.db.get key = .ok (some row)) :
    ∃ t it, s.addItem path key row.fileSize now .allOk = (t, .ok s.items.length) ∧
      t.items = s.items ++ [it] ∧ it.ranges = row.ranges := by
  obtain ⟨r, hr, hranges⟩ := restore_of_get .allOk hrow
  have hadd : s.addItem path key row.fileSize now .allOk
      = ({ s with items := s.items ++ [⟨path, row.fileSize, r.1, r.2, 0, now, key, false, now⟩] },
        .ok s.items.length) := by
    unfold Store.addItem
    rw [hr]
    rfl
  exact ⟨_, _, hadd, rfl, hranges⟩

/-- **A row outlives its file.**  With the file gone, `get_or_create` makes a new one and takes the
    ranges of the row over. -/
theorem getOrCreate_of_row {row : RangeRow} (now : Nat)
    (hmap : s.map.lookup (buildKey accessKey filename) = none)
    (hdir : s.fs.lookup (s.fileOf accessKey filename).dropLast = some .dir)
    (hgone : s.fs.lookup (s.fileOf accessKey filename) = none)
    (hrow : s.db.get (buildKey accessKey filename) = .ok (some row)) :
    ∃ s' it, s.getOrCreate accessKey filename row.fileSize now .allOk
        = (s', .ok s.items.length) ∧
      s'.items[s.items.length]? = some it ∧ it.ranges = row.ranges := by
  obtain ⟨fs, hfs⟩ := s.fs.create_isSome (.file SparseFile.empty) hdir hgone
  have hcreate : s.fs.openCreate (s.fileOf accessKey filename) SparseFile.empty
      = some (fs, SparseFile.empty) := by
    rw [Tree.openCreate, hgone]
    simp only [hfs, Option.map_some]
  have hadd := addItem_of_row
    (s := { s with fs := fs.setFile (s.fileOf accessKey filename) (.setLen .empty row.fileSize) })
    (s.fileOf accessKey filename) now hrow
  obtain ⟨t, it, ht, hitems, hranges⟩ := hadd
  have hopen : s.openOrCreateWithDb (s.fileOf accessKey filename) (buildKey accessKey filename)
      row.fileSize now .allOk = (t, .ok s.items.length) := by
    have hdirOk : Store.OpenIo.allOk.dirOk = true := rfl
    have hopenOk : Store.OpenIo.allOk.openOk = true := rfl
    unfold Store.openOrCreateWithDb
    simp only [hdirOk, hopenOk, if_true, s.fs.createDirAll_of_dir hdir, hcreate]
    rw [if_neg (fun h => absurd h.2 (by decide))]
    exact ht
  have hget : { t with map := t.map.insert (buildKey accessKey filename) s.items.length }.items[
      s.items.length]? = some it := by
    show t.items[s.items.length]? = some it
    rw [hitems, List.getElem?_append_right (Nat.le_refl _), Nat.sub_self]
    rfl
  have hkeep := KeepsRanges.of_sameItems (i := s.items.length) (Store.sameItems_openItem
    { t with map := t.map.insert (buildKey accessKey filename) s.items.length } s.items.length now)
  obtain ⟨it', hit', hr'⟩ := hkeep it hget
  refine ⟨_, it', ?_, hit', hr'.trans hranges⟩
  simp only [Store.getOrCreate, hmap, hopen]

/-- A new item has at most the bytes its row offers. -/
theorem openOrCreate_bytes {path : Path} {key : String} {fileSize now : Nat} {io : Store.OpenIo}
    {t : Store} {i : Nat} (h : s.openOrCreateWithDb path key fileSize now io = (t, .ok i)) :
    ∃ it, t.items[i]? = some it ∧ it.ranges.bytes ⊆ s.db.offered key := by
  unfold Store.openOrCreateWithDb at h
  split at h
  · exact absurd (Prod.mk.inj h).2 nofun
  · split at h
    · exact absurd (Prod.mk.inj h).2 nofun
    · split at h
      · exact absurd (Prod.mk.inj h).2 nofun
      · unfold Store.addItem at h
        split at h
        · exact absurd (Prod.mk.inj h).2 nofun
        · split at h
          · exact absurd (Prod.mk.inj h).2 nofun
          · rename_i db r hr
            obtain ⟨rfl, hi⟩ := Prod.mk.inj h
            obtain rfl := Except.ok.inj hi
            refine ⟨⟨path, fileSize, r.1, r.2, 0, now, key, false, now⟩, ?_, (Store.restore_spec hr).1⟩
            show (s.items ++ [_])[s.items.length]? = _
            rw [List.getElem?_append_right (Nat.le_refl _), Nat.sub_self]
            rfl

/-- What is on record is what `get_or_create` answers with. -/
theorem getOrCreate_bytes {fileSize now : Nat} {io : Store.OpenIo} {s' : Store} {i : Nat}
    (hnone : NothingOnRecord s (buildKey accessKey filename))
    (h : s.getOrCreate accessKey filename fileSize now io = (s', .ok i)) :
    ∃ it, s'.items[i]? = some it ∧ it.ranges.bytes = ∅ := by
  unfold NothingOnRecord at hnone
  unfold Store.getOrCreate at h
  simp only at h
  cases hmap : s.map.lookup (buildKey accessKey filename) with
  | some j =>
    rw [hmap] at hnone h
    obtain ⟨rfl, hij⟩ := Prod.mk.inj h
    obtain rfl := Except.ok.inj hij
    obtain ⟨it, hit, hbytes⟩ := hnone
    obtain ⟨it', hit', hr⟩ := KeepsRanges.of_sameItems (s.sameItems_openItem j now) it hit
    exact ⟨it', hit', hr ▸ hbytes⟩
  | none =>
    rw [hmap] at hnone h
    simp only at hnone h
    split at h
    · exact absurd (Prod.mk.inj h).2 nofun
    · rename_i t j ht
      obtain ⟨rfl, hij⟩ := Prod.mk.inj h
      obtain rfl := Except.ok.inj hij
      obtain ⟨it, hit, hbytes⟩ := openOrCreate_bytes ht
      obtain ⟨it', hit', hr⟩ := KeepsRanges.of_sameItems (Store.sameItems_openItem
        { t with map := t.map.insert (buildKey accessKey filename) j } j now) it hit
      exact ⟨it', hit', hr ▸ Set.subset_eq_empty hbytes hnone⟩

/-- **Cold means that nothing is on record**, for a key whose file is gone. -/
theorem coldOnReopen_iff (hdir : s.fs.lookup (s.fileOf accessKey filename).dropLast = some .dir)
    (hgone : s.fs.lookup (s.fileOf accessKey filename) = none) :
    ColdOnReopen s accessKey filename ↔ NothingOnRecord s (buildKey accessKey filename) := by
  constructor
  · -- one successful call, with the size of the row, shows what is on record
    intro hcold
    unfold NothingOnRecord
    split
    · rename_i i hi
      have hopen : s.getOrCreate accessKey filename 0 0 .allOk = (s.openItem i 0, .ok i) := by
        simp only [Store.getOrCreate, hi]
      obtain ⟨it, hit, hno⟩ := hcold 0 0 .allOk _ i hopen [] [] _ nofun rfl
      obtain ⟨jt, hj, -, hr⟩ := (s.sameItems_openItem i 0).item i it hit
      exact ⟨jt, hj, hr ▸ (bytes_eq_empty_iff it.ranges).mpr hno⟩
    · rename_i hmap
      unfold RangeDb.offered
      split
      · rename_i row hrow
        obtain ⟨s', it, hget, hit, hr⟩ := getOrCreate_of_row 0 hmap hdir hgone hrow
        obtain ⟨jt, hj, hno⟩ := hcold _ 0 .allOk s' _ hget [] [] _ nofun rfl
        obtain rfl := Option.some.inj (hit.symm.trans hj)
        exact hr ▸ (bytes_eq_empty_iff it.ranges).mpr hno
      · rfl
  · -- the item starts without ranges, and without a write it stays so
    intro hnone fileSize now io s' i hget log es h hes hrun
    obtain ⟨it, hit, hbytes⟩ := getOrCreate_bytes hnone hget
    obtain ⟨it', hit', hr⟩ := keepsRanges_run es hes hrun it hit
    exact ⟨it', hit', (bytes_eq_empty_iff it'.ranges).mp (hr ▸ hbytes)⟩

end Reopen

/-! ## After a pass -/

/-- After the cleanup nothing is on record for a key that had nothing, or whose row it has dropped. -/
theorem nothingOnRecord_ttlCleanup (s : Store) (maxAge now : Nat) (io : EvictIo) (key : String) :
    NothingOnRecord (s.ttlCleanup maxAge now io) key ↔
      NothingOnRecord s key ∨ TtlDropsRow s maxAge now io key := by
  have hframe := s.ttlCleanup_frame maxAge now io
  unfold NothingOnRecord
  rw [hframe.map, hframe.items]
  cases hmap : s.map.lookup key with
  | some i =>
    exact ⟨Or.inl, fun h => h.resolve_right fun h' => absurd (hmap.symm.trans h'.map_none) nofun⟩
  | none => exact offered_ttlCleanup s maxAge now io key

/-- The sparse file of a key, there before and gone after. -/
def RemovesFile (s s' : Store) (accessKey filename : String) : Prop :=
  (∃ f, s.fs.lookup (s.fileOf accessKey filename) = some (.file f)) ∧
    s'.fs.lookup (s.fileOf accessKey filename) = none

/-- After a step that only removes, the next open is cold iff nothing is left on record. -/
theorem Store.OnlyRemoves.cold_iff {s s' : Store} {accessKey filename : String}
    (h : s.OnlyRemoves s') (hgone : RemovesFile s s' accessKey filename) :
    ColdOnReopen s' accessKey filename ↔ NothingOnRecord s' (buildKey accessKey filename) := by
  have hfile : s'.fileOf accessKey filename = s.fileOf accessKey filename := by
    rw [Store.fileOf, Store.fileOf, h.dir]
  obtain ⟨⟨f, hf⟩, hnone⟩ := hgone
  have hparent := s.fs.parent_dir (show s.fs.lookup (s.fileOf accessKey filename) ≠ none by
    rw [hf]; exact nofun)
  apply coldOnReopen_iff
  · rw [hfile]
    exact h.dirs _ hparent
  · rw [hfile]
    exact hnone

/-- **When a removed file is reopened cold.**  For every state, clock, settings and outcome of every
    call, and every key whose sparse file is removed:

    * by the TTL cleanup: iff nothing was on record for the key, or the cleanup drops its row;
    * by `evict_disk_lru`: iff nothing was on record for the key, as it drops no row;
    * by a whole pass of `evict`: iff, with the idle items flushed, nothing is on record for the key
      or the TTL cleanup drops its row. -/
theorem evicted_file_cold_iff (s : Store) (accessKey filename : String) (now : Nat) (io : EvictIo) :
    (∀ maxAge, RemovesFile s (s.ttlCleanup maxAge now io) accessKey filename →
      (ColdOnReopen (s.ttlCleanup maxAge now io) accessKey filename ↔
        NothingOnRecord s (buildKey accessKey filename) ∨
        TtlDropsRow s maxAge now io (buildKey accessKey filename))) ∧
    (∀ threshold, RemovesFile s (s.evictDiskLru threshold now io) accessKey filename →
      (ColdOnReopen (s.evictDiskLru threshold now io) accessKey filename ↔
        NothingOnRecord s (buildKey accessKey filename))) ∧
    ∀ limits, RemovesFile s (s.evict limits now io) accessKey filename →
      (ColdOnReopen (s.evict limits now io) accessKey filename ↔
        NothingOnRecord (s.evictIdleItems now io) (buildKey accessKey filename) ∨
        TtlDropsRow (s.evictIdleItems now io) limits.maxAge now io (buildKey accessKey filename)) := by
  refine ⟨fun maxAge hgone => ?_, fun threshold hgone => ?_, fun limits hgone => ?_⟩
  · rw [(s.ttlCleanup_frame maxAge now io).cold_iff hgone, nothingOnRecord_ttlCleanup]
  · have hframe := s.evictDiskLru_frame threshold now io
    rw [hframe.cold_iff hgone, NothingOnRecord, NothingOnRecord, hframe.map, hframe.items,
      s.evictDiskLru_db threshold now io]
  · -- the files are those of the pass without its first part, which touches none
    obtain ⟨hdir, hfs⟩ := s.evictIdleItems_files now io
    obtain ⟨hframe, hdb⟩ := s.evict_frame limits now io
    have hgone' : RemovesFile (s.evictIdleItems now io) (s.evict limits now io) accessKey filename := by
      rw [RemovesFile, hfs, Store.fileOf, hdir]
      exact hgone
    have httl := (s.evictIdleItems now io).ttlCleanup_frame limits.maxAge now io
    rw [hframe.cold_iff hgone', ← nothingOnRecord_ttlCleanup, NothingOnRecord, NothingOnRecord,
      hframe.map, hframe.items, hdb, httl.map, httl.items]

/-- The calls of a pass over one file of 8 blocks, last read at time 0; all succeed but, where it is
    so said, the deletion of rows. -/
def EvictIo.oneFile (accessKey filename : String) (deleteKeysOk : Bool) : EvictIo where
  flushOk _ := true
  staleKeysOk := true
  removeStaleOk _ := true
  deleteKeysOk := deleteKeysOk
  readDir p :=
    if p = ["cache"] then some [accessKey]
    else if p = ["cache", accessKey] then some [filename]
    else none
  stat _ := some (0, 8)
  removeLruOk _ := true

/-- Six bytes of a file written and read, then a minute without use. -/
def idleFile (accessKey filename : String) : List Op :=
  [.getOrCreate accessKey filename 4096 0 .allOk,
    .writeRange 0 0 [97, 98, 99, 100, 101, 102] 0 ⟨true, none⟩ true, .release 0 0 true,
    .evictIdle (buildKey accessKey filename) 60 true]

/-- **Removed files whose ranges come back.**  `evict_disk_lru` removes a file and, with every call
    succeeding, leaves its row; the TTL cleanup removes a file and its row stays when the deletion of
    the rows fails.  Both times the next `get_or_create` has the six bytes present. -/
theorem removed_file_reopened_with_ranges :
    (∃ h, run History.step (.fresh ["cache"]) (idleFile "ak" "movie") = some h ∧
      RemovesFile h.store (h.store.evictDiskLru 1000 400 (.oneFile "ak" "movie" true)) "ak" "movie" ∧
      ¬ ColdOnReopen (h.store.evictDiskLru 1000 400 (.oneFile "ak" "movie" true)) "ak" "movie") ∧
    ∃ h, run History.step (.fresh ["cache"]) (idleFile "hash/name" "movie.mp4") = some h ∧
      RemovesFile h.store (h.store.evict ⟨1, 0, 0⟩ 400 (.oneFile "hash" "name" false))
        "hash/name" "movie.mp4" ∧
      ¬ ColdOnReopen (h.store.evict ⟨1, 0, 0⟩ 400 (.oneFile "hash" "name" false))
        "hash/name" "movie.mp4" := by
  refine ⟨⟨_, rfl, ⟨⟨_, rfl⟩, rfl⟩, fun hcold => ?_⟩, ⟨_, rfl, ⟨⟨_, rfl⟩, rfl⟩, fun hcold => ?_⟩⟩
  · obtain ⟨it, hit, hno⟩ := hcold 4096 500 .allOk _ 1 rfl [] [] _ nofun rfl
    obtain rfl := Option.some.inj hit
    exact absurd (hno 0 6 (by decide)) (by decide)
  · obtain ⟨it, hit, hno⟩ := hcold 4096 500 .allOk _ 1 rfl [] [] _ nofun rfl
    obtain rfl := Option.some.inj hit
    exact absurd (hno 0 6 (by decide)) (by decide)

/-- A stale file goes with its row, alone and in a whole pass; removed for its size it is not cold,
    as its row offers the six bytes. -/
theorem evicted_file_cold_iff_idleMovie :
    ∃ h, run History.step (.fresh ["cache"]) (idleFile "ak" "movie") = some h ∧
      (RemovesFile h.store (h.store.ttlCleanup 1 400 (.oneFile "ak" "movie" true)) "ak" "movie" ∧
        ColdOnReopen (h.store.ttlCleanup 1 400 (.oneFile "ak" "movie" true)) "ak" "movie") ∧
      (RemovesFile h.store (h.store.evictDiskLru 1000 400 (.oneFile "ak" "movie" true)) "ak" "movie" ∧
        (ColdOnReopen (h.store.evictDiskLru 1000 400 (.oneFile "ak" "movie" true)) "ak" "movie" ↔
          NothingOnRecord h.store "ak/movie")) ∧
      RemovesFile h.store (h.store.evict ⟨1, 1000, 900⟩ 400 (.oneFile "ak" "movie" true))
        "ak" "movie" ∧
      ColdOnReopen (h.store.evict ⟨1, 1000, 900⟩ 400 (.oneFile "ak" "movie" true)) "ak" "movie" := by
  refine ⟨_, rfl, ?_⟩
  obtain ⟨httl, hlru, hevict⟩ := evicted_file_cold_iff _ "ak" "movie" 400 (.oneFile "ak" "movie" true)
  refine ⟨⟨⟨⟨_, rfl⟩, rfl⟩, (httl 1 ⟨⟨_, rfl⟩, rfl⟩).mpr (Or.inr ?_)⟩,
    ⟨⟨⟨_, rfl⟩, rfl⟩, hlru 1000 ⟨⟨_, rfl⟩, rfl⟩⟩,
    ⟨⟨_, rfl⟩, rfl⟩, (hevict ⟨1, 1000, 900⟩ ⟨⟨_, rfl⟩, rfl⟩).mpr (Or.inr ?_)⟩
  · refine ⟨by decide, rfl, rfl, ?_, [], [], rfl, Or.inr ⟨_, List.mem_singleton.mpr rfl, rfl, rfl⟩⟩
    exact show some (Node.file _) ≠ some Node.dir from nofun
  · refine ⟨by decide, rfl, rfl, ?_, [], [], rfl, Or.inr ⟨_, List.mem_singleton.mpr rfl, rfl, rfl⟩⟩
    exact show some (Node.file _) ≠ some Node.dir from nofun

end RdRs.Cache

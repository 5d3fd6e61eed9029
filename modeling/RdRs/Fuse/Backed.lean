/-
  Restored ranges against the bytes of the sparse file.

  Ranges live in memory, in a row of the database and, as bytes, in the sparse file.  A run of the
  cache is a list of operations, restarts of the process included; beside the store it keeps what
  happened to the files (`DiskEvent`), so that "the byte most recently written at b, and not dropped
  since" can be read off (`lastByte`).

  An item and its row are about one file, and `open_or_create_with_db` keeps the two together when it
  changes the file's length.  It knows its own key only: a second key that leads to the same file
  (`HASH/Film` and `HASH/./Film`) has its bytes cut off behind its back.

  * `backed_resize`, `backed_write` — what the two changes of a file leave of the bytes on record;
  * `Backing` — every live item and every row is about bytes that are there;
  * `restored_ranges_backed` — so it is in every run where no item is created on a file that another
    key has on record with a larger size.
-/
import RdRs.Lib.Runs
import RdRs.Fuse.CacheScan

set_option linter.unusedVariables false

namespace RdRs.Fuse

open RdRs.Cache RdRs.Rd RdRs.FileTree RdRs.Runs

/-! ## Runs of the cache -/

/-- What happens to the bytes of a file. -/
inductive DiskEvent where
  | wrote (path : Path) (offset : Nat) (data : List UInt8)
  | setLen (path : Path) (len : Nat)

/-- The byte most recently written at `b`, unless a `set_len` has dropped it since; the latest event
    comes first. -/
def lastByte (path : Path) (b : Nat) : List DiskEvent → Option UInt8
  | [] => none
  | .wrote p offset data :: before =>
    if p = path ∧ offset ≤ b ∧ b < offset + data.length then data[b - offset]?
    else lastByte path b before
  | .setLen p len :: before => if p = path ∧ len ≤ b then none else lastByte path b before

/-- The cache, and what happened to its files. -/
structure CacheRun where
  store : Store
  disk : List DiskEvent

/-- The operations.  The database never fails; the calls on files may. -/
inductive CacheOp where
  | getOrCreate (x : Cached) (fileSize now : Nat) (dirOk openOk setLenOk : Bool)
  | writeRange (i offset : Nat) (data : List UInt8) (now : Nat) (openOk : Bool)
  | flushRanges (i : Nat) (force : Bool) (now : Nat)
  | release (i now : Nat)
  | evictIdle (key : String) (now : Nat)
  | restart

/-- The item is in the map. -/
def inUse (s : Store) (i : Nat) : Bool := s.map.entries.any fun e => e.2 == i

/-- The length of a file; a new one has none. -/
def lenAt (fs : Fs) (p : Path) : Nat :=
  match fs.lookup p with
  | some (.file f) => f.len
  | _ => 0

/-- The `set_len` of `get_or_create`: it shows in the length. -/
def resized (fs fs' : Fs) (p : Path) : List DiskEvent :=
  if lenAt fs' p = lenAt fs p then [] else [.setLen p (lenAt fs' p)]

/-- The write reaches the item's file, and stays within the item's size. -/
def withinSize (s : Store) (i offset : Nat) (data : List UInt8) : Bool :=
  match s.items[i]? with
  | none => false
  | some it => decide (offset + data.length ≤ it.fileSize)

/-- What a successful write puts on the disk. -/
def written (s : Store) (i offset : Nat) (data : List UInt8) (ok : Bool) : List DiskEvent :=
  match s.items[i]? with
  | none => []
  | some it => if ok ∧ data ≠ [] then [.wrote it.path offset data] else []

/-- One operation; an item is used while it is in the map. -/
def CacheRun.step (r : CacheRun) : CacheOp → Option CacheRun
  | .getOrCreate x fileSize now dirOk openOk setLenOk =>
    let s := (r.store.getOrCreate (accessKey x.hash x.name) (cacheFilename x.file x.fileIdx) fileSize
      now ⟨dirOk, openOk, setLenOk, none, true⟩).1
    some ⟨s, resized r.store.fs s.fs (x.path r.store) ++ r.disk⟩
  | .writeRange i offset data now openOk =>
    if inUse r.store i && withinSize r.store i offset data then
      let (s, ok) := r.store.writeRange i offset data now ⟨openOk, none⟩ true
      some ⟨s, written r.store i offset data ok ++ r.disk⟩
    else none
  | .flushRanges i force now =>
    if inUse r.store i then some { r with store := r.store.flushRanges i force now true } else none
  | .release i now =>
    if inUse r.store i then some { r with store := r.store.release i now true } else none
  | .evictIdle key now => some { r with store := r.store.evictIdle key now true }
  | .restart => some { r with store := { r.store with items := [], map := ∅ } }

/-- **Restored ranges are backed by data**: where a live item has a byte below its size on record,
    the file holds the byte most recently written there, and no `set_len` has dropped it since. -/
def RangesBacked (r : CacheRun) : Prop :=
  ∀ key i it, r.store.map.lookup key = some i → r.store.items[i]? = some it →
    ∀ b, b < it.fileSize → it.ranges.hasRange b (b + 1) = true →
      ∃ f, r.store.fs.lookup it.path = some (.file f) ∧
        lastByte it.path b r.disk = some (f.data b)

/-! ## Bytes on the disk -/

/-- Of these bytes, the ones below `n` are in the file as they were written last. -/
def Backed (fs : Fs) (disk : List DiskEvent) (p : Path) (bytes : Set Nat) (n : Nat) : Prop :=
  ∀ b ∈ bytes, b < n → ∃ f, fs.lookup p = some (.file f) ∧ b < f.len ∧
    lastByte p b disk = some (f.data b)

/-- Fewer bytes, of a shorter file, are backed as well. -/
theorem Backed.mono {fs : Fs} {disk : List DiskEvent} {p : Path} {bytes bytes' : Set Nat} {n n' : Nat}
    (h : Backed fs disk p bytes n) (hb : bytes' ⊆ bytes) (hn : n' ≤ n) :
    Backed fs disk p bytes' n' :=
  fun b hmem hlt => h b (hb hmem) (hlt.trans_le hn)

theorem backed_empty (fs : Fs) (disk : List DiskEvent) (p : Path) (n : Nat) :
    Backed fs disk p ∅ n := fun b hb => absurd hb (Set.notMem_empty b)

/-- A write to another file is no byte of this one. -/
theorem lastByte_wrote_ne {p q : Path} (h : p ≠ q) (b offset : Nat) (data : List UInt8)
    (disk : List DiskEvent) : lastByte q b (.wrote p offset data :: disk) = lastByte q b disk := by
  rw [lastByte, if_neg fun h' => h h'.1]

/-- A resize leaves the bytes below the new length. -/
theorem lastByte_setLen_of_lt {p : Path} {b len : Nat} (h : b < len) (disk : List DiskEvent) :
    lastByte p b (.setLen p len :: disk) = lastByte p b disk := by
  rw [lastByte, if_neg fun h' => absurd h'.2 (not_le.mpr h)]

/-- A write changes the bytes it covers, in the file and on record alike. -/
theorem backed_write {fs : Fs} {disk : List DiskEvent} {p : Path} {f : SparseFile}
    (hf : fs.lookup p = some (.file f)) (offset : Nat) {data : List UInt8} (hdata : data ≠ [])
    {q : Path} {bytes : Set Nat} {n : Nat} (h : Backed fs disk q bytes n) :
    Backed (fs.setFile p (f.writeAt offset data)) (.wrote p offset data :: disk) q bytes n := by
  intro b hb hlt
  obtain ⟨g, hg, hlen, hlast⟩ := h b hb hlt
  by_cases hq : q = p
  · subst hq
    obtain rfl : f = g := by
      rw [hf] at hg
      exact FileTree.Node.file.inj (Option.some.inj hg)
    refine ⟨_, by rw [Tree.lookup_setFile hf, if_pos rfl], ?_, ?_⟩
    · show b < if data = [] then f.len else max f.len (offset + data.length)
      rw [if_neg hdata]
      omega
    · show _ = some (if offset ≤ b then data.getD (b - offset) (f.data b) else f.data b)
      rw [lastByte]
      by_cases hspan : offset ≤ b ∧ b < offset + data.length
      · have hin : b - offset < data.length := by omega
        rw [if_pos ⟨rfl, hspan.1, hspan.2⟩, if_pos hspan.1, List.getD_eq_getElem _ _ hin,
          List.getElem?_eq_getElem hin]
      · rw [if_neg fun h' => hspan h'.2, hlast]
        split
        · rw [List.getD_eq_default _ _ (by omega)]
        · rfl
  · exact ⟨g, by rw [Tree.lookup_setFile hf, if_neg hq]; exact hg, hlen,
      by rw [lastByte_wrote_ne (Ne.symm hq)]; exact hlast⟩

/-- What is written is there. -/
theorem backed_written {fs : Fs} {p : Path} {f : SparseFile} (hf : fs.lookup p = some (.file f))
    (offset : Nat) {data : List UInt8} (hdata : data ≠ []) (disk : List DiskEvent) (n : Nat) :
    Backed (fs.setFile p (f.writeAt offset data)) (.wrote p offset data :: disk) p
      (Set.Ico offset (offset + data.length)) n := by
  rintro b ⟨hlo, hhi⟩ -
  have hin : b - offset < data.length := by omega
  refine ⟨_, by rw [Tree.lookup_setFile hf, if_pos rfl], ?_, ?_⟩
  · show b < if data = [] then f.len else max f.len (offset + data.length)
    rw [if_neg hdata]
    omega
  · show _ = some (if offset ≤ b then data.getD (b - offset) (f.data b) else f.data b)
    rw [lastByte, if_pos ⟨rfl, hlo, hhi⟩, if_pos hlo, List.getD_eq_getElem _ _ hin,
      List.getElem?_eq_getElem hin]

/-- Every file keeps its length and the bytes below it. -/
def SameFiles (fs fs' : Fs) : Prop :=
  ∀ q f, fs.lookup q = some (.file f) → ∃ f', fs'.lookup q = some (.file f') ∧ f'.len = f.len ∧
    ∀ b, b < f.len → f'.data b = f.data b

/-- The file at `p` gets a new length, the others stay. -/
def ResizedAt (fs fs' : Fs) (p : Path) (n : Nat) : Prop :=
  (∀ q f, q ≠ p → fs.lookup q = some (.file f) → fs'.lookup q = some (.file f)) ∧
    ∀ f, fs.lookup p = some (.file f) → fs'.lookup p = some (.file (f.setLen n))

/-- A tree that keeps its entries has the same files. -/
theorem sameFiles_of_keeps {fs fs' : Fs} (h : fs.Keeps fs') : SameFiles fs fs' :=
  fun q f hf => ⟨f, h q _ hf, rfl, fun _ _ => rfl⟩

theorem lenAt_file {fs : Fs} {p : Path} {f : SparseFile} (h : fs.lookup p = some (.file f)) :
    lenAt fs p = f.len := by
  rw [lenAt, h]

/-- Events of one file are none of another's. -/
theorem lastByte_resized_ne {fs fs' : Fs} {p q : Path} (h : p ≠ q) (b : Nat)
    (disk : List DiskEvent) : lastByte q b (resized fs fs' p ++ disk) = lastByte q b disk := by
  rw [resized]
  split
  · rfl
  · exact if_neg fun h' => h h'.1

/-- Where the files stay the same, what is backed stays so. -/
theorem backed_same {fs fs' : Fs} (hsame : SameFiles fs fs') (p : Path) {disk : List DiskEvent}
    {q : Path} {bytes : Set Nat} {n : Nat} (h : Backed fs disk q bytes n) :
    Backed fs' (resized fs fs' p ++ disk) q bytes n := by
  intro b hb hlt
  obtain ⟨f, hf, hlen, hlast⟩ := h b hb hlt
  obtain ⟨f', hf', hlen', hdata⟩ := hsame q f hf
  refine ⟨f', hf', hlen'.symm ▸ hlen, ?_⟩
  rw [hdata b hlen, ← hlast]
  by_cases hq : p = q
  · subst hq
    have hnone : resized fs fs' p = [] := by
      rw [resized, lenAt_file hf, lenAt_file hf', if_pos hlen']
    rw [hnone, List.nil_append]
  · exact lastByte_resized_ne hq b disk

/-- A new length drops the bytes from there on, in the file and on record alike. -/
theorem backed_resize {fs fs' : Fs} {p : Path} {n : Nat} (hat : ResizedAt fs fs' p n)
    {disk : List DiskEvent} {q : Path} {bytes : Set Nat} {m : Nat} (h : Backed fs disk q bytes m)
    (hm : q = p → m ≤ n) : Backed fs' (resized fs fs' p ++ disk) q bytes m := by
  intro b hb hlt
  obtain ⟨f, hf, hlen, hlast⟩ := h b hb hlt
  by_cases hq : q = p
  · subst hq
    have hn : b < n := hlt.trans_le (hm rfl)
    have hf' := hat.2 f hf
    refine ⟨_, hf', hn, ?_⟩
    show _ = some (if b < f.len ∧ b < n then f.data b else 0)
    rw [if_pos ⟨hlen, hn⟩, ← hlast, resized]
    split
    · rfl
    · rw [lenAt_file hf']
      exact lastByte_setLen_of_lt hn disk
  · exact ⟨f, hat.1 q f hq hf, hlen, by rw [lastByte_resized_ne (Ne.symm hq)]; exact hlast⟩

/-! ## Items, rows and files -/

/-- Every live item is about the file of its key, and has bytes on record that are there; and so has
    every row. -/
structure Backing (r : CacheRun) : Prop where
  live : ∀ key i, r.store.map.lookup key = some i → ∃ it, r.store.items[i]? = some it ∧
    it.cacheKey = key ∧ it.path = r.store.stalePath key ∧
    Backed r.store.fs r.disk it.path it.ranges.bytes it.fileSize
  rows : ∀ key row, r.store.db.get key = .ok (some row) →
    Backed r.store.fs r.disk (r.store.stalePath key) row.ranges.bytes row.fileSize

/-- What the invariant says of the live items. -/
theorem Backing.rangesBacked {r : CacheRun} (h : Backing r) : RangesBacked r := by
  intro key i it hmap hit b hb hrange
  obtain ⟨it', hit', -, -, hbacked⟩ := h.live key i hmap
  obtain rfl := Option.some.inj (hit'.symm.trans hit)
  obtain ⟨f, hf, -, hlast⟩ := hbacked b ((it'.ranges.hasRange_byte b).mp hrange) hb
  exact ⟨f, hf, hlast⟩

/-- The same item, up to counters, times and flags. -/
def Alike (it it' : Item) : Prop :=
  it'.path = it.path ∧ it'.fileSize = it.fileSize ∧ it'.cacheKey = it.cacheKey ∧
    it'.ranges = it.ranges

theorem Alike.refl (it : Item) : Alike it it := ⟨rfl, rfl, rfl, rfl⟩

/-- Every item is still there, and no new one. -/
structure AllAlike (items items' : List Item) : Prop where
  length : items'.length = items.length
  item : ∀ (j : Nat) (it : Item), items[j]? = some it → ∃ it', items'[j]? = some it' ∧ Alike it it'

theorem AllAlike.refl (items : List Item) : AllAlike items items :=
  ⟨rfl, fun j it h => ⟨it, h, .refl it⟩⟩

theorem AllAlike.trans {l l' l'' : List Item} (h : AllAlike l l') (h' : AllAlike l' l'') :
    AllAlike l l'' := by
  refine ⟨h'.length.trans h.length, fun j it hj => ?_⟩
  obtain ⟨it', hj', hp, hn, hk, hr⟩ := h.item j it hj
  obtain ⟨it'', hj'', hp', hn', hk', hr'⟩ := h'.item j it' hj'
  exact ⟨it'', hj'', hp'.trans hp, hn'.trans hn, hk'.trans hk, hr'.trans hr⟩

/-- An item of the new list was there before. -/
theorem AllAlike.back {l l' : List Item} (h : AllAlike l l') {j : Nat} {it' : Item}
    (hj : l'[j]? = some it') : ∃ it, l[j]? = some it ∧ Alike it it' := by
  have hlt : j < l.length := h.length ▸ (List.getElem?_eq_some_iff.mp hj).1
  obtain ⟨it'', hj'', halike⟩ := h.item j l[j] (List.getElem?_eq_getElem hlt)
  obtain rfl := Option.some.inj (hj''.symm.trans hj)
  exact ⟨l[j], List.getElem?_eq_getElem hlt, halike⟩

/-- One item is replaced by one that is alike. -/
theorem allAlike_set {items : List Item} {i : Nat} {it it' : Item} (hi : items[i]? = some it)
    (h : Alike it it') : AllAlike items (items.set i it') := by
  refine ⟨List.length_set, fun j jt hj => ?_⟩
  by_cases hij : i = j
  · subst hij
    obtain rfl := Option.some.inj (hi.symm.trans hj)
    exact ⟨it', List.getElem?_set_self (List.getElem?_eq_some_iff.mp hi).1, h⟩
  · exact ⟨jt, by rw [List.getElem?_set_ne hij]; exact hj, .refl jt⟩

/-- A step that leaves the files alone: items go on or leave the map, and a row is as it was or what
    an item of the map persists. -/
structure Quiet (s s' : Store) : Prop where
  dir : s'.dir = s.dir
  fs : s'.fs = s.fs
  map : ∀ key i, s'.map.lookup key = some i → s.map.lookup key = some i ∧ ∀ it,
    s.items[i]? = some it → ∃ it', s'.items[i]? = some it' ∧ Alike it it'
  rows : ∀ key row, s'.db.get key = .ok (some row) → s.db.get key = .ok (some row) ∨
    ∃ i it, s.map.lookup key = some i ∧ s.items[i]? = some it ∧ row.ranges = it.ranges ∧
      row.fileSize ≤ it.fileSize

/-- A quiet step keeps the invariant. -/
theorem Backing.of_quiet {r : CacheRun} {s' : Store} (h : Backing r) (hq : Quiet r.store s') :
    Backing { r with store := s' } := by
  have hpath : ∀ key, s'.stalePath key = r.store.stalePath key := fun key => by
    rw [Store.stalePath, hq.dir, Store.stalePath]
  constructor
  · intro key i hmap
    obtain ⟨hmap₀, hitems⟩ := hq.map key i hmap
    obtain ⟨it, hit, hkey, hitpath, hbacked⟩ := h.live key i hmap₀
    obtain ⟨it', hit', hp, hn, hk, hr⟩ := hitems it hit
    refine ⟨it', hit', hk.trans hkey, ?_, ?_⟩
    · show it'.path = s'.stalePath key
      rw [hp, hpath, hitpath]
    · show Backed s'.fs r.disk it'.path it'.ranges.bytes it'.fileSize
      rw [hp, hn, hr, hq.fs]
      exact hbacked
  · intro key row hrow
    show Backed s'.fs r.disk (s'.stalePath key) row.ranges.bytes row.fileSize
    rw [hq.fs, hpath]
    rcases hq.rows key row hrow with hsame | ⟨i, it, hmap, hit, hranges, hsize⟩
    · exact h.rows key row hsame
    · obtain ⟨it', hit', -, hitpath, hbacked⟩ := h.live key i hmap
      obtain rfl := Option.some.inj (hit'.symm.trans hit)
      rw [← hitpath, hranges]
      exact hbacked.mono Set.Subset.rfl hsize

/-- A row never claims more than the size it was written for. -/
theorem asI64_le (n : Nat) : (max (Cache.asI64 n) 0).toNat ≤ n := by
  rw [Cache.asI64]
  split <;> omega

/-- What a flush changes: nothing but one item's flags and its row. -/
structure Flushed (s s' : Store) (i : Nat) : Prop where
  dir : s'.dir = s.dir
  fs : s'.fs = s.fs
  map : s'.map = s.map
  items : AllAlike s.items s'.items
  rows : ∀ key row, s'.db.get key = .ok (some row) → s.db.get key = .ok (some row) ∨
    ∃ it, s.items[i]? = some it ∧ it.cacheKey = key ∧ row.ranges = it.ranges ∧
      row.fileSize ≤ it.fileSize

theorem Flushed.refl (s : Store) (i : Nat) : Flushed s s i :=
  ⟨rfl, rfl, rfl, .refl _, fun key row h => Or.inl h⟩

/-- A flush writes the row of its own item. -/
theorem flushed_flushRanges (s : Store) (i : Nat) (force : Bool) (now : Nat) :
    Flushed s (s.flushRanges i force now true) i := by
  unfold Store.flushRanges
  split
  · exact .refl s i
  · rename_i it hi
    split
    · refine ⟨rfl, rfl, rfl, allAlike_set hi (.refl _), fun key row hrow => ?_⟩
      by_cases hkey : key = it.cacheKey
      · subst hkey
        have hget : (s.db.upsert it.cacheKey it.fileSize (Cache.asI64 now) it.ranges).get it.cacheKey =
            .ok (some ⟨_, _, it.ranges⟩) := RangeDb.get_upsert it.fits
        obtain rfl := Option.some.inj (Except.ok.inj (hrow.symm.trans hget))
        exact Or.inr ⟨it, hi, rfl, rfl, asI64_le it.fileSize⟩
      · left
        rw [← hrow]
        exact RangeDb.get_congr (AList.lookup_insert_ne hkey).symm
    · exact .refl s i

theorem flushed_closeHandle (s : Store) (i : Nat) : Flushed s (s.closeHandle i).1 i := by
  unfold Store.closeHandle
  split
  · exact .refl s i
  · rename_i it hi
    exact ⟨rfl, rfl, rfl, allAlike_set hi (.refl _), fun key row h => Or.inl h⟩

theorem Flushed.trans {s s' s'' : Store} {i : Nat} (h : Flushed s s' i) (h' : Flushed s' s'' i) :
    Flushed s s'' i := by
  refine ⟨h'.dir.trans h.dir, h'.fs.trans h.fs, h'.map.trans h.map, h.items.trans h'.items, ?_⟩
  intro key row hrow
  rcases h'.rows key row hrow with hsame | ⟨it', hit', hkey, hranges, hsize⟩
  · exact h.rows key row hsame
  · obtain ⟨it, hit, -, hn, hk, hr⟩ := h.items.back hit'
    exact Or.inr ⟨it, hit, hk.symm.trans hkey, hranges.trans hr, hn ▸ hsize⟩

/-- A release writes the row of its own item at most. -/
theorem flushed_release (s : Store) (i now : Nat) : Flushed s (s.release i now true) i := by
  have hclose := flushed_closeHandle s i
  unfold Store.release
  split
  · rename_i t ht
    rw [ht] at hclose
    exact hclose.trans (flushed_flushRanges t i true now)
  · rename_i t ht
    rw [ht] at hclose
    exact hclose

/-- The flush of an item that the map has under its key. -/
theorem Flushed.quiet {s s' : Store} {i : Nat} (h : Flushed s s' i)
    (hlive : ∀ it, s.items[i]? = some it → s.map.lookup it.cacheKey = some i) : Quiet s s' := by
  refine ⟨h.dir, h.fs, fun key j hj => ⟨h.map ▸ hj, h.items.item j⟩, fun key row hrow => ?_⟩
  rcases h.rows key row hrow with hsame | ⟨it, hit, rfl, hranges, hsize⟩
  · exact Or.inl hsame
  · exact Or.inr ⟨i, it, hlive it hit, hit, hranges, hsize⟩

/-- Opening an item is quiet. -/
theorem quiet_openItem (s : Store) (i now : Nat) : Quiet s (s.openItem i now) := by
  unfold Store.openItem
  split
  · exact ⟨rfl, rfl, fun key j hj => ⟨hj, (AllAlike.refl _).item j⟩, fun key row h => Or.inl h⟩
  · rename_i it hi
    have halike : Alike it (it.open_ now) := ⟨rfl, rfl, rfl, rfl⟩
    exact ⟨rfl, rfl, fun key j hj => ⟨hj, (allAlike_set hi halike).item j⟩, fun key row h => Or.inl h⟩

/-- An item that leaves the map is persisted as it was there. -/
theorem quiet_evictIdle {r : CacheRun} (h : Backing r) (key : String) (now : Nat) :
    Quiet r.store (r.store.evictIdle key now true) := by
  unfold Store.evictIdle Store.dropIdle
  cases hmap : r.store.map.lookup key with
  | none =>
    exact ⟨rfl, rfl, fun k j hj => ⟨hj, (AllAlike.refl _).item j⟩, fun k row hrow => Or.inl hrow⟩
  | some i =>
    obtain ⟨it, hit, hkey, -, -⟩ := h.live key i hmap
    simp only [hit]
    by_cases hopen : it.isOpen = true
    · rw [if_pos hopen]
      exact ⟨rfl, rfl, fun k j hj => ⟨hj, (AllAlike.refl _).item j⟩, fun k row hrow => Or.inl hrow⟩
    · rw [if_neg hopen]
      have hflush := flushed_flushRanges { r.store with map := r.store.map.erase key } i true now
      refine ⟨hflush.dir, hflush.fs, fun k j hj => ?_, fun k row hrow => ?_⟩
      · rw [hflush.map] at hj
        have hne : k ≠ key := by
          rintro rfl
          exact absurd ((AList.lookup_erase _ _).symm.trans hj) nofun
        exact ⟨(AList.lookup_erase_ne hne).symm.trans hj, hflush.items.item j⟩
      · rcases hflush.rows k row hrow with hsame | ⟨it', hit', rfl, hranges, hsize⟩
        · exact Or.inl hsame
        · obtain rfl := Option.some.inj (hit'.symm.trans hit)
          exact Or.inr ⟨i, it', hkey.symm ▸ hmap, hit, hranges, hsize⟩

/-! ## Creating an item -/

/-- What `restore` makes of the rows for an item of size `n`: the row of the key stays only if it is
    of that size, and then it is what the item starts with. -/
structure Restored (db db' : RangeDb) (key : String) (n : Nat) (ranges : ByteRanges) : Prop where
  others : ∀ k, k ≠ key → db'.get k = db.get k
  own : ∀ row, db'.get key = .ok (some row) → db.get key = .ok (some row) ∧ row.fileSize = n
  ranges : ranges.bytes = ∅ ∨
    ∃ row, db.get key = .ok (some row) ∧ row.fileSize = n ∧ ranges = row.ranges

/-- What `restore` gives is what the row says, or nothing. -/
theorem restored_of_restore {db db' : RangeDb} {key : String} {n : Nat} {io : Store.OpenIo}
    {ranges : {r : ByteRanges // r.Fits}} (hio : io.deleteOk = true)
    (h : Store.restore db key n io = .ok (db', ranges)) : Restored db db' key n ranges.1 := by
  unfold Store.restore at h
  split at h
  · exact absurd h nofun
  · rename_i hnone
    obtain ⟨rfl, rfl⟩ := Prod.mk.inj (Except.ok.inj h)
    refine ⟨fun k _ => rfl, fun row hrow => ?_, Or.inl ByteRanges.bytes_new⟩
    exact absurd (Except.ok.inj (hnone.symm.trans hrow)) nofun
  · rename_i row hrow
    split at h
    · rename_i hsize
      obtain ⟨rfl, rfl⟩ := Prod.mk.inj (Except.ok.inj h)
      refine ⟨fun k _ => rfl, fun row' hrow' => ⟨hrow', ?_⟩, Or.inr ⟨row, hrow, hsize, rfl⟩⟩
      obtain rfl := Option.some.inj (Except.ok.inj (hrow.symm.trans hrow'))
      exact hsize
    · split at h
      · exact absurd h nofun
      · obtain ⟨rfl, rfl⟩ := Prod.mk.inj (Except.ok.inj h)
        refine ⟨fun k hk => ?_, fun row' hrow' => ?_, Or.inl ByteRanges.bytes_new⟩
        · refine RangeDb.get_congr ?_
          rw [RangeDb.lookup_deleteKeys, if_neg (by simpa using hk)]
        · rw [RangeDb.get, RangeDb.lookup_deleteKeys, if_pos List.mem_cons_self] at hrow'
          exact absurd (Except.ok.inj hrow') nofun

/-- A `restore` that fails finds no readable row, or could not cut the file. -/
theorem restore_error {db : RangeDb} {key : String} {n : Nat} {io : Store.OpenIo}
    {e : Store.OpenError} (h : Store.restore db key n io = .error e) :
    (∀ row, db.get key ≠ .ok (some row)) ∨ io.setLenOk = false := by
  unfold Store.restore at h
  split at h
  · rename_i msg herr
    exact Or.inl fun row hrow => absurd (herr.symm.trans hrow) nofun
  · exact absurd h nofun
  · split at h
    · exact absurd h nofun
    · split at h
      · rename_i hset
        exact Or.inr hset
      · exact absurd h nofun

/-- The ends of `open_or_create_with_db`: it fails and the files are as they were; it fails with the
    file cut, but the key has no row; or it adds an item. -/
inductive Opens (s : Store) (path : Path) (key : String) (n : Nat) :
    Store × Except Store.OpenError Nat → Prop where
  | failed (fs : Fs) (e : Store.OpenError) (h : SameFiles s.fs fs) :
      Opens s path key n ({ s with fs := fs }, .error e)
  | cut (fs : Fs) (e : Store.OpenError) (h : ResizedAt s.fs fs path n)
      (hrow : ∀ row, s.db.get key ≠ .ok (some row)) :
      Opens s path key n ({ s with fs := fs }, .error e)
  | added (fs : Fs) (db : RangeDb) (it : Item) (h : ResizedAt s.fs fs path n)
      (hdb : Restored s.db db key n it.ranges) (hpath : it.path = path) (hkey : it.cacheKey = key)
      (hsize : it.fileSize = n) :
      Opens s path key n ({ s with fs := fs, db := db, items := s.items ++ [it] },
        .ok s.items.length)

/-- `open_or_create_with_db` ends in one of these ways. -/
theorem opens_openOrCreateWithDb (s : Store) (path : Path) (key : String) (n now : Nat)
    (dirOk openOk setLenOk : Bool) : Opens s path key n
      (s.openOrCreateWithDb path key n now ⟨dirOk, openOk, setLenOk, none, true⟩) := by
  unfold Store.openOrCreateWithDb
  cases hdir : (if dirOk then s.fs.createDirAll path.dropLast else none) with
  | none => exact .failed s.fs .createDir (sameFiles_of_keeps (.refl _))
  | some fs₁ =>
    have hkeep₁ : s.fs.Keeps fs₁ := by
      split at hdir
      · exact Tree.createDirAll_keeps hdir
      · exact absurd hdir nofun
    cases hopen : (if openOk then fs₁.openCreate path SparseFile.empty else none) with
    | none =>
      simp only [hopen]
      exact .failed fs₁ .openFile (sameFiles_of_keeps hkeep₁)
    | some r =>
      obtain ⟨fs₂, f⟩ := r
      have hopen' : fs₁.openCreate path SparseFile.empty = some (fs₂, f) := by
        split at hopen
        · exact hopen
        · exact absurd hopen nofun
      obtain ⟨hkeep₂, hfile⟩ := Tree.openCreate_spec hopen'
      have hkeep := hkeep₁.trans hkeep₂
      have hsame : ∀ g, s.fs.lookup path = some (.file g) → f = g := fun g hg =>
        FileTree.Node.file.inj (Option.some.inj (hfile.symm.trans (hkeep path _ hg)))
      have hat : ResizedAt s.fs (fs₂.setFile path (f.setLen n)) path n := by
        refine ⟨fun q g hq hg => ?_, fun g hg => ?_⟩
        · rw [Tree.lookup_setFile hfile, if_neg hq]
          exact hkeep q _ hg
        · rw [Tree.lookup_setFile hfile, if_pos rfl, hsame g hg]
      by_cases hset : f.len ≠ n ∧ setLenOk = false
      · simp only [hopen, if_pos hset]
        exact .failed fs₂ .truncate (sameFiles_of_keeps hkeep)
      · simp only [hopen, if_neg hset, Store.addItem]
        cases hres : Store.restore s.db key n ⟨dirOk, openOk, setLenOk, none, true⟩ with
        | ok p =>
          obtain ⟨db, ranges⟩ := p
          exact .added _ db _ hat (restored_of_restore rfl hres) rfl rfl rfl
        | error e =>
          rcases restore_error hres with hrow | hno
          · exact .cut _ e hat hrow
          · -- the length was right already
            have hlen : f.len = n := by
              by_contra hne
              exact hset ⟨hne, hno⟩
            refine .failed _ e fun q g hg => ?_
            by_cases hq : q = path
            · subst hq
              obtain rfl := hsame g hg
              exact ⟨_, hat.2 f hg, hlen.symm, fun b hb => if_pos ⟨hb, hlen ▸ hb⟩⟩
            · exact ⟨g, hat.1 q g hq hg, rfl, fun _ _ => rfl⟩

/-- **The condition on an operation.**  An item that is created does not share its file with another
    key that is live, or has a row, with a larger size. -/
def NoLargerKey (r : CacheRun) : CacheOp → Prop
  | .getOrCreate x fileSize _ _ _ _ => r.store.map.lookup x.key = none →
      (∀ key i it, key ≠ x.key → r.store.map.lookup key = some i → r.store.items[i]? = some it →
        it.path = x.path r.store → it.fileSize ≤ fileSize) ∧
      ∀ key row, key ≠ x.key → r.store.db.get key = .ok (some row) →
        r.store.stalePath key = x.path r.store → row.fileSize ≤ fileSize
  | _ => True

theorem path_eq_stalePath (s : Store) (x : Cached) : x.path s = s.stalePath x.key :=
  (stalePath_buildKey s (accessKey_ne_empty _ _) (isPlain_cacheFilename _ _)).symm

theorem resized_of_eq (fs : Fs) (p : Path) : resized fs fs p = [] := if_pos rfl

/-- The files as they were: items and rows go on. -/
theorem Backing.failed {r : CacheRun} (h : Backing r) {fs : Fs} (hsame : SameFiles r.store.fs fs)
    (p : Path) : Backing ⟨{ r.store with fs := fs }, resized r.store.fs fs p ++ r.disk⟩ := by
  constructor
  · intro key i hmap
    obtain ⟨it, hit, hkey, hpath, hbacked⟩ := h.live key i hmap
    exact ⟨it, hit, hkey, hpath, backed_same hsame p hbacked⟩
  · intro key row hrow
    exact backed_same hsame p (h.rows key row hrow)

/-- The file of `x` resized: the items that are live belong to other keys. -/
theorem Backing.live_resized {r : CacheRun} (h : Backing r) {x : Cached} {n : Nat} {fs : Fs}
    (hat : ResizedAt r.store.fs fs (x.path r.store) n) (hmiss : r.store.map.lookup x.key = none)
    (hcond : ∀ key i it, key ≠ x.key → r.store.map.lookup key = some i →
      r.store.items[i]? = some it → it.path = x.path r.store → it.fileSize ≤ n)
    {key : String} {i : Nat} (hmap : r.store.map.lookup key = some i) :
    ∃ it, r.store.items[i]? = some it ∧ it.cacheKey = key ∧ it.path = r.store.stalePath key ∧
      Backed fs (resized r.store.fs fs (x.path r.store) ++ r.disk) it.path it.ranges.bytes
        it.fileSize := by
  obtain ⟨it, hit, hkey, hpath, hbacked⟩ := h.live key i hmap
  have hne : key ≠ x.key := by
    rintro rfl
    exact absurd (hmiss.symm.trans hmap) nofun
  exact ⟨it, hit, hkey, hpath, backed_resize hat hbacked (hcond key i it hne hmap hit)⟩

/-- A file that is cut, with no item made of it, keeps the invariant. -/
theorem Backing.cut {r : CacheRun} (h : Backing r) {x : Cached} {n now : Nat}
    {dirOk openOk setLenOk : Bool} {fs : Fs} (hat : ResizedAt r.store.fs fs (x.path r.store) n)
    (hrow : ∀ row, r.store.db.get x.key ≠ .ok (some row)) (hmiss : r.store.map.lookup x.key = none)
    (hcond : NoLargerKey r (.getOrCreate x n now dirOk openOk setLenOk)) :
    Backing ⟨{ r.store with fs := fs },
      resized r.store.fs fs (x.path r.store) ++ r.disk⟩ := by
  obtain ⟨hitems, hrows⟩ := hcond hmiss
  refine ⟨fun key i hmap => h.live_resized hat hmiss hitems hmap, fun key row hkey => ?_⟩
  have hne : key ≠ x.key := by
    rintro rfl
    exact hrow row hkey
  exact backed_resize hat (h.rows key row hkey) (hrows key row hne hkey)

/-- The store with a new item, under its key in the map. -/
def withItem (s : Store) (fs : Fs) (db : RangeDb) (it : Item) (key : String) : Store :=
  { s with fs := fs, db := db, items := s.items ++ [it], map := s.map.insert key s.items.length }

/-- A new item: what it starts with is backed, and so is what is left of the rows. -/
theorem Backing.added {r : CacheRun} (h : Backing r) {x : Cached} {n now : Nat}
    {dirOk openOk setLenOk : Bool} {fs : Fs} {db : RangeDb} {it : Item}
    (hat : ResizedAt r.store.fs fs (x.path r.store) n)
    (hdb : Restored r.store.db db x.key n it.ranges) (hpath : it.path = x.path r.store)
    (hkey : it.cacheKey = x.key) (hsize : it.fileSize = n)
    (hmiss : r.store.map.lookup x.key = none)
    (hcond : NoLargerKey r (.getOrCreate x n now dirOk openOk setLenOk)) :
    Backing ⟨withItem r.store fs db it x.key,
      resized r.store.fs fs (x.path r.store) ++ r.disk⟩ := by
  obtain ⟨hitems, hrows⟩ := hcond hmiss
  -- the row of the key is of the new size, so that nothing of it is cut off
  have hown : ∀ row, r.store.db.get x.key = .ok (some row) → row.fileSize = n →
      Backed fs (resized r.store.fs fs (x.path r.store) ++ r.disk) (x.path r.store)
        row.ranges.bytes row.fileSize := by
    intro row hrow hn
    have hbacked := h.rows x.key row hrow
    rw [← path_eq_stalePath] at hbacked
    exact backed_resize hat hbacked fun _ => hn.le
  constructor
  · intro key i hmap
    by_cases hk : key = x.key
    · subst hk
      obtain rfl := Option.some.inj ((AList.lookup_insert _).symm.trans hmap)
      refine ⟨it, List.getElem?_concat_length, hkey, hpath.trans (path_eq_stalePath r.store x), ?_⟩
      show Backed fs _ it.path it.ranges.bytes it.fileSize
      rw [hpath]
      rcases hdb.ranges with hempty | ⟨row, hrow, hn, hranges⟩
      · rw [hempty]
        exact backed_empty _ _ _ _
      · rw [hranges, hsize, ← hn]
        exact hown row hrow hn
    · have hmap' : r.store.map.lookup key = some i := (AList.lookup_insert_ne hk).symm.trans hmap
      obtain ⟨jt, hjt, hrest⟩ := h.live_resized hat hmiss hitems hmap'
      refine ⟨jt, ?_, hrest⟩
      show (r.store.items ++ [it])[i]? = some jt
      rw [List.getElem?_append_left (List.getElem?_eq_some_iff.mp hjt).1]
      exact hjt
  · intro key row hrow
    have hrow₁ : db.get key = .ok (some row) := hrow
    show Backed fs (resized r.store.fs fs (x.path r.store) ++ r.disk) (r.store.stalePath key)
      row.ranges.bytes row.fileSize
    by_cases hk : key = x.key
    · subst hk
      obtain ⟨hrow', hn⟩ := hdb.own row hrow₁
      rw [← path_eq_stalePath]
      exact hown row hrow' hn
    · have hrow' : r.store.db.get key = .ok (some row) := (hdb.others key hk).symm.trans hrow₁
      exact backed_resize hat (h.rows key row hrow') (hrows key row hk hrow')

/-- `get_or_create` keeps the invariant. -/
theorem Backing.getOrCreate {r : CacheRun} (h : Backing r) (x : Cached) (n now : Nat)
    (dirOk openOk setLenOk : Bool)
    (hcond : NoLargerKey r (.getOrCreate x n now dirOk openOk setLenOk)) (r' : CacheRun)
    (hstep : r.step (.getOrCreate x n now dirOk openOk setLenOk) = some r') : Backing r' := by
  obtain rfl := Option.some.inj hstep
  cases hmap : r.store.map.lookup x.key with
  | some i =>
    have heq : r.store.getOrCreate (accessKey x.hash x.name) (cacheFilename x.file x.fileIdx) n now
        ⟨dirOk, openOk, setLenOk, none, true⟩ = (r.store.openItem i now, .ok i) := by
      unfold Store.getOrCreate
      simp only [show r.store.map.lookup (buildKey _ _) = some i from hmap]
    have hquiet := quiet_openItem r.store i now
    simp only [heq, hquiet.fs, resized_of_eq, List.nil_append]
    exact h.of_quiet hquiet
  | none =>
    have hopens := opens_openOrCreateWithDb r.store (x.path r.store) x.key n now dirOk openOk setLenOk
    unfold Store.getOrCreate
    simp only [show r.store.map.lookup (buildKey _ _) = none from hmap]
    generalize hres : r.store.openOrCreateWithDb (x.path r.store) x.key n now
      ⟨dirOk, openOk, setLenOk, none, true⟩ = res at hopens
    simp only [show r.store.openOrCreateWithDb (r.store.fileOf _ _) (buildKey _ _) n now _ = res
      from hres]
    cases hopens with
    | failed fs e hsame => exact h.failed hsame _
    | cut fs e hat hrow => exact h.cut hat hrow hmap hcond
    | added fs db it hat hdb hpath hkey hsize =>
      have hadded := h.added hat hdb hpath hkey hsize hmap hcond
      have hquiet := quiet_openItem (withItem r.store fs db it x.key) r.store.items.length now
      have hlast := hadded.of_quiet hquiet
      show Backing ⟨(withItem r.store fs db it x.key).openItem r.store.items.length now,
        resized r.store.fs ((withItem r.store fs db it x.key).openItem r.store.items.length now).fs
          (x.path r.store) ++ r.disk⟩
      rw [hquiet.fs]
      exact hlast

/-! ## Writing to an item -/

theorem exists_key_of_inUse {s : Store} {i : Nat} (h : inUse s i = true) :
    ∃ key, s.map.lookup key = some i := by
  obtain ⟨e, he, heq⟩ := List.any_eq_true.mp h
  obtain rfl := beq_iff_eq.mp heq
  exact ⟨e.1, AList.mem_lookup_iff.mpr he⟩

/-- The item in use is the one its own key leads to. -/
theorem Backing.lookup_cacheKey {r : CacheRun} (h : Backing r) {i : Nat}
    (huse : inUse r.store i = true) :
    ∀ it, r.store.items[i]? = some it → r.store.map.lookup it.cacheKey = some i := by
  intro it hit
  obtain ⟨key, hmap⟩ := exists_key_of_inUse huse
  obtain ⟨it', hit', hkey, -, -⟩ := h.live key i hmap
  obtain rfl := Option.some.inj (hit'.symm.trans hit)
  rw [hkey]
  exact hmap

/-- The bytes go to the file and to the item's ranges. -/
theorem Backing.marked {r : CacheRun} (h : Backing r) {i : Nat} {it it' : Item} {f : SparseFile}
    (hit : r.store.items[i]? = some it) (hf : r.store.fs.lookup it.path = some (.file f))
    (offset : Nat) {data : List UInt8} (hdata : data ≠ []) (hpath : it'.path = it.path)
    (hkey : it'.cacheKey = it.cacheKey) (hsize : it'.fileSize = it.fileSize)
    (hranges : it'.ranges = it.ranges.insert offset (offset + data.length)) :
    Backing ⟨{ r.store with
        fs := r.store.fs.setFile it.path (f.writeAt offset data), items := r.store.items.set i it' },
      .wrote it.path offset data :: r.disk⟩ := by
  constructor
  · intro key j hmap
    obtain ⟨jt, hjt, hjkey, hjpath, hbacked⟩ := h.live key j hmap
    have hkept := backed_write hf offset hdata hbacked
    by_cases hij : i = j
    · subst hij
      obtain rfl := Option.some.inj (hjt.symm.trans hit)
      refine ⟨it', List.getElem?_set_self (List.getElem?_eq_some_iff.mp hit).1, hkey.trans hjkey,
        hpath.trans hjpath, ?_⟩
      show Backed _ _ it'.path it'.ranges.bytes it'.fileSize
      rw [hpath, hsize, hranges, ByteRanges.bytes_insert]
      intro b hb hlt
      rcases hb with hold | hnew
      · exact hkept b hold hlt
      · exact backed_written hf offset hdata r.disk jt.fileSize b hnew hlt
    · refine ⟨jt, ?_, hjkey, hjpath, hkept⟩
      show (r.store.items.set i it')[j]? = some jt
      rw [List.getElem?_set_ne hij]
      exact hjt
  · intro key row hrow
    exact backed_write hf offset hdata (h.rows key row hrow)

/-- A write that goes through writes the bytes and marks them. -/
theorem writeAndMark_ok {s : Store} {i : Nat} {it : Item} {f : SparseFile} {offset : Nat}
    {data : List UInt8} {openOk : Bool} (hit : s.items[i]? = some it)
    (hfile : s.fs.lookup it.path = some (.file f))
    (hio : openOk = true ∧ offset + data.length ≤ maxOffset) :
    ∃ it' : Item, it'.path = it.path ∧ it'.cacheKey = it.cacheKey ∧ it'.fileSize = it.fileSize ∧
      it'.ranges = it.ranges.insert offset (offset + data.length) ∧
      s.writeAndMark i offset data ⟨openOk, none⟩ =
        ({ s with fs := s.fs.setFile it.path (f.writeAt offset data), items := s.items.set i it' },
          true) := by
  rw [Store.writeAndMark]
  simp only [hit, hfile, dif_pos hio]
  exact ⟨{ it with
    ranges := it.ranges.insert offset (offset + data.length)
    fits := it.fits.insert (Nat.lt_of_le_of_lt hio.2 (by decide))
    persistDirty := true }, rfl, rfl, rfl, rfl, rfl⟩

/-- A write keeps the invariant. -/
theorem Backing.writeRange {r : CacheRun} (h : Backing r) {i : Nat} (huse : inUse r.store i = true)
    (offset : Nat) (data : List UInt8) (now : Nat) (openOk : Bool) :
    Backing ⟨(r.store.writeRange i offset data now ⟨openOk, none⟩ true).1,
      written r.store i offset data (r.store.writeRange i offset data now ⟨openOk, none⟩ true).2 ++
        r.disk⟩ := by
  obtain ⟨key, hmap⟩ := exists_key_of_inUse huse
  obtain ⟨it, hit, -, -, -⟩ := h.live key i hmap
  by_cases hdata : data = []
  · have heq : r.store.writeRange i offset data now ⟨openOk, none⟩ true = (r.store, true) :=
      if_pos hdata
    have hnone : written r.store i offset data true = [] := by
      simp only [written, hit]
      exact if_neg fun h' => h'.2 hdata
    rw [heq, hnone]
    exact h
  · -- a write that fails leaves everything as it was
    have hfail : r.store.writeAndMark i offset data ⟨openOk, none⟩ = (r.store, false) → Backing
        ⟨(r.store.writeRange i offset data now ⟨openOk, none⟩ true).1, written r.store i offset data
          (r.store.writeRange i offset data now ⟨openOk, none⟩ true).2 ++ r.disk⟩ := by
      intro hmark
      have heq : r.store.writeRange i offset data now ⟨openOk, none⟩ true = (r.store, false) := by
        rw [Store.writeRange, if_neg hdata, hmark]
      have hnone : written r.store i offset data false = [] := by
        simp only [written, hit]
        exact if_neg fun h' => absurd h'.1 nofun
      rw [heq, hnone]
      exact h
    cases hfile : r.store.fs.lookup it.path with
    | none => exact hfail (by simp only [Store.writeAndMark, hit, hfile])
    | some node =>
      cases node with
      | dir => exact hfail (by simp only [Store.writeAndMark, hit, hfile])
      | file f =>
        by_cases hio : openOk = true ∧ offset + data.length ≤ maxOffset
        · obtain ⟨it', hpath, hkey, hsize, hranges, hmark⟩ := writeAndMark_ok hit hfile hio
          have hmarked := h.marked hit hfile offset hdata hpath hkey hsize hranges
          have heq : r.store.writeRange i offset data now ⟨openOk, none⟩ true = (Store.flushRanges
              { r.store with
                fs := r.store.fs.setFile it.path (f.writeAt offset data)
                items := r.store.items.set i it' } i false now true, true) := by
            rw [Store.writeRange, if_neg hdata, hmark]
          have hsome : written r.store i offset data true = [.wrote it.path offset data] := by
            simp only [written, hit]
            exact if_pos ⟨trivial, hdata⟩
          rw [heq, hsome]
          refine hmarked.of_quiet ((flushed_flushRanges _ i false now).quiet ?_)
          intro jt hjt
          have hset : (r.store.items.set i it')[i]? = some it' :=
            List.getElem?_set_self (List.getElem?_eq_some_iff.mp hit).1
          obtain rfl := Option.some.inj (hset.symm.trans hjt)
          show r.store.map.lookup it'.cacheKey = some i
          rw [hkey]
          exact h.lookup_cacheKey huse it hit
        · exact hfail (by simp only [Store.writeAndMark, hit, hfile]; exact dif_neg hio)

/-! ## Whole runs -/

/-- A file system and nothing cached in it. -/
def freshRun (dir : Path) (fs : Fs) : CacheRun := ⟨{ emptyStore dir with fs := fs }, []⟩

/-- Nothing is claimed of a fresh cache. -/
theorem backing_fresh (dir : Path) (fs : Fs) : Backing (freshRun dir fs) :=
  ⟨fun key i hmap => absurd hmap nofun, fun key row hrow => absurd (Except.ok.inj hrow) nofun⟩

/-- Every operation that meets the condition keeps items and rows backed. -/
theorem backing_step (r : CacheRun) (op : CacheOp) (r' : CacheRun) (h : Backing r)
    (hcond : NoLargerKey r op) (hstep : r.step op = some r') : Backing r' := by
  cases op with
  | getOrCreate x n now dirOk openOk setLenOk =>
    exact h.getOrCreate x n now dirOk openOk setLenOk hcond r' hstep
  | writeRange i offset data now openOk =>
    rw [CacheRun.step] at hstep
    split at hstep
    · rename_i hguard
      obtain rfl := Option.some.inj hstep
      exact h.writeRange (Bool.and_eq_true_iff.mp hguard).1 offset data now openOk
    · exact absurd hstep nofun
  | flushRanges i force now =>
    rw [CacheRun.step] at hstep
    split at hstep
    · rename_i huse
      obtain rfl := Option.some.inj hstep
      exact h.of_quiet ((flushed_flushRanges _ i force now).quiet (h.lookup_cacheKey huse))
    · exact absurd hstep nofun
  | release i now =>
    rw [CacheRun.step] at hstep
    split at hstep
    · rename_i huse
      obtain rfl := Option.some.inj hstep
      exact h.of_quiet ((flushed_release _ i now).quiet (h.lookup_cacheKey huse))
    · exact absurd hstep nofun
  | evictIdle key now =>
    obtain rfl := Option.some.inj hstep
    exact h.of_quiet (quiet_evictIdle h key now)
  | restart =>
    obtain rfl := Option.some.inj hstep
    exact ⟨fun key i hmap => absurd hmap nofun, h.rows⟩

/-- **Restored ranges are backed by data** in every run that creates no item on a file which another
    key has on record with a larger size. -/
theorem restored_ranges_backed (dir : Path) (fs : Fs) (ops : List CacheOp) (r : CacheRun)
    (hrun : run CacheRun.step (freshRun dir fs) ops = some r)
    (hcond : Along CacheRun.step NoLargerKey (freshRun dir fs) ops) : RangesBacked r :=
  (run_inv backing_step ops (freshRun dir fs) r (backing_fresh dir fs) hcond hrun).rangesBacked

/-- Two bytes of a file are cached, and its torrent is cached once more under another name. -/
def twoNames (name : String) : List CacheOp :=
  [.getOrCreate filmFile 2 0 true true true,
    .writeRange 0 0 [7, 8] 0 true,
    .getOrCreate { filmFile with name := name } 1 0 true true true]

/-- `./Film` leads to the file of `Film`, and cuts off its second byte. -/
theorem other_name_cuts_file :
    ∃ r, run CacheRun.step (freshRun ["cache"] .init) (twoNames "./Film") = some r ∧
      (filmFile.key = "HASH/Film/Film.mkv" ∧ r.store.map.lookup filmFile.key = some 0) ∧
      (∃ it f, r.store.items[0]? = some it ∧ it.fileSize = 2 ∧ it.ranges.hasRange 1 2 = true ∧
        r.store.fs.lookup it.path = some (.file f) ∧ f.len = 1 ∧ f.data 1 = 0) ∧
      ¬RangesBacked r := by
  refine ⟨_, rfl, ⟨by decide, by decide⟩, ⟨_, _, rfl, rfl, by decide, rfl, rfl, rfl⟩, ?_⟩
  intro h
  obtain ⟨f, -, hlast⟩ := h filmFile.key 0 _ (by decide) rfl 1 (by decide) (by decide)
  exact absurd (hlast.symm.trans rfl : some (f.data 1) = none) nofun

theorem mem_keys_of_get {db : RangeDb} {key : String} {row : RangeRow}
    (h : db.get key = .ok (some row)) : key ∈ db.keys := by
  by_contra hno
  rw [RangeDb.get, AList.lookup_eq_none.mpr fun hmem => hno (AList.mem_keys.mp hmem)] at h
  exact absurd (Except.ok.inj h).symm (Option.some_ne_none row)

/-- Two bytes are cached and flushed, and the process is started again. -/
def cachedAgain : List CacheOp :=
  [.getOrCreate filmFile 2 0 true true true,
    .writeRange 0 0 [7, 8] 0 true,
    .flushRanges 0 true 1,
    .restart,
    .getOrCreate filmFile 2 2 true true true]

/-- The new item has both bytes. -/
theorem restored_ranges_backed_again :
    ∃ r, run CacheRun.step (freshRun ["cache"] .init) cachedAgain = some r ∧
      (∃ it, r.store.items[0]? = some it ∧ it.ranges.hasRange 0 2 = true) ∧ RangesBacked r := by
  refine ⟨_, rfl, ⟨_, rfl, by decide⟩, ?_⟩
  refine restored_ranges_backed ["cache"] .init cachedAgain _ rfl ⟨?_, fun r₁ h₁ => ?_⟩
  · exact fun _ => ⟨fun key i it _ h => absurd h nofun,
      fun key row _ h => absurd (Except.ok.inj h) nofun⟩
  obtain rfl := Option.some.inj h₁
  refine ⟨trivial, fun r₂ h₂ => ?_⟩
  obtain rfl := Option.some.inj h₂
  refine ⟨trivial, fun r₃ h₃ => ?_⟩
  obtain rfl := Option.some.inj h₃
  refine ⟨trivial, fun r₄ h₄ => ⟨?_, fun _ _ => trivial⟩⟩
  obtain rfl := Option.some.inj h₄
  -- the one row is the film's own
  refine fun _ => ⟨fun key i it _ h => absurd h nofun, fun key row hne hrow => ?_⟩
  have hkey : key ∈ [filmFile.key] := mem_keys_of_get hrow
  exact absurd (List.mem_singleton.mp hkey) hne

end RdRs.Fuse

/-
  `Cache::invalidate` against the items that callers still hold.

  A HISTORY is a store with the log of the writes that reached the disk; an operation of any caller
  is one event.  Fix an `invalidate` of a key.  What "nothing from before is left" means is
  `OnlyNew`: the key's row and every item created for it since then hold bytes written since then and
  no others.

  Everything an operation can do to `OnlyNew` happens in one place: the upsert of `flush_ranges`
  (`onlyNew_flush`).  So `OnlyNew` holds along a run exactly when the row was deleted at the start and
  no step persists an item from before with bytes from before (`invalidate_final_iff`).
-/
import RdRs.Lib.Runs
import RdRs.Cache.Store

set_option linter.unusedVariables false

namespace RdRs.Cache

open RdRs.Spans RdRs.Runs

/-- A store and the spans written so far, each with the key of the item it was written through. -/
structure History where
  store : Store
  log : List (String × (Nat × Nat))

/-- The operations of the callers and of the eviction loop.  `read_at` changes the cache through
    `write_range` only. -/
inductive Op where
  | getOrCreate (accessKey filename : String) (fileSize now : Nat) (io : Store.OpenIo)
  | release (i now : Nat) (dbOk : Bool)
  | flushRanges (i : Nat) (force : Bool) (now : Nat) (dbOk : Bool)
  | writeRange (i offset : Nat) (data : List UInt8) (now : Nat) (io : Store.WriteIo) (dbOk : Bool)
  | invalidate (accessKey filename : String) (removeOk dbOk : Bool)
  | evictIdle (key : String) (now : Nat) (dbOk : Bool)

/-- The log after a write to item `i`. -/
def History.logged (h : History) (i offset len : Nat) : List (String × (Nat × Nat)) :=
  match h.store.items[i]? with
  | none => h.log
  | some it => h.log ++ [(it.cacheKey, (offset, offset + len))]

/-- One operation. -/
def History.step (h : History) : Op → Option History
  | .getOrCreate accessKey filename fileSize now io =>
    some ⟨(h.store.getOrCreate accessKey filename fileSize now io).1, h.log⟩
  | .release i now dbOk => some ⟨h.store.release i now dbOk, h.log⟩
  | .flushRanges i force now dbOk => some ⟨h.store.flushRanges i force now dbOk, h.log⟩
  | .writeRange i offset data now io dbOk =>
    match h.store.writeRange i offset data now io dbOk with
    | (s, true) => some ⟨s, if data = [] then h.log else h.logged i offset data.length⟩
    | (s, false) => some ⟨s, h.log⟩
  | .invalidate accessKey filename removeOk dbOk =>
    some ⟨h.store.invalidate accessKey filename removeOk dbOk, h.log⟩
  | .evictIdle key now dbOk => some ⟨h.store.evictIdle key now dbOk, h.log⟩

/-- A call of `flush_ranges`. -/
structure FlushCall where
  item : Nat
  force : Bool
  now : Nat
  dbOk : Bool

/-- Where an operation calls `flush_ranges`: what the history is then, and the call. -/
def History.beforeFlush (h : History) : Op → Option (History × FlushCall)
  | .release i now dbOk =>
    match h.store.closeHandle i with
    | (s, true) => some (⟨s, h.log⟩, ⟨i, true, now, dbOk⟩)
    | (_, false) => none
  | .flushRanges i force now dbOk => some (h, ⟨i, force, now, dbOk⟩)
  | .writeRange i offset data now io dbOk =>
    if data = [] then none
    else match h.store.writeAndMark i offset data io with
      | (s, true) => some (⟨s, h.logged i offset data.length⟩, ⟨i, false, now, dbOk⟩)
      | (_, false) => none
  | .evictIdle key now dbOk =>
    match h.store.dropIdle key with
    | (s, some i) => some (⟨s, h.log⟩, ⟨i, true, now, dbOk⟩)
    | (_, none) => none
  | .getOrCreate _ _ _ _ _ | .invalidate _ _ _ _ => none

/-! ## What is left from before -/

/-- The bytes written for `key` after the first `m` writes. -/
def History.writtenSince (h : History) (m : Nat) (key : String) : Set Nat :=
  cover (((h.log.drop m).filter fun w => w.1 = key).map (·.2))

/-- Since the first `n` items were created and the first `m` writes were made, only new bytes: in
    the row of `key`, and in every item created for it. -/
structure OnlyNew (key : String) (n m : Nat) (h : History) : Prop where
  items_le : n ≤ h.store.items.length
  log_le : m ≤ h.log.length
  row : h.store.db.offered key ⊆ h.writtenSince m key
  items : ∀ i it, n ≤ i → h.store.items[i]? = some it → it.cacheKey = key →
    it.ranges.bytes ⊆ h.writtenSince m key

/-- The item that `flush_ranges` would persist, as it would persist it. -/
def Store.persisting (s : Store) (i : Nat) (force : Bool) (now : Nat) (dbOk : Bool) : Option Item :=
  match s.items[i]? with
  | none => none
  | some it => if it.wantsFlush force now && dbOk then some it else none

/-- Persisting this item would put bytes of `key` back that were not written since. -/
def BringsBack (key : String) (m : Nat) (h : History) (persisted : Option Item) : Prop :=
  ∃ it, persisted = some it ∧ it.cacheKey = key ∧ ¬ it.ranges.bytes ⊆ h.writtenSince m key

theorem flushRanges_eq (s : Store) (i : Nat) (force : Bool) (now : Nat) (dbOk : Bool) :
    s.flushRanges i force now dbOk =
      match s.persisting i force now dbOk with
      | none => s
      | some it => { s with
          db := s.db.upsert it.cacheKey it.fileSize (asI64 now) it.ranges
          items := s.items.set i { it with persistDirty := false, lastPersist := now } } := by
  cases hi : s.items[i]? with
  | none => simp only [Store.flushRanges, Store.persisting, hi]
  | some it =>
    simp only [Store.flushRanges, Store.persisting, hi]
    by_cases hw : (it.wantsFlush force now && dbOk) = true
    · rw [if_pos hw, if_pos hw]
    · rw [if_neg hw, if_neg hw]

theorem OnlyNew.of_sameItems {key : String} {n m : Nat} {h : History} (hh : OnlyNew key n m h)
    {s : Store} (hsame : h.store.SameItems s) (hrow : s.db.offered key ⊆ h.writtenSince m key) :
    OnlyNew key n m ⟨s, h.log⟩ := by
  refine ⟨?_, hh.log_le, hrow, fun i it hni hi hkey => ?_⟩
  · show n ≤ s.items.length
    rw [hsame.length]
    exact hh.items_le
  · obtain ⟨jt, hj, hk, hr⟩ := hsame.item i it hi
    rw [hr]
    exact hh.items i jt hni hj (hk ▸ hkey)

/-- **The upsert is the only way back.** -/
theorem onlyNew_flush {key : String} {n m : Nat} {h : History} (hh : OnlyNew key n m h) (i : Nat)
    (force : Bool) (now : Nat) (dbOk : Bool) :
    OnlyNew key n m ⟨h.store.flushRanges i force now dbOk, h.log⟩ ↔
      ¬ BringsBack key m h (h.store.persisting i force now dbOk) := by
  rw [flushRanges_eq]
  -- nothing happens unless an item is persisted, and then its ranges replace the row of its own key
  cases hp : h.store.persisting i force now dbOk with
  | none => exact ⟨fun _ => by rintro ⟨it, hit, -⟩; exact absurd hit nofun, fun _ => hh⟩
  | some it =>
    constructor
    · rintro hnew ⟨it', hit', hkey, hnot⟩
      obtain rfl := Option.some.inj hit'
      have hrow := hnew.row
      change (h.store.db.upsert it.cacheKey it.fileSize (asI64 now) it.ranges).offered key ⊆ _ at hrow
      rw [hkey, RangeDb.offered_upsert it.fits] at hrow
      exact hnot hrow
    · intro hnot
      have hsame := h.store.sameItems_flushRanges i force now dbOk
      rw [flushRanges_eq, hp] at hsame
      refine hh.of_sameItems hsame ?_
      show (h.store.db.upsert it.cacheKey it.fileSize (asI64 now) it.ranges).offered key ⊆ _
      by_cases hkey : it.cacheKey = key
      · rw [hkey, RangeDb.offered_upsert it.fits]
        by_contra hsub
        exact hnot ⟨it, rfl, hkey, hsub⟩
      · rw [RangeDb.offered_upsert_ne (Ne.symm hkey)]
        exact hh.row

/-! ## Everything else keeps `OnlyNew` -/

section Quiet

variable {key : String} {n m : Nat} {h : History}

/-- The same rows and items. -/
theorem OnlyNew.of_same (hh : OnlyNew key n m h) {s : Store} (hdb : s.db = h.store.db)
    (hsame : h.store.SameItems s) : OnlyNew key n m ⟨s, h.log⟩ :=
  hh.of_sameItems hsame (hdb ▸ hh.row)

theorem OnlyNew.closeHandle (hh : OnlyNew key n m h) (i : Nat) :
    OnlyNew key n m ⟨(h.store.closeHandle i).1, h.log⟩ :=
  hh.of_same (h.store.closeHandle_db i) (h.store.sameItems_closeHandle i)

theorem OnlyNew.dropIdle (hh : OnlyNew key n m h) (k : String) :
    OnlyNew key n m ⟨(h.store.dropIdle k).1, h.log⟩ :=
  hh.of_same (h.store.dropIdle_db k) (.of_eq (h.store.dropIdle_items k))

theorem OnlyNew.openItem (hh : OnlyNew key n m h) (i now : Nat) :
    OnlyNew key n m ⟨h.store.openItem i now, h.log⟩ :=
  hh.of_same (h.store.openItem_db i now) (h.store.sameItems_openItem i now)

/-- An invalidation takes a row away, or leaves it. -/
theorem OnlyNew.invalidate (hh : OnlyNew key n m h) (accessKey filename : String)
    (removeOk dbOk : Bool) :
    OnlyNew key n m ⟨h.store.invalidate accessKey filename removeOk dbOk, h.log⟩ := by
  refine ⟨hh.items_le, hh.log_le, ?_, hh.items⟩
  show (if dbOk then h.store.db.deleteKeys [buildKey accessKey filename] else h.store.db).offered key
    ⊆ h.writtenSince m key
  split
  · by_cases hk : key ∈ [buildKey accessKey filename]
    · rw [RangeDb.offered_deleteKeys hk]
      exact Set.empty_subset _
    · rw [RangeDb.offered_deleteKeys_not_mem hk]
      exact hh.row
  · exact hh.row

theorem OnlyNew.of_fs (hh : OnlyNew key n m h) (fs : Fs) :
    OnlyNew key n m ⟨{ h.store with fs := fs }, h.log⟩ :=
  hh.of_same rfl (.of_eq rfl)

theorem OnlyNew.addItem (hh : OnlyNew key n m h) (path : Path) (k : String) (fileSize now : Nat)
    (io : Store.OpenIo) :
    OnlyNew key n m ⟨(h.store.addItem path k fileSize now io).1, h.log⟩ := by
  unfold Store.addItem
  split
  · exact hh
  · split
    · exact hh
    · rename_i db r hr
      obtain ⟨hnew, hrows⟩ := Store.restore_spec hr
      refine ⟨?_, hh.log_le, (hrows key).trans hh.row, fun i it hni hi hkey => ?_⟩
      · show n ≤ (h.store.items ++ _).length
        rw [List.length_append]
        exact Nat.le_trans hh.items_le (Nat.le_add_right _ _)
      · change (h.store.items ++ _)[i]? = some it at hi
        rw [List.getElem?_append] at hi
        split at hi
        · exact hh.items i it hni hi hkey
        · -- the item just created: its ranges are the row's
          obtain rfl := List.mem_singleton.mp (List.mem_of_getElem? hi)
          obtain rfl : k = key := hkey
          exact hnew.trans hh.row

theorem OnlyNew.getOrCreate (hh : OnlyNew key n m h) (accessKey filename : String)
    (fileSize now : Nat) (io : Store.OpenIo) :
    OnlyNew key n m ⟨(h.store.getOrCreate accessKey filename fileSize now io).1, h.log⟩ := by
  have hopen : OnlyNew key n m ⟨(h.store.openOrCreateWithDb (h.store.fileOf accessKey filename)
      (buildKey accessKey filename) fileSize now io).1, h.log⟩ := by
    unfold Store.openOrCreateWithDb
    split
    · exact hh
    · split
      · exact hh.of_fs _
      · split
        · exact hh.of_fs _
        · exact (hh.of_fs _).addItem _ _ _ _ _
  unfold Store.getOrCreate
  simp only
  split
  · exact hh.openItem _ _
  · split
    · rename_i s e he
      rw [he] at hopen
      exact hopen
    · rename_i s i hs
      rw [hs] at hopen
      exact (hopen.of_same (s := { s with map := s.map.insert _ i }) rfl (.of_eq rfl)).openItem i now

theorem writtenSince_logged (hm : m ≤ h.log.length) {i : Nat} {it : Item}
    (hi : h.store.items[i]? = some it) (s : Store) (offset len : Nat) :
    (History.mk s (h.logged i offset len)).writtenSince m key
      = h.writtenSince m key ∪ (if it.cacheKey = key then Set.Ico offset (offset + len) else ∅) := by
  have hlog : h.logged i offset len = h.log ++ [(it.cacheKey, (offset, offset + len))] := by
    rw [History.logged, hi]
  rw [History.writtenSince, History.writtenSince, hlog, List.drop_append_of_le_length hm,
    List.filter_append, List.map_append, cover_append]
  by_cases hk : it.cacheKey = key
  · rw [if_pos hk, List.filter_cons_of_pos (by simpa using hk)]
    simp [cover_cons]
  · rw [if_neg hk, List.filter_cons_of_neg (by simpa using hk)]
    simp

/-- A write marks what it logs. -/
theorem OnlyNew.writeAndMark (hh : OnlyNew key n m h) (i offset : Nat) (data : List UInt8)
    (io : Store.WriteIo) :
    OnlyNew key n m ⟨(h.store.writeAndMark i offset data io).1,
      if (h.store.writeAndMark i offset data io).2 then h.logged i offset data.length else h.log⟩ := by
  rcases Store.writeAndMark_cases h.store i offset data io with ⟨hok, hdb, hitems⟩ |
    ⟨it, it', hi, hok, hdb, hitems, hk, hr⟩
  · rw [hok]
    exact hh.of_same hdb (.of_eq hitems)
  · have hw : (History.mk (h.store.writeAndMark i offset data io).1
        (h.logged i offset data.length)).writtenSince m key = _ :=
      writtenSince_logged hh.log_le hi _ offset data.length
    rw [hok, if_pos rfl]
    refine ⟨?_, ?_, ?_, fun j jt hnj hj hkey => ?_⟩
    · show n ≤ (h.store.writeAndMark i offset data io).1.items.length
      rw [hitems, List.length_set]
      exact hh.items_le
    · show m ≤ (h.logged i offset data.length).length
      rw [History.logged, hi, List.length_append]
      exact Nat.le_trans hh.log_le (Nat.le_add_right _ _)
    · rw [hw]
      show (h.store.writeAndMark i offset data io).1.db.offered key ⊆ _
      rw [hdb]
      exact hh.row.trans Set.subset_union_left
    · rw [hw]
      change (h.store.writeAndMark i offset data io).1.items[j]? = some jt at hj
      rw [hitems, List.getElem?_set] at hj
      split at hj
      · rename_i hij
        subst hij
        split at hj
        · obtain rfl := Option.some.inj hj
          have hkey' : it.cacheKey = key := hk ▸ hkey
          rw [if_pos hkey', hr, ByteRanges.bytes_insert]
          exact Set.union_subset_union_left _ (hh.items i it hnj hi hkey')
        · exact absurd hj nofun
      · exact (hh.items j jt hnj hj hkey).trans Set.subset_union_left

end Quiet

/-! ## The condition on a run -/

/-- The step persists no item with bytes of `key` that were not written since. -/
def KeepsOldOut (key : String) (m : Nat) (h : History) (op : Op) : Prop :=
  ∀ h' c, h.beforeFlush op = some (h', c) →
    ¬ BringsBack key m h' (h'.store.persisting c.item c.force c.now c.dbOk)

/-- An operation is a step that keeps `OnlyNew`, followed by a flush where it has one. -/
theorem step_spec {key : String} {n m : Nat} {h : History} (hh : OnlyNew key n m h) (op : Op) :
    (h.beforeFlush op = none ∧ ∃ t, h.step op = some t ∧ OnlyNew key n m t) ∨
    ∃ h' c, h.beforeFlush op = some (h', c) ∧ OnlyNew key n m h' ∧
      h.step op = some ⟨h'.store.flushRanges c.item c.force c.now c.dbOk, h'.log⟩ := by
  cases op with
  | getOrCreate accessKey filename fileSize now io =>
    exact Or.inl ⟨rfl, _, rfl, hh.getOrCreate accessKey filename fileSize now io⟩
  | invalidate accessKey filename removeOk dbOk =>
    exact Or.inl ⟨rfl, _, rfl, hh.invalidate accessKey filename removeOk dbOk⟩
  | flushRanges i force now dbOk => exact Or.inr ⟨h, ⟨i, force, now, dbOk⟩, rfl, hh, rfl⟩
  | release i now dbOk =>
    have hclose := hh.closeHandle i
    rw [History.beforeFlush, History.step, Store.release]
    rcases hc : h.store.closeHandle i with ⟨s, last⟩
    rw [hc] at hclose
    cases last with
    | true => exact Or.inr ⟨_, _, rfl, hclose, rfl⟩
    | false => exact Or.inl ⟨rfl, _, rfl, hclose⟩
  | writeRange i offset data now io dbOk =>
    have hwrite := hh.writeAndMark i offset data io
    rw [History.beforeFlush, History.step, Store.writeRange]
    by_cases hd : data = []
    · simp only [if_pos hd]
      exact Or.inl ⟨trivial, _, rfl, hh⟩
    · simp only [if_neg hd]
      rcases hc : h.store.writeAndMark i offset data io with ⟨s, ok⟩
      rw [hc] at hwrite
      cases ok with
      | true => exact Or.inr ⟨_, _, rfl, hwrite, rfl⟩
      | false => exact Or.inl ⟨rfl, _, rfl, hwrite⟩
  | evictIdle k now dbOk =>
    have hdrop := hh.dropIdle k
    rw [History.beforeFlush, History.step, Store.evictIdle]
    rcases hc : h.store.dropIdle k with ⟨s, dropped⟩
    rw [hc] at hdrop
    cases dropped with
    | some i => exact Or.inr ⟨_, _, rfl, hdrop, rfl⟩
    | none => exact Or.inl ⟨rfl, _, rfl, hdrop⟩

/-- **One step keeps `OnlyNew` iff it keeps old bytes out.** -/
theorem onlyNew_step_iff {key : String} {n m : Nat} {h : History} (hh : OnlyNew key n m h) (op : Op) :
    (∀ t, h.step op = some t → OnlyNew key n m t) ↔ KeepsOldOut key m h op := by
  rcases step_spec hh op with ⟨hnone, t, ht, hnew⟩ | ⟨h', c, hsome, hh', ht⟩
  · constructor
    · intro _ h' c hc
      rw [hnone] at hc
      exact absurd hc nofun
    · intro _ u hu
      rw [ht] at hu
      exact Option.some.inj hu ▸ hnew
  · constructor
    · intro hstep h'' c' hc
      rw [hsome] at hc
      obtain ⟨rfl, rfl⟩ := Prod.mk.inj (Option.some.inj hc)
      exact (onlyNew_flush hh' _ _ _ _).mp (hstep _ ht)
    · intro hkeep u hu
      rw [ht] at hu
      obtain rfl := Option.some.inj hu
      exact (onlyNew_flush hh' _ _ _ _).mpr (hkeep h' c hsome)

/-- Right after an invalidation. -/
theorem onlyNew_invalidated (h : History) (accessKey filename : String) (removeOk dbOk : Bool) :
    OnlyNew (buildKey accessKey filename) h.store.items.length h.log.length
        ⟨h.store.invalidate accessKey filename removeOk dbOk, h.log⟩ ↔
      dbOk = true ∨ h.store.db.offered (buildKey accessKey filename) = ∅ := by
  have hnone : (History.mk (h.store.invalidate accessKey filename removeOk dbOk) h.log).writtenSince
      h.log.length (buildKey accessKey filename) = ∅ := by
    rw [History.writtenSince, List.drop_length]
    exact cover_nil
  have hrow : (h.store.invalidate accessKey filename removeOk dbOk).db.offered
        (buildKey accessKey filename) = ∅ ↔
      dbOk = true ∨ h.store.db.offered (buildKey accessKey filename) = ∅ := by
    cases dbOk with
    | true =>
      refine iff_of_true ?_ (Or.inl rfl)
      exact RangeDb.offered_deleteKeys (List.mem_singleton.mpr rfl)
    | false => exact ⟨Or.inr, fun h => h.resolve_left (by decide)⟩
  rw [← hrow]
  constructor
  · intro hnew
    exact Set.subset_eq_empty (hnone ▸ hnew.row) rfl
  · intro hempty
    refine ⟨Nat.le_refl _, Nat.le_refl _, ?_, fun i it hni hi => ?_⟩
    · show (h.store.invalidate accessKey filename removeOk dbOk).db.offered _ ⊆ _
      rw [hempty]
      exact Set.empty_subset _
    · have hlt : i < h.store.items.length := (List.getElem?_eq_some_iff.mp hi).1
      omega

/-- **When an invalidation is final.**  In every run after an `invalidate` of a key, whatever items
    callers still hold: the key's row and the items created for it hold bytes written since and no
    others, in every state reached, exactly when the invalidation did remove the row (or it offered
    nothing) and no step of the run persists an item that holds bytes of the key from before.  The
    program has no such condition: `release` and `flush_ranges` persist whatever the held item has. -/
theorem invalidate_final_iff (h : History) (accessKey filename : String) (removeOk dbOk : Bool)
    (es : List Op) :
    Throughout History.step
        (OnlyNew (buildKey accessKey filename) h.store.items.length h.log.length)
        ⟨h.store.invalidate accessKey filename removeOk dbOk, h.log⟩ es ↔
      (dbOk = true ∨ h.store.db.offered (buildKey accessKey filename) = ∅) ∧
      Along History.step (KeepsOldOut (buildKey accessKey filename) h.log.length)
        ⟨h.store.invalidate accessKey filename removeOk dbOk, h.log⟩ es := by
  rw [throughout_iff, ← onlyNew_invalidated h accessKey filename removeOk dbOk]
  refine and_congr_right fun hnew => ?_
  exact along_congr (fun s e t hs hC ht => hC t ht) (fun s e hs => onlyNew_step_iff hs e) es _ hnew

/-- A cache that has just been set up. -/
def History.fresh (dir : Path) : History := ⟨⟨dir, .init, ∅, [], ∅⟩, []⟩

/-- **A pending release brings the old range back.**  One byte is written and not yet persisted when
    the key is invalidated, with every call succeeding; the release of the old item then writes its
    row again, and the next `get_or_create` answers with byte 0 present over a new file that is zero
    there, though nothing was written since. -/
theorem release_after_invalidate_restores_range :
    ∃ h t it f,
      run History.step (.fresh ["cache"])
        [.getOrCreate "ak" "f" 10 0 .allOk, .writeRange 0 0 [7] 0 ⟨true, none⟩ true] = some h ∧
      run History.step ⟨h.store.invalidate "ak" "f" true true, h.log⟩
        [.release 0 1 true, .getOrCreate "ak" "f" 10 1 .allOk] = some t ∧
      t.log = h.log ∧ t.store.items[1]? = some it ∧ it.ranges.hasRange 0 1 = true ∧
      t.store.fs.lookup it.path = some (.file f) ∧ f.data 0 = 0 ∧
      ¬ Throughout History.step (OnlyNew (buildKey "ak" "f") h.store.items.length h.log.length)
        ⟨h.store.invalidate "ak" "f" true true, h.log⟩
        [.release 0 1 true, .getOrCreate "ak" "f" 10 1 .allOk] := by
  refine ⟨_, _, _, _, rfl, rfl, rfl, rfl, rfl, rfl, rfl, fun hall => ?_⟩
  have hnew := (hall 2 _ rfl).items 1 _ (Nat.le_refl 1) rfl rfl
  have hold : 0 ∈ cover [] := hnew ((ByteRanges.hasRange_byte _ 0).mp rfl)
  rw [cover_nil] at hold
  exact hold

end RdRs.Cache

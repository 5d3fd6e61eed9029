/-
  `Cache::get_or_create` — whose size an item has.

  Of a store only two things matter here: the sizes of its items, in the order of their creation, and
  which of them the map has under a key (`liveSize`).  No operation changes the size of an item, so
  the size that was asked for counts on the creating path only:

  * `getOrCreate_size` — the item returned has the size of the live item of its key, and the size
    asked for where there is none;
  * `mapped_run` — the map leads to items, in every run of the cache;
  * `item_has_asked_size_iff` — when an item has the size that was asked for;
  * `liveSize_run` — callers that agree on the size of a key always get it.
-/
import RdRs.Cache.Reopen

set_option linter.unusedVariables false

namespace RdRs.Cache

open RdRs.FileTree RdRs.Runs

namespace Store

/-- The sizes of all items. -/
def sizes (s : Store) : List Nat := s.items.map (·.fileSize)

/-- The size of the item that the map has for a key. -/
def liveSize (s : Store) (key : String) : Option Nat :=
  (s.map.lookup key).bind fun i => s.sizes[i]?

/-- Every key of the map leads to an item. -/
def Mapped (s : Store) : Prop := ∀ key i, s.map.lookup key = some i → i < s.items.length

/-! ## Operations that create nothing -/

/-- Items stay as large as they are, and keys only leave the map. -/
structure Shrinks (s s' : Store) : Prop where
  sizes : s'.sizes = s.sizes
  map : ∀ key i, s'.map.lookup key = some i → s.map.lookup key = some i

theorem Shrinks.refl (s : Store) : Shrinks s s := ⟨rfl, fun _ _ h => h⟩

theorem Shrinks.trans {s s' s'' : Store} (h : Shrinks s s') (h' : Shrinks s' s'') :
    Shrinks s s'' :=
  ⟨h'.sizes.trans h.sizes, fun key i hi => h.map key i (h'.map key i hi)⟩

theorem Shrinks.of_eq {s s' : Store} (hitems : s'.items = s.items) (hmap : s'.map = s.map) :
    Shrinks s s' :=
  ⟨by rw [Store.sizes, hitems, Store.sizes], fun key i h => by rw [← hmap]; exact h⟩

/-- A new version of an item, of the same size. -/
theorem Shrinks.of_set {s s' : Store} {i : Nat} {it it' : Item} (hi : s.items[i]? = some it)
    (hitems : s'.items = s.items.set i it') (hsize : it'.fileSize = it.fileSize)
    (hmap : s'.map = s.map) : Shrinks s s' := by
  refine ⟨?_, fun key j h => by rw [← hmap]; exact h⟩
  obtain ⟨hlt, hget⟩ := List.getElem?_eq_some_iff.mp hi
  rw [Store.sizes, hitems, List.map_set, hsize, Store.sizes]
  refine List.ext_getElem? fun j => ?_
  by_cases hij : i = j
  · subst hij
    rw [List.getElem?_set_self (by rw [List.length_map]; exact hlt), List.getElem?_map, hi]
    rfl
  · rw [List.getElem?_set_ne hij]

/-- Only keys of items are left in a map that shrinks. -/
theorem Shrinks.mapped {s s' : Store} (h : Shrinks s s') (hs : s.Mapped) : s'.Mapped := by
  intro key i hi
  have hlen : s'.items.length = s.items.length := by
    have := congrArg List.length h.sizes
    rwa [Store.sizes, Store.sizes, List.length_map, List.length_map] at this
  rw [hlen]
  exact hs key i (h.map key i hi)

/-- A key that is still in the map has kept its size. -/
theorem Shrinks.liveSize {s s' : Store} (h : Shrinks s s') (key : String) {n : Nat}
    (hn : s'.liveSize key = some n) : s.liveSize key = some n := by
  obtain ⟨i, hi, hsize⟩ := Option.bind_eq_some_iff.mp hn
  rw [h.sizes] at hsize
  exact Option.bind_eq_some_iff.mpr ⟨i, h.map key i hi, hsize⟩

/-- A flush changes no size. -/
theorem shrinks_flushRanges (s : Store) (i : Nat) (force : Bool) (now : Nat) (dbOk : Bool) :
    Shrinks s (s.flushRanges i force now dbOk) := by
  unfold flushRanges
  split
  · exact .refl s
  · rename_i it hi
    split
    · exact .of_set hi rfl rfl rfl
    · exact .refl s

/-- Closing a handle changes no size. -/
theorem shrinks_closeHandle (s : Store) (i : Nat) : Shrinks s (s.closeHandle i).1 := by
  unfold closeHandle
  split
  · exact .refl s
  · rename_i it hi
    exact .of_set hi rfl rfl rfl

/-- Opening an item changes no size. -/
theorem shrinks_openItem (s : Store) (i now : Nat) : Shrinks s (s.openItem i now) := by
  unfold openItem
  split
  · exact .refl s
  · rename_i it hi
    exact .of_set hi rfl rfl rfl

/-- A release changes no size. -/
theorem shrinks_release (s : Store) (i now : Nat) (dbOk : Bool) :
    Shrinks s (s.release i now dbOk) := by
  have hclose := s.shrinks_closeHandle i
  unfold release
  split
  · rename_i t ht
    rw [ht] at hclose
    exact hclose.trans (t.shrinks_flushRanges i true now dbOk)
  · rename_i t ht
    rw [ht] at hclose
    exact hclose

/-- A write changes no size, however much it writes. -/
theorem shrinks_writeRange (s : Store) (i offset : Nat) (data : List UInt8) (now : Nat)
    (io : WriteIo) (dbOk : Bool) : Shrinks s (s.writeRange i offset data now io dbOk).1 := by
  have hmark : Shrinks s (s.writeAndMark i offset data io).1 := by
    unfold writeAndMark
    split
    · exact .refl s
    · rename_i it hi
      split
      · exact .refl s
      · exact .refl s
      · split
        · split
          · exact .of_eq rfl rfl
          · exact .of_set hi rfl rfl rfl
        · exact .refl s
  unfold writeRange
  split
  · exact .refl s
  · split
    · rename_i t ht
      rw [ht] at hmark
      exact hmark.trans (t.shrinks_flushRanges i false now dbOk)
    · rename_i t ht
      rw [ht] at hmark
      exact hmark

/-- A key is taken out. -/
theorem shrinks_erase (s : Store) (key : String) : Shrinks s { s with map := s.map.erase key } := by
  refine ⟨rfl, fun k i hk => ?_⟩
  by_cases hkey : k = key
  · subst hkey
    rw [AList.lookup_erase] at hk
    exact absurd hk (by simp)
  · rwa [AList.lookup_erase_ne hkey] at hk

/-- An invalidation takes at most its key out. -/
theorem shrinks_invalidate (s : Store) (accessKey filename : String) (removeOk dbOk : Bool) :
    Shrinks s (s.invalidate accessKey filename removeOk dbOk) :=
  (s.shrinks_erase (buildKey accessKey filename)).trans (.of_eq rfl rfl)

/-- The eviction of an idle item takes at most its key out. -/
theorem shrinks_evictIdle (s : Store) (key : String) (now : Nat) (dbOk : Bool) :
    Shrinks s (s.evictIdle key now dbOk) := by
  have hdrop : Shrinks s (s.dropIdle key).1 := by
    unfold dropIdle
    split
    · exact .refl s
    · split
      · exact .refl s
      · split
        · exact .refl s
        · exact s.shrinks_erase key
  unfold evictIdle
  split
  · rename_i t i ht
    rw [ht] at hdrop
    exact hdrop.trans (t.shrinks_flushRanges i true now dbOk)
  · rename_i t ht
    rw [ht] at hdrop
    exact hdrop

/-- A pass of the eviction takes keys out, and gives none another item. -/
theorem shrinks_evict (s : Store) (limits : EvictLimits) (now : Nat) (io : EvictIo) :
    Shrinks s (s.evict limits now io) := by
  have hfold : ∀ (keys : List String) (t : Store),
      Shrinks t (keys.foldl (fun t key => t.evictIdle key now (io.flushOk key)) t) := by
    intro keys
    induction keys with
    | nil => exact fun t => .refl t
    | cons key keys ih =>
      exact fun t => (t.shrinks_evictIdle key now (io.flushOk key)).trans (ih _)
  have hframe := (evict_frame s limits now io).1
  exact (hfold (s.idleKeys now) s).trans (.of_eq hframe.items hframe.map)

/-! ## `get_or_create` -/

/-- A new item is the last one, with the size asked for and no handles. -/
theorem openOrCreateWithDb_new {s s' : Store} {path : Path} {key : String} {n now : Nat}
    {io : OpenIo} {i : Nat} (h : s.openOrCreateWithDb path key n now io = (s', .ok i)) :
    i = s.items.length ∧ ∃ it, s'.items = s.items ++ [it] ∧ it.fileSize = n ∧ it.opens = 0 := by
  unfold openOrCreateWithDb at h
  split at h
  · exact absurd (Prod.mk.inj h).2 (by simp)
  · split at h
    · exact absurd (Prod.mk.inj h).2 (by simp)
    · split at h
      · exact absurd (Prod.mk.inj h).2 (by simp)
      · unfold addItem at h
        split at h
        · exact absurd (Prod.mk.inj h).2 (by simp)
        · split at h
          · exact absurd (Prod.mk.inj h).2 (by simp)
          · obtain ⟨rfl, hi⟩ := Prod.mk.inj h
            exact ⟨(Except.ok.inj hi).symm, _, rfl, rfl, rfl⟩

/-- A new item is the last one, and has the size it was asked for. -/
theorem openOrCreateWithDb_sizes {s s' : Store} {path : Path} {key : String} {n now : Nat}
    {io : OpenIo} {i : Nat} (h : s.openOrCreateWithDb path key n now io = (s', .ok i)) :
    s'.sizes = s.sizes ++ [n] ∧ i = s.items.length := by
  obtain ⟨hi, it, hitems, hsize, -⟩ := openOrCreateWithDb_new h
  refine ⟨?_, hi⟩
  rw [Store.sizes, hitems, List.map_append, List.map_singleton, hsize]
  rfl

/-- A failed creation leaves the items. -/
theorem openOrCreateWithDb_error {s s' : Store} {path : Path} {key : String} {n now : Nat}
    {io : OpenIo} {e : OpenError} (h : s.openOrCreateWithDb path key n now io = (s', .error e)) :
    s'.items = s.items := by
  unfold openOrCreateWithDb at h
  split at h
  · rw [← (Prod.mk.inj h).1]
  · split at h
    · rw [← (Prod.mk.inj h).1]
    · split at h
      · rw [← (Prod.mk.inj h).1]
      · unfold addItem at h
        split at h
        · rw [← (Prod.mk.inj h).1]
        · split at h
          · rw [← (Prod.mk.inj h).1]
          · exact absurd (Prod.mk.inj h).2 (by simp)

/-- **What `get_or_create` can do**: open the live item, fail, or create one of the size asked for
    and put it in the map. -/
theorem getOrCreate_cases (s : Store) (accessKey filename : String) (n now : Nat) (io : OpenIo) :
    (∃ i, s.map.lookup (buildKey accessKey filename) = some i ∧
      s.getOrCreate accessKey filename n now io = (s.openItem i now, .ok i)) ∨
    (∃ s' e, s.getOrCreate accessKey filename n now io = (s', .error e) ∧ Shrinks s s') ∨
    (∃ s', s.map.lookup (buildKey accessKey filename) = none ∧
      s.getOrCreate accessKey filename n now io = (s', .ok s.items.length) ∧
      s'.sizes = s.sizes ++ [n] ∧
      s'.map = s.map.insert (buildKey accessKey filename) s.items.length) := by
  have hmap := s.openOrCreateWithDb_map (s.fileOf accessKey filename) (buildKey accessKey filename)
    n now io
  cases hlive : s.map.lookup (buildKey accessKey filename) with
  | some i =>
    refine Or.inl ⟨i, rfl, ?_⟩
    simp only [getOrCreate, hlive]
  | none =>
    rcases hr : s.openOrCreateWithDb (s.fileOf accessKey filename) (buildKey accessKey filename) n
      now io with ⟨t, r⟩
    rw [hr] at hmap
    cases r with
    | error e =>
      refine Or.inr (Or.inl ⟨t, e, ?_, .of_eq (openOrCreateWithDb_error hr) hmap⟩)
      simp only [getOrCreate, hlive, hr]
    | ok i =>
      obtain ⟨hsizes, rfl⟩ := openOrCreateWithDb_sizes hr
      have hput : s.getOrCreate accessKey filename n now io
          = (Store.openItem { t with
              map := t.map.insert (buildKey accessKey filename) s.items.length }
            s.items.length now, .ok s.items.length) := by
        simp only [getOrCreate, hlive, hr]
      refine Or.inr (Or.inr ⟨_, rfl, hput, ?_, ?_⟩)
      · rw [(shrinks_openItem _ _ _).sizes]
        exact hsizes
      · rw [openItem_map, show t.map = s.map from hmap]

/-- **The size of the item returned**: that of the live item of the key, else the one asked for. -/
theorem getOrCreate_size {s s' : Store} (hs : s.Mapped) {accessKey filename : String} {n now : Nat}
    {io : OpenIo} {i : Nat} (h : s.getOrCreate accessKey filename n now io = (s', .ok i)) :
    ∃ it, s'.items[i]? = some it ∧
      it.fileSize = (s.liveSize (buildKey accessKey filename)).getD n := by
  have hitem : ∀ m, s'.sizes[i]? = some m → ∃ it, s'.items[i]? = some it ∧ it.fileSize = m := by
    intro m hm
    rw [Store.sizes, List.getElem?_map] at hm
    obtain ⟨it, hit, rfl⟩ := Option.map_eq_some_iff.mp hm
    exact ⟨it, hit, rfl⟩
  apply hitem
  rcases s.getOrCreate_cases accessKey filename n now io with
    ⟨j, hlive, hj⟩ | ⟨t, e, ht, -⟩ | ⟨t, hlive, ht, hsizes, -⟩
  · obtain ⟨rfl, hi⟩ := Prod.mk.inj (hj.symm.trans h)
    obtain rfl := Except.ok.inj hi
    have hlt : j < s.sizes.length := by
      rw [Store.sizes, List.length_map]
      exact hs _ j hlive
    rw [(s.shrinks_openItem j now).sizes, liveSize, hlive, Option.bind_some,
      List.getElem?_eq_getElem hlt]
    rfl
  · exact absurd (Prod.mk.inj (ht.symm.trans h)).2 (by simp)
  · obtain ⟨rfl, hi⟩ := Prod.mk.inj (ht.symm.trans h)
    obtain rfl := Except.ok.inj hi
    have hlen : s.items.length = s.sizes.length := by rw [Store.sizes, List.length_map]
    rw [hsizes, hlen, List.getElem?_concat_length, liveSize, hlive]
    rfl

end Store

/-! ## Whole runs -/

/-- The size a call of `get_or_create` asks for, when it is for this key. -/
def Event.asks (key : String) : Event → Option Nat
  | .op (.getOrCreate accessKey filename n _ _) =>
    if buildKey accessKey filename = key then some n else none
  | _ => none

/-- **What an event does to sizes**: only `get_or_create` makes an item. -/
theorem shrinks_next {h h' : History} {e : Event} (he : h.next e = some h') :
    Store.Shrinks h.store h'.store ∨ ∃ accessKey filename n now io,
      e = .op (.getOrCreate accessKey filename n now io) ∧
      h'.store = (h.store.getOrCreate accessKey filename n now io).1 := by
  cases e with
  | op op =>
    cases op with
    | getOrCreate accessKey filename n now io =>
      obtain rfl := Option.some.inj he
      exact Or.inr ⟨accessKey, filename, n, now, io, rfl, rfl⟩
    | release i now dbOk =>
      obtain rfl := Option.some.inj he
      exact Or.inl (h.store.shrinks_release i now dbOk)
    | flushRanges i force now dbOk =>
      obtain rfl := Option.some.inj he
      exact Or.inl (h.store.shrinks_flushRanges i force now dbOk)
    | writeRange i offset data now io dbOk =>
      have hwrite := h.store.shrinks_writeRange i offset data now io dbOk
      simp only [History.next, History.step] at he
      split at he
      · rename_i t ht
        rw [ht] at hwrite
        obtain rfl := Option.some.inj he
        exact Or.inl hwrite
      · rename_i t ht
        rw [ht] at hwrite
        obtain rfl := Option.some.inj he
        exact Or.inl hwrite
    | invalidate accessKey filename removeOk dbOk =>
      obtain rfl := Option.some.inj he
      exact Or.inl (h.store.shrinks_invalidate accessKey filename removeOk dbOk)
    | evictIdle key now dbOk =>
      obtain rfl := Option.some.inj he
      exact Or.inl (h.store.shrinks_evictIdle key now dbOk)
  | evict limits now io =>
    obtain rfl := Option.some.inj he
    exact Or.inl (h.store.shrinks_evict limits now io)
  | evictDiskLru threshold now io =>
    obtain rfl := Option.some.inj he
    have hframe := h.store.evictDiskLru_frame threshold now io
    exact Or.inl (.of_eq hframe.items hframe.map)

/-- No event leaves a key without its item. -/
theorem mapped_next {h h' : History} {e : Event} (hs : h.store.Mapped) (he : h.next e = some h') :
    h'.store.Mapped := by
  rcases shrinks_next he with hshrinks | ⟨accessKey, filename, n, now, io, -, hstore⟩
  · exact hshrinks.mapped hs
  rw [hstore]
  rcases h.store.getOrCreate_cases accessKey filename n now io with
    ⟨i, -, hi⟩ | ⟨t, e, ht, hshrinks⟩ | ⟨t, -, ht, hsizes, hmap⟩
  · rw [hi]
    exact (h.store.shrinks_openItem i now).mapped hs
  · rw [ht]
    exact hshrinks.mapped hs
  · rw [ht]
    intro key j hj
    have hlen : t.items.length = h.store.items.length + 1 := by
      have := congrArg List.length hsizes
      rwa [Store.sizes, Store.sizes, List.length_map, List.length_append, List.length_map] at this
    show j < t.items.length
    rw [hlen]
    change t.map.lookup key = some j at hj
    rw [hmap] at hj
    by_cases hkey : key = buildKey accessKey filename
    · rw [hkey, AList.lookup_insert] at hj
      rw [← Option.some.inj hj]
      exact Nat.lt_succ_self _
    · rw [AList.lookup_insert_ne hkey] at hj
      exact Nat.lt_succ_of_lt (hs key j hj)

/-- A key has the size it had, or the one it has just been asked for with. -/
theorem liveSize_next {h h' : History} {e : Event} (hs : h.store.Mapped)
    (he : h.next e = some h') {key : String} {m : Nat} (hm : h'.store.liveSize key = some m) :
    h.store.liveSize key = some m ∨ e.asks key = some m := by
  rcases shrinks_next he with hshrinks | ⟨accessKey, filename, n, now, io, rfl, hstore⟩
  · exact Or.inl (hshrinks.liveSize key hm)
  rw [hstore] at hm
  rcases h.store.getOrCreate_cases accessKey filename n now io with
    ⟨i, -, hi⟩ | ⟨t, e, ht, hshrinks⟩ | ⟨t, -, ht, hsizes, hmap⟩
  · rw [hi] at hm
    exact Or.inl ((h.store.shrinks_openItem i now).liveSize key hm)
  · rw [ht] at hm
    exact Or.inl (hshrinks.liveSize key hm)
  · rw [ht] at hm
    have hlen : h.store.items.length = h.store.sizes.length := by
      rw [Store.sizes, List.length_map]
    change (t.map.lookup key).bind (fun i => t.sizes[i]?) = some m at hm
    rw [hmap, hsizes] at hm
    by_cases hkey : key = buildKey accessKey filename
    · rw [hkey, AList.lookup_insert, Option.bind_some, hlen, List.getElem?_concat_length] at hm
      right
      rw [Event.asks, if_pos hkey.symm, Option.some.inj hm]
    · rw [AList.lookup_insert_ne hkey] at hm
      obtain ⟨i, hi, hsize⟩ := Option.bind_eq_some_iff.mp hm
      rw [List.getElem?_append_left (by rw [← hlen]; exact hs key i hi)] at hsize
      exact Or.inl (Option.bind_eq_some_iff.mpr ⟨i, hi, hsize⟩)

/-- A cache at its start, over whatever files and rows there are. -/
def History.start (dir : Path) (fs : Fs) (db : RangeDb) : History := ⟨⟨dir, fs, db, [], ∅⟩, []⟩

/-- The map of a fresh store is empty. -/
theorem mapped_start (dir : Path) (fs : Fs) (db : RangeDb) :
    (History.start dir fs db).store.Mapped := by
  intro key i hi
  have hnone : (∅ : AList fun _ : String => Nat).lookup key = none := AList.lookup_empty key
  exact absurd (hnone.symm.trans hi) (by simp)

/-- Every key of the map has its item, in every state of a run. -/
theorem mapped_run {dir : Path} {fs : Fs} {db : RangeDb} {es : List Event} {h : History}
    (hrun : run History.next (.start dir fs db) es = some h) : h.store.Mapped :=
  run_inv' (I := fun h : History => h.store.Mapped) (fun h e h' hs he => mapped_next hs he) es _ h
    (mapped_start dir fs db) hrun

/-- The live item of a key has a size that the key was asked for with. -/
theorem liveSize_run {dir : Path} {fs : Fs} {db : RangeDb} {es : List Event} {h : History}
    {key : String} {n : Nat} (hasks : ∀ e ∈ es, ∀ m, e.asks key = some m → m = n)
    (hrun : run History.next (.start dir fs db) es = some h) :
    ∀ m, h.store.liveSize key = some m → m = n := by
  refine (run_inv (C := fun _ e => ∀ m, e.asks key = some m → m = n)
    (I := fun h : History => h.store.Mapped ∧ ∀ m, h.store.liveSize key = some m → m = n)
    (fun h e h' hs hC he => ⟨mapped_next hs.1 he, fun m hm => ?_⟩) es _ h
    ⟨mapped_start dir fs db, fun m hm => ?_⟩ (along_of_forall_mem es _ hasks) hrun).2
  · rcases liveSize_next hs.1 he hm with hm | hm
    · exact hs.2 m hm
    · exact hC m hm
  · have hnone : (∅ : AList fun _ : String => Nat).lookup key = none := AList.lookup_empty key
    have hm' : ((∅ : AList fun _ : String => Nat).lookup key).bind
      (fun i => (History.start dir fs db).store.sizes[i]?) = some m := hm
    rw [hnone] at hm'
    exact absurd hm' (by simp)

/-- **When an item has the size that was asked for.**  In every state a run reaches, the item that
    `get_or_create` returns for a key has the size asked for exactly when the map has no item for the
    key or one of that size; and so it is when every earlier call for the key asked for the same. -/
theorem item_has_asked_size_iff (dir : Path) (fs : Fs) (db : RangeDb) (es : List Event)
    (h : History) (hrun : run History.next (.start dir fs db) es = some h)
    (accessKey filename : String) (n now : Nat) (io : Store.OpenIo) (s' : Store) (i : Nat)
    (hok : h.store.getOrCreate accessKey filename n now io = (s', .ok i)) :
    ((∃ it, s'.items[i]? = some it ∧ it.fileSize = n) ↔
      ∀ m, h.store.liveSize (buildKey accessKey filename) = some m → m = n) ∧
    ((∀ e ∈ es, ∀ m, e.asks (buildKey accessKey filename) = some m → m = n) →
      ∃ it, s'.items[i]? = some it ∧ it.fileSize = n) := by
  obtain ⟨it, hit, hsize⟩ := Store.getOrCreate_size (mapped_run hrun) hok
  have hiff : (∃ it, s'.items[i]? = some it ∧ it.fileSize = n) ↔
      ∀ m, h.store.liveSize (buildKey accessKey filename) = some m → m = n := by
    constructor
    · rintro ⟨jt, hjt, rfl⟩ m hm
      obtain rfl := Option.some.inj (hit.symm.trans hjt)
      rw [hm] at hsize
      exact hsize.symm
    · intro hlive
      refine ⟨it, hit, ?_⟩
      cases hm : h.store.liveSize (buildKey accessKey filename) with
      | none => rw [hsize, hm, Option.getD_none]
      | some m => rw [hsize, hm, Option.getD_some, hlive m hm]
  exact ⟨hiff, fun hasks => hiff.mpr (liveSize_run hasks hrun)⟩

/-- A file is opened with ten bytes and closed, and then asked for with twenty: the live item is
    returned, and it has ten. -/
theorem live_item_keeps_old_size :
    ∃ h s' it, run History.next (.start ["cache"] .init ∅)
        [.op (.getOrCreate "ak" "f" 10 0 .allOk), .op (.release 0 1 true)] = some h ∧
      h.store.getOrCreate "ak" "f" 20 2 .allOk = (s', .ok 0) ∧ s'.items[0]? = some it ∧
      it.fileSize = 10 :=
  ⟨_, _, _, rfl, rfl, rfl, rfl⟩

/-- The item was evicted in between: the second caller gets the size it has asked for. -/
theorem item_has_asked_size_iff_reopened :
    ∃ h s' it, run History.next (.start ["cache"] .init ∅)
        [.op (.getOrCreate "ak" "f" 10 0 .allOk), .op (.release 0 1 true),
          .op (.evictIdle "ak/f" 70 true)] = some h ∧
      h.store.getOrCreate "ak" "f" 20 80 .allOk = (s', .ok 1) ∧ s'.items[1]? = some it ∧
      it.fileSize = 20 := by
  obtain ⟨it, hit, hsize⟩ := (item_has_asked_size_iff ["cache"] .init ∅
    [.op (.getOrCreate "ak" "f" 10 0 .allOk), .op (.release 0 1 true),
      .op (.evictIdle "ak/f" 70 true)] _ rfl "ak" "f" 20 80 .allOk _ 1 rfl).1.mpr
    (fun m hm => absurd (show some m = none from hm.symm) (Option.some_ne_none m))
  exact ⟨_, _, it, rfl, rfl, hit, hsize⟩

end RdRs.Cache

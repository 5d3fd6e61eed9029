/-
  `cache/eviction.rs` — the eviction pass.

  Idle items leave the map, stale rows go with their files (`ttlCleanup`), then the least recently
  used files until the size is below the threshold (`evictDiskLru`).  The pass acts on two stores
  that fail independently, so every single outcome is an argument.

  * `evict_frame` — the removing parts take files and rows away and touch nothing else;
  * `mem_ttlRemove` / `offered_ttlCleanup` — which rows the TTL cleanup drops;
  * `evictDiskLru_db` — the removal by size drops none.
-/
import RdRs.Cache.Store

set_option linter.unusedVariables false

namespace RdRs.Cache

open RdRs.FileTree

/-! ## The pass -/

/-- `ITEM_IDLE_TIMEOUT_SECS` -/
def itemIdleTimeoutSecs : Nat := 60

/-- `TTL_STALE_KEYS_QUERY_LIMIT` -/
def ttlStaleKeysQueryLimit : Nat := 10000

/-- `DISK_ORPHAN_MIN_AGE_SECS` -/
def diskOrphanMinAgeSecs : Nat := 5 * 60

/-- What the calls of a pass answer.  `readDir` gives the names in the order of the system, without
    the entries it could not deliver; `stat` the access time and the blocks of a path. -/
structure EvictIo where
  flushOk : String → Bool
  staleKeysOk : Bool
  removeStaleOk : String → Bool
  deleteKeysOk : Bool
  readDir : Path → Option (List String)
  stat : Path → Option (Nat × Nat)
  removeLruOk : Path → Bool

/-- The settings a pass reads, parsed: `cache_max_age` in seconds, `cache_max_size` in bytes, and
    the threshold, 90 % of the latter. -/
structure EvictLimits where
  maxAge : Nat
  maxBytes : Nat
  threshold : Nat

/-- `Path::extension` is there: a dot with something before it. -/
def hasExtension (name : String) : Bool :=
  match name.toList.reverse.dropWhile (· ≠ '.') with
  | [] => false
  | _ :: before => decide (before ≠ [])

/-- `path_to_key` -/
def pathToKey (cacheDir filePath : Path) : String :=
  if cacheDir <+: filePath then String.intercalate "/" (filePath.drop cacheDir.length) else ""

/-- A file that `evict_disk_lru` may remove. -/
structure Candidate where
  atime : Nat
  path : Path
  size : Nat

namespace Store

/-- The keys `evict` collects: not open, and not used for a minute. -/
def idleKeys (s : Store) (now : Nat) : List String :=
  (s.map.entries.filter fun e => match s.items[e.2]? with
    | none => false
    | some it => !it.isOpen && decide (now - it.atime ≥ itemIdleTimeoutSecs)).map (·.1)

/-- The first part of `evict`. -/
def evictIdleItems (s : Store) (now : Nat) (io : EvictIo) : Store :=
  (s.idleKeys now).foldl (fun s key => s.evictIdle key now (io.flushOk key)) s

/-- The file `ttl_cleanup` removes for a key. -/
def stalePath (s : Store) (key : String) : Path := (s.dir.join key).resolve

/-- The keys `ttl_cleanup` goes through: stale, and not in the map. -/
def ttlKeys (s : Store) (maxAge now : Nat) : List String :=
  (s.db.staleKeys (asI64 (now - maxAge)) ttlStaleKeysQueryLimit).filter
    fun key => (s.map.lookup key).isNone

/-- The loop of `ttl_cleanup`: the files, and the keys whose rows are to go. -/
def ttlRemove (path : String → Path) (io : EvictIo) : List String → Fs → Fs × List String
  | [], fs => (fs, [])
  | key :: keys, fs =>
    let (fs, r) := fs.remove (path key) (io.removeStaleOk key)
    let (fs, taken) := ttlRemove path io keys fs
    -- a file that could not be removed keeps its row for the next pass
    (fs, if r = .failed then taken else key :: taken)

/-- `ttl_cleanup` -/
def ttlCleanup (s : Store) (maxAge now : Nat) (io : EvictIo) : Store :=
  if maxAge = 0 then s
  else if io.staleKeysOk = false then s
  else
    let (fs, taken) := ttlRemove s.stalePath io (s.ttlKeys maxAge now) s.fs
    { s with fs := fs, db := if io.deleteKeysOk then s.db.deleteKeys taken else s.db }

/-- The names `read_dir` delivers. -/
def listed (s : Store) (io : EvictIo) (p : Path) : List String :=
  match io.readDir p with
  | none => []
  | some names => names.filter fun name => (s.fs.lookup (p ++ [name])).isSome

/-- The scan of `evict_disk_lru`: two levels below the cache directory. -/
def lruCandidates (s : Store) (io : EvictIo) : List Candidate :=
  (s.listed io s.dir.resolve).flatMap fun top =>
    (s.listed io (s.dir.resolve ++ [top])).filterMap fun sub =>
      let path := s.dir.resolve ++ [top] ++ [sub]
      if hasExtension sub then none
      else (io.stat path).map fun (atime, blocks) => ⟨atime, path, blocks * 512⟩

/-- The loop of `evict_disk_lru` over the candidates, oldest first. -/
def lruRemove (s : Store) (threshold now : Nat) (io : EvictIo) (total : Nat) :
    List Candidate → Nat → Fs → Fs
  | [], freed, fs => fs
  | c :: cs, freed, fs =>
    -- skipped are the files of items in use and those read in the last five minutes
    if total - freed ≤ threshold then fs
    else if (s.map.lookup (pathToKey s.dir.resolve c.path)).isSome then
      lruRemove s threshold now io total cs freed fs
    else if now - c.atime < diskOrphanMinAgeSecs then lruRemove s threshold now io total cs freed fs
    else match fs.remove c.path (io.removeLruOk c.path) with
      | (fs, .removed) => lruRemove s threshold now io total cs (freed + c.size) fs
      | (fs, _) => lruRemove s threshold now io total cs freed fs

/-- `evict_disk_lru` -/
def evictDiskLru (s : Store) (threshold now : Nat) (io : EvictIo) : Store :=
  let candidates := s.lruCandidates io
  let total := (candidates.map (·.size)).sum
  if total ≤ threshold then s
  else { s with
    fs := s.lruRemove threshold now io total
      (candidates.insertionSort fun a b => a.atime ≤ b.atime) 0 s.fs }

/-- `evict`, up to the check of the free space. -/
def evict (s : Store) (limits : EvictLimits) (now : Nat) (io : EvictIo) : Store :=
  let s := (s.evictIdleItems now io).ttlCleanup limits.maxAge now io
  if limits.maxBytes = 0 then s else s.evictDiskLru limits.threshold now io

/-! ## What a pass leaves alone -/

/-- Nothing but files and rows is different, and every directory is still there. -/
structure OnlyRemoves (s s' : Store) : Prop where
  dir : s'.dir = s.dir
  items : s'.items = s.items
  map : s'.map = s.map
  dirs : ∀ q, s.fs.lookup q = some .dir → s'.fs.lookup q = some .dir

/-- Induction on the keys, each removal leaving the directories. -/
theorem ttlRemove_dirs (path : String → Path) (io : EvictIo) : ∀ (keys : List String) (fs : Fs) (q),
    fs.lookup q = some .dir → (ttlRemove path io keys fs).1.lookup q = some .dir
  | [], fs, q, hq => hq
  | key :: keys, fs, q, hq =>
    ttlRemove_dirs path io keys _ q ((fs.remove_dir_iff (path key) _ q).mpr hq)

theorem ttlCleanup_frame (s : Store) (maxAge now : Nat) (io : EvictIo) :
    OnlyRemoves s (s.ttlCleanup maxAge now io) := by
  unfold ttlCleanup
  split
  · exact ⟨rfl, rfl, rfl, fun _ => id⟩
  · split
    · exact ⟨rfl, rfl, rfl, fun _ => id⟩
    · exact ⟨rfl, rfl, rfl, ttlRemove_dirs s.stalePath io _ s.fs⟩

/-- What every removal of a candidate keeps, the loop keeps. -/
theorem lruRemove_inv (s : Store) (threshold now : Nat) (io : EvictIo) (total : Nat)
    (P : Fs → Prop) : ∀ (cs : List Candidate) (freed : Nat) (fs : Fs),
      (∀ c ∈ cs, ∀ t : Fs, P t → P (t.remove c.path (io.removeLruOk c.path)).1) → P fs →
      P (s.lruRemove threshold now io total cs freed fs) := by
  intro cs
  induction cs with
  | nil =>
    intro freed fs _ hfs
    exact hfs
  | cons c cs ih =>
    intro freed fs hkeep hfs
    have hrest := fun c' hc' => hkeep c' (List.mem_cons_of_mem c hc')
    have hremove := hkeep c List.mem_cons_self fs hfs
    unfold lruRemove
    split
    · exact hfs
    · split
      · exact ih freed fs hrest hfs
      · split
        · exact ih freed fs hrest hfs
        · split
          · rename_i t ht
            rw [ht] at hremove
            exact ih _ t hrest hremove
          · rename_i t r _ ht
            rw [ht] at hremove
            exact ih _ t hrest hremove

theorem lruRemove_dirs (s : Store) (threshold now : Nat) (io : EvictIo) (total : Nat)
    (cs : List Candidate) (freed : Nat) (fs : Fs) (q) (hq : fs.lookup q = some .dir) :
    (s.lruRemove threshold now io total cs freed fs).lookup q = some .dir :=
  s.lruRemove_inv threshold now io total (fun t => t.lookup q = some .dir) cs freed fs
    (fun c _ t ht => (t.remove_dir_iff c.path _ q).mpr ht) hq

theorem evictDiskLru_frame (s : Store) (threshold now : Nat) (io : EvictIo) :
    OnlyRemoves s (s.evictDiskLru threshold now io) := by
  unfold evictDiskLru
  simp only
  split
  · exact ⟨rfl, rfl, rfl, fun _ => id⟩
  · exact ⟨rfl, rfl, rfl, s.lruRemove_dirs threshold now io _ _ 0 s.fs⟩

theorem evictIdle_files (s : Store) (key : String) (now : Nat) (dbOk : Bool) :
    (s.evictIdle key now dbOk).dir = s.dir ∧ (s.evictIdle key now dbOk).fs = s.fs := by
  have hflush : ∀ (t : Store) (j : Nat), (t.flushRanges j true now dbOk).dir = t.dir ∧
      (t.flushRanges j true now dbOk).fs = t.fs := by
    intro t j
    unfold flushRanges
    repeat' split
    all_goals exact ⟨rfl, rfl⟩
  have hdrop : (s.dropIdle key).1.dir = s.dir ∧ (s.dropIdle key).1.fs = s.fs := by
    unfold dropIdle
    repeat' split
    all_goals exact ⟨rfl, rfl⟩
  unfold evictIdle
  split
  · rename_i t j ht
    rw [ht] at hdrop
    exact ⟨(hflush t j).1.trans hdrop.1, (hflush t j).2.trans hdrop.2⟩
  · rename_i t ht
    rw [ht] at hdrop
    exact hdrop

theorem evictIdleItems_files (s : Store) (now : Nat) (io : EvictIo) :
    (s.evictIdleItems now io).dir = s.dir ∧ (s.evictIdleItems now io).fs = s.fs := by
  have hfold : ∀ (keys : List String) (s : Store),
      (keys.foldl (fun s key => s.evictIdle key now (io.flushOk key)) s).dir = s.dir ∧
      (keys.foldl (fun s key => s.evictIdle key now (io.flushOk key)) s).fs = s.fs := by
    intro keys
    induction keys with
    | nil =>
      intro s
      exact ⟨rfl, rfl⟩
    | cons key keys ih =>
      intro s
      have hone := s.evictIdle_files key now (io.flushOk key)
      have hrest := ih (s.evictIdle key now (io.flushOk key))
      exact ⟨hrest.1.trans hone.1, hrest.2.trans hone.2⟩
  exact hfold (s.idleKeys now) s

/-- The files that are least recently used go without their rows. -/
theorem evictDiskLru_db (s : Store) (threshold now : Nat) (io : EvictIo) :
    (s.evictDiskLru threshold now io).db = s.db := by
  unfold evictDiskLru
  simp only
  split <;> rfl

theorem OnlyRemoves.trans {s s' s'' : Store} (h : OnlyRemoves s s') (h' : OnlyRemoves s' s'') :
    OnlyRemoves s s'' :=
  ⟨h'.dir.trans h.dir, h'.items.trans h.items, h'.map.trans h.map,
    fun q hq => h'.dirs q (h.dirs q hq)⟩

/-- The two removing parts of a pass together, and the rows they leave. -/
theorem evict_frame (s : Store) (limits : EvictLimits) (now : Nat) (io : EvictIo) :
    OnlyRemoves (s.evictIdleItems now io) (s.evict limits now io) ∧
      (s.evict limits now io).db = ((s.evictIdleItems now io).ttlCleanup limits.maxAge now io).db := by
  have httl := (s.evictIdleItems now io).ttlCleanup_frame limits.maxAge now io
  unfold evict
  simp only
  split
  · exact ⟨httl, rfl⟩
  · exact ⟨httl.trans (evictDiskLru_frame _ limits.threshold now io),
      evictDiskLru_db _ limits.threshold now io⟩

end Store

/-! ## Which rows a pass drops -/

/-- `key` is one of `keys`, its file is no directory, and the file is absent or goes: for `key`
    itself or for an earlier key that names the same file. -/
def LetGo (fs : Fs) (path : String → Path) (io : EvictIo) (keys : List String) (key : String) : Prop :=
  fs.lookup (path key) ≠ some .dir ∧ ∃ before after, keys = before ++ key :: after ∧
    (fs.lookup (path key) = none ∨
      ∃ k ∈ before ++ [key], path k = path key ∧ io.removeStaleOk k = true)

theorem letGo_cons_self {fs : Fs} {path : String → Path} {io : EvictIo} {keys : List String}
    {key : String} (h : (fs.remove (path key) (io.removeStaleOk key)).2 ≠ .failed) :
    LetGo fs path io (key :: keys) key := by
  rw [ne_eq, Tree.remove_failed_iff, not_or, not_and_or, not_not] at h
  refine ⟨h.1, [], keys, rfl, h.2.imp id fun hok => ⟨key, List.mem_singleton.mpr rfl, rfl, ?_⟩⟩
  exact Bool.not_eq_false _ ▸ hok

/-- One removal more, in front. -/
theorem letGo_cons {fs : Fs} {path : String → Path} {io : EvictIo} {k key : String}
    {keys : List String} :
    LetGo fs path io (k :: keys) key ↔
      ((fs.remove (path k) (io.removeStaleOk k)).2 ≠ .failed ∧ key = k) ∨
      LetGo (fs.remove (path k) (io.removeStaleOk k)).1 path io keys key := by
  constructor
  · rintro ⟨hdir, before, after, heq, hgo⟩
    rcases before with _ | ⟨k', before⟩
    · -- the key itself is at the front
      obtain ⟨rfl, rfl⟩ := List.cons.inj heq
      refine Or.inl ⟨fun hfail => ?_, rfl⟩
      rcases ((fs.remove_failed_iff _ _).mp hfail).resolve_left hdir with ⟨hsome, hno⟩
      rcases hgo with hnone | ⟨k', hk', -, hok⟩
      · exact hsome hnone
      · rw [List.mem_singleton.mp hk', hno] at hok
        exact absurd hok nofun
    · obtain ⟨rfl, rfl⟩ := List.cons.inj heq
      refine Or.inr ⟨fun h => hdir ((fs.remove_dir_iff _ _ _).mp h), before, after, rfl, ?_⟩
      rw [Tree.remove_none_iff]
      rcases hgo with hnone | ⟨k', hk', hpath, hok⟩
      · exact Or.inl (Or.inl hnone)
      · rcases List.mem_cons.mp hk' with rfl | hk'
        · -- the front key names the same file, and takes it away
          exact Or.inl (Or.inr ⟨hpath.symm, hok, hdir⟩)
        · exact Or.inr ⟨k', hk', hpath, hok⟩
  · rintro (⟨hr, rfl⟩ | ⟨hdir, before, after, rfl, hgo⟩)
    · exact letGo_cons_self hr
    · refine ⟨fun h => hdir ((fs.remove_dir_iff _ _ _).mpr h), k :: before, after, rfl, ?_⟩
      rw [Tree.remove_none_iff] at hgo
      rcases hgo with (hnone | ⟨hpath, hok, -⟩) | ⟨k', hk', hpath, hok⟩
      · exact Or.inl hnone
      · exact Or.inr ⟨k, List.mem_cons_self, hpath.symm, hok⟩
      · exact Or.inr ⟨k', List.mem_cons_of_mem k hk', hpath, hok⟩

/-- The keys `ttl_cleanup` takes are those whose file is gone then. -/
theorem mem_ttlRemove (path : String → Path) (io : EvictIo) (key : String) :
    ∀ (keys : List String) (fs : Fs),
      key ∈ (Store.ttlRemove path io keys fs).2 ↔ LetGo fs path io keys key
  | [], fs => by
    refine iff_of_false List.not_mem_nil ?_
    rintro ⟨-, before, after, heq, -⟩
    exact absurd heq (by simp)
  | k :: keys, fs => by
    have ih := mem_ttlRemove path io key keys (fs.remove (path k) (io.removeStaleOk k)).1
    rw [letGo_cons, ← ih]
    show key ∈ (if (fs.remove (path k) (io.removeStaleOk k)).2 = .failed then _ else k :: _) ↔ _
    by_cases hr : (fs.remove (path k) (io.removeStaleOk k)).2 = .failed
    · rw [if_pos hr]
      exact ⟨Or.inr, fun h => h.resolve_left fun h' => h'.1 hr⟩
    · rw [if_neg hr, List.mem_cons]
      exact or_congr_left ⟨fun h => ⟨hr, h⟩, And.right⟩

/-- The TTL cleanup drops the row of `key`: there is an age limit, the rows could be queried and
    deleted, the key is among the stale ones that are not in the map, and its file is gone. -/
def TtlDropsRow (s : Store) (maxAge now : Nat) (io : EvictIo) (key : String) : Prop :=
  maxAge ≠ 0 ∧ io.staleKeysOk = true ∧ io.deleteKeysOk = true ∧
    LetGo s.fs s.stalePath io (s.ttlKeys maxAge now) key

theorem TtlDropsRow.map_none {s : Store} {maxAge now : Nat} {io : EvictIo} {key : String}
    (h : TtlDropsRow s maxAge now io key) : s.map.lookup key = none := by
  obtain ⟨-, -, -, -, before, after, heq, -⟩ := h
  have hmem : key ∈ s.ttlKeys maxAge now := by
    rw [heq]
    exact List.mem_append_right _ List.mem_cons_self
  exact Option.isNone_iff_eq_none.mp (List.mem_filter.mp hmem).2

theorem offered_ttlCleanup (s : Store) (maxAge now : Nat) (io : EvictIo) (key : String) :
    (s.ttlCleanup maxAge now io).db.offered key = ∅ ↔
      s.db.offered key = ∅ ∨ TtlDropsRow s maxAge now io key := by
  unfold Store.ttlCleanup
  by_cases hage : maxAge = 0
  · rw [if_pos hage]
    exact ⟨Or.inl, fun h => h.resolve_right fun h' => h'.1 hage⟩
  by_cases hstale : io.staleKeysOk = false
  · rw [if_neg hage, if_pos hstale]
    exact ⟨Or.inl, fun h => h.resolve_right fun h' => absurd (hstale.symm.trans h'.2.1) nofun⟩
  rw [if_neg hage, if_neg hstale]
  show (if io.deleteKeysOk then s.db.deleteKeys _ else s.db).offered key = ∅ ↔ _
  by_cases hdelete : io.deleteKeysOk = true
  · rw [if_pos hdelete]
    have hmem := mem_ttlRemove s.stalePath io key (s.ttlKeys maxAge now) s.fs
    by_cases hkey : LetGo s.fs s.stalePath io (s.ttlKeys maxAge now) key
    · rw [RangeDb.offered_deleteKeys (hmem.mpr hkey)]
      exact iff_of_true rfl (Or.inr ⟨hage, Bool.not_eq_false _ ▸ hstale, hdelete, hkey⟩)
    · rw [RangeDb.offered_deleteKeys_not_mem fun h => hkey (hmem.mp h)]
      exact ⟨Or.inl, fun h => h.resolve_right fun h' => hkey h'.2.2.2⟩
  · rw [if_neg hdelete]
    exact ⟨Or.inl, fun h => h.resolve_right fun h' => hdelete h'.2.2.1⟩

end RdRs.Cache

/-
  `evict_disk_lru` against the layout of the cache.

  The scan takes what lies two levels below the cache directory and has no extension for a cached
  file.  `get_or_create` puts a file three levels below: hash, name, file name.  So the scan meets the
  directories of the torrents where it looks for files, and it meets files that are not the cache's:
  `cdn_cache/network_test_timestamp` is one.

  * `cached_not_candidate` — no cached file is ever a candidate under its own key;
  * `lru_sees_cache_iff` — the scan sees the cached files, and removes nothing else, exactly when
    nothing is cached and every file two levels below has an extension.
-/
import RdRs.Fuse.CachePaths

set_option linter.unusedVariables false

namespace RdRs.Fuse

open RdRs.Cache RdRs.Rd RdRs.FileTree

/-! ## The candidates -/

/-- The candidates are the entries two levels below that have no extension. -/
theorem mem_lruCandidates {s : Store} {io : EvictIo} {c : Candidate} :
    c ∈ s.lruCandidates io ↔ ∃ top ∈ s.listed io s.dir.resolve,
      ∃ sub ∈ s.listed io (s.dir.resolve ++ [top]), hasExtension sub = false ∧
      ∃ atime blocks, io.stat (s.dir.resolve ++ [top] ++ [sub]) = some (atime, blocks) ∧
        c = ⟨atime, s.dir.resolve ++ [top] ++ [sub], blocks * 512⟩ := by
  simp only [Store.lruCandidates, List.mem_flatMap, List.mem_filterMap]
  constructor
  · rintro ⟨top, htop, sub, hsub, h⟩
    split at h
    · exact absurd h nofun
    · rename_i hext
      obtain ⟨⟨atime, blocks⟩, hstat, rfl⟩ := Option.map_eq_some_iff.mp h
      exact ⟨top, htop, sub, hsub, Bool.eq_false_iff.mpr hext, atime, blocks, hstat, rfl⟩
  · rintro ⟨top, htop, sub, hsub, hext, atime, blocks, hstat, rfl⟩
    refine ⟨top, htop, sub, hsub, ?_⟩
    rw [if_neg (Bool.eq_false_iff.mp hext), hstat]
    rfl

theorem pathToKey_two (dir : Path) (top sub : String) :
    pathToKey dir (dir ++ [top] ++ [sub]) = top ++ "/" ++ sub := by
  rw [List.append_assoc, pathToKey, if_pos (List.prefix_append _ _), List.drop_left]
  rfl

/-- What is there is listed. -/
theorem mem_listed_of_lookup {s : Store} {io : EvictIo} {p : Path} {name : String}
    {names : List String} (hread : io.readDir p = some names) (hname : name ∈ names)
    (hthere : s.fs.lookup (p ++ [name]) ≠ none) : name ∈ s.listed io p := by
  rw [Store.listed, hread]
  exact List.mem_filter.mpr ⟨hname, Option.isSome_iff_ne_none.mpr hthere⟩

theorem lookup_of_mem_listed {s : Store} {io : EvictIo} {p : Path} {name : String}
    (h : name ∈ s.listed io p) : s.fs.lookup (p ++ [name]) ≠ none := by
  rw [Store.listed] at h
  split at h
  · exact absurd h List.not_mem_nil
  · exact Option.isSome_iff_ne_none.mp (List.mem_filter.mp h).2

/-! ## What is removed -/

/-- What is gone does not come back. -/
theorem lookup_lruRemove_none (s : Store) (threshold now : Nat) (io : EvictIo) (total : Nat)
    {p : Path} (cs : List Candidate) (freed : Nat) (fs : Fs) (h : fs.lookup p = none) :
    (s.lruRemove threshold now io total cs freed fs).lookup p = none :=
  s.lruRemove_inv threshold now io total (fun t => t.lookup p = none) cs freed fs
    (fun c _ t ht => (t.remove_none_iff c.path _ p).mpr (Or.inl ht)) h

/-- Only files that are candidates go. -/
theorem touched_evictDiskLru {s : Store} {threshold now : Nat} {io : EvictIo} {p : Path}
    (h : Touched s.fs (s.evictDiskLru threshold now io).fs p) :
    (∃ f, s.fs.lookup p = some (.file f)) ∧ ∃ c ∈ s.lruCandidates io, p = c.path := by
  rw [Touched, Store.evictDiskLru] at h
  split at h
  · exact absurd rfl h
  · constructor
    · cases hp : s.fs.lookup p with
      | none =>
        rw [hp] at h
        exact absurd (lookup_lruRemove_none s _ _ _ _ _ 0 s.fs hp) h
      | some node =>
        cases node with
        | dir =>
          rw [hp] at h
          exact absurd (s.lruRemove_dirs _ _ _ _ _ 0 s.fs p hp) h
        | file f => exact ⟨f, rfl⟩
    · by_contra hall
      push Not at hall
      refine h (s.lruRemove_inv _ _ _ _ (fun t => t.lookup p = s.fs.lookup p) _ 0 s.fs ?_ rfl)
      intro c hc t ht
      have hne := hall c ((List.perm_insertionSort _ _).mem_iff.mp hc)
      exact (t.lookup_remove_ne _ hne).trans ht

/-- The loop reaches the one candidate that has a size. -/
theorem lruRemove_takes (s : Store) (threshold now : Nat) (io : EvictIo) (total : Nat) (p : Path)
    (htotal : threshold < total) (hok : io.removeLruOk p = true)
    (hfree : s.map.lookup (pathToKey s.dir.resolve p) = none) :
    ∀ (cs : List Candidate) (fs : Fs), (∃ c ∈ cs, c.path = p) →
      (∀ c ∈ cs, diskOrphanMinAgeSecs ≤ now - c.atime) → (∀ c ∈ cs, c.path ≠ p → c.size = 0) →
      fs.lookup p ≠ some .dir →
      (s.lruRemove threshold now io total cs 0 fs).lookup p = none := by
  intro cs
  induction cs with
  | nil =>
    rintro fs ⟨c, hc, -⟩
    exact absurd hc List.not_mem_nil
  | cons c cs ih =>
    rintro fs ⟨c', hc', hpath⟩ hold hsize hdir
    have hgoes : ¬total - 0 ≤ threshold := by omega
    have hage : ¬now - c.atime < diskOrphanMinAgeSecs := not_lt.mpr (hold c List.mem_cons_self)
    have hold' := fun c' hc' => hold c' (List.mem_cons_of_mem c hc')
    have hsize' := fun c' hc' => hsize c' (List.mem_cons_of_mem c hc')
    rw [Store.lruRemove, if_neg hgoes, if_neg hage]
    by_cases hc : c.path = p
    · -- here it goes
      have hgone : (fs.remove p true).1.lookup p = none :=
        (fs.remove_none_iff p true p).mpr (Or.inr ⟨rfl, rfl, hdir⟩)
      rw [hc, hfree, hok, if_neg (by simp)]
      split
      · rename_i t ht
        rw [ht] at hgone
        exact lookup_lruRemove_none s _ _ _ _ cs _ t hgone
      · rename_i t r _ ht
        rw [ht] at hgone
        exact lookup_lruRemove_none s _ _ _ _ cs _ t hgone
    · have hlater : ∃ c' ∈ cs, c'.path = p := by
        rcases List.mem_cons.mp hc' with rfl | hmem
        · exact absurd hpath hc
        · exact ⟨c', hmem, hpath⟩
      have hzero : 0 + c.size = 0 := by rw [hsize c List.mem_cons_self hc]
      have hremove := fs.lookup_remove_ne (io.removeLruOk c.path) (Ne.symm hc)
      split
      · exact ih fs hlater hold' hsize' hdir
      · split
        · rename_i t ht
          rw [ht] at hremove
          rw [hzero]
          exact ih t hlater hold' hsize' (hremove.symm ▸ hdir)
        · rename_i t r _ ht
          rw [ht] at hremove
          exact ih t hlater hold' hsize' (hremove.symm ▸ hdir)

/-! ## The cached files -/

/-- A file that is read: its torrent's hash and name, and the selected file. -/
structure Cached where
  hash : String
  name : String
  file : File
  fileIdx : Nat

/-- The key `get_or_create` uses for it. -/
def Cached.key (x : Cached) : String :=
  buildKey (accessKey x.hash x.name) (cacheFilename x.file x.fileIdx)

/-- Its sparse file. -/
def Cached.path (s : Store) (x : Cached) : Path :=
  s.fileOf (accessKey x.hash x.name) (cacheFilename x.file x.fileIdx)

/-- The keys of the map are keys of files that were created. -/
def MapOf (created : Set Cached) (s : Store) : Prop :=
  ∀ key, s.map.lookup key ≠ none → ∃ x ∈ created, key = x.key

/-- Every call of `get_or_create` keeps it so. -/
theorem mapOf_getOrCreate {created : Set Cached} {s : Store} (h : MapOf created s) (x : Cached)
    (fileSize now : Nat) (io : Store.OpenIo) :
    MapOf (insert x created) (s.getOrCreate (accessKey x.hash x.name)
      (cacheFilename x.file x.fileIdx) fileSize now io).1 := by
  have hmap := Store.getOrCreate_map s (accessKey x.hash x.name) (cacheFilename x.file x.fileIdx)
    fileSize now io
  intro key hkey
  rcases hmap key with hsame | hnew
  · rw [hsame] at hkey
    obtain ⟨y, hy, heq⟩ := h key hkey
    exact ⟨y, Set.mem_insert_of_mem x hy, heq⟩
  · exact ⟨x, Set.mem_insert x created, hnew⟩

/-- No name of the file system has a slash. -/
def NamesClean (fs : Fs) : Prop := ∀ p, fs.lookup p ≠ none → ∀ c ∈ p, '/' ∉ c.toList

/-- The key of a cached file has two slashes at least, that of a candidate has one. -/
theorem cached_not_candidate {s : Store} (hclean : NamesClean s.fs) (io : EvictIo) (x : Cached) :
    ∀ c ∈ s.lruCandidates io, pathToKey s.dir.resolve c.path ≠ x.key := by
  intro c hc heq
  obtain ⟨top, htop, sub, hsub, -, atime, blocks, -, rfl⟩ := mem_lruCandidates.mp hc
  have hthere := lookup_of_mem_listed hsub
  have htop' : '/' ∉ top.toList := hclean _ hthere top (by simp)
  have hsub' : '/' ∉ sub.toList := hclean _ hthere sub (by simp)
  rw [pathToKey_two] at heq
  have hcount := congrArg (fun t => t.toList.count '/') heq
  simp only [Cached.key, buildKey, accessKey, String.toList_append, List.count_append,
    List.count_eq_zero_of_not_mem htop', List.count_eq_zero_of_not_mem hsub',
    show List.count '/' "/".toList = 1 from rfl] at hcount
  omega

/-! ## What the scan sees -/

/-- The system answers for everything that is there. -/
structure Faithful (s : Store) (io : EvictIo) : Prop where
  lists : ∀ p, s.fs.lookup p = some .dir → ∃ names, io.readDir p = some names ∧
    ∀ name, s.fs.lookup (p ++ [name]) ≠ none → name ∈ names
  stats : ∀ p, s.fs.lookup p ≠ none → io.stat p ≠ none

/-- **The scan sees the cached files**: each is counted, and is a candidate under its own key. -/
def SeesCached (s : Store) (created : Set Cached) : Prop :=
  ∀ io, Faithful s io → ∀ x ∈ created, ∃ c ∈ s.lruCandidates io,
    c.path = x.path s ∧ pathToKey s.dir.resolve c.path = x.key

/-- **It removes no other files** below the cache directory. -/
def SparesOthers (s : Store) (created : Set Cached) : Prop :=
  ∀ threshold now io, Faithful s io → ∀ p, s.dir.resolve <+: p →
    Touched s.fs (s.evictDiskLru threshold now io).fs p → ∃ x ∈ created, p = x.path s

/-- The names in a directory. -/
def childNames (fs : Fs) (p : Path) : List String :=
  fs.nodes.keys.filterMap fun q => if q.dropLast = p then q.getLast? else none

theorem mem_childNames {fs : Fs} {p : Path} {name : String} (h : fs.lookup (p ++ [name]) ≠ none) :
    name ∈ childNames fs p := by
  have hkey : p ++ [name] ∈ fs.nodes.keys :=
    AList.mem_keys.mp (AList.lookup_isSome.mp (Option.isSome_iff_ne_none.mpr h))
  refine List.mem_filterMap.mpr ⟨p ++ [name], hkey, ?_⟩
  rw [List.dropLast_concat, if_pos rfl, List.getLast?_concat]

/-- Everything is old, and only `p` takes a block. -/
def oneBlockAt (fs : Fs) (p : Path) : EvictIo where
  flushOk _ := true
  staleKeysOk := true
  removeStaleOk _ := true
  deleteKeysOk := true
  readDir q := some (childNames fs q)
  stat q := some (0, if q = p then 1 else 0)
  removeLruOk _ := true

theorem faithful_oneBlockAt (s : Store) (p : Path) : Faithful s (oneBlockAt s.fs p) :=
  ⟨fun q _ => ⟨_, rfl, fun _ => mem_childNames⟩, fun _ _ => nofun⟩

/-- A file two levels below without an extension can go. -/
theorem touched_two_levels {s : Store} {top sub : String} {f : SparseFile}
    (hfile : s.fs.lookup (s.dir.resolve ++ [top] ++ [sub]) = some (.file f))
    (hext : hasExtension sub = false) (hfree : s.map.lookup (top ++ "/" ++ sub) = none) :
    Touched s.fs (s.evictDiskLru 0 diskOrphanMinAgeSecs
      (oneBlockAt s.fs (s.dir.resolve ++ [top] ++ [sub]))).fs (s.dir.resolve ++ [top] ++ [sub]) := by
  generalize hp : s.dir.resolve ++ [top] ++ [sub] = p at hfile ⊢
  have hsub : s.fs.lookup p ≠ none := by
    rw [hfile]
    exact nofun
  have htop : s.fs.lookup (s.dir.resolve ++ [top]) ≠ none := by
    have hparent := s.fs.parent_dir hsub
    rw [← hp, List.dropLast_concat] at hparent
    rw [hparent]
    exact nofun
  have hcand : (⟨0, p, 512⟩ : Candidate) ∈ s.lruCandidates (oneBlockAt s.fs p) := by
    refine mem_lruCandidates.mpr ⟨top, mem_listed_of_lookup rfl (mem_childNames htop) htop, sub,
      mem_listed_of_lookup rfl (mem_childNames (hp ▸ hsub)) (hp ▸ hsub), hext, 0, 1, ?_, ?_⟩
    · rw [hp]
      exact congrArg (fun n => some (0, n)) (if_pos rfl)
    · rw [hp]
  have hsize : ∀ c ∈ s.lruCandidates (oneBlockAt s.fs p), c.atime = 0 ∧ (c.path ≠ p → c.size = 0) := by
    intro c hc
    obtain ⟨t, -, u, -, -, atime, blocks, hstat, rfl⟩ := mem_lruCandidates.mp hc
    obtain ⟨rfl, rfl⟩ := Prod.mk.inj (Option.some.inj hstat)
    refine ⟨rfl, fun hne => ?_⟩
    show (if _ then 1 else 0) * 512 = 0
    rw [if_neg hne]
  -- the total is not zero, so that the loop starts
  have htotal : 0 < ((s.lruCandidates (oneBlockAt s.fs p)).map (·.size)).sum := by
    have hle := List.single_le_sum (l := (s.lruCandidates (oneBlockAt s.fs p)).map (·.size))
      (fun _ _ => Nat.zero_le _) 512 (List.mem_map_of_mem hcand)
    omega
  have hperm := List.perm_insertionSort (fun a b : Candidate => a.atime ≤ b.atime)
    (s.lruCandidates (oneBlockAt s.fs p))
  have hgone := lruRemove_takes s 0 diskOrphanMinAgeSecs (oneBlockAt s.fs p) _ p htotal rfl
    (by rw [← hp, pathToKey_two]; exact hfree) _ s.fs ⟨_, hperm.mem_iff.mpr hcand, rfl⟩
    (fun c hc => by rw [(hsize c (hperm.mem_iff.mp hc)).1]; exact le_refl _)
    (fun c hc => (hsize c (hperm.mem_iff.mp hc)).2) (by rw [hfile]; exact nofun)
  rw [Touched, Store.evictDiskLru]
  simp only [if_neg (not_le.mpr htotal)]
  rw [hgone, hfile]
  exact nofun

/-- **When the disk eviction sees exactly the cache**: when nothing is cached and every file two
    levels below the cache directory has an extension. -/
theorem lru_sees_cache_iff (s : Store) (created : Set Cached) (hclean : NamesClean s.fs)
    (hmap : MapOf created s) :
    SeesCached s created ∧ SparesOthers s created ↔
      created = ∅ ∧ ∀ top sub f, s.fs.lookup (s.dir.resolve ++ [top] ++ [sub]) = some (.file f) →
        hasExtension sub = true := by
  constructor
  · rintro ⟨hsees, hspares⟩
    have hempty : created = ∅ := by
      refine Set.eq_empty_iff_forall_notMem.mpr fun x hx => ?_
      obtain ⟨c, hc, -, hkey⟩ := hsees _ (faithful_oneBlockAt s []) x hx
      exact cached_not_candidate hclean _ x c hc hkey
    subst hempty
    refine ⟨rfl, fun top sub f hfile => ?_⟩
    by_contra hext
    have hfree : s.map.lookup (top ++ "/" ++ sub) = none := by
      by_contra hused
      obtain ⟨x, hx, -⟩ := hmap _ hused
      exact hx
    have hgone := touched_two_levels hfile (Bool.eq_false_iff.mpr hext) hfree
    obtain ⟨x, hx, -⟩ := hspares 0 diskOrphanMinAgeSecs _ (faithful_oneBlockAt s _) _
      (by rw [List.append_assoc]; exact List.prefix_append _ _) hgone
    exact hx
  · rintro ⟨rfl, hext⟩
    refine ⟨fun io _ x hx => absurd hx (Set.notMem_empty x), ?_⟩
    intro threshold now io _ p _ htouched
    obtain ⟨⟨f, hfile⟩, c, hc, rfl⟩ := touched_evictDiskLru htouched
    obtain ⟨top, -, sub, -, hno, atime, blocks, -, rfl⟩ := mem_lruCandidates.mp hc
    rw [hext top sub f hfile] at hno
    exact absurd hno nofun

/-- A cache directory with a file of the CDN test in it. -/
def cdnStore (filename : String) : Store :=
  { emptyStore ["cache"] with
    fs := ((Tree.init.createDirAll ["cache", "cdn_cache"]).bind fun t =>
      t.create ["cache", "cdn_cache", filename] (.file .empty)).getD .init }

/-- `Film.mkv` of the torrent `Film`. -/
def filmFile : Cached := ⟨"HASH", "Film", ⟨1, "/Film.mkv", 100, 1⟩, 0⟩

/-- It is read beside the CDN test's time stamp. -/
def filmStore : Store :=
  ((cdnStore "network_test_timestamp").getOrCreate (accessKey filmFile.hash filmFile.name)
    (cacheFilename filmFile.file filmFile.fileIdx) 100 0 .allOk).1

theorem namesClean_of_keys {fs : Fs} (h : ∀ p ∈ fs.nodes.keys, ∀ c ∈ p, '/' ∉ c.toList) :
    NamesClean fs := by
  intro p hp
  exact h p (AList.mem_keys.mp (AList.lookup_isSome.mp (Option.isSome_iff_ne_none.mpr hp)))

/-- The film is no candidate, and the time stamp goes. -/
theorem scan_takes_timestamp :
    filmFile.path filmStore = ["cache", "HASH", "Film", "Film.mkv"] ∧
    (filmStore.fs.lookup (filmFile.path filmStore)).isSome = true ∧
    ¬SeesCached filmStore {filmFile} ∧
    (filmStore.fs.lookup ["cache", "cdn_cache", "network_test_timestamp"]).isSome = true ∧
    ¬SparesOthers filmStore {filmFile} := by
  have hclean : NamesClean filmStore.fs := namesClean_of_keys (by decide)
  have hpath : filmFile.path filmStore = ["cache", "HASH", "Film", "Film.mkv"] := by decide
  refine ⟨hpath, by decide, fun hsees => ?_, by decide, fun hspares => ?_⟩
  · obtain ⟨c, hc, -, hkey⟩ := hsees _ (faithful_oneBlockAt filmStore []) filmFile rfl
    exact cached_not_candidate hclean _ filmFile c hc hkey
  · have hgone := @touched_two_levels filmStore "cdn_cache" "network_test_timestamp" .empty rfl
      (by decide) (by decide)
    obtain ⟨x, rfl, heq⟩ := hspares 0 diskOrphanMinAgeSecs _ (faithful_oneBlockAt filmStore _) _
      (by decide) hgone
    rw [hpath] at heq
    exact absurd heq (by decide)

theorem mapOf_cdnStore (filename : String) : MapOf ∅ (cdnStore filename) :=
  fun key hkey => absurd rfl hkey

/-- With nothing cached, the CDN test's results are safe: they have an extension.  With the film
    cached, the scan does not see the cache. -/
theorem lru_sees_cache_iff_results :
    (SeesCached (cdnStore "network_test_results.json") ∅ ∧
      SparesOthers (cdnStore "network_test_results.json") ∅) ∧
    ¬(SeesCached filmStore (insert filmFile ∅) ∧ SparesOthers filmStore (insert filmFile ∅)) := by
  have hfilm := lru_sees_cache_iff filmStore (insert filmFile ∅) (namesClean_of_keys (by decide))
    (mapOf_getOrCreate (mapOf_cdnStore _) filmFile 100 0 .allOk)
  refine ⟨(lru_sees_cache_iff _ ∅ (namesClean_of_keys (by decide)) (mapOf_cdnStore _)).mpr
    ⟨rfl, ?_⟩, fun h => (Set.insert_nonempty _ _).ne_empty (hfilm.mp h).1⟩
  · intro top sub f hfile
    have hkeys : ∀ p ∈ (cdnStore "network_test_results.json").fs.nodes.keys, p.length = 3 →
        p.getLast? = some "network_test_results.json" := by decide
    have hmem := AList.mem_keys.mp (AList.lookup_isSome.mp (Option.isSome_of_mem hfile))
    have hlast := hkeys _ hmem rfl
    rw [List.getLast?_concat, Option.some.injEq] at hlast
    rw [hlast]
    decide

end RdRs.Fuse

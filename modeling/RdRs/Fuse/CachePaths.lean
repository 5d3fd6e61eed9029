/-
  Where the cache puts the files that are read, and what the clean-ups make of that.

  `read` caches a file under `cache_dir / <hash>/<name> / <base name>`.  The base name is sanitised and
  is always one name; the access key is not, so that a torrent's name brings its own slashes and `..`
  into the path.

  * `stays_inside_iff` — reading, `invalidate` and `ttl_cleanup` keep to the inside of the cache
    directory exactly when every access key, walked from there, ends in it.
-/
import RdRs.Cache.Eviction
import RdRs.Cache.Paths
import RdRs.Fuse.Resolve

set_option linter.unusedVariables false

namespace RdRs.Fuse

open RdRs.Cache RdRs.Rd RdRs.FileTree

/-! ## The name of a cached file -/

/-- The file name `read` gives to the cache. -/
def cacheFilename (file : File) (fileIdx : Nat) : String := sanitizeFilename (baseName file fileIdx)

/-- A name that a walk goes down to. -/
def IsPlain (s : String) : Prop := IsName s ∧ s ≠ ".."

theorem sanitizeChar_eq_dot {c : Char} (h : sanitizeChar c = '.') : c = '.' := by
  rw [sanitizeChar] at h
  split at h
  · exact h
  · exact absurd h (by decide)

theorem sanitizeChar_ne_slash (c : Char) : sanitizeChar c ≠ '/' := by
  rw [sanitizeChar]
  split
  · rename_i hsafe
    rintro rfl
    exact absurd hsafe (by decide)
  · decide

/-- Dots come from dots only. -/
theorem map_sanitizeChar_dots {cs : List Char} {n : Nat}
    (h : cs.map sanitizeChar = List.replicate n '.') : cs = List.replicate n '.' := by
  have hlen := congrArg List.length h
  rw [List.length_map, List.length_replicate] at hlen
  refine List.eq_replicate_iff.mpr ⟨hlen, fun c hc => sanitizeChar_eq_dot ?_⟩
  exact (List.eq_replicate_iff.mp h).2 _ (List.mem_map_of_mem hc)

/-- Slashes are replaced, and dots come from dots only. -/
theorem isPlain_sanitize {name : String} (hempty : name ≠ "") (hdot : name ≠ ".")
    (hup : name ≠ "..") : IsPlain (sanitizeFilename name) := by
  have hdots : ∀ n, sanitizeFilename name = String.ofList (List.replicate n '.') →
      name = String.ofList (List.replicate n '.') := by
    intro n hn
    rw [sanitizeFilename, String.ofList_inj] at hn
    rw [← map_sanitizeChar_dots hn, String.ofList_toList]
  refine ⟨⟨?_, fun h => hempty (hdots 0 h), fun h => hdot (hdots 1 h)⟩, fun h => hup (hdots 2 h)⟩
  rw [sanitizeFilename, String.toList_ofList]
  intro hmem
  obtain ⟨c, -, hc⟩ := List.mem_map.mp hmem
  exact sanitizeChar_ne_slash c hc

/-- **The cached file's name is one plain name**, whatever the path Real-Debrid gives. -/
theorem isPlain_cacheFilename (file : File) (fileIdx : Nat) : IsPlain (cacheFilename file fileIdx) := by
  rw [cacheFilename, baseName]
  cases hname : fileName file.path with
  | none =>
    have hhead : ("file_" ++ toString fileIdx).toList.head? = some 'f' := by
      rw [String.toList_append]
      rfl
    have hne : ∀ s : String, s.toList.head? ≠ some 'f' → "file_" ++ toString fileIdx ≠ s := by
      intro s hs heq
      exact hs (heq ▸ hhead)
    exact isPlain_sanitize (hne "" (by decide)) (hne "." (by decide)) (hne ".." (by decide))
  | some name =>
    rw [fileName] at hname
    split at hname
    · exact absurd hname nofun
    · rename_i c hlast
      obtain ⟨hempty, hdot⟩ := of_decide_eq_true (List.mem_filter.mp (List.mem_of_getLast? hlast)).2
      split at hname
      · exact absurd hname nofun
      · rename_i hup
        obtain rfl := Option.some.inj hname
        exact isPlain_sanitize (fun h => hempty (String.ofList_inj.mp h))
          (fun h => hdot (String.ofList_inj.mp h)) (fun h => hup (String.ofList_inj.mp h))

/-! ## The path of a cached file -/

/-- The file of a key is the plain name, below where the access key leads. -/
theorem fileOf_plain (s : Store) (ak : String) {filename : String} (h : IsPlain filename) :
    s.fileOf ak filename = (s.dir.join ak).resolve ++ [filename] := by
  have hrel : ¬filename.toList.head? = some '/' := by
    intro hhead
    exact h.1.no_slash (List.mem_of_head? hhead)
  rw [Store.fileOf, Path.join, if_neg hrel, h.1.components_eq, resolve_append_name _ h.2]

/-- Joining the key at once leads to the same file. -/
theorem stalePath_buildKey (s : Store) {ak filename : String} (hak : ak ≠ "") (h : IsPlain filename) :
    s.stalePath (buildKey ak filename) = s.fileOf ak filename := by
  obtain ⟨c, cs, hcs⟩ := List.exists_cons_of_ne_nil fun h' => hak (String.toList_inj.mp h')
  have hhead : (buildKey ak filename).toList.head? = ak.toList.head? := by
    rw [buildKey, String.toList_append, String.toList_append, hcs]
    rfl
  rw [fileOf_plain s ak h, Store.stalePath, Path.join, Path.join, hhead, buildKey, components_slash,
    h.1.components_eq]
  split
  · exact resolve_append_name _ h.2
  · rw [← List.append_assoc]
    exact resolve_append_name _ h.2

theorem accessKey_ne_empty (hash name : String) : accessKey hash name ≠ "" := by
  intro h
  have hmem : '/' ∈ (accessKey hash name).toList := by
    rw [accessKey, String.toList_append, String.toList_append]
    exact List.mem_append_left _ (List.mem_append_right _ (List.mem_singleton.mpr rfl))
  rw [h] at hmem
  exact List.not_mem_nil hmem

/-- **The condition on an access key.**  A relative key that climbs out of the directory goes down
    again through the directories it left; an absolute key, its `..` taken, begins with the
    directory. -/
def EndsInside (dir : Path) (key : String) : Prop :=
  if key.toList.head? = some '/' then dir.resolve <+: (climb (components key)).2
  else ComesBack dir.resolve (components key)

theorem prefix_join_iff (dir : Path) (key : String) :
    dir.resolve <+: (dir.join key).resolve ↔ EndsInside dir key := by
  rw [EndsInside, Path.join]
  split
  · have hroot := resolve_append [] (components key)
    rw [List.nil_append, show Path.resolve [] = [] from rfl, List.take_nil, List.nil_append] at hroot
    rw [hroot]
  · exact prefix_walk_iff dir (components key)

theorem below_fileOf_iff (s : Store) (ak : String) (file : File) (fileIdx : Nat) :
    Below s.dir (s.fileOf ak (cacheFilename file fileIdx)) ↔ EndsInside s.dir ak := by
  rw [fileOf_plain s ak (isPlain_cacheFilename file fileIdx), below_append_name, prefix_join_iff]

/-! ## What is removed -/

/-- The path holds something else, or nothing any more. -/
def Touched (fs fs' : Fs) (p : Path) : Prop := fs'.lookup p ≠ fs.lookup p

theorem eq_of_touched_invalidate {s : Store} {ak filename : String} {removeOk dbOk : Bool} {p : Path}
    (h : Touched s.fs (s.invalidate ak filename removeOk dbOk).fs p) : p = s.fileOf ak filename := by
  by_contra hp
  exact h (s.fs.lookup_remove_ne removeOk hp)

/-- Induction on the keys: a path that none of them names stays as it is. -/
theorem lookup_ttlRemove (path : String → Path) (io : EvictIo) (p : Path) : ∀ (keys : List String)
    (fs : Fs), (∀ key ∈ keys, p ≠ path key) →
      (Store.ttlRemove path io keys fs).1.lookup p = fs.lookup p
  | [], fs, h => rfl
  | key :: keys, fs, h =>
    (lookup_ttlRemove path io p keys _ fun k hk => h k (List.mem_cons_of_mem key hk)).trans
      (fs.lookup_remove_ne _ (h key List.mem_cons_self))

theorem mem_staleKeys {db : RangeDb} {olderThan : Int} {limit : Nat} {key : String}
    (h : key ∈ db.staleKeys olderThan limit) : key ∈ db := by
  obtain ⟨row, hrow, rfl⟩ := List.mem_map.mp (List.mem_of_mem_take h)
  have hentry := (List.mem_filter.mp ((List.perm_insertionSort _ _).mem_iff.mp hrow)).1
  exact AList.mem_keys.mpr (List.mem_map_of_mem hentry)

theorem touched_ttlCleanup {s : Store} {maxAge now : Nat} {io : EvictIo} {p : Path}
    (h : Touched s.fs (s.ttlCleanup maxAge now io).fs p) : ∃ key ∈ s.db, p = s.stalePath key := by
  by_contra hall
  push Not at hall
  apply h
  unfold Store.ttlCleanup
  split
  · rfl
  · split
    · rfl
    · exact lookup_ttlRemove s.stalePath io p _ s.fs fun key hkey =>
        hall key (mem_staleKeys (List.mem_filter.mp hkey).1)

/-! ## Staying inside -/

/-- The table holds keys of these torrents' files only. -/
def RowsOf (torrents : Set (String × String)) (db : RangeDb) : Prop :=
  ∀ key ∈ db, ∃ t ∈ torrents, ∃ (file : File) (fileIdx : Nat),
    key = buildKey (accessKey t.1 t.2) (cacheFilename file fileIdx)

/-- **The cache keeps to its directory**, for torrents of these hashes and names: strictly below it
    are the sparse file that `read` creates for any file, and every path that `invalidate` or
    `ttl_cleanup` removes. -/
def StaysInside (dir : Path) (torrents : Set (String × String)) : Prop :=
  ∀ s : Store, s.dir = dir →
    (∀ t ∈ torrents, ∀ (file : File) (fileIdx : Nat),
      Below dir (s.fileOf (accessKey t.1 t.2) (cacheFilename file fileIdx)) ∧
      ∀ removeOk dbOk p, Touched s.fs (s.invalidate (accessKey t.1 t.2)
        (cacheFilename file fileIdx) removeOk dbOk).fs p → Below dir p) ∧
    (RowsOf torrents s.db → ∀ maxAge now io p,
      Touched s.fs (s.ttlCleanup maxAge now io).fs p → Below dir p)

/-- Nothing cached. -/
def emptyStore (dir : Path) : Store := ⟨dir, .init, ∅, [], ∅⟩

/-- **When the cache keeps to its directory**: exactly when every access key ends inside. -/
theorem stays_inside_iff (dir : Path) (torrents : Set (String × String)) :
    StaysInside dir torrents ↔ ∀ t ∈ torrents, EndsInside dir (accessKey t.1 t.2) := by
  constructor
  · intro h t ht
    have hfile := (((h (emptyStore dir) rfl).1 t ht ⟨1, "/a.mkv", 1, 1⟩ 0)).1
    exact (below_fileOf_iff (emptyStore dir) _ _ _).mp hfile
  · rintro h s rfl
    have hbelow : ∀ t ∈ torrents, ∀ (file : File) (fileIdx : Nat),
        Below s.dir (s.fileOf (accessKey t.1 t.2) (cacheFilename file fileIdx)) :=
      fun t ht file fileIdx => (below_fileOf_iff s _ _ _).mpr (h t ht)
    refine ⟨fun t ht file fileIdx => ⟨hbelow t ht file fileIdx, ?_⟩, ?_⟩
    · intro removeOk dbOk p hp
      rw [eq_of_touched_invalidate hp]
      exact hbelow t ht file fileIdx
    · intro hrows maxAge now io p hp
      obtain ⟨key, hkey, rfl⟩ := touched_ttlCleanup hp
      obtain ⟨t, ht, file, fileIdx, rfl⟩ := hrows key hkey
      rw [stalePath_buildKey s (accessKey_ne_empty _ _) (isPlain_cacheFilename file fileIdx)]
      exact hbelow t ht file fileIdx

/-- A file of a torrent called `../../../etc` is cached as `/etc/passwd`. -/
theorem name_climbs_out :
    (emptyStore ["var", "cache"]).fileOf (accessKey "HASH" "../../../etc")
      (cacheFilename ⟨1, "/passwd", 1, 1⟩ 0) = ["etc", "passwd"] ∧
    ¬StaysInside ["var", "cache"] {("HASH", "../../../etc")} := by
  have hfile : (emptyStore ["var", "cache"]).fileOf (accessKey "HASH" "../../../etc")
      (cacheFilename ⟨1, "/passwd", 1, 1⟩ 0) = ["etc", "passwd"] := by decide
  refine ⟨hfile, fun h => ?_⟩
  have hbelow := ((h (emptyStore ["var", "cache"]) rfl).1 _ rfl ⟨1, "/passwd", 1, 1⟩ 0).1
  rw [hfile] at hbelow
  exact absurd hbelow.1 (by decide)

end RdRs.Fuse

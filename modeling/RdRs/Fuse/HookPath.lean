/-
  The paths sent to the `on_library_update` hook, walked in the mount.

  Refresh and state updates send `__all__/<hash>/<name>`, the access key as it is.  The directory
  `__all__` lists torrents under their display names, and below a torrent there are files only.  So a
  walk that follows the path needs the access key to be a single name of the list.

  * `walk_from_dir` — below `__all__` no walk comes to a directory again;
  * `hook_path_reaches_iff` — when the walk ends at the torrent's directory;
  * `hash_and_name_miss` — never, once hash and name both have a component.
-/
import RdRs.Cache.Paths
import RdRs.Fuse.TorrentDir
import RdRs.Torrent.Refresh

set_option linter.unusedVariables false

namespace RdRs.Fuse

open RdRs.Rd RdRs.Cache RdRs.Torrent

/-! ## Walking a path -/

/-- One `lookup` for each component, from an inode on; `none` inside is `ENOENT`. -/
def walk (ensure : EnsureInfo) (now : Nat) : RdFs → Nat → List String → Option (Option Nat × RdFs)
  | fs, inode, [] => some (some inode, fs)
  | fs, inode, c :: cs => do
    let (found, fs) ← lookup fs ensure now inode c
    match found with
    | none => pure (none, fs)
    | some child => walk ensure now fs child cs

/-- **The path leads to the torrent's directory**: the walk from the root ends at a directory's inode,
    and it is the one the torrent has. -/
def Reaches (fs : RdFs) (ensure : EnsureInfo) (now : Nat) (path key : String) : Prop :=
  ∃ inode fs', walk ensure now fs inodeRoot (components path) = some (some inode, fs') ∧
    IsDirInode inode ∧ fs'.inodes.keyToInode.lookup key = some inode

theorem walk_cons_some {ensure : EnsureInfo} {now : Nat} {fs fs₁ : RdFs} {parent child : Nat}
    {c : String} (h : lookup fs ensure now parent c = some (some child, fs₁)) (cs : List String) :
    walk ensure now fs parent (c :: cs) = walk ensure now fs₁ child cs := by
  rw [walk, h]
  rfl

/-- A walk that ends found its first component. -/
theorem walk_cons_eq_some {ensure : EnsureInfo} {now : Nat} {fs fs' : RdFs} {parent inode : Nat}
    {c : String} {cs : List String}
    (h : walk ensure now fs parent (c :: cs) = some (some inode, fs')) :
    ∃ child fs₁, lookup fs ensure now parent c = some (some child, fs₁) ∧
      walk ensure now fs₁ child cs = some (some inode, fs') := by
  rw [walk] at h
  cases hlook : lookup fs ensure now parent c with
  | none =>
    rw [hlook] at h
    exact absurd h nofun
  | some r =>
    obtain ⟨found, fs₁⟩ := r
    rw [hlook] at h
    cases found with
    | none => exact absurd h nofun
    | some child => exact ⟨child, fs₁, rfl, h⟩

/-! ## Below `__all__` -/

/-- What is found in a torrent's directory is a file. -/
theorem lookup_from_dir {fs fs' : RdFs} {ensure : EnsureInfo} {now parent child : Nat} {c : String}
    (hparent : inodeTorrentBase ≤ parent)
    (h : lookup fs ensure now parent c = some (some child, fs')) : inodeFileBase ≤ child := by
  have hlow : 3 ≤ parent := hparent
  have hroot : ¬parent = inodeRoot := by
    show ¬parent = 1
    omega
  have hall : ¬parent = inodeAll := by
    show ¬parent = 2
    omega
  rw [lookup, if_neg hroot, if_neg hall] at h
  split at h
  · obtain ⟨found, hfound, heq⟩ := Option.map_eq_some_iff.mp h
    obtain ⟨rfl, -⟩ := Prod.mk.inj heq
    rw [lookupDir] at hfound
    split at hfound
    · exact absurd (Option.some.inj hfound).symm (Option.some_ne_none child)
    · obtain ⟨file, -, hfile⟩ := Option.map_eq_some_iff.mp hfound
      obtain ⟨fi, -, rfl⟩ := Option.map_eq_some_iff.mp hfile
      rw [fileInode]
      omega
  · exact absurd (Prod.mk.inj (Option.some.inj h)).1.symm (Option.some_ne_none child)

/-- Induction on the components: from a directory on, every walk ends at a file or nowhere. -/
theorem walk_from_dir {ensure : EnsureInfo} {now : Nat} : ∀ (cs : List String) (fs fs' : RdFs)
    (parent inode : Nat), cs ≠ [] → inodeTorrentBase ≤ parent →
      walk ensure now fs parent cs = some (some inode, fs') → ¬IsDirInode inode
  | [], fs, fs', parent, inode, hne, _, _ => absurd rfl hne
  | c :: cs, fs, fs', parent, inode, _, hparent, h => by
    obtain ⟨child, fs₁, hlook, hrest⟩ := walk_cons_eq_some h
    have hchild : 2 ^ 32 ≤ child := lookup_from_dir hparent hlook
    cases cs with
    | nil =>
      obtain ⟨heq, -⟩ := Prod.mk.inj (Option.some.inj hrest)
      obtain rfl := Option.some.inj heq
      exact fun hdir => absurd hdir.2 (not_lt.mpr hchild)
    | cons d ds =>
      have hbase : inodeTorrentBase ≤ child := by
        show 3 ≤ child
        omega
      exact walk_from_dir (d :: ds) fs₁ fs' child inode (List.cons_ne_nil d ds) hbase hrest

/-! ## In `__all__` -/

/-- Every inode of the table is one that the table hands out. -/
structure FromBase (t : InodeTable) : Prop where
  next : inodeTorrentBase ≤ t.next
  assigned : ∀ k i, t.keyToInode.lookup k = some i → inodeTorrentBase ≤ i

theorem fromBase_empty : FromBase .empty :=
  ⟨le_refl _, fun k i h => absurd h (by simp [InodeTable.empty])⟩

theorem FromBase.le_getOrAssign {t : InodeTable} (h : FromBase t) (key : String) :
    inodeTorrentBase ≤ (t.getOrAssign key).1 := by
  rw [InodeTable.getOrAssign]
  split
  · rename_i inode hinode
    exact h.assigned key inode hinode
  · exact h.next

/-- Handing out an inode keeps it so. -/
theorem FromBase.getOrAssign {t : InodeTable} (h : FromBase t) (key : String) :
    FromBase (t.getOrAssign key).2 := by
  have hkey := h.le_getOrAssign key
  have hlook := t.getOrAssign_lookup key
  constructor
  · rw [InodeTable.getOrAssign]
    split
    · exact h.next
    · exact Nat.le_succ_of_le h.next
  · intro k i hk
    by_cases hkk : k = key
    · subst hkk
      rw [hlook] at hk
      obtain rfl := Option.some.inj hk
      exact hkey
    · refine h.assigned k i ?_
      rw [InodeTable.getOrAssign] at hk
      split at hk
      · exact hk
      · rw [AList.lookup_insert_ne hkk] at hk
        exact hk

/-- The entry `lookup` takes for a name: the first of that name. -/
def firstNamed (keys : List (String × String)) (name : String) : Option String :=
  (keys.find? fun e => e.2 == name).map Prod.fst

/-- What `lookup` answers with the list `keys`. -/
def freshAnswer (fs : RdFs) (now : Nat) (name : String) (keys : List (String × String)) :
    Option Nat × RdFs :=
  (firstNamed keys name).elim (none, { fs with cachedAllDir := (now, keys) }) fun key =>
    (some (fs.inodes.getOrAssign key).1,
      { fs with cachedAllDir := (now, keys), inodes := (fs.inodes.getOrAssign key).2 })

/-- `lookup` in `__all__` with the list built anew. -/
theorem lookup_all_fresh {fs : RdFs} {ensure : EnsureInfo} {now : Nat}
    (hexp : 15 * 10 ^ 9 ≤ now - fs.cachedAllDir.1) (name : String) :
    lookup fs ensure now inodeAll name =
      (buildSortedKeys fs.torrents).map (freshAnswer fs now name) := by
  have hroot : ¬inodeAll = inodeRoot := by decide
  rw [lookup, if_neg hroot, if_pos rfl, lookupAll, getSortedKeys, if_neg (not_lt.mpr hexp)]
  cases hbuild : buildSortedKeys fs.torrents with
  | none => rfl
  | some keys =>
    -- whatever is listed is in the registry
    have hfind : keys.find? (fun e => e.2 == name && (fs.torrents.lookup e.1).isSome) =
        keys.find? fun e => e.2 == name := by
      refine List.find?_congr fun e he => ?_
      rw [lookup_isSome_of_listed hbuild he, Bool.and_true]
    simp only [Option.bind_eq_bind, Option.bind_some, Option.pure_def, Option.map_some, freshAnswer,
      firstNamed, hfind]
    cases keys.find? (fun e => e.2 == name) with
    | none => rfl
    | some e => rfl

theorem lookup_all_eq_some {fs fs' : RdFs} {ensure : EnsureInfo} {now child : Nat}
    (hexp : 15 * 10 ^ 9 ≤ now - fs.cachedAllDir.1) {name : String}
    (h : lookup fs ensure now inodeAll name = some (some child, fs')) :
    ∃ keys key, buildSortedKeys fs.torrents = some keys ∧ firstNamed keys name = some key ∧
      child = (fs.inodes.getOrAssign key).1 ∧ fs'.inodes = (fs.inodes.getOrAssign key).2 := by
  rw [lookup_all_fresh hexp] at h
  obtain ⟨keys, hkeys, hanswer⟩ := Option.map_eq_some_iff.mp h
  rw [freshAnswer] at hanswer
  cases hfirst : firstNamed keys name with
  | none =>
    rw [hfirst] at hanswer
    exact absurd (Prod.mk.inj hanswer).1 nofun
  | some key =>
    rw [hfirst] at hanswer
    obtain ⟨hchild, rfl⟩ := Prod.mk.inj hanswer
    exact ⟨keys, key, hkeys, hfirst, (Option.some.inj hchild).symm, rfl⟩

/-! ## The hook's paths -/

/-- **The condition.**  The access key is one name, the torrent is the first that the list has under
    it, and its inode is a directory's. -/
def NamedByKey (fs : RdFs) (key : String) : Prop :=
  ∃ name keys, components key = [name] ∧ buildSortedKeys fs.torrents = some keys ∧
    firstNamed keys name = some key ∧ IsDirInode (fs.inodes.getOrAssign key).1

theorem components_pathOf (key : String) : components (pathOf key) = allDir :: components key := by
  have htext : pathOf key = "__all__" ++ "/" ++ key := rfl
  rw [htext, components_slash]
  rfl

theorem lookup_root (fs : RdFs) (ensure : EnsureInfo) (now : Nat) :
    lookup fs ensure now inodeRoot allDir = some (some inodeAll, fs) := rfl

theorem reaches_pathOf_iff {fs : RdFs} {ensure : EnsureInfo} {now : Nat} {key : String}
    (hexp : 15 * 10 ^ 9 ≤ now - fs.cachedAllDir.1) (hbase : FromBase fs.inodes) :
    Reaches fs ensure now (pathOf key) key ↔ NamedByKey fs key := by
  rw [Reaches, components_pathOf]
  simp only [walk_cons_some (lookup_root fs ensure now)]
  constructor
  · rintro ⟨inode, fs', hwalk, hdir, hinode⟩
    cases hcs : components key with
    | nil =>
      -- the walk stays in `__all__`
      rw [hcs] at hwalk
      obtain ⟨heq, -⟩ := Prod.mk.inj (Option.some.inj hwalk)
      obtain rfl := Option.some.inj heq
      exact absurd hdir.1 (by decide)
    | cons name rest =>
      rw [hcs] at hwalk
      obtain ⟨child, fs₁, hlook, hrest⟩ := walk_cons_eq_some hwalk
      obtain ⟨keys, key', hkeys, hfirst, rfl, hinodes⟩ := lookup_all_eq_some hexp hlook
      cases rest with
      | cons d ds =>
        exact absurd hdir (walk_from_dir (d :: ds) fs₁ fs' _ inode (List.cons_ne_nil d ds)
          (hbase.le_getOrAssign key') hrest)
      | nil =>
        obtain ⟨heq, rfl⟩ := Prod.mk.inj (Option.some.inj hrest)
        obtain rfl := Option.some.inj heq
        have hkey : key' = key := by
          rw [hinodes] at hinode
          exact (fs.inodes.getOrAssign key').2.injective (fs.inodes.getOrAssign_lookup key') hinode
        subst hkey
        exact ⟨name, keys, hcs, hkeys, hfirst, hdir⟩
  · rintro ⟨name, keys, hcs, hkeys, hfirst, hdir⟩
    have hlook : lookup fs ensure now inodeAll name = some (some (fs.inodes.getOrAssign key).1,
        { fs with cachedAllDir := (now, keys), inodes := (fs.inodes.getOrAssign key).2 }) := by
      rw [lookup_all_fresh hexp, hkeys, Option.map_some, freshAnswer, hfirst]
      rfl
    rw [hcs, walk_cons_some hlook]
    exact ⟨_, _, rfl, hdir, fs.inodes.getOrAssign_lookup key⟩

/-- **When the hook's paths lead to the torrent**, both the path of a refresh and those of a state
    update: exactly when the access key is one name, and the list has the torrent first under it. -/
theorem hook_path_reaches_iff (fs : RdFs) (ensure : EnsureInfo) (now : Nat) (key : String)
    (mt : ManagedTorrent) (hexp : 15 * 10 ^ 9 ≤ now - fs.cachedAllDir.1) (hbase : FromBase fs.inodes)
    (hmt : fs.torrents.lookup key = some mt) (hkey : mt.accessKey = key) :
    (∀ path ∈ pathOf key :: libraryPathsFor mt, Reaches fs ensure now path key) ↔
      NamedByKey fs key := by
  have hpath : libraryPathsFor mt = [pathOf key] := by
    rw [libraryPathsFor, hkey]
    rfl
  have hiff : Reaches fs ensure now (pathOf key) key ↔ NamedByKey fs key :=
    reaches_pathOf_iff hexp hbase
  rw [hpath, ← hiff]
  simp

/-- With a component in the hash and one in the name, the walk never ends at a directory. -/
theorem hash_and_name_miss {fs : RdFs} {hash name : String} (hhash : components hash ≠ [])
    (hname : components name ≠ []) : ¬NamedByKey fs (accessKey hash name) := by
  rintro ⟨c, keys, hone, -, -, -⟩
  rw [accessKey, components_slash] at hone
  have hlen := congrArg List.length hone
  rw [List.length_append, List.length_singleton] at hlen
  have hpos := List.length_pos_iff.mpr hhash
  have hpos' := List.length_pos_iff.mpr hname
  omega

/-- The torrent `Film` is listed as `Film`, and the hook is told of `__all__/HASH/Film`. -/
theorem hook_path_misses :
    (fsOf [("HASH/Film", "Film")]).torrents.lookup (accessKey "HASH" "Film") ≠ none ∧
    buildSortedKeys (fsOf [("HASH/Film", "Film")]).torrents = some [("HASH/Film", "Film")] ∧
    walk (fun _ => none) (600 * 10 ^ 9) (fsOf [("HASH/Film", "Film")]) inodeRoot
        (components (pathOf (accessKey "HASH" "Film"))) =
      some (none, { fsOf [("HASH/Film", "Film")] with
        cachedAllDir := (600 * 10 ^ 9, [("HASH/Film", "Film")]) }) ∧
    ¬Reaches (fsOf [("HASH/Film", "Film")]) (fun _ => none) (600 * 10 ^ 9)
      (pathOf (accessKey "HASH" "Film")) (accessKey "HASH" "Film") := by
  have hwalk : walk (fun _ => none) (600 * 10 ^ 9) (fsOf [("HASH/Film", "Film")]) inodeRoot
        (components (pathOf (accessKey "HASH" "Film"))) =
      some (none, { fsOf [("HASH/Film", "Film")] with
        cachedAllDir := (600 * 10 ^ 9, [("HASH/Film", "Film")]) }) := by
    rfl
  refine ⟨by decide, rfl, hwalk, ?_⟩
  rintro ⟨inode, fs', hreach, -, -⟩
  exact absurd (Prod.mk.inj (Option.some.inj (hwalk.symm.trans hreach))).1 nofun

/-- A torrent without a hash is listed as its own key. -/
theorem hook_path_reaches_iff_no_hash :
    NamedByKey (fsOf [("/Film", "Film")]) "/Film" ∧
    Reaches (fsOf [("/Film", "Film")]) (fun _ => none) (600 * 10 ^ 9) (pathOf "/Film") "/Film" := by
  have hnamed : NamedByKey (fsOf [("/Film", "Film")]) "/Film" :=
    ⟨"Film", [("/Film", "Film")], by decide, rfl, rfl, by decide, by decide⟩
  refine ⟨hnamed, ?_⟩
  exact (hook_path_reaches_iff (fsOf [("/Film", "Film")]) (fun _ => none) (600 * 10 ^ 9) "/Film" _
    (by decide) fromBase_empty rfl rfl).mpr hnamed _ List.mem_cons_self

end RdRs.Fuse

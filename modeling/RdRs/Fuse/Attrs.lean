/-
  `fuse/fs_lookup.rs`, `fs_readdir.rs`, `fs_readdirplus.rs`, `fs_helpers.rs` — kinds and attributes.

  The kernel caches attributes by inode, and gets them from three operations: `lookup`, `readdirplus`
  and `getattr`.  Each makes them on its own: from the record in the registry, from the record that
  `ensure_torrent_info` answers, or from an index decoded out of the inode.

  * `lookup`, `readdir`, `readdirplus` and `getattr` are here whole, with the directories above the
    torrents; forgetting kinds and attributes leaves the listings of `AllDir` and `TorrentDir`
    (`readdirplus_all_entries`, `readdirplus_dir_entries`).
  * `attributes_agree` — over any run of these operations, while the registry gets and loses torrents
    and their details, all replies about one inode carry the same attributes.
  * `ensureTorrentInfo_shown` — what `ensure_torrent_info` answers is the registry's record with the
    detail it has or fetches, as the run asks for.
-/
import RdRs.Lib.Runs
import RdRs.Fuse.HookPath
import RdRs.Torrent.Manager

set_option linter.unusedVariables false

namespace RdRs.Fuse

open RdRs.Rd RdRs.Runs

/-! ## Attributes -/

/-- `FileType`, of which two kinds are served -/
inductive FileType where
  | directory
  | regularFile
deriving Repr, DecidableEq

/-- `Timestamp` -/
structure Timestamp where
  sec : Nat
  nsec : Nat
deriving Repr, DecidableEq

/-- `UNIX_EPOCH` -/
def unixEpoch : Timestamp := ⟨0, 0⟩

/-- `FileAttr` -/
structure FileAttr where
  ino : Nat
  size : Nat
  blocks : Nat
  atime : Timestamp
  mtime : Timestamp
  ctime : Timestamp
  kind : FileType
  perm : Nat
  nlink : Nat
  uid : Nat
  gid : Nat
  rdev : Nat
  blksize : Nat
deriving Repr, DecidableEq

/-- `RdFs::dir_attr` -/
def dirAttr (inode : Nat) : FileAttr where
  ino := inode
  size := 0
  blocks := 0
  atime := unixEpoch
  mtime := unixEpoch
  ctime := unixEpoch
  kind := .directory
  perm := 0o555
  nlink := 2
  uid := 0
  gid := 0
  rdev := 0
  blksize := 512

/-- `RdFs::file_attr`; the blocks are `size.div_ceil(512)`. -/
def fileAttr (inode size : Nat) (mtime : Timestamp) : FileAttr where
  ino := inode
  size := size
  blocks := (size + 511) / 512
  atime := mtime
  mtime := mtime
  ctime := mtime
  kind := .regularFile
  perm := 0o444
  nlink := 1
  uid := 0
  gid := 0
  rdev := 0
  blksize := 4096

/-- `RdFs::torrent_mtime`: when the torrent was added, and not before 1970. -/
def torrentMtime (mt : ManagedTorrent) : Timestamp := ⟨mt.torrent.added.toNat, 0⟩

/-- `dir_attr` with the three times set, as `lookup`, `readdirplus` and `getattr` each do. -/
def datedDirAttr (inode : Nat) (mtime : Timestamp) : FileAttr :=
  { dirAttr inode with mtime := mtime, atime := mtime, ctime := mtime }

/-- The attributes of a selected file, `file.bytes.max(0) as u64` being its size. -/
def attrOfFile (inode : Nat) (mt : ManagedTorrent) (file : File) : FileAttr :=
  fileAttr inode file.bytes.toNat (torrentMtime mt)

/-- `attr_timeout_secs` and `entry_timeout_secs` of the mount -/
structure Ttls where
  attr : Nat
  entry : Nat

/-! ## The operations -/

/-- A `DirectoryEntry` of `readdir`, with its kind. -/
structure KindedEntry extends DirectoryEntry where
  kind : FileType
deriving Repr, DecidableEq

/-- `DirectoryEntryPlus` -/
structure DirectoryEntryPlus extends KindedEntry where
  generation : Nat
  attr : FileAttr
  entryTtl : Nat
  attrTtl : Nat
deriving Repr, DecidableEq

/-- `ReplyEntry` -/
structure ReplyEntry where
  ttl : Nat
  attr : FileAttr
  generation : Nat
deriving Repr, DecidableEq

/-- `ReplyAttr` -/
structure ReplyAttr where
  ttl : Nat
  attr : FileAttr
deriving Repr, DecidableEq

section

variable (ttls : Ttls)

/-- An entry with its attributes; the generation is always 0. -/
def plus (inode : Nat) (name : String) (offset : Int) (kind : FileType) (attr : FileAttr) :
    DirectoryEntryPlus :=
  ⟨⟨⟨inode, name, offset⟩, kind⟩, 0, attr, ttls.entry, ttls.attr⟩

/-- The entries of the root directory. -/
def rootPlus : List DirectoryEntryPlus :=
  [plus ttls inodeRoot "." 1 .directory (dirAttr inodeRoot),
    plus ttls inodeRoot ".." 2 .directory (dirAttr inodeRoot),
    plus ttls inodeAll allDir 3 .directory (dirAttr inodeAll)]

/-- The entries `.` and `..` of `__all__`. -/
def allDotsPlus : List DirectoryEntryPlus :=
  [plus ttls inodeAll "." 1 .directory (dirAttr inodeAll),
    plus ttls inodeRoot ".." 2 .directory (dirAttr inodeRoot)]

/-- The loop over a page of `__all__`, whose first entry has the index `index`. -/
def pagePlus (torrents : AList (fun _ : String => ManagedTorrent)) (index : Nat)
    (inodes : InodeTable) : List (String × String) → List DirectoryEntryPlus × InodeTable
  | [] => ([], inodes)
  | (key, name) :: rest =>
    match torrents.lookup key with
    | some mt =>
      let (inode, inodes) := inodes.getOrAssign key
      let (entries, inodes) := pagePlus torrents (index + 1) inodes rest
      (plus ttls inode name (index + 3) .directory (datedDirAttr inode (torrentMtime mt)) :: entries,
        inodes)
    | none => pagePlus torrents (index + 1) inodes rest

/-- The entries `.` and `..` of a torrent's directory. -/
def dirDotsPlus (inode : Nat) (mt : ManagedTorrent) : List DirectoryEntryPlus :=
  [plus ttls inode "." 1 .directory (datedDirAttr inode (torrentMtime mt)),
    plus ttls inodeAll ".." 2 .directory (dirAttr inodeAll)]

/-- The loop over the selected files, from index `fi` on. -/
def filesPlus (slot : Nat) (mt : ManagedTorrent) : Nat → List File → Option (List DirectoryEntryPlus)
  | _, [] => some []
  | fi, file :: rest => do
    let fname ← entryName file
    let entries ← filesPlus slot mt (fi + 1) rest
    pure (plus ttls (fileInode slot fi) fname (fi + 3) .regularFile
      (attrOfFile (fileInode slot fi) mt file) :: entries)

/-- `readdirplus`; `none` is a panic of the sanitiser, `none` inside is `ENOENT`. -/
def readdirplus (fs : RdFs) (ensure : EnsureInfo) (now parent offset : Nat) :
    Option (Option (List DirectoryEntryPlus) × RdFs) :=
  let tail := fun entries : List DirectoryEntryPlus =>
    entries.filter fun e => decide (asI64 offset < e.offset)
  if parent = inodeRoot then some (some (tail (rootPlus ttls)), fs)
  else if parent = inodeAll then do
    let (keys, fs) ← getSortedKeys fs now
    let start := startIdx offset
    let (entries, inodes) := pagePlus ttls fs.torrents start fs.inodes ((keys.drop start).take 1000)
    pure (some (tail (allDotsPlus ttls ++ entries)), { fs with inodes := inodes })
  else if inodeTorrentBase ≤ parent ∧ parent < inodeFileBase then
    match dirTorrent fs ensure parent with
    | none => some (none, fs)
    | some mt => (filesPlus ttls (parent - inodeTorrentBase) mt 0 mt.selectedFiles).map fun entries =>
        (some (tail (dirDotsPlus ttls parent mt ++ entries)), fs)
  else some (none, fs)

/-- `readdir`, with the kinds of its entries. -/
def readdir (fs : RdFs) (ensure : EnsureInfo) (now inode : Nat) (offset : Int) :
    Option (Option (List KindedEntry) × RdFs) :=
  if inode = inodeRoot then
    some (some (((rootPlus ttls).map (·.toKindedEntry)).filter fun e => decide (offset < e.offset)), fs)
  else if inode = inodeAll then
    (readdirAll fs now offset).map fun r => (some (r.1.map (KindedEntry.mk · .directory)), r.2)
  else if inodeTorrentBase ≤ inode ∧ inode < inodeFileBase then
    match dirTorrent fs ensure inode with
    | none => some (none, fs)
    | some mt => (fileEntries (inode - inodeTorrentBase) 0 mt.selectedFiles).map fun entries =>
        (some (((dirDots inode).map (KindedEntry.mk · .directory) ++
          entries.map (KindedEntry.mk · .regularFile)).filter fun e => decide (offset < e.offset)), fs)
  else some (none, fs)

/-- `lookup`, with the attributes of its reply. -/
def lookupEntry (fs : RdFs) (ensure : EnsureInfo) (now parent : Nat) (name : String) :
    Option (Option ReplyEntry × RdFs) :=
  if parent = inodeRoot then
    some (if name = allDir then some ⟨ttls.entry, dirAttr inodeAll, 0⟩ else none, fs)
  else if parent = inodeAll then do
    let (keys, fs) ← getSortedKeys fs now
    match keys.find? fun e => e.2 == name && (fs.torrents.lookup e.1).isSome with
    | none => pure (none, fs)
    | some e =>
      match fs.torrents.lookup e.1 with
      | none => pure (none, fs)
      | some mt =>
        let (inode, inodes) := fs.inodes.getOrAssign e.1
        pure (some ⟨ttls.entry, datedDirAttr inode (torrentMtime mt), 0⟩, { fs with inodes := inodes })
  else if inodeTorrentBase ≤ parent ∧ parent < inodeFileBase then
    match dirTorrent fs ensure parent with
    | none => some (none, fs)
    | some mt => (findFile name 0 mt.selectedFiles).map fun found =>
        (do
          let fi ← found
          let file ← mt.selectedFiles[fi]?
          pure ⟨ttls.entry, attrOfFile (fileInode (parent - inodeTorrentBase) fi) mt file, 0⟩, fs)
  else some (none, fs)

/-- The attributes `getattr` answers; `none` is `ENOENT`. -/
def attrAt (fs : RdFs) (ensure : EnsureInfo) (inode : Nat) : Option FileAttr :=
  if inode = inodeRoot then some (dirAttr inodeRoot)
  else if inode = inodeAll then some (dirAttr inodeAll)
  else if inodeTorrentBase ≤ inode ∧ inode < inodeFileBase then do
    let key ← fs.inodes.inodeToKey.lookup inode
    let mt ← fs.torrents.lookup key
    pure (datedDirAttr inode (torrentMtime mt))
  else if inodeFileBase ≤ inode then do
    let (slot, fi) := getattrSlot inode
    let key ← fs.inodes.inodeToKey.lookup (inodeTorrentBase + slot)
    let mt ← ensure key
    let file ← mt.selectedFiles[fi]?
    pure (attrOfFile inode mt file)
  else none

/-- `getattr` -/
def getattr (fs : RdFs) (ensure : EnsureInfo) (inode : Nat) : Option ReplyAttr :=
  (attrAt fs ensure inode).map (ReplyAttr.mk ttls.attr)

end

/-! ## Without attributes -/

section

variable (ttls : Ttls)

/-- The page of `__all__` is the one listed without attributes. -/
theorem pagePlus_entries (torrents : AList (fun _ : String => ManagedTorrent)) :
    ∀ (page : List (String × String)) (index : Nat) (inodes : InodeTable),
      ((pagePlus ttls torrents index inodes page).1.map (·.toDirectoryEntry),
        (pagePlus ttls torrents index inodes page).2) = listPage torrents index inodes page
  | [], _, _ => rfl
  | (key, name) :: rest, index, inodes => by
    rw [pagePlus, listPage]
    cases hmt : torrents.lookup key with
    | none =>
      rw [if_neg (by simp)]
      exact pagePlus_entries torrents rest (index + 1) inodes
    | some mt =>
      have ih := pagePlus_entries torrents rest (index + 1) (inodes.getOrAssign key).2
      rw [if_pos (by simp)]
      simp only [← ih]
      rfl

/-- The files are the ones listed without attributes. -/
theorem filesPlus_entries (slot : Nat) (mt : ManagedTorrent) : ∀ (files : List File) (fi : Nat),
    (filesPlus ttls slot mt fi files).map (List.map (·.toDirectoryEntry)) = fileEntries slot fi files
  | [], _ => rfl
  | file :: rest, fi => by
    rw [filesPlus, fileEntries, ← filesPlus_entries slot mt rest (fi + 1)]
    cases entryName file with
    | none => rfl
    | some fname =>
      cases filesPlus ttls slot mt (fi + 1) rest with
      | none => rfl
      | some entries => rfl

variable {ttls}

/-- Filtering by offset does not look at attributes. -/
theorem map_filter_offset (entries : List DirectoryEntryPlus) (offset : Int) :
    (entries.filter fun e => decide (offset < e.offset)).map (·.toDirectoryEntry) =
      (entries.map (·.toDirectoryEntry)).filter fun e => decide (offset < e.offset) := by
  rw [List.filter_map]
  rfl

theorem readdirplus_all_entries (fs : RdFs) (ensure : EnsureInfo) (now offset : Nat) :
    (readdirplus ttls fs ensure now inodeAll offset).map
        (fun r => (r.1.map (List.map (·.toDirectoryEntry)), r.2)) =
      (readdirplusAll fs now offset).map fun r => (some r.1, r.2) := by
  rw [readdirplus, if_neg (by decide), if_pos rfl, readdirplusAll, listAll]
  cases getSortedKeys fs now with
  | none => rfl
  | some r =>
    have hpage := pagePlus_entries ttls r.2.torrents ((r.1.drop (startIdx offset)).take 1000)
      (startIdx offset) r.2.inodes
    simp only [Option.bind_eq_bind, Option.bind_some, Option.pure_def, Option.map_some,
      map_filter_offset, ← hpage, List.map_append]
    rfl

theorem readdirplus_dir_entries (fs : RdFs) (ensure : EnsureInfo) (now offset : Nat) {inode : Nat}
    (hdir : IsDirInode inode) :
    (readdirplus ttls fs ensure now inode offset).map
        (fun r => r.1.map (List.map (·.toDirectoryEntry))) =
      readdirplusDir fs ensure inode offset := by
  have hlow : 3 ≤ inode := hdir.1
  have hroot : ¬inode = inodeRoot := by
    show ¬inode = 1
    omega
  have hall : ¬inode = inodeAll := by
    show ¬inode = 2
    omega
  rw [readdirplus, if_neg hroot, if_neg hall, if_pos ⟨hdir.1, hdir.2⟩, readdirplusDir, listDir]
  cases dirTorrent fs ensure inode with
  | none => rfl
  | some mt =>
    simp only [← filesPlus_entries ttls _ mt, Option.map_map]
    congr 1
    funext entries
    simp only [Function.comp_apply, Option.map_some, map_filter_offset, List.map_append]
    rfl

end

/-! ## The inode table grows -/

/-- Every inode that names a key has been handed out. -/
structure SoundTable (t : InodeTable) : Prop where
  base : FromBase t
  bounded : ∀ i k, t.inodeToKey.lookup i = some k → i < t.next

theorem soundTable_empty : SoundTable .empty :=
  ⟨fromBase_empty, fun i k h => absurd h (by simp [InodeTable.empty])⟩

/-- The table `t'` comes from `t` by handing out inodes. -/
structure Grows (t t' : InodeTable) : Prop where
  sound : SoundTable t'
  next : t.next ≤ t'.next
  keeps : ∀ i k, t.inodeToKey.lookup i = some k → t'.inodeToKey.lookup i = some k

theorem SoundTable.refl {t : InodeTable} (h : SoundTable t) : Grows t t :=
  ⟨h, le_refl _, fun _ _ hi => hi⟩

theorem Grows.trans {t t' t'' : InodeTable} (h : Grows t t') (h' : Grows t' t'') : Grows t t'' :=
  ⟨h'.sound, h.next.trans h'.next, fun i k hi => h'.keeps i k (h.keeps i k hi)⟩

/-- `get_or_assign_torrent_inode` lets the table grow. -/
theorem SoundTable.getOrAssign {t : InodeTable} (h : SoundTable t) (key : String) :
    Grows t (t.getOrAssign key).2 := by
  refine ⟨⟨h.base.getOrAssign key, fun i k hi => ?_⟩, ?_, fun i k hi => ?_⟩
  · rw [InodeTable.getOrAssign] at hi ⊢
    split at hi
    · exact h.bounded i k hi
    · by_cases hnew : i = t.next
      · exact hnew ▸ Nat.lt_succ_self _
      · rw [AList.lookup_insert_ne hnew] at hi
        exact Nat.lt_succ_of_lt (h.bounded i k hi)
  · rw [InodeTable.getOrAssign]
    split
    · exact le_refl _
    · exact Nat.le_succ _
  · have hlt := h.bounded i k hi
    rw [InodeTable.getOrAssign]
    split
    · exact hi
    · exact (AList.lookup_insert_ne (Nat.ne_of_lt hlt)).trans hi

/-- An inode handed out names its key. -/
theorem InodeTable.getOrAssign_names (t : InodeTable) (key : String) :
    (t.getOrAssign key).2.inodeToKey.lookup (t.getOrAssign key).1 = some key :=
  ((t.getOrAssign key).2.issued key _ (t.getOrAssign_lookup key)).2

/-- A page lets the table grow, and the inodes it shows name torrents. -/
theorem pagePlus_spec (ttls : Ttls) (torrents : AList (fun _ : String => ManagedTorrent)) :
    ∀ (page : List (String × String)) (index : Nat) (inodes : InodeTable), SoundTable inodes →
      Grows inodes (pagePlus ttls torrents index inodes page).2 ∧
      ∀ e ∈ (pagePlus ttls torrents index inodes page).1, ∃ key mt,
        torrents.lookup key = some mt ∧ inodeTorrentBase ≤ e.inode ∧
        (pagePlus ttls torrents index inodes page).2.inodeToKey.lookup e.inode = some key ∧
        e.attr = datedDirAttr e.inode (torrentMtime mt)
  | [], _, inodes, h => ⟨h.refl, fun e he => absurd he List.not_mem_nil⟩
  | (key, name) :: rest, index, inodes, h => by
    rw [pagePlus]
    cases hmt : torrents.lookup key with
    | none => exact pagePlus_spec ttls torrents rest (index + 1) inodes h
    | some mt =>
      have hnew := h.getOrAssign key
      obtain ⟨hgrows, hrest⟩ := pagePlus_spec ttls torrents rest (index + 1) _ hnew.sound
      refine ⟨hnew.trans hgrows, fun e he => ?_⟩
      rcases List.mem_cons.mp he with rfl | he
      · exact ⟨key, mt, hmt, h.base.le_getOrAssign key,
          hgrows.keeps _ _ (inodes.getOrAssign_names key), rfl⟩
      · exact hrest e he

/-- The files of a listing carry the attributes of the selected files. -/
theorem mem_filesPlus {ttls : Ttls} {slot : Nat} {mt : ManagedTorrent} :
    ∀ {files : List File} {fi : Nat} {entries : List DirectoryEntryPlus},
      filesPlus ttls slot mt fi files = some entries → ∀ e ∈ entries, ∃ j file,
        files[j]? = some file ∧ e.inode = fileInode slot (fi + j) ∧
          e.attr = attrOfFile e.inode mt file
  | [], fi, entries, h, e, he => by
    rw [filesPlus, Option.some.injEq] at h
    rw [← h] at he
    exact absurd he List.not_mem_nil
  | file :: rest, fi, entries, h, e, he => by
    rw [filesPlus] at h
    simp only [Option.bind_eq_bind, Option.bind_eq_some_iff, Option.pure_def, Option.some.injEq] at h
    obtain ⟨fname, -, later, hlater, rfl⟩ := h
    rcases List.mem_cons.mp he with rfl | he
    · exact ⟨0, file, rfl, rfl, rfl⟩
    · obtain ⟨j, g, hj, hinode, hattr⟩ := mem_filesPlus hlater e he
      exact ⟨j + 1, g, hj, by rw [hinode]; congr 1; omega, hattr⟩

/-! ## What the kernel is told -/

/-- What the mount shows of its torrents: when each was added, and its selected files. -/
structure Content where
  mtime : String → Timestamp
  files : String → List File

/-- The registry while an operation runs, and what `ensure_torrent_info` answers on it. -/
structure Registry where
  torrents : AList (fun _ : String => ManagedTorrent)
  ensure : EnsureInfo

/-- What there is of the registry shows this content; torrents and details may be missing. -/
structure Content.ShownBy (c : Content) (r : Registry) : Prop where
  listed : ∀ key mt, r.torrents.lookup key = some mt → torrentMtime mt = c.mtime key
  loaded : ∀ key mt, r.ensure key = some mt → torrentMtime mt = c.mtime key
  files : ∀ key mt info, r.ensure key = some mt → mt.info = some info →
    info.selectedFiles = c.files key

/-- The attributes of an inode that the table has given to a torrent, or to one of its files. -/
def Content.attr (c : Content) (t : InodeTable) (inode : Nat) : Option FileAttr :=
  if inode = inodeRoot then some (dirAttr inodeRoot)
  else if inode = inodeAll then some (dirAttr inodeAll)
  else if inodeTorrentBase ≤ inode ∧ inode < inodeFileBase then
    (t.inodeToKey.lookup inode).map fun key => datedDirAttr inode (c.mtime key)
  else
    (t.inodeToKey.lookup (inodeTorrentBase + (getattrSlot inode).1)).bind fun key =>
      ((c.files key)[(getattrSlot inode).2]?).map fun file =>
        fileAttr inode file.bytes.toNat (c.mtime key)

/-- The directory operations. -/
inductive DirOp where
  | lookup (now parent : Nat) (name : String)
  | readdir (now inode : Nat) (offset : Int)
  | readdirplus (now parent offset : Nat)
  | getattr (inode : Nat)

/-- The mount, and what the kernel has been told: inodes with their attributes. -/
structure Told where
  fs : RdFs
  told : List (Nat × FileAttr)

/-- An operation on the mount as it stands; the kernel files a reply's attributes under the inode in
    them. -/
def tellOp (ttls : Ttls) (ensure : EnsureInfo) (s : Told) : DirOp → Option Told
  | .lookup now parent name => (lookupEntry ttls s.fs ensure now parent name).map fun r =>
      ⟨r.2, s.told ++ r.1.toList.map fun e => (e.attr.ino, e.attr)⟩
  | .readdir now inode offset => (readdir ttls s.fs ensure now inode offset).map fun r =>
      ⟨r.2, s.told⟩
  | .readdirplus now parent offset => (readdirplus ttls s.fs ensure now parent offset).map fun r =>
      ⟨r.2, s.told ++ (r.1.getD []).map fun e => (e.attr.ino, e.attr)⟩
  | .getattr inode => some ⟨s.fs, s.told ++
      (getattr ttls s.fs ensure inode).toList.map fun r => (r.attr.ino, r.attr)⟩

/-- The mount while the registry is this one. -/
def RdFs.on (fs : RdFs) (r : Registry) : RdFs := { fs with torrents := r.torrents }

/-- One operation, on the registry there is when it comes. -/
def tell (ttls : Ttls) (s : Told) (e : Registry × DirOp) : Option Told :=
  tellOp ttls e.1.ensure ⟨s.fs.on e.1, s.told⟩ e.2

section

variable {c : Content} {t t' : InodeTable}

/-- The attributes of an inode carry it. -/
theorem Content.attr_ino {i : Nat} {a : FileAttr} (h : c.attr t i = some a) : a.ino = i := by
  rw [Content.attr] at h
  split at h
  · rename_i hi
    rw [← Option.some.inj h, hi]
    rfl
  split at h
  · rename_i hi
    rw [← Option.some.inj h, hi]
    rfl
  split at h
  · obtain ⟨key, -, rfl⟩ := Option.map_eq_some_iff.mp h
    rfl
  · obtain ⟨key, -, hfile⟩ := Option.bind_eq_some_iff.mp h
    obtain ⟨file, -, rfl⟩ := Option.map_eq_some_iff.mp hfile
    rfl

/-- The attributes stay when inodes are handed out. -/
theorem Content.attr_grows {i : Nat} {a : FileAttr} (hgrows : Grows t t') (h : c.attr t i = some a) :
    c.attr t' i = some a := by
  rw [Content.attr] at h ⊢
  by_cases hroot : i = inodeRoot
  · rw [if_pos hroot] at h ⊢
    exact h
  by_cases hall : i = inodeAll
  · rw [if_neg hroot, if_pos hall] at h ⊢
    exact h
  rw [if_neg hroot, if_neg hall] at h ⊢
  by_cases hdir : inodeTorrentBase ≤ i ∧ i < inodeFileBase
  · rw [if_pos hdir] at h ⊢
    obtain ⟨key, hkey, ha⟩ := Option.map_eq_some_iff.mp h
    exact Option.map_eq_some_iff.mpr ⟨key, hgrows.keeps i key hkey, ha⟩
  · rw [if_neg hdir] at h ⊢
    obtain ⟨key, hkey, ha⟩ := Option.bind_eq_some_iff.mp h
    exact Option.bind_eq_some_iff.mpr ⟨key, hgrows.keeps _ key hkey, ha⟩

theorem Content.attr_root : c.attr t inodeRoot = some (dirAttr inodeRoot) := if_pos rfl

theorem Content.attr_all : c.attr t inodeAll = some (dirAttr inodeAll) := by
  rw [Content.attr, if_neg (by decide), if_pos rfl]

/-- The attributes of a torrent's directory. -/
theorem Content.attr_dir {i : Nat} {key : String} (hdir : IsDirInode i)
    (hkey : t.inodeToKey.lookup i = some key) :
    c.attr t i = some (datedDirAttr i (c.mtime key)) := by
  have hlow : 3 ≤ i := hdir.1
  have hroot : ¬i = inodeRoot := by
    show ¬i = 1
    omega
  have hall : ¬i = inodeAll := by
    show ¬i = 2
    omega
  rw [Content.attr, if_neg hroot, if_neg hall, if_pos ⟨hdir.1, hdir.2⟩, hkey]
  rfl

/-- The attributes of an inode above the directories. -/
theorem Content.attr_of_file {i : Nat} {key : String} {file : File} (hi : inodeFileBase ≤ i)
    (hkey : t.inodeToKey.lookup (inodeTorrentBase + (getattrSlot i).1) = some key)
    (hfile : (c.files key)[(getattrSlot i).2]? = some file) :
    c.attr t i = some (fileAttr i file.bytes.toNat (c.mtime key)) := by
  have hhigh : 2 ^ 32 ≤ i := hi
  have hroot : ¬i = inodeRoot := by
    show ¬i = 1
    omega
  have hall : ¬i = inodeAll := by
    show ¬i = 2
    omega
  rw [Content.attr, if_neg hroot, if_neg hall, if_neg (fun h => absurd h.2 (not_lt.mpr hi)), hkey,
    Option.bind_some, hfile]
  rfl

/-- A file whose index a slot has room for has the attributes of its inode. -/
theorem Content.attr_fileInode {slot fi : Nat} {key : String} {file : File} (hfi : fi < 10000)
    (hkey : t.inodeToKey.lookup (inodeTorrentBase + slot) = some key)
    (hfile : (c.files key)[fi]? = some file) :
    c.attr t (fileInode slot fi) =
      some (fileAttr (fileInode slot fi) file.bytes.toNat (c.mtime key)) := by
  have hback := ((decodesBack_iff slot fi).mpr hfi).1
  have hbase : inodeFileBase ≤ fileInode slot fi := by
    rw [fileInode]
    omega
  refine Content.attr_of_file hbase ?_ ?_
  · rw [hback]
    exact hkey
  · rw [hback]
    exact hfile

end

/-! ## One operation -/

section

variable {ttls : Ttls} {ensure : EnsureInfo} {fs fs' : RdFs} {c : Content}

/-- What an operation leaves: the registry as it was, and a table that has grown. -/
structure Leaves (fs fs' : RdFs) : Prop where
  torrents : fs'.torrents = fs.torrents
  grows : Grows fs.inodes fs'.inodes

theorem SoundTable.leaves (h : SoundTable fs.inodes) : Leaves fs fs := ⟨rfl, h.refl⟩

/-- Looking at the key list hands out nothing. -/
theorem getSortedKeys_leaves {now : Nat} {keys : List (String × String)}
    (hsound : SoundTable fs.inodes) (h : getSortedKeys fs now = some (keys, fs')) : Leaves fs fs' := by
  rw [getSortedKeys] at h
  split at h
  · rw [← (Prod.mk.inj (Option.some.inj h)).2]
    exact hsound.leaves
  · obtain ⟨res, -, hres⟩ := Option.bind_eq_some_iff.mp h
    rw [← (Prod.mk.inj (Option.some.inj hres)).2]
    exact ⟨rfl, hsound.refl⟩

/-- The torrent of a directory is the one of its inode. -/
theorem dirTorrent_eq_some {i : Nat} {mt : ManagedTorrent} (h : dirTorrent fs ensure i = some mt) :
    ∃ key, fs.inodes.inodeToKey.lookup i = some key ∧ ensure key = some mt :=
  Option.bind_eq_some_iff.mp h

/-- A selected file that was loaded is one of the content. -/
theorem Content.ShownBy.file {r : Registry} (h : c.ShownBy r) {key : String} {mt : ManagedTorrent}
    {j : Nat} {file : File} (hmt : r.ensure key = some mt) (hfile : mt.selectedFiles[j]? = some file) :
    (c.files key)[j]? = some file := by
  rw [ManagedTorrent.selectedFiles] at hfile
  cases hinfo : mt.info with
  | none =>
    rw [hinfo] at hfile
    exact absurd hfile (by simp)
  | some info =>
    rw [hinfo] at hfile
    rw [← h.files key mt info hmt hinfo]
    exact hfile

/-- The attributes of a file in the directory of its torrent. -/
theorem Content.ShownBy.attr_file {r : Registry} (h : c.ShownBy r) {parent j : Nat}
    {mt : ManagedTorrent} {file : File} (hfew : ∀ key, (c.files key).length ≤ 10000)
    (hdir : IsDirInode parent) (hmt : dirTorrent fs r.ensure parent = some mt)
    (hfile : mt.selectedFiles[j]? = some file) :
    c.attr fs.inodes (fileInode (parent - inodeTorrentBase) j) =
      some (attrOfFile (fileInode (parent - inodeTorrentBase) j) mt file) := by
  obtain ⟨key, hkey, hmt⟩ := dirTorrent_eq_some hmt
  have hshown := h.file hmt hfile
  have hlt : j < 10000 := lt_of_lt_of_le (List.getElem?_eq_some_iff.mp hshown).1 (hfew key)
  rw [Content.attr_fileInode hlt ?_ hshown, attrOfFile, h.loaded key mt hmt]
  rw [Nat.add_sub_cancel' hdir.1]
  exact hkey

/-- `getattr` answers the attributes of the content. -/
theorem attrAt_spec {r : Registry} {i : Nat} {a : FileAttr} (hshown : c.ShownBy r)
    (htorrents : fs.torrents = r.torrents) (h : attrAt fs r.ensure i = some a) :
    c.attr fs.inodes i = some a := by
  rw [attrAt] at h
  split at h
  · rename_i hi
    rw [hi, Content.attr_root, Option.some.inj h]
  split at h
  · rename_i hi
    rw [hi, Content.attr_all, Option.some.inj h]
  split at h
  · rename_i hdir
    obtain ⟨key, hkey, hmt⟩ := Option.bind_eq_some_iff.mp h
    obtain ⟨mt, hmt, ha⟩ := Option.bind_eq_some_iff.mp hmt
    rw [Content.attr_dir hdir hkey, ← hshown.listed key mt (htorrents ▸ hmt)]
    exact ha
  split at h
  · rename_i hfile
    obtain ⟨key, hkey, hmt⟩ := Option.bind_eq_some_iff.mp h
    obtain ⟨mt, hmt, ha⟩ := Option.bind_eq_some_iff.mp hmt
    obtain ⟨file, hf, ha⟩ := Option.bind_eq_some_iff.mp ha
    rw [Content.attr_of_file hfile hkey (hshown.file hmt hf), ← hshown.loaded key mt hmt]
    exact ha
  · exact absurd h.symm (Option.some_ne_none a)

/-- What holds after an operation that told the kernel `told`. -/
structure TellsOf (c : Content) (fs fs' : RdFs) (told : List FileAttr) : Prop where
  leaves : Leaves fs fs'
  attrs : fs'.inodes.next ≤ inodeFileBase → ∀ a ∈ told, c.attr fs'.inodes a.ino = some a

/-- An inode of a table that has not outgrown the directories is one of them. -/
theorem SoundTable.isDirInode {t : InodeTable} (h : SoundTable t) {i : Nat} {key : String}
    (hnext : t.next ≤ inodeFileBase) (hlow : inodeTorrentBase ≤ i)
    (hkey : t.inodeToKey.lookup i = some key) : IsDirInode i :=
  ⟨hlow, lt_of_lt_of_le (h.bounded i key hkey) hnext⟩

variable {r : Registry}

/-- `lookup` tells attributes of the content. -/
theorem lookupEntry_spec {now parent : Nat} {name : String} {reply : Option ReplyEntry}
    (hshown : c.ShownBy r) (hfew : ∀ key, (c.files key).length ≤ 10000)
    (htorrents : fs.torrents = r.torrents) (hsound : SoundTable fs.inodes)
    (h : lookupEntry ttls fs r.ensure now parent name = some (reply, fs')) :
    TellsOf c fs fs' (reply.toList.map (·.attr)) := by
  rw [lookupEntry] at h
  split at h
  · obtain ⟨rfl, rfl⟩ := Prod.mk.inj (Option.some.inj h)
    refine ⟨hsound.leaves, fun _ a ha => ?_⟩
    by_cases hname : name = allDir
    · rw [if_pos hname] at ha
      rw [List.mem_singleton.mp ha]
      exact Content.attr_all
    · rw [if_neg hname] at ha
      exact absurd ha List.not_mem_nil
  split at h
  · obtain ⟨⟨keys, fs₁⟩, hkeys, h⟩ := Option.bind_eq_some_iff.mp h
    have hleaves := getSortedKeys_leaves hsound hkeys
    have hsound₁ := hleaves.grows.sound
    dsimp only at h
    cases hfind : keys.find? fun e => e.2 == name && (fs₁.torrents.lookup e.1).isSome with
    | none =>
      rw [hfind] at h
      obtain ⟨rfl, rfl⟩ := Prod.mk.inj (Option.some.inj h)
      exact ⟨hleaves, fun _ a ha => absurd ha List.not_mem_nil⟩
    | some e =>
      rw [hfind] at h
      dsimp only at h
      cases hmt : fs₁.torrents.lookup e.1 with
      | none =>
        rw [hmt] at h
        obtain ⟨rfl, rfl⟩ := Prod.mk.inj (Option.some.inj h)
        exact ⟨hleaves, fun _ a ha => absurd ha List.not_mem_nil⟩
      | some mt =>
        rw [hmt] at h
        obtain ⟨rfl, rfl⟩ := Prod.mk.inj (Option.some.inj h)
        have hnew := hsound₁.getOrAssign e.1
        refine ⟨⟨hleaves.torrents, hleaves.grows.trans hnew⟩, fun hnext a ha => ?_⟩
        have hkey := fs₁.inodes.getOrAssign_names e.1
        have hdir := hnew.sound.isDirInode hnext (hsound₁.base.le_getOrAssign e.1) hkey
        rw [List.mem_singleton.mp ha]
        show c.attr _ (fs₁.inodes.getOrAssign e.1).1 = _
        rw [Content.attr_dir hdir hkey,
          ← hshown.listed e.1 mt ((hleaves.torrents.trans htorrents) ▸ hmt)]
  split at h
  · rename_i hdir
    cases hmt : dirTorrent fs r.ensure parent with
    | none =>
      rw [hmt] at h
      obtain ⟨rfl, rfl⟩ := Prod.mk.inj (Option.some.inj h)
      exact ⟨hsound.leaves, fun _ a ha => absurd ha List.not_mem_nil⟩
    | some mt =>
      rw [hmt] at h
      obtain ⟨found, -, hfound⟩ := Option.map_eq_some_iff.mp h
      obtain ⟨rfl, rfl⟩ := Prod.mk.inj hfound
      refine ⟨hsound.leaves, fun _ a ha => ?_⟩
      obtain ⟨e, he, rfl⟩ := List.mem_map.mp ha
      obtain ⟨fi, -, hfile⟩ := Option.bind_eq_some_iff.mp (Option.mem_toList.mp he)
      obtain ⟨file, hfile, hreply⟩ := Option.bind_eq_some_iff.mp hfile
      rw [← Option.some.inj hreply]
      exact hshown.attr_file hfew hdir hmt hfile
  · obtain ⟨rfl, rfl⟩ := Prod.mk.inj (Option.some.inj h)
    exact ⟨hsound.leaves, fun _ a ha => absurd ha List.not_mem_nil⟩

/-- `readdirplus` tells attributes of the content. -/
theorem readdirplus_spec {now parent offset : Nat} {entries : Option (List DirectoryEntryPlus)}
    (hshown : c.ShownBy r) (hfew : ∀ key, (c.files key).length ≤ 10000)
    (htorrents : fs.torrents = r.torrents) (hsound : SoundTable fs.inodes)
    (h : readdirplus ttls fs r.ensure now parent offset = some (entries, fs')) :
    TellsOf c fs fs' ((entries.getD []).map (·.attr)) := by
  rw [readdirplus] at h
  split at h
  · obtain ⟨rfl, rfl⟩ := Prod.mk.inj (Option.some.inj h)
    refine ⟨hsound.leaves, fun _ a ha => ?_⟩
    obtain ⟨e, he, rfl⟩ := List.mem_map.mp ha
    have hroot := (List.mem_filter.mp he).1
    rw [rootPlus] at hroot
    fin_cases hroot
    · exact Content.attr_root
    · exact Content.attr_root
    · exact Content.attr_all
  split at h
  · obtain ⟨⟨keys, fs₁⟩, hkeys, h⟩ := Option.bind_eq_some_iff.mp h
    have hleaves := getSortedKeys_leaves hsound hkeys
    obtain ⟨rfl, rfl⟩ := Prod.mk.inj (Option.some.inj h)
    obtain ⟨hgrows, hpage⟩ := pagePlus_spec ttls fs₁.torrents ((keys.drop (startIdx offset)).take 1000)
      (startIdx offset) fs₁.inodes hleaves.grows.sound
    refine ⟨⟨hleaves.torrents, hleaves.grows.trans hgrows⟩, fun hnext a ha => ?_⟩
    obtain ⟨e, he, rfl⟩ := List.mem_map.mp ha
    rcases List.mem_append.mp (List.mem_filter.mp he).1 with hdots | hentry
    · rw [allDotsPlus] at hdots
      fin_cases hdots
      · exact Content.attr_all
      · exact Content.attr_root
    · obtain ⟨key, mt, hmt, hlow, hkey, hattr⟩ := hpage e hentry
      have hdir := hgrows.sound.isDirInode hnext hlow hkey
      rw [hattr]
      show c.attr _ e.inode = _
      rw [Content.attr_dir hdir hkey, ← hshown.listed key mt ((hleaves.torrents.trans htorrents) ▸ hmt)]
  split at h
  · rename_i hdir
    cases hmt : dirTorrent fs r.ensure parent with
    | none =>
      rw [hmt] at h
      obtain ⟨rfl, rfl⟩ := Prod.mk.inj (Option.some.inj h)
      exact ⟨hsound.leaves, fun _ a ha => absurd ha List.not_mem_nil⟩
    | some mt =>
      rw [hmt] at h
      obtain ⟨files, hfiles, hentries⟩ := Option.map_eq_some_iff.mp h
      obtain ⟨rfl, rfl⟩ := Prod.mk.inj hentries
      refine ⟨hsound.leaves, fun _ a ha => ?_⟩
      obtain ⟨e, he, rfl⟩ := List.mem_map.mp ha
      rcases List.mem_append.mp (List.mem_filter.mp he).1 with hdots | hentry
      · obtain ⟨key, hkey, hloaded⟩ := dirTorrent_eq_some hmt
        rw [dirDotsPlus] at hdots
        fin_cases hdots
        · show c.attr _ parent = some (datedDirAttr parent _)
          rw [Content.attr_dir hdir hkey, hshown.loaded key mt hloaded]
        · exact Content.attr_all
      · obtain ⟨j, file, hj, hinode, hattr⟩ := mem_filesPlus hfiles e hentry
        rw [hattr, hinode, Nat.zero_add]
        exact hshown.attr_file hfew hdir hmt hj
  · obtain ⟨rfl, rfl⟩ := Prod.mk.inj (Option.some.inj h)
    exact ⟨hsound.leaves, fun _ a ha => absurd ha List.not_mem_nil⟩

/-- `readdir` hands out inodes at most. -/
theorem readdir_leaves {now inode : Nat} {offset : Int} {entries : Option (List KindedEntry)}
    (hsound : SoundTable fs.inodes)
    (h : readdir ttls fs ensure now inode offset = some (entries, fs')) : Leaves fs fs' := by
  rw [readdir] at h
  split at h
  · rw [← (Prod.mk.inj (Option.some.inj h)).2]
    exact hsound.leaves
  split at h
  · obtain ⟨⟨listed, fs₂⟩, hlist, hres⟩ := Option.map_eq_some_iff.mp h
    obtain ⟨-, rfl⟩ := Prod.mk.inj hres
    obtain ⟨⟨keys, fs₁⟩, hkeys, hlist⟩ := Option.bind_eq_some_iff.mp hlist
    have hleaves := getSortedKeys_leaves hsound hkeys
    obtain ⟨-, rfl⟩ := Prod.mk.inj (Option.some.inj hlist)
    have hpage := (pagePlus_spec ttls fs₁.torrents ((keys.drop (startIdx offset)).take 1000)
      (startIdx offset) fs₁.inodes hleaves.grows.sound).1
    have hsame := congrArg Prod.snd (pagePlus_entries ttls fs₁.torrents
      ((keys.drop (startIdx offset)).take 1000) (startIdx offset) fs₁.inodes)
    refine ⟨hleaves.torrents, hleaves.grows.trans ?_⟩
    rw [← hsame]
    exact hpage
  split at h
  · cases hmt : dirTorrent fs ensure inode with
    | none =>
      rw [hmt] at h
      rw [← (Prod.mk.inj (Option.some.inj h)).2]
      exact hsound.leaves
    | some mt =>
      rw [hmt] at h
      obtain ⟨listed, -, hres⟩ := Option.map_eq_some_iff.mp h
      rw [← (Prod.mk.inj hres).2]
      exact hsound.leaves
  · rw [← (Prod.mk.inj (Option.some.inj h)).2]
    exact hsound.leaves

/-- One operation lets the table grow; what it tells is of the content. -/
theorem tell_spec {s s' : Told} {op : DirOp} (hshown : c.ShownBy r)
    (hfew : ∀ key, (c.files key).length ≤ 10000) (hsound : SoundTable s.fs.inodes)
    (h : tell ttls s (r, op) = some s') :
    ∃ told : List FileAttr, s'.told = s.told ++ told.map (fun a => (a.ino, a)) ∧
      Grows s.fs.inodes s'.fs.inodes ∧
      (s'.fs.inodes.next ≤ inodeFileBase → ∀ a ∈ told, c.attr s'.fs.inodes a.ino = some a) := by
  have hsound : SoundTable (s.fs.on r).inodes := hsound
  have htorrents : (s.fs.on r).torrents = r.torrents := rfl
  cases op with
  | lookup now parent name =>
    obtain ⟨⟨reply, fs'⟩, hop, rfl⟩ := Option.map_eq_some_iff.mp h
    obtain ⟨hleaves, hattrs⟩ := lookupEntry_spec hshown hfew htorrents hsound hop
    exact ⟨_, by rw [List.map_map]; rfl, hleaves.grows, hattrs⟩
  | readdir now inode offset =>
    obtain ⟨⟨entries, fs'⟩, hop, rfl⟩ := Option.map_eq_some_iff.mp h
    exact ⟨[], (List.append_nil _).symm, (readdir_leaves hsound hop).grows,
      fun _ a ha => absurd ha List.not_mem_nil⟩
  | readdirplus now parent offset =>
    obtain ⟨⟨entries, fs'⟩, hop, rfl⟩ := Option.map_eq_some_iff.mp h
    obtain ⟨hleaves, hattrs⟩ := readdirplus_spec hshown hfew htorrents hsound hop
    exact ⟨_, by rw [List.map_map]; rfl, hleaves.grows, hattrs⟩
  | getattr inode =>
    obtain rfl := Option.some.inj h
    refine ⟨_, by rw [List.map_map]; rfl, hsound.refl, fun _ a ha => ?_⟩
    obtain ⟨reply, hreply, rfl⟩ := List.mem_map.mp ha
    obtain ⟨a, hattr, rfl⟩ := Option.map_eq_some_iff.mp (Option.mem_toList.mp hreply)
    have hspec := attrAt_spec hshown htorrents hattr
    show c.attr _ a.ino = some a
    rw [Content.attr_ino hspec]
    exact hspec

/-! ## Over whole runs -/

/-- What a run keeps: a sound table, and what was told is of the content as far as directories stay
    below the files. -/
structure TellsTrue (c : Content) (s : Told) : Prop where
  sound : SoundTable s.fs.inodes
  attrs : s.fs.inodes.next ≤ inodeFileBase → ∀ p ∈ s.told, c.attr s.fs.inodes p.1 = some p.2

theorem tell_true {s s' : Told} {op : DirOp} (hshown : c.ShownBy r)
    (hfew : ∀ key, (c.files key).length ≤ 10000) (hs : TellsTrue c s)
    (h : tell ttls s (r, op) = some s') : TellsTrue c s' := by
  obtain ⟨told, htold, hgrows, hattrs⟩ := tell_spec hshown hfew hs.sound h
  refine ⟨hgrows.sound, fun hnext p hp => ?_⟩
  rw [htold] at hp
  rcases List.mem_append.mp hp with hp | hp
  · exact Content.attr_grows hgrows (hs.attrs (hgrows.next.trans hnext) p hp)
  · obtain ⟨a, ha, rfl⟩ := List.mem_map.mp hp
    exact hattrs hnext a ha

/-- **The kernel is told one set of attributes for an inode**: whatever of the registry is there when
    each operation comes, any two replies of a run about one inode carry the same attributes. -/
theorem attributes_agree {s' : Told} {ops : List (Registry × DirOp)}
    (hfew : ∀ key, (c.files key).length ≤ 10000) (hshown : ∀ e ∈ ops, c.ShownBy e.1)
    (hsound : SoundTable fs.inodes) (h : run (tell ttls) ⟨fs, []⟩ ops = some s')
    (hnext : s'.fs.inodes.next ≤ inodeFileBase) {i : Nat} {a b : FileAttr} (ha : (i, a) ∈ s'.told)
    (hb : (i, b) ∈ s'.told) : a = b := by
  have hstep : ∀ (s : Told) (e : Registry × DirOp) (t : Told), TellsTrue c s → c.ShownBy e.1 →
      tell ttls s e = some t → TellsTrue c t :=
    fun s e t hs he ht => tell_true he hfew hs ht
  have hend := run_inv hstep ops ⟨fs, []⟩ s' ⟨hsound, fun _ p hp => absurd hp List.not_mem_nil⟩
    (along_of_forall_mem ops _ hshown) h
  have ha := hend.attrs hnext _ ha
  rw [hend.attrs hnext _ hb] at ha
  exact (Option.some.inj ha).symm

end

section

open RdRs.Torrent RdRs.Programs

/-- A registry whose records, and the details it fetches, are of the content, shows the content. -/
theorem ensureTorrentInfo_shown {c : Content} {m : Manager} {env : String → Nat → Env}
    (hmtime : ∀ key mt, m.torrents.lookup key = some mt → torrentMtime mt = c.mtime key)
    (hfiles : ∀ key mt info, m.torrents.lookup key = some mt → mt.info = some info →
      info.selectedFiles = c.files key)
    (hfetch : ∀ key k info, (env key k).info = some info → info.selectedFiles = c.files key) :
    c.ShownBy ⟨m.torrents, fun key =>
      ((ensureTorrentInfo key).eval performAlone m (env key)).1⟩ := by
  have hensure : ∀ key mt,
      ((ensureTorrentInfo key).eval performAlone m (env key)).1 = some mt →
      torrentMtime mt = c.mtime key ∧ ∀ info, mt.info = some info → info.selectedFiles = c.files key := by
    intro key mt h
    have hget : performAlone m (.get key) (env key 0) = (m.torrents.lookup key, m) := rfl
    rw [ensureTorrentInfo, Prog.call_bind, Prog.eval_act, hget] at h
    dsimp only at h
    cases hold : m.torrents.lookup key with
    | none =>
      rw [hold] at h
      cases h
    | some old =>
      rw [hold] at h
      dsimp only at h
      split at h
      · obtain rfl := Option.some.inj h
        exact ⟨hmtime key _ hold, fun info hinfo => hfiles key _ info hold hinfo⟩
      · cases hid : old.rdIds.head? with
        | none =>
          rw [hid] at h
          cases h
        | some id =>
          have hask : performAlone m (.torrentInfo id) (env key 1) = ((env key 1).info, m) := rfl
          rw [hid] at h
          dsimp only at h
          rw [Prog.call_bind, Prog.eval_act, hask] at h
          dsimp only at h
          cases hans : (env key 1).info with
          | none =>
            rw [hans] at h
            obtain rfl := Option.some.inj h
            exact ⟨hmtime key _ hold, fun info hinfo => hfiles key _ info hold hinfo⟩
          | some info =>
            -- the record is still there, so the detail goes into the map
            have hinject : performAlone m (.inject key info) (env key 2) =
                (some { old with info := some info },
                  { m with torrents := m.torrents.insert key { old with info := some info } }) := by
              show perform m (.inject key info) (env key 2) = _
              rw [perform, hold]
            rw [hans] at h
            dsimp only at h
            rw [Prog.call_bind, Prog.eval_act, hinject] at h
            obtain rfl := Option.some.inj h
            refine ⟨hmtime key old hold, fun info' hinfo' => ?_⟩
            obtain rfl := Option.some.inj hinfo'
            exact hfetch key 1 info hans
  exact ⟨hmtime, fun key mt h => (hensure key mt h).1, fun key mt info h => (hensure key mt h).2 info⟩

end

/-- The only torrent is a film; its record has this detail, and all of it when asked for. -/
def oneFilm (files : List File) (info : Option TorrentInfo) : Registry :=
  ⟨AList.singleton "HASH/Film" { filmWith files with info := info }, filmInfo files⟩

def filmContent (files : List File) : Content :=
  ⟨fun _ => torrentMtime (filmWith files), fun _ => (filmWith files).selectedFiles⟩

theorem oneFilm_shown (files : List File) (info : Option TorrentInfo) :
    (filmContent files).ShownBy (oneFilm files info) := by
  have hensure : ∀ key mt, filmInfo files key = some mt → mt = filmWith files := by
    intro key mt h
    rw [filmInfo] at h
    split at h
    · exact (Option.some.inj h).symm
    · exact absurd h.symm (Option.some_ne_none mt)
  refine ⟨fun key mt h => ?_, fun key mt h => ?_, fun key mt info h hinfo => ?_⟩
  · have hmem := AList.mem_lookup_iff.mp h
    obtain ⟨rfl, hmt⟩ := Sigma.mk.inj (List.mem_singleton.mp hmem)
    rw [eq_of_heq hmt]
    rfl
  · rw [hensure key mt h]
    rfl
  · rw [hensure key mt h] at hinfo
    rw [← Option.some.inj hinfo]
    rfl

/-- `lookup` and `readdirplus` show the film and its file, before the registry has the detail and
    after; `getattr` answers the same. -/
theorem attributes_agree_film :
    let files : List File := [⟨1, "/a.mkv", 600, 1⟩]
    let bare := oneFilm files none
    let full := oneFilm files (filmWith files).info
    let fs : RdFs := ⟨∅, .empty, (15 * 10 ^ 9, [("HASH/Film", "Film")])⟩
    ∃ s', run (tell ⟨1, 1⟩) ⟨fs, []⟩
        [(bare, .lookup (16 * 10 ^ 9) 2 "Film"), (bare, .lookup (16 * 10 ^ 9) 3 "a.mkv"),
          (full, .readdirplus (17 * 10 ^ 9) 2 0), (full, .readdirplus (17 * 10 ^ 9) 3 0),
          (full, .getattr (2 ^ 32)), (full, .getattr 3)] = some s' ∧
      (s'.told.filter fun p => p.1 = 2 ^ 32).length = 3 ∧
      ∀ i a b, (i, a) ∈ s'.told → (i, b) ∈ s'.told → a = b := by
  intro files bare full fs
  have hlast : ∃ s', run (tell ⟨1, 1⟩) ⟨fs, []⟩
      [(bare, .lookup (16 * 10 ^ 9) 2 "Film"), (bare, .lookup (16 * 10 ^ 9) 3 "a.mkv"),
        (full, .readdirplus (17 * 10 ^ 9) 2 0), (full, .readdirplus (17 * 10 ^ 9) 3 0),
        (full, .getattr (2 ^ 32)), (full, .getattr 3)] = some s' ∧
      ((s'.told.filter fun p => p.1 = 2 ^ 32).length, s'.fs.inodes.next) = (3, 4) :=
    Option.map_eq_some_iff.mp (by decide)
  obtain ⟨s', hs', hend⟩ := hlast
  obtain ⟨hthree, hnext⟩ := Prod.mk.inj hend
  refine ⟨s', hs', hthree, fun i a b ha hb => ?_⟩
  have hfew : ∀ key, ((filmContent files).files key).length ≤ 10000 := fun _ => by
    show 1 ≤ 10000
    decide
  refine attributes_agree hfew (fun e he => ?_) soundTable_empty hs' ?_ ha hb
  · simp only [List.mem_cons, List.not_mem_nil, or_false] at he
    rcases he with rfl | rfl | rfl | rfl | rfl | rfl
    all_goals exact oneFilm_shown files _
  · rw [hnext]
    decide

end RdRs.Fuse

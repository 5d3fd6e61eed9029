/-
  `fuse/fs_lookup.rs`, `fs_readdir.rs`, `fs_readdirplus.rs`, `read.rs` — the directory of a torrent,
  one entry for each selected file, and the inodes of the files.

  A file is listed under its whole path: the leading slashes go, the others become `_`
  (`sanitize_dirent_name`).  Its inode is `file_inode(slot, index)`, the slot being that of the
  directory; `getattr` and `read` decode it again, each on its own.

  * `lookup_inverts_iff` — `lookup` goes back from each listed name to its inode exactly when the
    trimmed paths cut cleanly at byte 255 and no two of them clash.  (`/a/b` and `/a_b` do.)
  * `file_inodes_decode_iff` — an inode decodes to the file it was issued for exactly when the file
    has an index below 10 000; nothing that issues inodes looks at the index.
-/
import RdRs.Fuse.AllDir

set_option linter.unusedVariables false

namespace RdRs.Fuse

open RdRs.Rd
open String (utf8Len)

/-! ## Names and inodes -/

/-- `ALL_DIR` -/
def allDir : String := "__all__"

/-- `INODE_FILE_BASE` -/
def inodeFileBase : Nat := 2 ^ 32

/-- `RdFs::file_inode`.  A slot is below 2^32 and an index below 2^63, so that a `u64` holds it. -/
def fileInode (torrentIndex fileIndex : Nat) : Nat :=
  inodeFileBase + torrentIndex * 10000 + fileIndex

/-- `path.trim_start_matches('/')` -/
def trimSlashes (path : String) : String := String.ofList (path.toList.dropWhile (· = '/'))

/-- The name of a file in its torrent's directory; `none` is a panic of the sanitiser. -/
def entryName (file : File) : Option String := sanitizeDirentName (trimSlashes file.path)

/-! ## The directory operations -/

/-- What `ensure_torrent_info` answers, key by key. -/
abbrev EnsureInfo := String → Option ManagedTorrent

/-- The torrent of a directory. -/
def dirTorrent (fs : RdFs) (ensure : EnsureInfo) (inode : Nat) : Option ManagedTorrent :=
  (fs.inodes.inodeToKey.lookup inode).bind ensure

/-- The loop of `lookup` over the selected files, from index `fi` on. -/
def findFile (name : String) : Nat → List File → Option (Option Nat)
  | _, [] => some none
  | fi, file :: rest => do
    let fname ← entryName file
    if fname = name then pure (some fi) else findFile name (fi + 1) rest

/-- `lookup` in a torrent's directory; `none` inside is `ENOENT`. -/
def lookupDir (fs : RdFs) (ensure : EnsureInfo) (inode : Nat) (name : String) :
    Option (Option Nat) :=
  match dirTorrent fs ensure inode with
  | none => some none
  | some mt => (findFile name 0 mt.selectedFiles).map fun found =>
      found.map (fileInode (inode - inodeTorrentBase))

/-- `lookup` -/
def lookup (fs : RdFs) (ensure : EnsureInfo) (now parent : Nat) (name : String) :
    Option (Option Nat × RdFs) :=
  if parent = inodeRoot then some (if name = allDir then some inodeAll else none, fs)
  else if parent = inodeAll then lookupAll fs now name
  else if inodeTorrentBase ≤ parent ∧ parent < inodeFileBase then
    (lookupDir fs ensure parent name).map fun found => (found, fs)
  else some (none, fs)

/-- The loop of both listings over the selected files, from index `fi` on. -/
def fileEntries (slot : Nat) : Nat → List File → Option (List DirectoryEntry)
  | _, [] => some []
  | fi, file :: rest => do
    let fname ← entryName file
    let entries ← fileEntries slot (fi + 1) rest
    pure (⟨fileInode slot fi, fname, fi + 3⟩ :: entries)

/-- The entries `.` and `..` of a torrent's directory. -/
def dirDots (inode : Nat) : List DirectoryEntry := [⟨inode, ".", 1⟩, ⟨inodeAll, "..", 2⟩]

/-- Both listings of a torrent's directory; of the entries the ones after `offset`. -/
def listDir (fs : RdFs) (ensure : EnsureInfo) (inode : Nat) (offset : Int) :
    Option (Option (List DirectoryEntry)) :=
  match dirTorrent fs ensure inode with
  | none => some none
  | some mt => (fileEntries (inode - inodeTorrentBase) 0 mt.selectedFiles).map fun entries =>
      some ((dirDots inode ++ entries).filter fun e => decide (offset < e.offset))

/-- `readdir` of a torrent's directory at an `i64` offset -/
def readdirDir (fs : RdFs) (ensure : EnsureInfo) (inode : Nat) (offset : Int) :
    Option (Option (List DirectoryEntry)) :=
  listDir fs ensure inode offset

/-- `readdirplus` of a torrent's directory at a `u64` offset -/
def readdirplusDir (fs : RdFs) (ensure : EnsureInfo) (inode : Nat) (offset : Nat) :
    Option (Option (List DirectoryEntry)) :=
  listDir fs ensure inode (asI64 offset)

/-! ## The names that are listed -/

/-- `names` are the names of `files`, in order. -/
def Named (files : List File) (names : List String) : Prop :=
  List.Forall₂ (fun file name => entryName file = some name) files names

/-- The names are there exactly when every path cuts cleanly. -/
theorem exists_named_iff (files : List File) :
    (∃ names, Named files names) ↔ ∀ f ∈ files, CutsCleanly (trimSlashes f.path) := by
  induction files with
  | nil => exact iff_of_true ⟨[], .nil⟩ fun f hf => absurd hf List.not_mem_nil
  | cons file files ih =>
    rw [List.forall_mem_cons, ← ih, ← sanitizeDirentName_isSome, Option.isSome_iff_exists]
    constructor
    · rintro ⟨_, hnames⟩
      cases hnames with
      | cons hname hrest => exact ⟨⟨_, hname⟩, _, hrest⟩
    · rintro ⟨⟨name, hname⟩, names, hrest⟩
      exact ⟨name :: names, .cons hname hrest⟩

/-- A name is listed again where the trimmed paths clash. -/
theorem mem_named_iff {files : List File} {names : List String} (h : Named files names) {file : File}
    {name : String} (hname : entryName file = some name) :
    name ∈ names ↔ ∃ g ∈ files, Clash (trimSlashes file.path) (trimSlashes g.path) := by
  induction h with
  | nil => simp
  | @cons g n files names hn hrest ih =>
    rw [List.mem_cons, ih, List.exists_mem_cons_iff, sanitizeDirentName_eq_iff hname hn]

theorem nodup_named_iff {files : List File} {names : List String} (h : Named files names) :
    names.Nodup ↔ files.Pairwise fun f g => ¬Clash (trimSlashes f.path) (trimSlashes g.path) := by
  induction h with
  | nil => exact iff_of_true List.nodup_nil .nil
  | @cons file name files names hname hrest ih =>
    rw [List.nodup_cons, List.pairwise_cons, ih, mem_named_iff hrest hname]
    push Not
    exact Iff.rfl

/-- The entry of a file. -/
def entryOf (slot : Nat) (p : String × Nat) : DirectoryEntry := ⟨fileInode slot p.2, p.1, p.2 + 3⟩

theorem fileEntries_eq_some_iff (slot : Nat) : ∀ (files : List File) (fi : Nat)
    (entries : List DirectoryEntry), fileEntries slot fi files = some entries ↔
      ∃ names, Named files names ∧ entries = (names.zipIdx fi).map (entryOf slot) := by
  intro files
  induction files with
  | nil =>
    intro fi entries
    rw [fileEntries, Option.some.injEq]
    constructor
    · rintro rfl
      exact ⟨[], .nil, rfl⟩
    · rintro ⟨_, hnames, rfl⟩
      cases hnames
      rfl
  | cons file files ih =>
    intro fi entries
    rw [fileEntries]
    simp only [Option.bind_eq_bind, Option.bind_eq_some_iff, Option.pure_def, Option.some.injEq]
    constructor
    · rintro ⟨name, hname, rest, hrest, rfl⟩
      obtain ⟨names, hnames, rfl⟩ := (ih (fi + 1) rest).mp hrest
      exact ⟨name :: names, .cons hname hnames, rfl⟩
    · rintro ⟨_, hnames, rfl⟩
      cases hnames with
      | cons hname hrest => exact ⟨_, hname, _, (ih (fi + 1) _).mpr ⟨_, hrest, rfl⟩, rfl⟩

/-- `lookup` takes the first file of the name. -/
theorem findFile_named {files : List File} {names : List String} (h : Named files names)
    (name : String) : ∀ fi, findFile name fi files =
      some (((names.zipIdx fi).find? fun p => decide (p.1 = name)).map Prod.snd) := by
  induction h with
  | nil => intro fi; rfl
  | @cons file n files names hn hrest ih =>
    intro fi
    rw [findFile, hn, List.zipIdx_cons, List.find?_cons]
    simp only [Option.bind_eq_bind, Option.bind_some]
    by_cases hname : n = name
    · rw [if_pos hname, decide_eq_true hname]
      rfl
    · rw [if_neg hname, decide_eq_false hname]
      exact ih (fi + 1)

/-- Among different names, the first one of a name is the only one. -/
theorem find_zipIdx {names : List String} (hnodup : names.Nodup) {fi : Nat} {p : String × Nat}
    (hp : p ∈ names.zipIdx fi) :
    (names.zipIdx fi).find? (fun q => decide (q.1 = p.1)) = some p := by
  have hfst : ((names.zipIdx fi).map Prod.fst).Nodup := by
    rw [List.zipIdx_map_fst]
    exact hnodup
  cases hfind : (names.zipIdx fi).find? (fun q => decide (q.1 = p.1)) with
  | none => exact absurd (decide_eq_true rfl) (List.find?_eq_none.mp hfind p hp)
  | some q =>
    have hfound := List.find?_some hfind
    have hname : q.1 = p.1 := of_decide_eq_true hfound
    exact congrArg some (List.inj_on_of_nodup_map hfst (List.mem_of_find?_eq_some hfind) hp hname)

/-! ## Going back from a name to its file -/

/-- The listing succeeds, its files have different names, and `look` answers each with its inode.
    (The entries `.` and `..` have the offsets 1 and 2.) -/
def NamesFiles (listing : Option (Option (List DirectoryEntry)))
    (look : String → Option (Option Nat)) : Prop :=
  ∃ entries, listing = some (some entries) ∧
    ((entries.filter fun e => decide (2 < e.offset)).map DirectoryEntry.name).Nodup ∧
    ∀ e ∈ entries, 2 < e.offset → look e.name = some (some e.inode)

/-- **What the directory is for.**  At every offset, both listings name the files, and `lookup` goes
    back from the names to the inodes. -/
def LookupInverts (fs : RdFs) (ensure : EnsureInfo) (inode : Nat) : Prop :=
  (∀ offset now, NamesFiles (readdirDir fs ensure inode offset) fun name =>
    (lookup fs ensure now inode name).map Prod.fst) ∧
  ∀ offset now, NamesFiles (readdirplusDir fs ensure inode offset) fun name =>
    (lookup fs ensure now inode name).map Prod.fst

/-- The trimmed paths cut cleanly at byte 255, and no two of them clash. -/
def PathsClear (files : List File) : Prop :=
  (∀ f ∈ files, CutsCleanly (trimSlashes f.path)) ∧
    files.Pairwise fun f g => ¬Clash (trimSlashes f.path) (trimSlashes g.path)

/-- The files in a listing: of the entries of the names, those after the offset. -/
theorem filter_listed (inode slot : Nat) (names : List String) (offset : Int) :
    ((dirDots inode ++ names.zipIdx.map (entryOf slot)).filter
      fun e => decide (offset < e.offset)).filter (fun e => decide (2 < e.offset)) =
    (names.zipIdx.map (entryOf slot)).filter fun e => decide (offset < e.offset) := by
  have hdots : (dirDots inode).filter (fun e => decide (2 < e.offset) && decide (offset < e.offset)) =
      [] := rfl
  rw [List.filter_filter, List.filter_append, hdots, List.nil_append]
  refine List.filter_congr fun e he => ?_
  obtain ⟨p, -, rfl⟩ := List.mem_map.mp he
  have htwo : (2 : Int) < (entryOf slot p).offset := by
    show (2 : Int) < p.2 + 3
    omega
  rw [decide_eq_true htwo, Bool.true_and]

/-- An inode of a torrent's directory. -/
def IsDirInode (inode : Nat) : Prop := inodeTorrentBase ≤ inode ∧ inode < inodeFileBase

theorem lookup_dir {inode : Nat} (hdir : IsDirInode inode) (fs : RdFs) (ensure : EnsureInfo)
    (now : Nat) (name : String) :
    (lookup fs ensure now inode name).map Prod.fst = lookupDir fs ensure inode name := by
  have hlow : 3 ≤ inode := hdir.1
  have hroot : ¬inode = inodeRoot := by
    show ¬inode = 1
    omega
  have hall : ¬inode = inodeAll := by
    show ¬inode = 2
    omega
  rw [lookup, if_neg hroot, if_neg hall, if_pos ⟨hdir.1, hdir.2⟩, Option.map_map]
  exact Option.map_id'

theorem namesFiles_listDir {fs : RdFs} {ensure : EnsureInfo} {inode : Nat} {mt : ManagedTorrent}
    (hmt : dirTorrent fs ensure inode = some mt) (hclear : PathsClear mt.selectedFiles)
    (offset : Int) : NamesFiles (listDir fs ensure inode offset) (lookupDir fs ensure inode) := by
  obtain ⟨names, hnames⟩ := (exists_named_iff _).mpr hclear.1
  have hnodup := (nodup_named_iff hnames).mpr hclear.2
  have hentries := (fileEntries_eq_some_iff (inode - inodeTorrentBase) _ 0 _).mpr ⟨names, hnames, rfl⟩
  refine ⟨_, by rw [listDir, hmt]; simp only [hentries]; rfl, ?_, ?_⟩
  · rw [filter_listed]
    have hmap : ((names.zipIdx.map (entryOf (inode - inodeTorrentBase))).map
        DirectoryEntry.name).Nodup := by
      rw [List.map_map]
      show (names.zipIdx.map Prod.fst).Nodup
      rw [List.zipIdx_map_fst]
      exact hnodup
    exact hmap.sublist (List.filter_sublist.map _)
  · intro e he htwo
    rcases List.mem_append.mp (List.mem_filter.mp he).1 with hdot | hfile
    · rcases List.mem_cons.mp hdot with rfl | hdot
      · exact absurd htwo (show ¬(2 : Int) < 1 by decide)
      · rw [List.mem_singleton.mp hdot] at htwo
        exact absurd htwo (show ¬(2 : Int) < 2 by decide)
    · obtain ⟨p, hp, rfl⟩ := List.mem_map.mp hfile
      rw [lookupDir, hmt]
      simp only [findFile_named hnames]
      show some ((((names.zipIdx).find? fun q => decide (q.1 = p.1)).map Prod.snd).map _) = _
      rw [find_zipIdx hnodup hp]
      rfl

/-- **When `lookup` inverts the listings** of a torrent's directory: exactly when the trimmed paths
    of its selected files cut cleanly and do not clash. -/
theorem lookup_inverts_iff (fs : RdFs) (ensure : EnsureInfo) (inode : Nat) (mt : ManagedTorrent)
    (hdir : IsDirInode inode) (hmt : dirTorrent fs ensure inode = some mt) :
    LookupInverts fs ensure inode ↔ PathsClear mt.selectedFiles := by
  constructor
  · rintro ⟨hreaddir, -⟩
    obtain ⟨entries, hlist, hnodup, -⟩ := hreaddir 0 0
    rw [readdirDir, listDir, hmt] at hlist
    obtain ⟨files, hfiles, hentries⟩ := Option.map_eq_some_iff.mp hlist
    obtain rfl := Option.some.inj hentries
    obtain ⟨names, hnames, rfl⟩ := (fileEntries_eq_some_iff _ _ _ _).mp hfiles
    refine ⟨(exists_named_iff _).mp ⟨names, hnames⟩, (nodup_named_iff hnames).mp ?_⟩
    -- offset 0 is before every file
    rw [filter_listed, List.filter_eq_self.mpr, List.map_map] at hnodup
    · rw [← List.zipIdx_map_fst 0 names]
      exact hnodup
    · intro e he
      obtain ⟨p, -, rfl⟩ := List.mem_map.mp he
      exact decide_eq_true (show (0 : Int) < p.2 + 3 by omega)
  · intro hclear
    have hlook : ∀ now, (fun name => (lookup fs ensure now inode name).map Prod.fst) =
        lookupDir fs ensure inode :=
      fun now => funext fun name => lookup_dir hdir fs ensure now name
    constructor
    · intro offset now
      rw [hlook now]
      exact namesFiles_listDir hmt hclear offset
    · intro offset now
      rw [hlook now]
      exact namesFiles_listDir hmt hclear (asI64 offset)

/-- A torrent with these files. -/
def filmWith (files : List File) : ManagedTorrent :=
  { accessKey := "HASH/Film", rdIds := ["RD1"],
    torrent := ⟨"RD1", "Film", "HASH", 100, "downloaded", [], 0⟩,
    info := some ⟨"RD1", 100, 0, [], files⟩, state := .ok, unrepairableReason := none,
    lastRepairedAt := none, fileStates := none, underRepairStartedAt := none }

/-- It is the only one, and has the directory of slot 0. -/
def filmDir : RdFs :=
  { fsOf [("HASH/Film", "Film")] with inodes := (InodeTable.empty.getOrAssign "HASH/Film").2 }

def filmInfo (files : List File) : EnsureInfo := fun key =>
  if key = "HASH/Film" then some (filmWith files) else none

/-- A file in a directory and one at the top, of the same name once slashes are replaced. -/
def nestedFiles : List File := [⟨1, "/a/b.mkv", 10, 1⟩, ⟨2, "/a_b.mkv", 20, 1⟩]

/-- Both are listed as `a_b.mkv`, and `lookup` never finds the second. -/
theorem nested_path_meets_name :
    IsDirInode inodeTorrentBase ∧
    readdirDir filmDir (filmInfo nestedFiles) inodeTorrentBase 2 =
      some (some [⟨fileInode 0 0, "a_b.mkv", 3⟩, ⟨fileInode 0 1, "a_b.mkv", 4⟩]) ∧
    ¬LookupInverts filmDir (filmInfo nestedFiles) inodeTorrentBase := by
  have hlist : readdirDir filmDir (filmInfo nestedFiles) inodeTorrentBase 2 =
      some (some [⟨fileInode 0 0, "a_b.mkv", 3⟩, ⟨fileInode 0 1, "a_b.mkv", 4⟩]) := by decide
  refine ⟨⟨by decide, by decide⟩, hlist, ?_⟩
  rintro ⟨hreaddir, -⟩
  obtain ⟨entries, hentries, hnodup, -⟩ := hreaddir 2 0
  obtain rfl := Option.some.inj (Option.some.inj (hlist.symm.trans hentries))
  exact absurd hnodup (by decide)

/-- Two files of different names are told apart. -/
theorem lookup_inverts_iff_flat :
    LookupInverts filmDir (filmInfo [⟨1, "/a.mkv", 10, 1⟩, ⟨2, "/b/c.mkv", 20, 1⟩])
        inodeTorrentBase ∧
      PathsClear [⟨1, "/a.mkv", 10, 1⟩, ⟨2, "/b/c.mkv", 20, 1⟩] := by
  have hnames : Named [⟨1, "/a.mkv", 10, 1⟩, ⟨2, "/b/c.mkv", 20, 1⟩] ["a.mkv", "b_c.mkv"] :=
    .cons (by decide) (.cons (by decide) .nil)
  have hclear : PathsClear [⟨1, "/a.mkv", 10, 1⟩, ⟨2, "/b/c.mkv", 20, 1⟩] :=
    ⟨(exists_named_iff _).mp ⟨_, hnames⟩, (nodup_named_iff hnames).mp (by decide)⟩
  exact ⟨(lookup_inverts_iff filmDir _ inodeTorrentBase
    (filmWith [⟨1, "/a.mkv", 10, 1⟩, ⟨2, "/b/c.mkv", 20, 1⟩]) ⟨by decide, by decide⟩ rfl).mpr hclear,
    hclear⟩

/-! ## Going back from an inode to its file -/

/-- The slot and the index `getattr` makes of a file's inode. -/
def getattrSlot (i : Nat) : Nat × Nat := ((i - inodeFileBase) / 10000, (i - inodeFileBase) % 10000)

/-- The slot and the index `read` makes of an inode. -/
def readSlot (inode : Nat) : Option (Nat × Nat) :=
  if inode < inodeFileBase then none
  else some ((inode - inodeFileBase) / 10000, (inode - inodeFileBase) % 10000)

/-- The inode of file `f` of slot `t` is issued: by `lookup` for some name, or by the listings. -/
inductive Issued (fs : RdFs) (ensure : EnsureInfo) (t f : Nat) : Prop where
  | found (mt : ManagedTorrent) (name : String) (hdir : IsDirInode (inodeTorrentBase + t))
      (hmt : dirTorrent fs ensure (inodeTorrentBase + t) = some mt)
      (hfind : findFile name 0 mt.selectedFiles = some (some f))
  | listed (mt : ManagedTorrent) (entries : List DirectoryEntry)
      (hdir : IsDirInode (inodeTorrentBase + t))
      (hmt : dirTorrent fs ensure (inodeTorrentBase + t) = some mt)
      (hlist : fileEntries t 0 mt.selectedFiles = some entries) (hf : f < entries.length)

/-- Both decoders give back slot and index. -/
def DecodesBack (t f : Nat) : Prop :=
  getattrSlot (fileInode t f) = (t, f) ∧ readSlot (fileInode t f) = some (t, f)

/-- The decoders are right below 10 000, and wrong from there on. -/
theorem decodesBack_iff (t f : Nat) : DecodesBack t f ↔ f < 10000 := by
  have hsub : fileInode t f - inodeFileBase = t * 10000 + f := by
    rw [fileInode]
    omega
  have hbase : ¬fileInode t f < inodeFileBase := by
    rw [fileInode]
    omega
  rw [DecodesBack, getattrSlot, readSlot, if_neg hbase, hsub, Option.some.injEq, Prod.mk.injEq]
  constructor
  · rintro ⟨⟨-, hmod⟩, -⟩
    omega
  · intro hf
    have hpair : (t * 10000 + f) / 10000 = t ∧ (t * 10000 + f) % 10000 = f := by omega
    exact ⟨hpair, hpair⟩

/-- **When file inodes decode.**  An inode that is issued decodes to its file exactly when the file's
    index is below 10 000; and all of them do, with no two files sharing one, exactly when all
    indices are. -/
theorem file_inodes_decode_iff (fs : RdFs) (ensure : EnsureInfo) :
    (∀ t f, Issued fs ensure t f → (DecodesBack t f ↔ f < 10000)) ∧
    (((∀ t f, Issued fs ensure t f → DecodesBack t f) ∧
      ∀ t f t' f', Issued fs ensure t f → Issued fs ensure t' f' →
        fileInode t f = fileInode t' f' → t = t' ∧ f = f') ↔
      ∀ t f, Issued fs ensure t f → f < 10000) := by
  refine ⟨fun t f _ => decodesBack_iff t f, ?_, ?_⟩
  · rintro ⟨hback, -⟩ t f h
    exact (decodesBack_iff t f).mp (hback t f h)
  · intro hlow
    refine ⟨fun t f h => (decodesBack_iff t f).mpr (hlow t f h), ?_⟩
    intro t f t' f' h h' heq
    -- equal inodes decode alike
    have hback := ((decodesBack_iff t f).mpr (hlow t f h)).1
    rw [heq, ((decodesBack_iff t' f').mpr (hlow t' f' h')).1] at hback
    obtain ⟨ht, hf⟩ := Prod.mk.inj hback
    exact ⟨ht.symm, hf.symm⟩

/-- A short name cuts cleanly: a character has at most four bytes. -/
theorem cutsCleanly_of_length {name : String} (h : name.toList.length ≤ 63) : CutsCleanly name := by
  have hbytes : ∀ cs : List Char, utf8Len cs ≤ 4 * cs.length := by
    intro cs
    induction cs with
    | nil => exact Nat.zero_le _
    | cons c cs ih =>
      rw [String.utf8Len_cons, List.length_cons]
      have := c.utf8Size_le_four
      omega
  intro hlong
  have hlen : (cleanName name).length = name.toList.length := List.length_map _
  have := hbytes (cleanName name)
  omega

/-- Files `/0`, `/1`, `/2` and so on. -/
def numberedFiles (n : Nat) : List File :=
  (List.range n).map fun i : Nat => ⟨i, String.ofList ('/' :: Nat.toDigits 10 i), 1, 1⟩

theorem numberedFiles_issued {n f : Nat} (hn : n ≤ 10 ^ 60) (hf : f < n) :
    Issued filmDir (filmInfo (numberedFiles n)) 0 f := by
  have hselected : (filmWith (numberedFiles n)).selectedFiles = numberedFiles n := by
    refine List.filter_eq_self.mpr fun f hf => ?_
    obtain ⟨i, -, rfl⟩ := List.mem_map.mp hf
    rfl
  have hcut : ∀ f ∈ numberedFiles n, CutsCleanly (trimSlashes f.path) := by
    intro f hf
    obtain ⟨i, hi, rfl⟩ := List.mem_map.mp hf
    have hlen : (Nat.toDigits 10 i).length ≤ 60 :=
      Nat.toDigits_length 10 i 60 (by decide) ((List.mem_range.mp hi).trans_le hn)
    have hdrop := (List.dropWhile_sublist (p := fun c => decide (c = '/'))
      (l := '/' :: Nat.toDigits 10 i)).length_le
    rw [List.length_cons] at hdrop
    refine cutsCleanly_of_length ?_
    rw [trimSlashes, String.toList_ofList, String.toList_ofList]
    omega
  obtain ⟨names, hnames⟩ := (exists_named_iff _).mpr hcut
  refine .listed (filmWith (numberedFiles n)) _ ⟨by decide, by decide⟩ rfl
    ((fileEntries_eq_some_iff 0 _ 0 _).mpr ⟨names, hselected.symm ▸ hnames, rfl⟩) ?_
  rw [List.length_map, List.length_zipIdx, ← hnames.length_eq, numberedFiles, List.length_map,
    List.length_range]
  exact hf

/-- The last file of a torrent with 10 001 files has the inode of the next torrent's first. -/
theorem many_files_share_inode :
    Issued filmDir (filmInfo (numberedFiles 10001)) 0 10000 ∧ fileInode 0 10000 = fileInode 1 0 ∧
    getattrSlot (fileInode 0 10000) = (1, 0) ∧ readSlot (fileInode 0 10000) = some (1, 0) ∧
    ¬∀ t f, Issued filmDir (filmInfo (numberedFiles 10001)) t f → DecodesBack t f := by
  have hissued : Issued filmDir (filmInfo (numberedFiles 10001)) 0 10000 :=
    numberedFiles_issued (by norm_num) (by norm_num)
  refine ⟨hissued, by decide, by decide, by decide, fun h => ?_⟩
  exact absurd ((decodesBack_iff 0 10000).mp (h 0 10000 hissued)) (by decide)

end RdRs.Fuse

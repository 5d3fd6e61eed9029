/-
  `handle_readdir` and `handle_readdirplus` of the vendored `fuse3` — entries in a reply's buffer.

  The kernel asks with the size of its buffer.  Entries are appended to the reply as long as they fit,
  each with a header of fixed fields, its name and zeros up to a multiple of 8 bytes; the next request
  starts at the offset of the last entry the kernel has read.

  `readdirplus` counts the zeros when it checks for room, `readdir` does not.

  * `listing_reads_back` — what is read from a reply is the longest front part of the entries whose
    checks pass, each entry with its inode, offset, kind and name.
  * `readdirplus_within` — its replies never exceed the kernel's buffer; those of `readdir` do not
    for any directory exactly when the size is a multiple of 8 or below the smallest entry
    (`readdir_within_iff`).
  * `walk_bytes_iff` — the kernel, asking again and again, sees a whole directory exactly when its
    listing comes in unbroken pages and every entry fits a buffer alone.
-/
import RdRs.Lib.Records
import RdRs.Lib.Form
import RdRs.Fuse.Attrs
import RdRs.Fuse.Walk

set_option linter.unusedVariables false

namespace RdRs.Fuse

open RdRs.Rd RdRs.Records RdRs.Paging RdRs.Form

/-! ## Layout -/

/-- `get_padding_size`: up to the next multiple of 8. -/
def getPaddingSize (dirEntrySize : Nat) : Nat := (dirEntrySize + 7) / 8 * 8 - dirEntrySize

/-- `FileType::const_into_mode_t`, `S_IFDIR` and `S_IFREG` -/
def FileType.intoModeT : FileType → Nat
  | .directory => 0o040000
  | .regularFile => 0o100000

/-- `mode_from_kind_and_perm` -/
def modeFromKindAndPerm (kind : FileType) (perm : Nat) : Nat := kind.intoModeT ||| perm

/-- `entry.offset as u64` -/
def offsetU64 (offset : Int) : Nat := (offset % 2 ^ 64).toNat

/-- The bytes of a name. -/
def nameBytes (name : String) : List UInt8 := utf8 name.toList

/-- `fuse_dirent`: widths and values; a value too large for its width is cut, as `as u32` does. -/
def fuseDirent (e : KindedEntry) : List (Nat × Nat) :=
  [(8, e.inode), (8, offsetU64 e.offset), (4, (nameBytes e.name).length),
    (4, modeFromKindAndPerm e.kind 0 >>> 12)]

/-- `fuse_attr` -/
def fuseAttr (attr : FileAttr) : List (Nat × Nat) :=
  [(8, attr.ino), (8, attr.size), (8, attr.blocks), (8, attr.atime.sec), (8, attr.mtime.sec),
    (8, attr.ctime.sec), (4, attr.atime.nsec), (4, attr.mtime.nsec), (4, attr.ctime.nsec),
    (4, modeFromKindAndPerm attr.kind attr.perm), (4, attr.nlink), (4, attr.uid), (4, attr.gid),
    (4, attr.rdev), (4, attr.blksize), (4, 0)]

/-- `fuse_entry_out`; the timeouts are whole seconds. -/
def fuseEntryOut (e : DirectoryEntryPlus) : List (Nat × Nat) :=
  [(8, e.attr.ino), (8, e.generation), (8, e.entryTtl), (8, e.attrTtl), (4, 0), (4, 0)] ++
    fuseAttr e.attr

/-- `fuse_direntplus` -/
def fuseDirentplus (e : DirectoryEntryPlus) : List (Nat × Nat) :=
  fuseEntryOut e ++ fuseDirent e.toKindedEntry

/-- `FUSE_DIRENT_SIZE` -/
def fuseDirentSize : Nat := 24

/-- `FUSE_DIRENTPLUS_SIZE` -/
def fuseDirentplusSize : Nat := 152

/-- What `handle_readdir` writes of an entry. -/
def direntBytes (e : KindedEntry) : List UInt8 :=
  record getPaddingSize (fuseDirent e) (nameBytes e.name)

/-- What `handle_readdirplus` writes of an entry. -/
def direntplusBytes (e : DirectoryEntryPlus) : List UInt8 :=
  record getPaddingSize (fuseDirentplus e) (nameBytes e.name)

/-- What `handle_readdir` checks for: the entry without the zeros. -/
def direntCost (e : KindedEntry) : Nat := fuseDirentSize + (nameBytes e.name).length

/-- What `handle_readdirplus` checks for: the entry with the zeros. -/
def direntplusCost (e : DirectoryEntryPlus) : Nat :=
  let dirEntrySize := fuseDirentplusSize + (nameBytes e.name).length
  dirEntrySize + getPaddingSize dirEntrySize

/-- `entry_data` of `handle_readdir` -/
def readdirData (maxSize : Nat) (entries : List KindedEntry) : List UInt8 :=
  pack direntBytes direntCost maxSize [] entries

/-- `entry_data` of `handle_readdirplus` -/
def readdirplusData (maxSize : Nat) (entries : List DirectoryEntryPlus) : List UInt8 :=
  pack direntplusBytes direntplusCost maxSize [] entries

/-! ## One entry -/

theorem getPaddingSize_lt (n : Nat) : getPaddingSize n < 8 := by
  rw [getPaddingSize]
  omega

/-- With its padding, an entry ends at a multiple of 8. -/
theorem dvd_add_getPaddingSize (n : Nat) : 8 ∣ n + getPaddingSize n := by
  refine ⟨(n + 7) / 8, ?_⟩
  rw [getPaddingSize]
  omega

/-- The widths of `fuse_dirent`. -/
def direntWidths : List Nat := [8, 8, 4, 4]

/-- The widths of `fuse_direntplus`. -/
def direntplusWidths : List Nat :=
  [8, 8, 8, 8, 4, 4] ++ [8, 8, 8, 8, 8, 8, 4, 4, 4, 4, 4, 4, 4, 4, 4, 4] ++ direntWidths

theorem fuseDirent_widths (e : KindedEntry) : (fuseDirent e).map Prod.fst = direntWidths := rfl

theorem fuseDirentplus_widths (e : DirectoryEntryPlus) :
    (fuseDirentplus e).map Prod.fst = direntplusWidths := rfl

theorem length_direntBytes (e : KindedEntry) :
    (direntBytes e).length = direntCost e + getPaddingSize (direntCost e) := by
  rw [direntBytes, length_record, fuseDirent_widths]
  rfl

theorem length_direntplusBytes (e : DirectoryEntryPlus) :
    (direntplusBytes e).length = direntplusCost e := by
  rw [direntplusBytes, length_record, fuseDirentplus_widths]
  rfl

/-! ## Reading a reply -/

/-- Entries read from `entry_data` of `readdir`: the fields of each, and its name. -/
def readDirents (data : List UInt8) : List (List Nat × List UInt8) :=
  readAll (nextRecord getPaddingSize direntWidths 2) (data.length + 1) data

/-- Entries read from `entry_data` of `readdirplus`. -/
def readDirentpluses (data : List UInt8) : List (List Nat × List UInt8) :=
  readAll (nextRecord getPaddingSize direntplusWidths 24) (data.length + 1) data

/-- A field for the length of the name is large enough. -/
def ShortName (name : String) : Prop := (nameBytes name).length < 2 ^ 32

instance : DecidablePred ShortName := fun name =>
  inferInstanceAs (Decidable ((nameBytes name).length < 2 ^ 32))

theorem next_direntBytes {e : KindedEntry} (hname : ShortName e.name) (rest : List UInt8) :
    nextRecord getPaddingSize direntWidths 2 (direntBytes e ++ rest) =
      some (((fuseDirent e).map kept, nameBytes e.name), rest) := by
  have hlen : ((fuseDirent e).map kept).getD 2 0 = (nameBytes e.name).length :=
    (Nat.mod_eq_of_lt hname : (nameBytes e.name).length % 256 ^ 4 = _)
  exact nextRecord_record hlen rest

theorem next_direntplusBytes {e : DirectoryEntryPlus} (hname : ShortName e.name)
    (rest : List UInt8) :
    nextRecord getPaddingSize direntplusWidths 24 (direntplusBytes e ++ rest) =
      some (((fuseDirentplus e).map kept, nameBytes e.name), rest) := by
  have hlen : ((fuseDirentplus e).map kept).getD 24 0 = (nameBytes e.name).length :=
    (Nat.mod_eq_of_lt hname : (nameBytes e.name).length % 256 ^ 4 = _)
  exact nextRecord_record hlen rest

/-- The front part of the entries that `readdir` sends. -/
def readdirSent (maxSize : Nat) (entries : List KindedEntry) : List KindedEntry :=
  fitting (fun e => (direntBytes e).length) direntCost maxSize 0 entries

/-- The front part of the entries that `readdirplus` sends. -/
def readdirplusSent (maxSize : Nat) (entries : List DirectoryEntryPlus) : List DirectoryEntryPlus :=
  fitting (fun e => (direntplusBytes e).length) direntplusCost maxSize 0 entries

theorem readdirSent_front (maxSize : Nat) (entries : List KindedEntry) :
    readdirSent maxSize entries <+: entries :=
  (fitting_spec entries 0).1

theorem readdirplusSent_front (maxSize : Nat) (entries : List DirectoryEntryPlus) :
    readdirplusSent maxSize entries <+: entries :=
  (fitting_spec entries 0).1

theorem readDirents_readdirData {maxSize : Nat} {entries : List KindedEntry}
    (hnames : ∀ e ∈ entries, ShortName e.name) : readDirents (readdirData maxSize entries) =
      (readdirSent maxSize entries).map fun e => ((fuseDirent e).map kept, nameBytes e.name) := by
  refine readAll_pack rfl (fun e h => ?_) fun e he rest => next_direntBytes (hnames e he) rest
  have hlen := length_direntBytes e
  rw [h, direntCost, fuseDirentSize, List.length_nil] at hlen
  omega

theorem readDirentpluses_readdirplusData {maxSize : Nat} {entries : List DirectoryEntryPlus}
    (hnames : ∀ e ∈ entries, ShortName e.name) :
    readDirentpluses (readdirplusData maxSize entries) =
      (readdirplusSent maxSize entries).map fun e =>
        ((fuseDirentplus e).map kept, nameBytes e.name) := by
  refine readAll_pack rfl (fun e h => ?_) fun e he rest => next_direntplusBytes (hnames e he) rest
  have hlen := length_direntplusBytes e
  rw [h, direntplusCost, fuseDirentplusSize, List.length_nil] at hlen
  omega

/-- **What is read from a reply**: the longest front part of the entries that pass their checks, each
    with the values it was sent with. -/
theorem listing_reads_back (maxSize : Nat) (entries : List DirectoryEntryPlus)
    (hnames : ∀ e ∈ entries, ShortName e.name)
    (hvalues : ∀ e ∈ entries, FieldsFit (fuseDirentplus e)) :
    (∃ sent, sent <+: entries.map (·.toKindedEntry) ∧
      readDirents (readdirData maxSize (entries.map (·.toKindedEntry))) =
        sent.map (fun e => ((fuseDirent e).map Prod.snd, nameBytes e.name)) ∧
      ∀ p, p <+: entries.map (·.toKindedEntry) →
        (Fits (fun e => (direntBytes e).length) direntCost maxSize 0 p ↔ p <+: sent)) ∧
    ∃ sent, sent <+: entries ∧
      readDirentpluses (readdirplusData maxSize entries) =
        sent.map (fun e => ((fuseDirentplus e).map Prod.snd, nameBytes e.name)) ∧
      ∀ p, p <+: entries → ((p.map direntplusCost).sum ≤ maxSize ↔ p <+: sent) := by
  have hplain : ∀ e ∈ entries.map (·.toKindedEntry), ShortName e.name := by
    intro e he
    obtain ⟨d, hd, rfl⟩ := List.mem_map.mp he
    exact hnames d hd
  refine ⟨⟨_, readdirSent_front maxSize _, ?_, fun p hp => fits_iff_front hp⟩,
    _, readdirplusSent_front maxSize entries, ?_, fun p hp => ?_⟩
  · rw [readDirents_readdirData hplain]
    refine List.map_congr_left fun e he => ?_
    obtain ⟨d, hd, rfl⟩ := List.mem_map.mp ((readdirSent_front maxSize _).subset he)
    have hfit : FieldsFit (fuseDirent d.toKindedEntry) := fun f hf =>
      hvalues d hd f (List.mem_append_right _ hf)
    rw [hfit.kept]
  · rw [readDirentpluses_readdirplusData hnames]
    refine List.map_congr_left fun e he => ?_
    rw [(hvalues e ((readdirplusSent_front maxSize entries).subset he)).kept]
  · refine Iff.trans ?_ (fits_iff_front hp)
    have hsize : (fun e => (direntplusBytes e).length) = direntplusCost :=
      funext length_direntplusBytes
    rw [hsize, fits_iff fun _ => rfl, Nat.zero_add]
    refine ⟨Or.inr, ?_⟩
    rintro (rfl | h)
    · exact Nat.zero_le _
    · exact h

/-- The root directory in a buffer of 330 bytes: `.` and `..`, of 160 bytes each. -/
theorem listing_reads_back_root :
    (∃ sent, sent <+: rootPlus ⟨1, 1⟩ ∧
      readDirentpluses (readdirplusData 330 (rootPlus ⟨1, 1⟩)) =
        sent.map (fun e => ((fuseDirentplus e).map Prod.snd, nameBytes e.name)) ∧
      ∀ p, p <+: rootPlus ⟨1, 1⟩ → ((p.map direntplusCost).sum ≤ 330 ↔ p <+: sent)) ∧
    ((rootPlus ⟨1, 1⟩).take 2).map direntplusCost = [160, 160] := by
  have hnames : ∀ e ∈ rootPlus ⟨1, 1⟩, ShortName e.name := by decide
  have hvalues : ∀ e ∈ rootPlus ⟨1, 1⟩, FieldsFit (fuseDirentplus e) := by
    have hfit : ∀ e ∈ rootPlus ⟨1, 1⟩, ∀ f ∈ fuseDirentplus e, f.2 < 256 ^ f.1 := by decide
    exact hfit
  exact ⟨(listing_reads_back 330 (rootPlus ⟨1, 1⟩) hnames hvalues).2, by decide⟩

/-! ## The size of a reply -/

/-- **Never too large**: `readdirplus` stays within the kernel's buffer. -/
theorem readdirplus_within (maxSize : Nat) (entries : List DirectoryEntryPlus) :
    (readdirplusData maxSize entries).length ≤ maxSize :=
  length_pack_le (fun e => le_of_eq (length_direntplusBytes e)) entries [] (Nat.zero_le _)

/-- An entry whose name has `n` bytes. -/
def entryOfLength (n : Nat) : KindedEntry :=
  ⟨⟨inodeFileBase, String.ofList (List.replicate n 'a'), 3⟩, .regularFile⟩

theorem nameBytes_entryOfLength (n : Nat) : (nameBytes (entryOfLength n).name).length = n := by
  have hutf8 : ∀ n : Nat, (utf8 (List.replicate n 'a')).length = n := by
    intro n
    induction n with
    | zero => rfl
    | succ n ih =>
      rw [List.replicate_succ, utf8, List.flatMap_cons, List.length_append]
      show 1 + (utf8 (List.replicate n 'a')).length = n + 1
      rw [ih, Nat.add_comm]
  rw [nameBytes, entryOfLength, String.toList_ofList]
  exact hutf8 n

theorem readdir_within {maxSize : Nat} (h : 8 ∣ maxSize) (entries : List KindedEntry) :
    (readdirData maxSize entries).length ≤ maxSize := by
  refine length_pack_le_of_dvd (fun e => ?_) (fun e => ?_) h entries [] ⟨0, rfl⟩
    (Nat.zero_le _)
  · rw [length_direntBytes]
    exact dvd_add_getPaddingSize _
  · rw [length_direntBytes]
    have := getPaddingSize_lt (direntCost e)
    omega

/-- Entries of 32 bytes, and one that is checked for all that is left and padded then. -/
theorem readdir_exceeds {maxSize : Nat} (hodd : ¬8 ∣ maxSize) (hroom : 24 < maxSize) :
    ∃ entries : List KindedEntry,
      (∀ e ∈ entries, 0 < (nameBytes e.name).length ∧ (nameBytes e.name).length ≤ 255) ∧
      maxSize < (readdirData maxSize entries).length := by
  have hcost : ∀ n, direntCost (entryOfLength n) = 24 + n := fun n => by
    rw [direntCost, nameBytes_entryOfLength]
    rfl
  have hsize : ∀ n, (direntBytes (entryOfLength n)).length = 24 + n + getPaddingSize (24 + n) :=
    fun n => by rw [length_direntBytes, hcost]
  -- on the number of entries of 32 bytes
  have hpack : ∀ (k m : Nat) (buf : List UInt8), buf.length + 32 * k + (24 + m) = maxSize →
      (pack direntBytes direntCost maxSize buf
        (List.replicate k (entryOfLength 8) ++ [entryOfLength m])).length =
          maxSize + getPaddingSize (24 + m) := by
    intro k
    induction k with
    | zero =>
      intro m buf hbuf
      rw [List.replicate_zero, List.nil_append, pack, if_neg (by rw [hcost]; omega), pack,
        List.length_append, hsize]
      omega
    | succ k ih =>
      intro m buf hbuf
      have hnext : (buf ++ direntBytes (entryOfLength 8)).length = buf.length + 32 := by
        rw [List.length_append, hsize]
        rfl
      rw [List.replicate_succ, List.cons_append, pack, if_neg (by rw [hcost]; omega)]
      exact ih m _ (by rw [hnext]; omega)
  obtain ⟨k, m, hm, hm', hsum⟩ : ∃ k m, 0 < m ∧ m ≤ 32 ∧ 32 * k + (24 + m) = maxSize :=
    ⟨(maxSize - 25) / 32, 1 + (maxSize - 25) % 32, by omega, by omega, by omega⟩
  refine ⟨List.replicate k (entryOfLength 8) ++ [entryOfLength m], fun e he => ?_, ?_⟩
  · have hn : ∃ n, 0 < n ∧ n ≤ 255 ∧ e = entryOfLength n := by
      rcases List.mem_append.mp he with he | he
      · exact ⟨8, by omega, by omega, List.eq_of_mem_replicate he⟩
      · exact ⟨m, hm, by omega, List.mem_singleton.mp he⟩
    obtain ⟨n, hpos, hle, rfl⟩ := hn
    rw [nameBytes_entryOfLength]
    exact ⟨hpos, hle⟩
  · rw [readdirData, hpack k m [] (by rw [List.length_nil]; omega), getPaddingSize]
    have : ¬8 ∣ 24 + m := by omega
    omega

/-- **When `readdir` stays within the buffer**, whatever is listed: the buffer ends at a multiple of 8,
    or is too small for any entry. -/
theorem readdir_within_iff (maxSize : Nat) :
    (∀ entries : List KindedEntry,
      (∀ e ∈ entries, 0 < (nameBytes e.name).length ∧ (nameBytes e.name).length ≤ 255) →
      (readdirData maxSize entries).length ≤ maxSize) ↔ 8 ∣ maxSize ∨ maxSize ≤ 24 := by
  constructor
  · intro h
    by_contra hno
    push Not at hno
    obtain ⟨entries, hnames, hlarge⟩ := readdir_exceeds hno.1 hno.2
    exact absurd (h entries hnames) (not_le.mpr hlarge)
  · rintro (h | h) entries hnames
    · exact readdir_within h entries
    · cases entries with
      | nil => exact Nat.zero_le _
      | cons e entries =>
        have hpos := (hnames e List.mem_cons_self).1
        rw [readdirData, pack, if_pos]
        · exact Nat.zero_le _
        · rw [List.length_nil, direntCost, fuseDirentSize]
          omega

/-! ## The kernel's walk -/

/-- What a reader of bytes sees of a listed entry. -/
def shownBytes (x : String × Int) : List UInt8 × Int := (nameBytes x.1, x.2)

theorem beyond_shownBytes (items : List (String × Int)) (c : Int) :
    beyond Prod.snd (items.map shownBytes) c = (beyond Prod.snd items c).map shownBytes := by
  rw [beyond, List.filter_map]
  rfl

/-- Requests for pages of `__all__` whose replies are cut to what fits the buffer. -/
structure ServesFitting {α : Type} (torrents : AList (fun _ : String => ManagedTorrent))
    (keys : List (String × String)) (toEntry : α → DirectoryEntry) (costOf : String → Nat)
    (room : Nat) (serve : Nat → Int → Option (List (List UInt8 × Int))) where
  reply : Nat → Int → Option (List α)
  size : α → Nat
  pages : ListsPages torrents keys fun n c => (reply n c).map (List.map toEntry)
  serves : ∀ n c l, reply n c = some l →
    (∀ a ∈ l, shown (toEntry a) ∈ listing torrents keys) →
      serve n c = some ((fitting size (fun a => costOf (toEntry a).name) room 0 l).map
        fun a => shownBytes (shown (toEntry a)))

section

variable {torrents : AList (fun _ : String => ManagedTorrent)} {keys : List (String × String)}
  {α : Type} {toEntry : α → DirectoryEntry} {costOf : String → Nat} {room : Nat}
  {serve : Nat → Int → Option (List (List UInt8 × Int))}

/-- Offsets to ask from. -/
def AskedFrom (keys : List (String × String)) (c : Int) : Prop := 0 ≤ c ∧ c ≤ keys.length + 2

/-- One request: a front part of what lies beyond the offset, cut to what fits. -/
theorem ServesFitting.one (h : ServesFitting torrents keys toEntry costOf room serve) (n : Nat) {c : Int}
    (hc : AskedFrom keys c) : ∃ l, h.reply n c = some l ∧
      l.map (fun a => shown (toEntry a)) <+: beyond Prod.snd (listing torrents keys) c ∧
      serve n c = some ((fitting h.size (fun a => costOf (toEntry a).name) room 0 l).map
        fun a => shownBytes (shown (toEntry a))) := by
  obtain ⟨r, hr, hfront⟩ := h.pages.front n hc.1 hc.2
  obtain ⟨l, hl, rfl⟩ := Option.map_eq_some_iff.mp hr
  rw [List.map_map] at hfront
  refine ⟨l, hl, hfront, h.serves n c l hl fun a ha => ?_⟩
  have hmem := hfront.subset (List.mem_map_of_mem ha)
  exact (List.mem_filter.mp hmem).1

/-- What is served is a front part of what lies beyond the offset. -/
theorem ServesFitting.front (h : ServesFitting torrents keys toEntry costOf room serve) (n : Nat)
    {c : Int} (hc : AskedFrom keys c) : ∃ reply, serve n c = some reply ∧
      reply <+: beyond Prod.snd ((listing torrents keys).map shownBytes) c := by
  obtain ⟨l, -, hfront, hserve⟩ := h.one n hc
  have hfit := (@fitting_spec _ h.size (fun a => costOf (toEntry a).name) room l 0).1
  have hsent := ((hfit.map fun a => shown (toEntry a)).trans hfront).map shownBytes
  rw [List.map_map] at hsent
  rw [beyond_shownBytes]
  exact ⟨_, hserve, hsent⟩

/-- What is served, is listed, and fits. -/
theorem ServesFitting.served (h : ServesFitting torrents keys toEntry costOf room serve) {n : Nat}
    {c : Int} {reply : List (List UInt8 × Int)} (hc : AskedFrom keys c)
    (hreply : serve n c = some reply) {b : List UInt8 × Int} (hb : b ∈ reply) :
    ∃ x ∈ listing torrents keys, b = shownBytes x ∧ costOf x.1 ≤ room ∧
      ∃ l a, h.reply n c = some l ∧ a ∈ l ∧ x = shown (toEntry a) := by
  obtain ⟨l, hl, hfront, hserve⟩ := h.one n hc
  obtain rfl := Option.some.inj (hserve.symm.trans hreply)
  obtain ⟨a, ha, rfl⟩ := List.mem_map.mp hb
  have hal := (fitting_spec l 0).1.subset ha
  have hmem := (List.mem_filter.mp (hfront.subset (List.mem_map_of_mem hal))).1
  have hcost := @cost_le_of_mem_fitting _ h.size (fun a => costOf (toEntry a).name) room l 0 a ha
  exact ⟨_, hmem, rfl, hcost, l, a, hl, hal, rfl⟩

/-- A listed item is known by its offset. -/
theorem listing_unique {x y : String × Int} (hx : x ∈ listing torrents keys)
    (hy : y ∈ listing torrents keys) (h : x.2 = y.2) : x = y :=
  List.inj_on_of_nodup_map
    ((List.pairwise_map.mpr (listing_sorted keys)).imp fun hlt => ne_of_lt hlt) hx hy h

/-- **When a walk over buffers sees the whole directory.** -/
theorem ServesFitting.walk_iff (h : ServesFitting torrents keys toEntry costOf room serve)
    (consume : Nat → Nat) {fuel : Nat} (hfuel : keys.length + 2 < fuel) :
    ∃ seen, Paging.walk serve Prod.snd consume fuel 0 0 = some seen ∧
      (seen = (listing torrents keys).map shownBytes ↔
        Unbroken torrents keys ∧ ∀ x ∈ listing torrents keys, costOf x.1 ≤ room) := by
  have hsorted : ((listing torrents keys).map shownBytes).Pairwise fun a b => a.2 < b.2 :=
    List.pairwise_map.mpr (listing_sorted keys)
  have hoffsets : ∀ a ∈ (listing torrents keys).map shownBytes, AskedFrom keys a.2 := by
    intro a ha
    obtain ⟨x, hx, rfl⟩ := List.mem_map.mp ha
    exact listing_offsets keys x hx
  have hzero : AskedFrom keys 0 := ⟨le_rfl, by omega⟩
  have hall : beyond Prod.snd ((listing torrents keys).map shownBytes) 0 =
      (listing torrents keys).map shownBytes := by
    rw [beyond_shownBytes, beyond_zero]
  obtain ⟨seen, hwalk, -, hfull⟩ := @walk_spec _ _ _ _ Prod.snd
    ((listing torrents keys).map shownBytes) serve Prod.snd id consume (AskedFrom keys) hsorted
    (fun _ => rfl) hoffsets (fun n c hc => by
      obtain ⟨reply, hreply, hfront⟩ := h.front n hc
      exact ⟨reply, hreply, (List.map_id reply).symm ▸ hfront⟩) fuel 0 0 hzero
    (by
      have hlen := @listing_length_le torrents keys
      rw [hall, List.length_map]
      omega)
  rw [List.map_id, hall] at hfull
  have hback : ∀ n c reply, AskedFrom keys c → serve n c = some reply →
      ∀ e ∈ reply, AskedFrom keys e.2 := by
    intro n c reply hc hreply e he
    obtain ⟨x, hx, rfl, -⟩ := h.served hc hreply he
    exact listing_offsets keys x hx
  refine ⟨seen, hwalk, fun hseen => ⟨fun g hgap e he => ?_, fun x hx => ?_⟩, fun hboth => hfull ?_⟩
  · obtain ⟨j, hj⟩ := List.mem_iff_getElem?.mp he
    rw [List.getElem?_drop] at hj
    have hlt := (List.getElem?_eq_some_iff.mp hj).1
    by_contra hp
    -- the listing has the key behind the gap, which the walk never reaches
    have hmem : shownBytes (e.2, ((g + 1000 + j : Nat) : Int) + 3) ∈ seen := by
      rw [hseen]
      exact List.mem_map_of_mem (List.mem_append_right _ (mem_presentFrom.mpr
        ⟨g + 1000 + j, e, hj, Bool.eq_true_of_not_eq_false hp, by simp⟩))
    have hbound := @walk_trapped _ _ _ serve Prod.snd consume
      (fun c => 0 ≤ c ∧ c ≤ (g : Int) + 2) ((g : Int) + 2)
      (fun n c reply hok hc hreply d hd => by
        obtain ⟨x, -, rfl, -, l, a, hl, ha, rfl⟩ :=
          h.served (c := c) ⟨hok.1, by omega⟩ hreply hd
        have hrep : (h.reply n c).map (List.map toEntry) = some (l.map toEntry) := by
          rw [hl]
          rfl
        have hd' := h.pages.trapped hgap (by omega) hok.1 hc hrep (List.mem_map_of_mem ha)
        exact ⟨hd', hd'.2⟩)
      fuel 0 0 seen ⟨le_rfl, by omega⟩ (by omega) hwalk _ hmem
    rw [shownBytes] at hbound
    dsimp only at hbound
    omega
  · have hmem : shownBytes x ∈ seen := hseen ▸ List.mem_map_of_mem hx
    obtain ⟨m, d, reply, hd, hreply, hb⟩ := walk_mem hback hzero hwalk _ hmem
    obtain ⟨y, hy, hxy, hcost, -⟩ := h.served hd hreply hb
    have hoff : x.2 = y.2 := congrArg (fun b : List UInt8 × Int => b.2) hxy
    rw [listing_unique hx hy hoff]
    exact hcost
  · intro n c hc hnil
    obtain ⟨l, hl, hfront, hserve⟩ := h.one n hc
    have hfit := List.map_eq_nil_iff.mp (Option.some.inj (hserve.symm.trans hnil))
    -- the first entry of a reply fits, so there was none
    have hempty : l = [] := by
      cases l with
      | nil => rfl
      | cons a l =>
        have hlarge := fitting_eq_nil_iff.mp hfit a rfl
        have hmem := (List.mem_filter.mp (hfront.subset List.mem_cons_self)).1
        have hle : costOf (toEntry a).name ≤ room := hboth.2 _ hmem
        omega
    rw [beyond_shownBytes, h.pages.full hboth.1 hc.1 hc.2 (n := n) (by rw [hl, hempty]; rfl)]
    rfl

end

/-! ## Both handlers -/

section

variable (ttls : Ttls) (ensure : EnsureInfo) (fsAt : Nat → RdFs) (nowAt : Nat → Nat) (room : Nat)

/-- A name and an offset, read from a `fuse_dirent`. -/
def direntShown (r : List Nat × List UInt8) : List UInt8 × Int := (r.2, (r.1.getD 1 0 : Nat))

/-- A name and an offset, read from a `fuse_direntplus`. -/
def direntplusShown (r : List Nat × List UInt8) : List UInt8 × Int := (r.2, (r.1.getD 23 0 : Nat))

/-- Entries of `__all__`, as `readdir` lists them. -/
def readdirListed (n : Nat) (c : Int) : Option (List KindedEntry) :=
  (readdir ttls (fsAt n) ensure (nowAt n) inodeAll c).bind Prod.fst

/-- Entries of `__all__`, as `readdirplus` lists them. -/
def readdirplusListed (n : Nat) (c : Int) : Option (List DirectoryEntryPlus) :=
  (readdirplus ttls (fsAt n) ensure (nowAt n) inodeAll c.toNat).bind Prod.fst

/-- The requests of a walk, read from the bytes of the replies of `readdir`. -/
def readdirServes (n : Nat) (c : Int) : Option (List (List UInt8 × Int)) :=
  (readdirListed ttls ensure fsAt nowAt n c).map fun entries =>
    (readDirents (readdirData room entries)).map direntShown

/-- The requests of a walk, read from the bytes of the replies of `readdirplus`. -/
def readdirplusServes (n : Nat) (c : Int) : Option (List (List UInt8 × Int)) :=
  (readdirplusListed ttls ensure fsAt nowAt n c).map fun entries =>
    (readDirentpluses (readdirplusData room entries)).map direntplusShown

/-- What an entry of this name takes of the room for the listing that is checked without padding. -/
def direntNeeds (name : String) : Nat := fuseDirentSize + (nameBytes name).length

/-- What an entry of this name takes of the room for the other. -/
def direntplusNeeds (name : String) : Nat :=
  fuseDirentplusSize + (nameBytes name).length +
    getPaddingSize (fuseDirentplusSize + (nameBytes name).length)

variable {ttls ensure fsAt nowAt room}

theorem readdirListed_entries (n : Nat) (c : Int) :
    (readdirListed ttls ensure fsAt nowAt n c).map (List.map (·.toDirectoryEntry)) =
      readdirReplies fsAt nowAt n c := by
  rw [readdirListed, readdir, if_neg (by decide), if_pos rfl, readdirReplies]
  cases readdirAll (fsAt n) (nowAt n) c with
  | none => rfl
  | some r =>
    simp only [Option.map_some, Option.bind_some, List.map_map]
    exact congrArg some (List.map_id r.1)

theorem readdirplusListed_entries (n : Nat) (c : Int) :
    (readdirplusListed ttls ensure fsAt nowAt n c).map (List.map (·.toDirectoryEntry)) =
      readdirplusReplies fsAt nowAt n c := by
  have hall := @readdirplus_all_entries ttls (fsAt n) ensure (nowAt n) c.toNat
  rw [readdirplusListed, readdirplusReplies]
  cases hr : readdirplusAll (fsAt n) (nowAt n) c.toNat with
  | none =>
    rw [hr, Option.map_none, Option.map_eq_none_iff] at hall
    rw [hall]
    rfl
  | some r =>
    rw [hr] at hall
    obtain ⟨q, hq, hqr⟩ := Option.map_eq_some_iff.mp hall
    rw [hq]
    exact congrArg Prod.fst hqr

variable {torrents : AList (fun _ : String => ManagedTorrent)} {keys : List (String × String)}

/-- An offset of the listing is what is read of it. -/
theorem kept_offset {x : String × Int} (hx : x ∈ listing torrents keys)
    (hlen : keys.length + 2 < 2 ^ 63) : ((kept (8, offsetU64 x.2) : Nat) : Int) = x.2 := by
  obtain ⟨hlow, hhigh⟩ := listing_offsets keys x hx
  have hpow : (256 : Nat) ^ 8 = 2 ^ 64 := by decide
  show ((offsetU64 x.2 % 256 ^ 8 : Nat) : Int) = x.2
  rw [hpow, offsetU64]
  omega

/-- The replies of `readdir`, as bytes. -/
def readdirServing (hlen : keys.length + 2 < 2 ^ 63)
    (hnames : ∀ x ∈ listing torrents keys, ShortName x.1) (hfixed : Fixed torrents keys fsAt nowAt) :
    ServesFitting torrents keys (fun e : KindedEntry => e.toDirectoryEntry) direntNeeds room
      (readdirServes ttls ensure fsAt nowAt room) where
  reply := readdirListed ttls ensure fsAt nowAt
  size := fun e => (direntBytes e).length
  pages := by
    have hsame := funext fun n => funext (@readdirListed_entries ttls ensure fsAt nowAt n)
    exact hsame ▸ readdirReplies_pages hfixed
  serves := by
    intro n c l hl hmem
    have hshort : ∀ e ∈ l, ShortName e.name := fun e he => hnames _ (hmem e he)
    rw [readdirServes, hl, Option.map_some, readDirents_readdirData hshort, List.map_map]
    refine congrArg some (List.map_congr_left fun e he => Prod.ext rfl ?_)
    exact kept_offset (hmem e ((readdirSent_front room l).subset he)) hlen

/-- The replies of `readdirplus`, as bytes. -/
def readdirplusServing (hlen : keys.length + 2 < 2 ^ 63)
    (hnames : ∀ x ∈ listing torrents keys, ShortName x.1) (hfixed : Fixed torrents keys fsAt nowAt) :
    ServesFitting torrents keys (fun e : DirectoryEntryPlus => e.toDirectoryEntry) direntplusNeeds
      room (readdirplusServes ttls ensure fsAt nowAt room) where
  reply := readdirplusListed ttls ensure fsAt nowAt
  size := fun e => (direntplusBytes e).length
  pages := by
    have hsame := funext fun n => funext (@readdirplusListed_entries ttls ensure fsAt nowAt n)
    exact hsame ▸ readdirplusReplies_pages hlen hfixed
  serves := by
    intro n c l hl hmem
    have hshort : ∀ e ∈ l, ShortName e.name := fun e he => hnames _ (hmem e he)
    rw [readdirplusServes, hl, Option.map_some, readDirentpluses_readdirplusData hshort, List.map_map]
    refine congrArg some (List.map_congr_left fun e he => Prod.ext rfl ?_)
    exact kept_offset (hmem e ((readdirplusSent_front room l).subset he)) hlen

/-- **What the kernel sees of `__all__`**, asking again and again with buffers of one size and reading
    the bytes of the replies: everything, each once and in order, exactly when no 1000 absent keys
    come before a present one and every entry fits the buffer alone. -/
theorem walk_bytes_iff (hlen : keys.length + 2 < 2 ^ 63)
    (hnames : ∀ x ∈ listing torrents keys, ShortName x.1) (hfixed : Fixed torrents keys fsAt nowAt)
    (consume : Nat → Nat) {fuel : Nat} (hfuel : keys.length + 2 < fuel) :
    (∃ seen, Paging.walk (readdirServes ttls ensure fsAt nowAt room) Prod.snd consume fuel 0 0 =
        some seen ∧
      (seen = (listing torrents keys).map shownBytes ↔
        Unbroken torrents keys ∧ ∀ x ∈ listing torrents keys, direntNeeds x.1 ≤ room)) ∧
    ∃ seen, Paging.walk (readdirplusServes ttls ensure fsAt nowAt room) Prod.snd consume fuel 0 0 =
        some seen ∧
      (seen = (listing torrents keys).map shownBytes ↔
        Unbroken torrents keys ∧ ∀ x ∈ listing torrents keys, direntplusNeeds x.1 ≤ room) :=
  ⟨(readdirServing hlen hnames hfixed).walk_iff consume hfuel,
    (readdirplusServing hlen hnames hfixed).walk_iff consume hfuel⟩

end

/-! ## Buffers that are always enough -/

theorem length_nameBytes (name : String) : (nameBytes name).length = String.utf8Len name.toList := by
  have hutf8 : ∀ cs : List Char, (utf8 cs).length = String.utf8Len cs := by
    intro cs
    induction cs with
    | nil => rfl
    | cons c cs ih =>
      rw [utf8, List.flatMap_cons, List.length_append, String.length_utf8EncodeChar,
        String.utf8Len_cons, Nat.add_comm]
      exact congrArg (· + c.utf8Size) ih
  exact hutf8 _

/-- What an entry needs whose name has 255 bytes at most. -/
theorem needs_le {name : String} (h : (nameBytes name).length ≤ 255) :
    direntNeeds name ≤ 279 ∧ direntplusNeeds name ≤ 408 := by
  rw [direntNeeds, direntplusNeeds, fuseDirentSize, fuseDirentplusSize, getPaddingSize]
  omega

/-- The names of a key list come from the sanitiser. -/
theorem uniqueEntries_bytes : ∀ {l keys : List (String × String)} {prev : String} {dup : Nat},
    uniqueEntries prev dup l = some keys → ∀ e ∈ keys, (nameBytes e.2).length ≤ 255
  | [], keys, prev, dup, h, e, he => by
    rw [uniqueEntries, Option.some.injEq] at h
    rw [← h] at he
    exact absurd he List.not_mem_nil
  | (key, name) :: rest, keys, prev, dup, h, e, he => by
    have hclean : ∀ {n s : String}, sanitizeDirentName n = some s → (nameBytes s).length ≤ 255 := by
      intro n s hs
      rw [length_nameBytes]
      rcases (sanitizeDirentName_eq_some_iff n s).mp hs with ⟨-, -, hlen⟩ | ⟨hlen, hs⟩
      · exact le_of_eq hlen
      · rw [hs]
        exact hlen
    rw [uniqueEntries] at h
    split at h
    all_goals
      obtain ⟨clean, hs, h⟩ := Option.bind_eq_some_iff.mp h
      obtain ⟨later, hlater, h⟩ := Option.bind_eq_some_iff.mp h
      rw [← Option.some.inj h] at he
      rcases List.mem_cons.mp he with rfl | he
      · exact hclean hs
      · exact uniqueEntries_bytes hlater e he

/-- **With 408 bytes or more** a list that was built is seen whole unless its pages break. -/
theorem walk_bytes_built {ttls : Ttls} {ensure : EnsureInfo} {fsAt : Nat → RdFs} {nowAt : Nat → Nat}
    {room : Nat} {torrents built : AList (fun _ : String => ManagedTorrent)}
    {keys : List (String × String)} (hbuilt : buildSortedKeys built = some keys)
    (hlen : keys.length + 2 < 2 ^ 63) (hfixed : Fixed torrents keys fsAt nowAt) (hroom : 408 ≤ room)
    (consume : Nat → Nat) {fuel : Nat} (hfuel : keys.length + 2 < fuel) :
    (∃ seen, Paging.walk (readdirServes ttls ensure fsAt nowAt room) Prod.snd consume fuel 0 0 =
        some seen ∧ (seen = (listing torrents keys).map shownBytes ↔ Unbroken torrents keys)) ∧
    ∃ seen, Paging.walk (readdirplusServes ttls ensure fsAt nowAt room) Prod.snd consume fuel 0 0 =
        some seen ∧ (seen = (listing torrents keys).map shownBytes ↔ Unbroken torrents keys) := by
  have hshort : ∀ x ∈ listing torrents keys, (nameBytes x.1).length ≤ 255 := by
    intro x hx
    rcases List.mem_append.mp hx with hx | hx
    · have hdots : ∀ x ∈ dotEntries.map shown, (nameBytes x.1).length ≤ 255 := by decide
      exact hdots x hx
    · obtain ⟨i, e, hi, -, rfl⟩ := mem_presentFrom.mp hx
      exact uniqueEntries_bytes hbuilt e (List.mem_of_getElem? hi)
  obtain ⟨⟨seen, hseen, hiff⟩, seen', hseen', hiff'⟩ := @walk_bytes_iff ttls ensure fsAt nowAt room
    torrents keys hlen (fun x hx => lt_of_le_of_lt (hshort x hx) (by decide)) hfixed consume fuel hfuel
  have hfits : ∀ x ∈ listing torrents keys, direntNeeds x.1 ≤ room ∧ direntplusNeeds x.1 ≤ room :=
    fun x hx => ⟨(needs_le (hshort x hx)).1.trans (by omega), (needs_le (hshort x hx)).2.trans hroom⟩
  exact ⟨⟨seen, hseen, hiff.trans (and_iff_left fun x hx => (hfits x hx).1)⟩, seen', hseen',
    hiff'.trans (and_iff_left fun x hx => (hfits x hx).2)⟩

/-- One torrent and one that is gone, in buffers of 32 and of 160 bytes: entry by entry, and the name
    `Movie` takes 29 and 160. -/
theorem walk_bytes_iff_two :
    (∃ seen, Paging.walk (readdirServes ⟨1, 1⟩ (fun _ => none) (fun _ => cachedFs
        (fsOf [("b", "Movie")]).torrents [("a", "Film"), ("b", "Movie")]) (fun _ => 1) 32)
        Prod.snd (fun _ => 9) 5 0 0 = some seen ∧
      seen = [(nameBytes ".", 1), (nameBytes "..", 2), (nameBytes "Movie", 4)]) ∧
    ∃ seen, Paging.walk (readdirplusServes ⟨1, 1⟩ (fun _ => none) (fun _ => cachedFs
        (fsOf [("b", "Movie")]).torrents [("a", "Film"), ("b", "Movie")]) (fun _ => 1) 159)
        Prod.snd (fun _ => 9) 5 0 0 = some seen ∧
      ¬seen = [(nameBytes ".", 1), (nameBytes "..", 2), (nameBytes "Movie", 4)] := by
  have hlist : listing (fsOf [("b", "Movie")]).torrents [("a", "Film"), ("b", "Movie")] =
      [(".", 1), ("..", 2), ("Movie", 4)] := by decide
  have hnames : ∀ x ∈ listing (fsOf [("b", "Movie")]).torrents [("a", "Film"), ("b", "Movie")],
      ShortName x.1 := by
    rw [hlist]
    intro x hx
    fin_cases hx <;> decide
  have hun : Unbroken (fsOf [("b", "Movie")]).torrents [("a", "Film"), ("b", "Movie")] := by
    intro g _ e he
    rw [List.drop_eq_nil_of_le (by show 2 ≤ g + 1000; omega)] at he
    exact absurd he List.not_mem_nil
  obtain ⟨⟨seen, hseen, hiff⟩, -⟩ := @walk_bytes_iff ⟨1, 1⟩ (fun _ => none) (fun _ => cachedFs
    (fsOf [("b", "Movie")]).torrents [("a", "Film"), ("b", "Movie")]) (fun _ => 1) 32 _ _ (by decide)
    hnames (cachedFs_fixed _ _) (fun _ => 9) 5 (by decide)
  obtain ⟨-, seen', hseen', hiff'⟩ := @walk_bytes_iff ⟨1, 1⟩ (fun _ => none) (fun _ => cachedFs
    (fsOf [("b", "Movie")]).torrents [("a", "Film"), ("b", "Movie")]) (fun _ => 1) 159 _ _ (by decide)
    hnames (cachedFs_fixed _ _) (fun _ => 9) 5 (by decide)
  rw [hlist] at hiff hiff'
  refine ⟨⟨seen, hseen, hiff.mpr ⟨hun, fun x hx => ?_⟩⟩, seen', hseen', fun h => ?_⟩
  · fin_cases hx <;> decide
  · exact absurd ((hiff'.mp h).2 ("Movie", 4) (by decide)) (by decide)

end RdRs.Fuse

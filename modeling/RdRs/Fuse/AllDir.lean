/-
  `fuse/fs_helpers.rs`, `fs_lookup.rs`, `fs_readdir.rs`, `fs_readdirplus.rs` — the directory
  `__all__`, one entry per torrent of the registry.

  `get_sorted_keys` sorts the registry by (name, key), puts ` (n)` after a name that repeats the one
  before it, and sanitises the result; the list is kept for 15 seconds.  `lookup` takes the FIRST
  entry with the name it is asked for, `readdir` and `readdirplus` list a page of the entries, and
  all three hand out inodes from one table.

  What the list has to do is to name torrents: `Identifies` says that different keys have different
  names and that `lookup` goes back from a name to the inode the two listings show for its key.
  Suffixes can meet names that already end in ` (n)`, and the sanitiser merges names, so this is not
  always so.  `identifies_iff` says exactly when: the copies of the registry's names, counted as a
  multiset, cut cleanly at byte 255 and do not clash there.  Neither the order of the keys nor the
  walk that numbers the copies matters (`CopyNumbers`).
-/
import RdRs.Lib.CopyNumbers
import RdRs.Fuse.Dirent
import RdRs.Rd.Types

set_option linter.unusedVariables false

namespace RdRs.Fuse

open RdRs.Rd RdRs.CopyNumbers

/-! ## Inodes -/

/-- `INODE_ROOT` -/
def inodeRoot : Nat := 1

/-- `INODE_ALL` -/
def inodeAll : Nat := 2

/-- `INODE_TORRENT_BASE` -/
def inodeTorrentBase : Nat := 3

/-- `key_to_inode`, `inode_to_key` and `next_torrent_inode`.  An inode handed out names its key. -/
structure InodeTable where
  keyToInode : AList (fun _ : String => Nat)
  inodeToKey : AList (fun _ : Nat => String)
  next : Nat
  issued : ∀ k i, keyToInode.lookup k = some i → i < next ∧ inodeToKey.lookup i = some k

/-- No inode assigned yet. -/
def InodeTable.empty : InodeTable where
  keyToInode := ∅
  inodeToKey := ∅
  next := inodeTorrentBase
  issued := fun k i h => absurd h (by simp)

/-- `get_or_assign_torrent_inode` -/
def InodeTable.getOrAssign (t : InodeTable) (key : String) : Nat × InodeTable :=
  match h : t.keyToInode.lookup key with
  | some inode => (inode, t)
  | none => (t.next,
    { keyToInode := t.keyToInode.insert key t.next
      inodeToKey := t.inodeToKey.insert t.next key
      next := t.next + 1
      issued := by
        intro k i hk
        by_cases hkey : k = key
        · subst hkey
          rw [AList.lookup_insert, Option.some.injEq] at hk
          subst hk
          exact ⟨Nat.lt_succ_self _, AList.lookup_insert _⟩
        · rw [AList.lookup_insert_ne hkey] at hk
          obtain ⟨hlt, hback⟩ := t.issued k i hk
          exact ⟨Nat.lt_succ_of_lt hlt, by rw [AList.lookup_insert_ne (by omega)]; exact hback⟩ })

/-- Two keys never share an inode. -/
theorem InodeTable.injective (t : InodeTable) {k k' : String} {i : Nat}
    (h : t.keyToInode.lookup k = some i) (h' : t.keyToInode.lookup k' = some i) : k = k' := by
  have hk := (t.issued k i h).2
  rw [(t.issued k' i h').2] at hk
  exact (Option.some.inj hk).symm

/-- The inode handed out is the one the table then has for the key. -/
theorem InodeTable.getOrAssign_lookup (t : InodeTable) (key : String) :
    (t.getOrAssign key).2.keyToInode.lookup key = some (t.getOrAssign key).1 := by
  rw [InodeTable.getOrAssign]
  split
  · assumption
  · exact AList.lookup_insert _

/-- An inode once assigned stays assigned. -/
theorem InodeTable.getOrAssign_keeps (t : InodeTable) (key : String) {k : String} {i : Nat}
    (h : t.keyToInode.lookup k = some i) :
    (t.getOrAssign key).2.keyToInode.lookup k = some i := by
  rw [InodeTable.getOrAssign]
  split
  · exact h
  · rename_i hnone
    have hne : k ≠ key := by
      rintro rfl
      rw [h] at hnone
      exact absurd hnone (by simp)
    exact (AList.lookup_insert_ne hne).trans h

/-- Asking for a key that has its inode changes nothing. -/
theorem InodeTable.getOrAssign_of_lookup (t : InodeTable) {key : String} {i : Nat}
    (h : t.keyToInode.lookup key = some i) : (t.getOrAssign key).1 = i := by
  have h' := t.getOrAssign_lookup key
  rw [t.getOrAssign_keeps key h] at h'
  exact (Option.some.inj h').symm

/-! ## The list of names -/

/-- The part of `RdFs` the directory operations use; times are in nanoseconds. -/
structure RdFs where
  torrents : AList (fun _ : String => ManagedTorrent)
  inodes : InodeTable
  cachedAllDir : Nat × List (String × String)

/-- `a.1.cmp(&b.1).then_with(|| a.0.cmp(&b.0))` on (key, name): by name, then by key. -/
def ByName (a b : String × String) : Prop := a.2 < b.2 ∨ a.2 = b.2 ∧ a.1 ≤ b.1

instance : DecidableRel ByName := fun a b =>
  inferInstanceAs (Decidable (a.2 < b.2 ∨ a.2 = b.2 ∧ a.1 ≤ b.1))

/-- `key_names`: the registry's keys with their torrents' names, sorted. -/
def keyNames (torrents : AList (fun _ : String => ManagedTorrent)) : List (String × String) :=
  (torrents.entries.map fun e => (e.1, e.2.torrent.name)).insertionSort ByName

/-- The name of copy number `dup`; number 0 is the name itself. -/
def displayName (name : String) (dup : Nat) : String :=
  if dup = 0 then name else name ++ " (" ++ toString dup ++ ")"

/-- The loop that fills `unique_entries`, from `prev_name` and `dup_count`; `none` is a panic of the
    sanitiser. -/
def uniqueEntries (prevName : String) (dupCount : Nat) :
    List (String × String) → Option (List (String × String))
  | [] => some []
  | (key, name) :: rest =>
    if name = prevName then do
      let clean ← sanitizeDirentName (displayName name (dupCount + 1))
      let rest ← uniqueEntries prevName (dupCount + 1) rest
      pure ((key, clean) :: rest)
    else do
      let clean ← sanitizeDirentName name
      let rest ← uniqueEntries name 0 rest
      pure ((key, clean) :: rest)

/-- The list `get_sorted_keys` builds. -/
def buildSortedKeys (torrents : AList (fun _ : String => ManagedTorrent)) :
    Option (List (String × String)) :=
  uniqueEntries "" 0 (keyNames torrents)

/-- `get_sorted_keys` at time `now`: the cached list while it is younger than 15 s. -/
def getSortedKeys (fs : RdFs) (now : Nat) : Option (List (String × String) × RdFs) :=
  if now - fs.cachedAllDir.1 < 15 * 10 ^ 9 then some (fs.cachedAllDir.2, fs)
  else do
    let res ← buildSortedKeys fs.torrents
    pure (res, { fs with cachedAllDir := (now, res) })

/-! ## The directory operations on `INODE_ALL` -/

/-- `lookup(INODE_ALL, name)`: the inode of the reply, `none` inside is `ENOENT`. -/
def lookupAll (fs : RdFs) (now : Nat) (name : String) : Option (Option Nat × RdFs) := do
  let (keys, fs) ← getSortedKeys fs now
  match keys.find? fun e => e.2 == name && (fs.torrents.lookup e.1).isSome with
  | some e =>
    let (inode, inodes) := fs.inodes.getOrAssign e.1
    pure (some inode, { fs with inodes := inodes })
  | none => pure (none, fs)

/-- What a listing says of an entry. -/
structure DirectoryEntry where
  inode : Nat
  name : String
  offset : Int
deriving Repr, DecidableEq

/-- The entries `.` and `..` of `__all__`. -/
def dotEntries : List DirectoryEntry := [⟨inodeAll, ".", 1⟩, ⟨inodeRoot, "..", 2⟩]

/-- The loop over a page of the list, whose first entry has the index `index`; a key that has left
    the registry is skipped. -/
def listPage (torrents : AList (fun _ : String => ManagedTorrent)) (index : Nat)
    (inodes : InodeTable) : List (String × String) → List DirectoryEntry × InodeTable
  | [] => ([], inodes)
  | (key, name) :: rest =>
    if (torrents.lookup key).isSome then
      let (inode, inodes) := inodes.getOrAssign key
      let (entries, inodes) := listPage torrents (index + 1) inodes rest
      (⟨inode, name, index + 3⟩ :: entries, inodes)
    else listPage torrents (index + 1) inodes rest

/-- Both listings on `INODE_ALL`: a page of 1000 keys from `startIdx`, and of its entries the ones
    beyond `offset`. -/
def listAll (fs : RdFs) (now startIdx : Nat) (offset : Int) :
    Option (List DirectoryEntry × RdFs) := do
  let (keys, fs) ← getSortedKeys fs now
  let (entries, inodes) := listPage fs.torrents startIdx fs.inodes ((keys.drop startIdx).take 1000)
  pure ((dotEntries ++ entries).filter fun e => decide (offset < e.offset),
    { fs with inodes := inodes })

/-- The first index of a page, `(offset.max(2) - 2) as usize`. -/
def startIdx (offset : Int) : Nat := (max offset 2 - 2).toNat

/-- `readdir(INODE_ALL)` at an `i64` offset -/
def readdirAll (fs : RdFs) (now : Nat) (offset : Int) : Option (List DirectoryEntry × RdFs) :=
  listAll fs now (startIdx offset) offset

/-- A `u64` read as an `i64` -/
def asI64 (n : Nat) : Int := if n < 2 ^ 63 then n else n - 2 ^ 64

/-- `readdirplus(INODE_ALL)` at a `u64` offset; the attributes that come with each entry are left
    out. -/
def readdirplusAll (fs : RdFs) (now : Nat) (offset : Nat) : Option (List DirectoryEntry × RdFs) :=
  listAll fs now (startIdx offset) (asI64 offset)

/-! ## The names that are listed -/

/-- The number copy `i` of a name is shown with, counted from 0 among the torrents of that name.  The
    walk starts from the empty name, so copies of the empty name count from 1. -/
def copyNumber (name : String) (i : Nat) : Nat := if name = "" then i + 1 else i

/-- The display name of copy `i` of a name, before it is sanitised. -/
def copyName (name : String) (i : Nat) : String := displayName name (copyNumber name i)

/-- **The condition on the names.**  With each name's copies counted, every display name cuts cleanly
    at byte 255 and no two of them clash. -/
def NamesClear (names : List String) : Prop :=
  (∀ n i, i < names.count n → CutsCleanly (copyName n i)) ∧
  (∀ n i m j, i < names.count n → j < names.count m → Clash (copyName n i) (copyName m j) →
    n = m ∧ i = j)

/-- The names of the registry's torrents. -/
def torrentNames (torrents : AList (fun _ : String => ManagedTorrent)) : List String :=
  torrents.entries.map fun e => e.2.torrent.name

instance : Std.Total ByName where
  total a b := by
    rcases lt_trichotomy a.2 b.2 with h | h | h
    · exact Or.inl (Or.inl h)
    · rcases le_total a.1 b.1 with h' | h'
      · exact Or.inl (Or.inr ⟨h, h'⟩)
      · exact Or.inr (Or.inr ⟨h.symm, h'⟩)
    · exact Or.inr (Or.inl h)

instance : IsTrans (String × String) ByName where
  trans a b c := by
    rintro (hab | ⟨hab, hab'⟩) (hbc | ⟨hbc, hbc'⟩)
    · exact Or.inl (hab.trans hbc)
    · exact Or.inl (hbc ▸ hab)
    · exact Or.inl (hab ▸ hbc)
    · exact Or.inr ⟨hab.trans hbc, hab'.trans hbc'⟩

theorem keyNames_sorted (torrents : AList (fun _ : String => ManagedTorrent)) :
    (keyNames torrents).Pairwise fun a b => a.2 ≤ b.2 := by
  refine (List.pairwise_insertionSort ByName _).imp ?_
  rintro a b (h | ⟨h, -⟩)
  · exact h.le
  · exact h.le

theorem keyNames_perm (torrents : AList (fun _ : String => ManagedTorrent)) :
    (keyNames torrents).Perm (torrents.entries.map fun e => (e.1, e.2.torrent.name)) :=
  List.perm_insertionSort ByName _

/-- `prev_name` starts below every name. -/
theorem empty_le_names (torrents : AList (fun _ : String => ManagedTorrent)) :
    ∀ b ∈ keyNames torrents, "" ≤ b.2 := by
  refine fun b _ => not_lt.mp fun h => ?_
  rw [String.lt_iff_toList_lt] at h
  exact absurd h (List.not_lt_nil b.2.toList)

/-- The labels the walk gives the registry's names: copy numbers below the names' counts. -/
theorem mem_labels_keyNames (torrents : AList (fun _ : String => ManagedTorrent)) (n : String)
    (k : Nat) : (n, k) ∈ labels Prod.snd "" 0 (keyNames torrents) ↔
      ∃ i, i < (torrentNames torrents).count n ∧ k = copyNumber n i := by
  have hcount : ((keyNames torrents).map Prod.snd).count n = (torrentNames torrents).count n := by
    have hperm := (keyNames_perm torrents).map Prod.snd
    rw [List.map_map] at hperm
    exact hperm.count_eq n
  rw [mem_labels Prod.snd _ _ _ (keyNames_sorted torrents) (empty_le_names torrents), hcount]
  by_cases hn : n = ""
  · rw [if_pos hn]
    simp only [copyNumber, if_pos hn]
    constructor
    · intro h
      exact ⟨k - 1, by omega, by omega⟩
    · rintro ⟨i, hi, rfl⟩
      omega
  · rw [if_neg hn]
    simp only [copyNumber, if_neg hn]
    constructor
    · intro h
      exact ⟨k, h, rfl⟩
    · rintro ⟨i, hi, rfl⟩
      exact hi

/-- One turn of the loop that fills `unique_entries`, beside the numbering. -/
theorem uniqueEntries_cons (key name prev : String) (dup : Nat) (rest : List (String × String)) :
    ∃ k, labels Prod.snd prev dup ((key, name) :: rest) = (name, k) :: labels Prod.snd name k rest ∧
      uniqueEntries prev dup ((key, name) :: rest) =
        (sanitizeDirentName (displayName name k)).bind fun clean =>
          (uniqueEntries name k rest).map ((key, clean) :: ·) := by
  by_cases h : name = prev
  · refine ⟨dup + 1, ?_, ?_⟩
    · subst h
      exact labels_cons_eq (show Prod.snd (key, name) = name from rfl) dup rest
    · rw [uniqueEntries, if_pos h, h]
      simp only [Option.map_eq_bind]
      rfl
  · refine ⟨0, labels_cons_ne (show Prod.snd (key, name) ≠ prev from h) dup rest, ?_⟩
    rw [uniqueEntries, if_neg h]
    simp only [Option.map_eq_bind]
    rfl

/-- The name a label is listed under. -/
def listedName (x : String × Nat) : String := (sanitizeDirentName (displayName x.1 x.2)).getD ""

/-- **What the loop builds**: the keys in order, each under the sanitised name of its label; it
    panics at the first label that does not cut cleanly. -/
theorem uniqueEntries_eq_some_iff : ∀ (l : List (String × String)) (prev : String) (dup : Nat)
    (out : List (String × String)), uniqueEntries prev dup l = some out ↔
      (∀ x ∈ labels Prod.snd prev dup l, CutsCleanly (displayName x.1 x.2)) ∧
      out.map Prod.fst = l.map Prod.fst ∧
      out.map Prod.snd = (labels Prod.snd prev dup l).map listedName := by
  intro l
  induction l with
  | nil =>
    intro prev dup out
    rw [uniqueEntries, Option.some.injEq]
    constructor
    · rintro rfl
      exact ⟨fun x hx => absurd hx List.not_mem_nil, rfl, rfl⟩
    · rintro ⟨-, h, -⟩
      exact (List.map_eq_nil_iff.mp h).symm
  | cons e rest ih =>
    intro prev dup out
    obtain ⟨key, name⟩ := e
    obtain ⟨k, hlabels, heq⟩ := uniqueEntries_cons key name prev dup rest
    rw [hlabels, heq, Option.bind_eq_some_iff]
    simp only [Option.map_eq_some_iff, List.mem_cons, forall_eq_or_imp, List.map_cons]
    constructor
    · rintro ⟨clean, hclean, r, hr, rfl⟩
      obtain ⟨hcut, hfst, hsnd⟩ := (ih name k r).mp hr
      refine ⟨⟨?_, hcut⟩, ?_, ?_⟩
      · rw [← sanitizeDirentName_isSome, hclean]
        rfl
      · rw [List.map_cons, hfst]
      · rw [List.map_cons, hsnd, listedName, hclean]
        rfl
    · rintro ⟨⟨hcut, hcuts⟩, hfst, hsnd⟩
      obtain ⟨clean, hclean⟩ :=
        Option.isSome_iff_exists.mp ((sanitizeDirentName_isSome _).mpr hcut)
      cases out with
      | nil => exact absurd hfst (by simp)
      | cons o out =>
        obtain ⟨ho, hout⟩ := List.cons.inj hfst
        obtain ⟨hs, hsout⟩ := List.cons.inj hsnd
        refine ⟨clean, hclean, out, (ih name k out).mpr ⟨hcuts, hout, hsout⟩, ?_⟩
        have hl : listedName (name, k) = clean := by rw [listedName, hclean]; rfl
        rw [← hl, ← hs, ← ho]

/-- The list is built exactly when every copy of every name cuts cleanly. -/
theorem buildSortedKeys_isSome_iff (torrents : AList (fun _ : String => ManagedTorrent)) :
    (∃ keys, buildSortedKeys torrents = some keys) ↔
      ∀ n i, i < (torrentNames torrents).count n → CutsCleanly (copyName n i) := by
  constructor
  · rintro ⟨keys, hkeys⟩ n i hi
    exact ((uniqueEntries_eq_some_iff _ _ _ _).mp hkeys).1 (n, copyNumber n i)
      ((mem_labels_keyNames torrents n _).mpr ⟨i, hi, rfl⟩)
  · intro h
    have hcuts : ∀ x ∈ labels Prod.snd "" 0 (keyNames torrents),
        CutsCleanly (displayName x.1 x.2) := by
      rintro ⟨n, k⟩ hx
      obtain ⟨i, hi, rfl⟩ := (mem_labels_keyNames torrents n k).mp hx
      exact h n i hi
    refine ⟨((keyNames torrents).map Prod.fst).zip
      ((labels Prod.snd "" 0 (keyNames torrents)).map listedName),
      (uniqueEntries_eq_some_iff _ _ _ _).mpr ⟨hcuts, ?_, ?_⟩⟩
    · rw [List.map_fst_zip]
      simp [labels, ← congrArg List.length (number_map_fst Prod.snd (keyNames torrents) "" 0)]
    · rw [List.map_snd_zip]
      simp [labels, ← congrArg List.length (number_map_fst Prod.snd (keyNames torrents) "" 0)]

/-- The names of a built list differ exactly when the copies of the registry's names do not clash. -/
theorem buildSortedKeys_nodup_iff {torrents : AList (fun _ : String => ManagedTorrent)}
    {keys : List (String × String)} (h : buildSortedKeys torrents = some keys) :
    (keys.map Prod.snd).Nodup ↔
      ∀ n i m j, i < (torrentNames torrents).count n → j < (torrentNames torrents).count m →
        Clash (copyName n i) (copyName m j) → n = m ∧ i = j := by
  obtain ⟨hcut, -, hsnd⟩ := (uniqueEntries_eq_some_iff _ _ _ _).mp h
  have hnodup := nodup_labels Prod.snd (keyNames torrents) "" 0 (keyNames_sorted torrents)
    (empty_le_names torrents)
  -- on labels, the listed names agree exactly when the display names clash
  have hclash : ∀ x ∈ labels Prod.snd "" 0 (keyNames torrents),
      ∀ y ∈ labels Prod.snd "" 0 (keyNames torrents),
      (listedName x = listedName y ↔ Clash (displayName x.1 x.2) (displayName y.1 y.2)) := by
    intro x hx y hy
    obtain ⟨s, hs⟩ := Option.isSome_iff_exists.mp ((sanitizeDirentName_isSome _).mpr (hcut x hx))
    obtain ⟨t, ht⟩ := Option.isSome_iff_exists.mp ((sanitizeDirentName_isSome _).mpr (hcut y hy))
    rw [listedName, listedName, hs, ht]
    exact sanitizeDirentName_eq_iff hs ht
  rw [hsnd, List.nodup_map_iff_inj_on hnodup]
  constructor
  · intro hinj n i m j hi hj hc
    have hx := (mem_labels_keyNames torrents n _).mpr ⟨i, hi, rfl⟩
    have hy := (mem_labels_keyNames torrents m _).mpr ⟨j, hj, rfl⟩
    have heq := hinj _ hx _ hy ((hclash _ hx _ hy).mpr hc)
    rw [Prod.mk.injEq] at heq
    obtain ⟨rfl, hk⟩ := heq
    refine ⟨rfl, ?_⟩
    rw [copyNumber, copyNumber] at hk
    split at hk <;> omega
  · rintro hclear ⟨n, k⟩ hx ⟨m, l⟩ hy heq
    obtain ⟨i, hi, rfl⟩ := (mem_labels_keyNames torrents n k).mp hx
    obtain ⟨j, hj, rfl⟩ := (mem_labels_keyNames torrents m l).mp hy
    obtain ⟨rfl, rfl⟩ := hclear n i m j hi hj ((hclash _ hx _ hy).mp heq)
    rfl

/-! ## Going back from a name to its torrent -/

/-- The cache holds the list that would be built. -/
def Settled (fs : RdFs) (keys : List (String × String)) : Prop :=
  buildSortedKeys fs.torrents = some keys ∧ fs.cachedAllDir.2 = keys

/-- Cached or built again, a settled list is the list. -/
theorem getSortedKeys_of_settled {fs : RdFs} {keys : List (String × String)} (h : Settled fs keys)
    (now : Nat) : ∃ since, getSortedKeys fs now =
      some (keys, { fs with cachedAllDir := (since, keys) }) := by
  obtain ⟨hbuild, hcache⟩ := h
  rw [getSortedKeys]
  split
  · refine ⟨fs.cachedAllDir.1, ?_⟩
    rw [← hcache]
  · refine ⟨now, ?_⟩
    rw [hbuild]
    rfl

/-- In a list of different names, `find?` on a name finds its entry. -/
theorem find_listed {torrents : AList (fun _ : String => ManagedTorrent)}
    {keys : List (String × String)} {key name : String} (hnodup : (keys.map Prod.snd).Nodup)
    (hmem : (key, name) ∈ keys) (hreg : (torrents.lookup key).isSome) :
    keys.find? (fun e => e.2 == name && (torrents.lookup e.1).isSome) = some (key, name) := by
  cases hfind : keys.find? (fun e => e.2 == name && (torrents.lookup e.1).isSome) with
  | none =>
    have hnone := List.find?_eq_none.mp hfind (key, name) hmem
    rw [hreg] at hnone
    simp at hnone
  | some e =>
    have hname := List.find?_some hfind
    rw [Bool.and_eq_true, beq_iff_eq] at hname
    exact congrArg some
      (List.inj_on_of_nodup_map hnodup (List.mem_of_find?_eq_some hfind) hmem hname.1)

/-- A key that has its inode is listed with it. -/
theorem mem_listPage {torrents : AList (fun _ : String => ManagedTorrent)} {key name : String}
    {inode : Nat} (hreg : (torrents.lookup key).isSome) :
    ∀ (page : List (String × String)) (index j : Nat) (inodes : InodeTable),
      inodes.keyToInode.lookup key = some inode → page[j]? = some (key, name) →
      ⟨inode, name, ((index + j : Nat) : Int) + 3⟩ ∈ (listPage torrents index inodes page).1 := by
  intro page
  induction page with
  | nil => intro index j inodes _ hj; exact absurd hj (by simp)
  | cons e rest ih =>
    intro index j inodes hino hj
    obtain ⟨k, n⟩ := e
    cases j with
    | zero =>
      obtain ⟨rfl, rfl⟩ := Prod.mk.inj (Option.some.inj hj)
      rw [listPage, if_pos hreg, ← inodes.getOrAssign_of_lookup hino]
      exact List.mem_cons_self
    | succ j =>
      have hj' : rest[j]? = some (key, name) := hj
      rw [listPage, show index + (j + 1) = index + 1 + j by omega]
      split
      · exact List.mem_cons_of_mem _ (ih _ _ _ (inodes.getOrAssign_keeps k hino) hj')
      · exact ih _ _ _ hino hj'

/-- The page of a listing reaches the index. -/
def Covers (offset : Int) (idx : Nat) : Prop :=
  startIdx offset ≤ idx ∧ idx < startIdx offset + 1000

/-- **What the list is for.**  At `now` it is built, its names differ, and for every listed pair
    `lookup` at any time answers the key's inode — the one it had, if it had one — which `readdir`
    and `readdirplus` then show on every page that reaches the entry. -/
def Identifies (fs : RdFs) (now : Nat) : Prop :=
  ∃ keys fs₁, getSortedKeys fs now = some (keys, fs₁) ∧ (keys.map Prod.snd).Nodup ∧
    ∀ idx key name, keys[idx]? = some (key, name) → ∀ t, ∃ inode fs₂,
      lookupAll fs₁ t name = some (some inode, fs₂) ∧
      fs₂.inodes.keyToInode.lookup key = some inode ∧
      (∀ i, fs₁.inodes.keyToInode.lookup key = some i → inode = i) ∧
      (∀ t' offset, Covers offset idx → ∃ entries fs₃,
        readdirAll fs₂ t' offset = some (entries, fs₃) ∧ ⟨inode, name, idx + 3⟩ ∈ entries) ∧
      (∀ t' offset, Covers (offset : Nat) idx → ∃ entries fs₃,
        readdirplusAll fs₂ t' offset = some (entries, fs₃) ∧ ⟨inode, name, idx + 3⟩ ∈ entries)

/-- Listing a settled directory shows a key that has its inode under it. -/
theorem mem_listAll {fs : RdFs} {keys : List (String × String)} (h : Settled fs keys)
    {idx : Nat} {key name : String} (hidx : keys[idx]? = some (key, name))
    (hreg : (fs.torrents.lookup key).isSome) {inode : Nat}
    (hino : fs.inodes.keyToInode.lookup key = some inode) (t : Nat) {start : Nat} {offset : Int}
    (hlo : start ≤ idx) (hhi : idx < start + 1000) (hoff : offset < idx + 3) :
    ∃ entries fs', listAll fs t start offset = some (entries, fs') ∧
      ⟨inode, name, idx + 3⟩ ∈ entries := by
  obtain ⟨since, hget⟩ := getSortedKeys_of_settled h t
  refine ⟨_, _, by rw [listAll, hget]; rfl, ?_⟩
  have hpage : ((keys.drop start).take 1000)[idx - start]? = some (key, name) := by
    rw [List.getElem?_take_of_lt (by omega), List.getElem?_drop,
      show start + (idx - start) = idx by omega]
    exact hidx
  have hmem := mem_listPage hreg _ start (idx - start) fs.inodes hino hpage
  rw [show start + (idx - start) = idx by omega] at hmem
  exact List.mem_filter.mpr ⟨List.mem_append_right _ hmem, decide_eq_true hoff⟩

/-- `lookup` on a settled directory with different names. -/
theorem lookupAll_listed {fs : RdFs} {keys : List (String × String)} (h : Settled fs keys)
    (hnodup : (keys.map Prod.snd).Nodup) {key name : String} (hmem : (key, name) ∈ keys)
    (hreg : (fs.torrents.lookup key).isSome) (t : Nat) :
    ∃ since, lookupAll fs t name = some (some (fs.inodes.getOrAssign key).1,
      { fs with cachedAllDir := (since, keys), inodes := (fs.inodes.getOrAssign key).2 }) := by
  obtain ⟨since, hget⟩ := getSortedKeys_of_settled h t
  refine ⟨since, ?_⟩
  have hfind := find_listed hnodup hmem hreg
  rw [lookupAll, hget]
  simp only [Option.bind_eq_bind, Option.bind_some, hfind]
  rfl

/-- Every listed key is in the registry. -/
theorem lookup_isSome_of_listed {torrents : AList (fun _ : String => ManagedTorrent)}
    {keys : List (String × String)} (h : buildSortedKeys torrents = some keys) {key name : String}
    (hmem : (key, name) ∈ keys) : (torrents.lookup key).isSome := by
  obtain ⟨-, hfst, -⟩ := (uniqueEntries_eq_some_iff _ _ _ _).mp h
  have hkey : key ∈ (keyNames torrents).map Prod.fst := hfst ▸ List.mem_map_of_mem hmem
  rw [((keyNames_perm torrents).map Prod.fst).mem_iff, List.map_map] at hkey
  exact AList.lookup_isSome.mpr (AList.mem_keys.mpr hkey)

/-- **When the names of `__all__` identify torrents.**  A list built at `now` names the torrents and
    `lookup` inverts the listings exactly when the copies of the registry's names cut cleanly at
    byte 255 and do not clash. -/
theorem identifies_iff (fs : RdFs) (now : Nat) (hexp : 15 * 10 ^ 9 ≤ now - fs.cachedAllDir.1) :
    Identifies fs now ↔ NamesClear (torrentNames fs.torrents) := by
  have hget : getSortedKeys fs now = (buildSortedKeys fs.torrents).bind fun res =>
      some (res, { fs with cachedAllDir := (now, res) }) := by
    rw [getSortedKeys, if_neg (by omega)]
    rfl
  constructor
  · rintro ⟨keys, fs₁, hkeys, hnodup, -⟩
    rw [hget, Option.bind_eq_some_iff] at hkeys
    obtain ⟨res, hbuild, hres⟩ := hkeys
    obtain ⟨rfl, -⟩ := Prod.mk.inj (Option.some.inj hres)
    exact ⟨(buildSortedKeys_isSome_iff _).mp ⟨_, hbuild⟩, (buildSortedKeys_nodup_iff hbuild).mp hnodup⟩
  · rintro ⟨hcut, hclash⟩
    obtain ⟨keys, hbuild⟩ := (buildSortedKeys_isSome_iff _).mpr hcut
    have hnodup := (buildSortedKeys_nodup_iff hbuild).mpr hclash
    refine ⟨keys, { fs with cachedAllDir := (now, keys) }, by rw [hget, hbuild]; rfl, hnodup, ?_⟩
    intro idx key name hidx t
    have hmem : (key, name) ∈ keys := List.mem_of_getElem? hidx
    have hreg := lookup_isSome_of_listed hbuild hmem
    have hsettled : Settled { fs with cachedAllDir := (now, keys) } keys := ⟨hbuild, rfl⟩
    obtain ⟨since, hlook⟩ := lookupAll_listed hsettled hnodup hmem hreg t
    -- after the lookup the key has its inode, and the list is as it was
    have hino := fs.inodes.getOrAssign_lookup key
    generalize hfs₂ : ({ fs with
      cachedAllDir := (since, keys), inodes := (fs.inodes.getOrAssign key).2 } : RdFs) = fs₂ at hlook
    have hset : Settled fs₂ keys := hfs₂ ▸ ⟨hbuild, rfl⟩
    have hreg₂ : (fs₂.torrents.lookup key).isSome := hfs₂ ▸ hreg
    have hino₂ : fs₂.inodes.keyToInode.lookup key = some (fs.inodes.getOrAssign key).1 :=
      hfs₂ ▸ hino
    refine ⟨_, fs₂, hlook, hino₂, ?_, ?_, ?_⟩
    · intro i hi
      exact fs.inodes.getOrAssign_of_lookup hi
    · rintro t' offset ⟨hlo, hhi⟩
      refine mem_listAll hset hidx hreg₂ hino₂ t' hlo hhi ?_
      rw [startIdx] at hlo
      omega
    · rintro t' offset ⟨hlo, hhi⟩
      refine mem_listAll hset hidx hreg₂ hino₂ t' hlo hhi ?_
      rw [startIdx] at hlo
      rw [asI64]
      split <;> omega

/-- A registry with these keys and names, nothing cached and no inode assigned. -/
def fsOf (entries : List (String × String)) : RdFs where
  torrents := (entries.map fun e => ⟨e.1,
    { accessKey := e.1
      rdIds := []
      torrent := ⟨"", e.2, "", 100, "downloaded", [], 0⟩
      info := none
      state := .ok
      unrepairableReason := none
      lastRepairedAt := none
      fileStates := none
      underRepairStartedAt := none }⟩).toAList
  inodes := .empty
  cachedAllDir := (0, [])

/-- Three torrents, two of one name and one already called `Movie (1)`: two entries of the list are
    called `Movie (1)`, and `lookup` of that name never reaches the second. -/
theorem suffix_meets_name :
    15 * 10 ^ 9 ≤ 600 * 10 ^ 9 -
      (fsOf [("k1", "Movie"), ("k2", "Movie"), ("k3", "Movie (1)")]).cachedAllDir.1 ∧
    ¬Identifies (fsOf [("k1", "Movie"), ("k2", "Movie"), ("k3", "Movie (1)")]) (600 * 10 ^ 9) := by
  refine ⟨by decide, ?_⟩
  rintro ⟨keys, fs₁, hkeys, hnodup, -⟩
  have hlist : keys = [("k1", "Movie"), ("k2", "Movie (1)"), ("k3", "Movie (1)")] :=
    congrArg Prod.fst (Option.some.inj (hkeys.symm.trans rfl))
  rw [hlist] at hnodup
  exact absurd hnodup (by decide)

/-- Two torrents of one name and one of another are told apart. -/
theorem identifies_two_copies :
    NamesClear (torrentNames (fsOf [("k1", "Movie"), ("k2", "Movie"), ("k3", "Other")]).torrents) ∧
    Identifies (fsOf [("k1", "Movie"), ("k2", "Movie"), ("k3", "Other")]) (600 * 10 ^ 9) := by
  have hbuild : buildSortedKeys (fsOf [("k1", "Movie"), ("k2", "Movie"), ("k3", "Other")]).torrents =
      some [("k1", "Movie"), ("k2", "Movie (1)"), ("k3", "Other")] := rfl
  have hclear : NamesClear
      (torrentNames (fsOf [("k1", "Movie"), ("k2", "Movie"), ("k3", "Other")]).torrents) :=
    ⟨(buildSortedKeys_isSome_iff _).mp ⟨_, hbuild⟩,
      (buildSortedKeys_nodup_iff hbuild).mp (by decide)⟩
  exact ⟨hclear, (identifies_iff _ _ (by decide)).mpr hclear⟩

end RdRs.Fuse

/-
  `fuse/read.rs`, the front of `read` — which file, which link, which cache entry.

  Before any byte is fetched, `read` turns a selected-file index into a link of the torrent and a
  cache key.  Both are small computations on their own, and both are compared here with what the
  rest of the program takes for granted:

  * the LINK: `read` clamps the index into `links` (`linkIdx`), the repair detector asks for a
    non-empty `links[i]`.  `link_agrees_iff` says exactly when the two rules pick the same link;
  * the CACHE KEY: the directories are dropped (`fileName`), unsafe characters become `_`
    (`sanitizeFilename`) and the access key is put in front (`buildKey`).
    `cacheKeys_differ_iff` says exactly which pairs of base names survive that.
-/
import RdRs.Cache.Store
import RdRs.Repair.Detect

set_option linter.unusedVariables false

namespace RdRs.Fuse

open RdRs.Rd RdRs.Repair
open RdRs.Cache (buildKey)

/-! ## The link -/

/-- How the front of `read` ends for a file. -/
inductive ReadTarget where
  /-- `ENOENT` -/
  | enoent
  /-- a file of size 0: an empty reply, no link is looked at -/
  | emptyFile
  /-- marked `broken` in `file_states`: wait for repair or `ENOENT`, no link is looked at -/
  | markedBroken
  /-- go on and unrestrict this link -/
  | unrestrict (link : String)
deriving Repr, DecidableEq

/-- Torrent links are taken to be 1:1 with the selected files; the index is clamped to the last
    link. -/
def linkIdx (ti : TorrentInfo) (fileIdx : Nat) : Nat := min fileIdx (ti.links.length - 1)

/-- The link lookup of `read`; `none` is `ENOENT`. -/
def torrentLink (ti : TorrentInfo) (fileIdx : Nat) : Option String := ti.links[linkIdx ti fileIdx]?

/-- The file is marked `broken` in `file_states`. -/
def isMarkedBroken (mt : ManagedTorrent) (path : String) : Bool :=
  match mt.fileStates with
  | some fs => fs.lookup path == some "broken"
  | none => false

/-- The front of `read` for the selected file `fileIdx`. -/
def resolveRead (mt : ManagedTorrent) (fileIdx : Nat) : ReadTarget :=
  match mt.info with
  | none => .enoent
  | some ti =>
    match ti.selectedFiles[fileIdx]? with
    | none => .enoent
    | some file =>
      if file.fileSize = 0 then .emptyFile
      else if isMarkedBroken mt file.path then .markedBroken
      else match torrentLink ti fileIdx with
        | none => .enoent
        | some link => .unrestrict link

/-- What the detector's rule asks of a file that is read: its own link, or `ENOENT`. -/
def ownLink (ti : TorrentInfo) (i : Nat) : ReadTarget :=
  match ti.links[i]? with
  | some l => if l = "" then .enoent else .unrestrict l
  | none => .enoent

/-- The read of the selected file `i` does what that rule asks: it unrestricts the file's own link, or
    it ends in `ENOENT` without one, be it at the lookup or at the mark `broken`. -/
def ServedByOwnLink (mt : ManagedTorrent) (ti : TorrentInfo) (i : Nat) : Prop :=
  match ownLink ti i with
  | .unrestrict l => resolveRead mt i = .unrestrict l
  | _ => resolveRead mt i = .enoent ∨ resolveRead mt i = .markedBroken

/-- What a read of a selected file comes to: size, mark, link, in this order. -/
theorem resolveRead_eq {mt : ManagedTorrent} {ti : TorrentInfo} {i : Nat} {file : File}
    (hinfo : mt.info = some ti) (hfile : ti.selectedFiles[i]? = some file) :
    resolveRead mt i =
      if file.fileSize = 0 then .emptyFile
      else if isMarkedBroken mt file.path then .markedBroken
      else match torrentLink ti i with
        | none => .enoent
        | some link => .unrestrict link := by
  unfold resolveRead
  simp only [hinfo, hfile]

theorem torrentLink_nil {ti : TorrentInfo} (h : ti.links = []) (i : Nat) :
    torrentLink ti i = none := by
  simp [torrentLink, h]

/-- With any link at all the clamped lookup always finds one. -/
theorem torrentLink_isSome {ti : TorrentInfo} (h : ti.links ≠ []) (i : Nat) :
    ∃ l, torrentLink ti i = some l := by
  have hpos : 0 < ti.links.length := List.length_pos_iff.mpr h
  have hlt : linkIdx ti i < ti.links.length := by
    unfold linkIdx; omega
  exact ⟨_, List.getElem?_eq_getElem hlt⟩

theorem torrentLink_of_hasLink {ti : TorrentInfo} {i : Nat} (h : hasLink ti i = true) :
    ∃ l, ti.links[i]? = some l ∧ l ≠ "" ∧ torrentLink ti i = some l := by
  unfold hasLink at h
  cases hl : ti.links[i]? with
  | none => rw [hl] at h; exact absurd h (by simp)
  | some l =>
    rw [hl] at h
    have hlt : i < ti.links.length := (List.getElem?_eq_some_iff.mp hl).1
    refine ⟨l, rfl, by simpa using h, ?_⟩
    rw [torrentLink, show linkIdx ti i = i from by unfold linkIdx; omega, hl]

theorem ownLink_of_not_hasLink {ti : TorrentInfo} {i : Nat} (h : hasLink ti i = false) :
    ownLink ti i = .enoent := by
  unfold hasLink at h
  unfold ownLink
  cases hl : ti.links[i]? with
  | none => rfl
  | some l =>
    rw [hl] at h
    have hl' : l = "" := by simpa using h
    simp [hl']

theorem ownLink_of_hasLink {ti : TorrentInfo} {i : Nat} (h : hasLink ti i = true) :
    ∃ l, torrentLink ti i = some l ∧ ownLink ti i = .unrestrict l := by
  obtain ⟨l, hl, hne, ht⟩ := torrentLink_of_hasLink h
  refine ⟨l, ht, ?_⟩
  unfold ownLink
  simp only [hl, if_neg hne]

theorem hasLink_nil {ti : TorrentInfo} (h : ti.links = []) (i : Nat) : hasLink ti i = false := by
  simp [hasLink, h]

/-- A file with a link of its own is served by it when it has a size and no mark. -/
theorem servedByOwnLink_of_hasLink {mt : ManagedTorrent} {ti : TorrentInfo} {i : Nat}
    (h : hasLink ti i = true) :
    ServedByOwnLink mt ti i ↔ ∃ l, torrentLink ti i = some l ∧ resolveRead mt i = .unrestrict l := by
  obtain ⟨l, ht, hown⟩ := ownLink_of_hasLink h
  unfold ServedByOwnLink
  simp only [hown, ht]
  simp

/-- A file without a link of its own has to end in `ENOENT`. -/
theorem servedByOwnLink_of_not_hasLink {mt : ManagedTorrent} {ti : TorrentInfo} {i : Nat}
    (h : hasLink ti i = false) :
    ServedByOwnLink mt ti i ↔ resolveRead mt i = .enoent ∨ resolveRead mt i = .markedBroken := by
  unfold ServedByOwnLink
  simp only [ownLink_of_not_hasLink h]

/-- One file: exactly when its read does what the detector's rule asks. -/
theorem servedByOwnLink_iff {mt : ManagedTorrent} {ti : TorrentInfo} {i : Nat} {file : File}
    (hinfo : mt.info = some ti) (hfile : ti.selectedFiles[i]? = some file) :
    ServedByOwnLink mt ti i ↔ file.fileSize ≠ 0 ∧
      if isMarkedBroken mt file.path then hasLink ti i = false
      else ti.links = [] ∨ hasLink ti i = true := by
  have hread := resolveRead_eq hinfo hfile
  by_cases hsize : file.fileSize = 0
  · -- the empty reply is neither a link nor `ENOENT`
    rw [if_pos hsize] at hread
    cases hhas : hasLink ti i with
    | true => rw [servedByOwnLink_of_hasLink hhas, hread]; simp [hsize]
    | false => rw [servedByOwnLink_of_not_hasLink hhas, hread]; simp [hsize]
  · rw [if_neg hsize] at hread
    cases hmark : isMarkedBroken mt file.path with
    | true =>
      rw [hmark, if_pos rfl] at hread
      cases hhas : hasLink ti i with
      | true => rw [servedByOwnLink_of_hasLink hhas, hread]; simp
      | false => rw [servedByOwnLink_of_not_hasLink hhas, hread]; simp [hsize]
    | false =>
      rw [hmark, if_neg Bool.false_ne_true] at hread
      cases hhas : hasLink ti i with
      | true =>
        obtain ⟨l, ht, -⟩ := ownLink_of_hasLink hhas
        rw [servedByOwnLink_of_hasLink hhas, hread, ht]
        simp [hsize]
      | false =>
        rw [servedByOwnLink_of_not_hasLink hhas, hread]
        by_cases hlinks : ti.links = []
        · rw [torrentLink_nil hlinks]
          simp [hsize, hlinks]
        · -- the clamp finds some link, so a file without its own gets another's
          obtain ⟨l, hl⟩ := torrentLink_isSome hlinks i
          rw [hl]
          simp [hlinks]

/-- One file: exactly when its read goes on with no link. -/
theorem no_link_iff {mt : ManagedTorrent} {ti : TorrentInfo} {i : Nat} {file : File}
    (hinfo : mt.info = some ti) (hfile : ti.selectedFiles[i]? = some file) :
    (∀ l, resolveRead mt i ≠ .unrestrict l) ↔
      file.fileSize = 0 ∨ isMarkedBroken mt file.path = true ∨ ti.links = [] := by
  rw [resolveRead_eq hinfo hfile]
  by_cases hsize : file.fileSize = 0
  · simp [hsize]
  · cases hmark : isMarkedBroken mt file.path with
    | true => simp [hsize]
    | false =>
      by_cases hlinks : ti.links = []
      · rw [torrentLink_nil hlinks]
        simp [hsize, hlinks]
      · obtain ⟨l, hl⟩ := torrentLink_isSome hlinks i
        rw [hl]
        simp [hsize, hlinks]

/-- One file: exactly when it is not read through a link of another place. -/
theorem not_others_link_iff {mt : ManagedTorrent} {ti : TorrentInfo} {i : Nat} {file : File}
    (hinfo : mt.info = some ti) (hfile : ti.selectedFiles[i]? = some file) :
    (∀ l, resolveRead mt i = .unrestrict l → ti.links[i]? = some l) ↔
      file.fileSize = 0 ∨ isMarkedBroken mt file.path = true ∨ ti.links = [] ∨
        i < ti.links.length := by
  by_cases hno : file.fileSize = 0 ∨ isMarkedBroken mt file.path = true ∨ ti.links = []
  · have hnone := (no_link_iff hinfo hfile).mpr hno
    refine iff_of_true (fun l hl => absurd hl (hnone l)) ?_
    rcases hno with h | h | h
    · exact Or.inl h
    · exact Or.inr (Or.inl h)
    · exact Or.inr (Or.inr (Or.inl h))
  · obtain ⟨hsize, hrest⟩ := not_or.mp hno
    obtain ⟨hmark, hlinks⟩ := not_or.mp hrest
    obtain ⟨l, hl⟩ := torrentLink_isSome hlinks i
    have hread : resolveRead mt i = .unrestrict l := by
      rw [resolveRead_eq hinfo hfile, if_neg hsize, if_neg hmark, hl]
    constructor
    · intro h
      exact Or.inr (Or.inr (Or.inr (List.getElem?_eq_some_iff.mp (h l hread)).1))
    · rintro (h | h | h | hlt) l' hl'
      · exact absurd h hsize
      · exact absurd h hmark
      · exact absurd h hlinks
      · -- inside the list the clamp does nothing
        rw [hread] at hl'
        obtain rfl := ReadTarget.unrestrict.inj hl'
        rw [← hl, torrentLink, show linkIdx ti i = i from by unfold linkIdx; omega]

/-- **When FUSE and the detector agree on the link.**  For every selected file of every torrent:

    * its read is served by its own link (or ends in `ENOENT` when it has none) exactly when the file
      is not empty and, if it is marked `broken`, it has no link of its own, and if it is not,
      `links[i]` is there and non-empty or the torrent has no links at all;
    * it is not read through the link of another place exactly when it is empty or marked or the
      torrent has no links or has one at its place.

    And over a whole torrent the files that the detector counts as unassigned are exactly the ones
    that `read` resolves no link for exactly when the torrent has no links at all or the files without
    a link of their own are exactly the empty and the marked ones; where no file is empty or marked,
    exactly when it has no links at all or none is counted. -/
theorem link_agrees_iff (mt : ManagedTorrent) (ti : TorrentInfo) (hinfo : mt.info = some ti) :
    (∀ i file, ti.selectedFiles[i]? = some file →
      (ServedByOwnLink mt ti i ↔ file.fileSize ≠ 0 ∧
        if isMarkedBroken mt file.path then hasLink ti i = false
        else ti.links = [] ∨ hasLink ti i = true) ∧
      ((∀ l, resolveRead mt i = .unrestrict l → ti.links[i]? = some l) ↔
        file.fileSize = 0 ∨ isMarkedBroken mt file.path = true ∨ ti.links = [] ∨
          i < ti.links.length)) ∧
    ((∀ i file, ti.selectedFiles[i]? = some file →
        ((∀ l, resolveRead mt i ≠ .unrestrict l) ↔ hasLink ti i = false)) ↔
      ti.links = [] ∨ ∀ i file, ti.selectedFiles[i]? = some file →
        (hasLink ti i = false ↔ file.fileSize = 0 ∨ isMarkedBroken mt file.path = true)) ∧
    ((∀ i, i < ti.selectedFiles.length → (torrentLink ti i = none ↔ hasLink ti i = false)) ↔
      ti.links = [] ∨ unassignedSelectedLinkCount ti = 0) := by
  refine ⟨fun i file hfile => ⟨servedByOwnLink_iff hinfo hfile, not_others_link_iff hinfo hfile⟩,
    ?_, ?_⟩
  · by_cases hlinks : ti.links = []
    · refine iff_of_true (fun i file hfile => iff_of_true ?_ (hasLink_nil hlinks i)) (Or.inl hlinks)
      exact (no_link_iff hinfo hfile).mpr (Or.inr (Or.inr hlinks))
    · have hread : ∀ i file, ti.selectedFiles[i]? = some file →
          ((∀ l, resolveRead mt i ≠ .unrestrict l) ↔
            file.fileSize = 0 ∨ isMarkedBroken mt file.path = true) := by
        intro i file hfile
        rw [no_link_iff hinfo hfile]
        simp [hlinks]
      constructor
      · intro h
        refine Or.inr (fun i file hfile => ?_)
        rw [← h i file hfile, hread i file hfile]
      · rintro (h | h) i file hfile
        · exact absurd h hlinks
        · rw [hread i file hfile, h i file hfile]
  · rw [unassignedSelectedLinkCount_eq_zero]
    constructor
    · intro h
      by_cases hlinks : ti.links = []
      · exact Or.inl hlinks
      · right
        intro i hi
        obtain ⟨l, hl⟩ := torrentLink_isSome hlinks i
        cases hhas : hasLink ti i with
        | true => rfl
        | false =>
          have := (h i hi).mpr hhas
          rw [hl] at this
          exact absurd this (by simp)
    · rintro (h | h) i hi
      · exact iff_of_true (torrentLink_nil h i) (hasLink_nil h i)
      · obtain ⟨l, -, -, ht⟩ := torrentLink_of_hasLink (h i hi)
        rw [ht, h i hi]
        simp

/-- Two selected files and one link: the second file has no link of its own. -/
def shortLinks : TorrentInfo :=
  { id := "T1", progress := 100, bytes := 30, links := ["https://real-debrid.com/d/A"],
    files := [⟨1, "/a.mkv", 10, 1⟩, ⟨2, "/b.mkv", 20, 1⟩] }

/-- The registry's record for it. -/
def shortLinksTorrent : ManagedTorrent :=
  { accessKey := "h/n", rdIds := ["T1"],
    torrent := ⟨"T1", "n", "h", 100, "downloaded", ["https://real-debrid.com/d/A"], 0⟩,
    info := some shortLinks, state := .ok, unrepairableReason := none, lastRepairedAt := none,
    fileStates := none, underRepairStartedAt := none }

/-- The second file is read through the first file's link, although the detector counts it as
    unassigned. -/
theorem second_file_read_through_first_link :
    resolveRead shortLinksTorrent 1 = .unrestrict "https://real-debrid.com/d/A" ∧
    resolveRead shortLinksTorrent 0 = .unrestrict "https://real-debrid.com/d/A" ∧
    ownLink shortLinks 1 = .enoent ∧ unassignedSelectedLinkCount shortLinks = 1 ∧
    ¬ ServedByOwnLink shortLinksTorrent shortLinks 1 ∧
    ¬ (∀ i, i < shortLinks.selectedFiles.length →
      (torrentLink shortLinks i = none ↔ hasLink shortLinks i = false)) := by
  refine ⟨by decide, by decide, by decide, by decide, ?_, ?_⟩
  · rw [servedByOwnLink_of_not_hasLink (by decide)]
    decide
  · intro h
    exact absurd ((h 1 (by decide)).mpr (by decide)) (by decide)

/-- The second file is not served by a link of its own, the first one is read through no other. -/
theorem link_agrees_iff_shortLinks :
    ¬ ServedByOwnLink shortLinksTorrent shortLinks 1 ∧
    (∀ l, resolveRead shortLinksTorrent 0 = .unrestrict l → shortLinks.links[0]? = some l) ∧
    ((∀ i, i < shortLinks.selectedFiles.length →
      (torrentLink shortLinks i = none ↔ hasLink shortLinks i = false)) ↔
      shortLinks.links = [] ∨ unassignedSelectedLinkCount shortLinks = 0) := by
  obtain ⟨hfiles, -, hcount⟩ := link_agrees_iff shortLinksTorrent shortLinks rfl
  exact ⟨fun h => absurd ((hfiles 1 ⟨2, "/b.mkv", 20, 1⟩ rfl).1.mp h) (by decide),
    (hfiles 0 ⟨1, "/a.mkv", 10, 1⟩ rfl).2.mpr (by decide), hcount⟩

/-! ## The cache key -/

/-- `Path::file_name`: the last component, unless the path ends in `..` or has no component.  Empty
    components (repeated or trailing `/`) and `.` are skipped. -/
def fileName (path : String) : Option String :=
  match ((path.toList.splitOn '/').filter fun c => c ≠ [] ∧ c ≠ ['.']).getLast? with
  | none => none
  | some c => if c = ['.', '.'] then none else some (String.ofList c)

/-- Characters of `sanitize_filename` that are kept. -/
def isSafe (c : Char) : Bool := c.isAlphanum || c == '.' || c == '-' || c == '_'

/-- The character map of `sanitize_filename`. -/
def sanitizeChar (c : Char) : Char := if isSafe c then c else '_'

/-- `sanitize_filename` -/
def sanitizeFilename (name : String) : String := String.ofList (name.toList.map sanitizeChar)

/-- The base name of a file, or `file_<idx>` where its path has none. -/
def baseName (file : File) (fileIdx : Nat) : String :=
  (fileName file.path).getD ("file_" ++ toString fileIdx)

/-- The key `read` passes to `Cache::get_or_create` for the selected file `i`. -/
def readCacheKey (accessKey : String) (info : TorrentInfo) (i : Nat) : Option String :=
  info.selectedFiles[i]?.map fun file => buildKey accessKey (sanitizeFilename (baseName file i))

/-- The characters that no other character is mapped to: letters, digits, `.` and `-`.  (`_` is
    kept too, but it is also what every unsafe character becomes.) -/
def isOwnImage (c : Char) : Bool := c.isAlphanum || c == '.' || c == '-'

/-- Two names that still differ after sanitising: different lengths, or at some place two different
    characters of which at least one is a letter, a digit, `.` or `-`. -/
def Distinguishable (a b : String) : Prop :=
  a.toList.length ≠ b.toList.length ∨
    ∃ (k : Nat) (c d : Char), a.toList[k]? = some c ∧ b.toList[k]? = some d ∧ c ≠ d ∧
      (isOwnImage c = true ∨ isOwnImage d = true)

theorem isSafe_iff (c : Char) : isSafe c = true ↔ isOwnImage c = true ∨ c = '_' := by
  simp [isSafe, isOwnImage]

theorem isOwnImage_ne {c : Char} (h : isOwnImage c = true) : c ≠ '_' := by
  rintro rfl
  exact absurd h (by decide)

/-- Two characters stay apart exactly when they differ and one of them is its own only image. -/
theorem sanitizeChar_ne_iff (c d : Char) :
    sanitizeChar c ≠ sanitizeChar d ↔ c ≠ d ∧ (isOwnImage c = true ∨ isOwnImage d = true) := by
  have himg : ∀ e, isOwnImage e = true → sanitizeChar e = e := by
    intro e he
    rw [sanitizeChar, if_pos ((isSafe_iff e).mpr (Or.inl he))]
  have hother : ∀ e, isOwnImage e = false → sanitizeChar e = '_' := by
    intro e he
    unfold sanitizeChar
    split
    · rename_i hs
      rcases (isSafe_iff e).mp hs with h | h
      · rw [h] at he; exact absurd he (by decide)
      · exact h
    · rfl
  cases hc : isOwnImage c with
  | true =>
    rw [himg c hc]
    cases hd : isOwnImage d with
    | true => rw [himg d hd]; simp
    | false =>
      rw [hother d hd]
      refine ⟨fun h => ⟨?_, Or.inl rfl⟩, fun _ => isOwnImage_ne hc⟩
      rintro rfl
      rw [hc] at hd
      exact absurd hd (by decide)
  | false =>
    rw [hother c hc]
    cases hd : isOwnImage d with
    | true =>
      rw [himg d hd]
      refine ⟨fun h => ⟨?_, Or.inr rfl⟩, fun _ => (isOwnImage_ne hd).symm⟩
      rintro rfl
      rw [hc] at hd
      exact absurd hd (by decide)
    | false => rw [hother d hd]; simp

theorem map_ne_iff {α β : Type} (f : α → β) (l m : List α) :
    l.map f ≠ m.map f ↔ l.length ≠ m.length ∨
      ∃ (k : Nat) (c d : α), l[k]? = some c ∧ m[k]? = some d ∧ f c ≠ f d := by
  constructor
  · intro h
    by_cases hlen : l.length = m.length
    · -- of equal length: pointwise equal images would make the lists equal
      right
      by_contra hall
      apply h
      refine List.ext_getElem (by simp [hlen]) (fun k h1 h2 => ?_)
      rw [List.length_map] at h1 h2
      rw [List.getElem_map, List.getElem_map]
      by_contra hne
      exact hall ⟨k, l[k], m[k], List.getElem?_eq_getElem h1, List.getElem?_eq_getElem h2, hne⟩
    · exact Or.inl hlen
  · rintro (h | ⟨k, c, d, hc, hd, hne⟩) heq
    · have := congrArg List.length heq
      rw [List.length_map, List.length_map] at this
      exact h this
    · have := congrArg (fun l => l[k]?) heq
      simp only [List.getElem?_map, hc, hd, Option.map_some, Option.some.injEq] at this
      exact hne this

theorem sanitizeFilename_ne_iff (a b : String) :
    sanitizeFilename a ≠ sanitizeFilename b ↔ Distinguishable a b := by
  unfold sanitizeFilename Distinguishable
  rw [Ne, String.ofList_inj, ← Ne, map_ne_iff]
  simp only [sanitizeChar_ne_iff]

theorem buildKey_inj (ak a b : String) : buildKey ak a = buildKey ak b ↔ a = b := by
  unfold buildKey
  constructor
  · intro h
    have := congrArg String.toList h
    simp only [String.toList_append] at this
    exact String.toList_inj.mp (List.append_cancel_left this)
  · rintro rfl; rfl

/-- **Which files have cache entries of their own.**  The keys of two selected files differ exactly
    when their base names differ in length, or at some place hold two different characters of which
    one is an ASCII letter, a digit, `.` or `-`. -/
theorem cacheKeys_differ_iff (ak : String) (info : TorrentInfo) (i j : Nat) (fi fj : File)
    (hi : info.selectedFiles[i]? = some fi) (hj : info.selectedFiles[j]? = some fj) :
    readCacheKey ak info i ≠ readCacheKey ak info j ↔
      Distinguishable (baseName fi i) (baseName fj j) := by
  rw [readCacheKey, readCacheKey, hi, hj, Option.map_some, Option.map_some, Ne, Option.some.injEq,
    buildKey_inj, ← sanitizeFilename_ne_iff]

/-- Two seasons whose episodes are numbered alike. -/
def twoSeasons : TorrentInfo :=
  { id := "T1", progress := 100, bytes := 30, links := ["l1", "l2"],
    files := [⟨1, "/S01/E01.mkv", 10, 1⟩, ⟨2, "/S02/E01.mkv", 20, 1⟩] }

/-- Both files are cached under one key. -/
theorem twoSeasons_share_cache_key :
    twoSeasons.selectedFiles.length = 2 ∧
    readCacheKey "h/n" twoSeasons 0 = some "h/n/E01.mkv" ∧
    readCacheKey "h/n" twoSeasons 1 = some "h/n/E01.mkv" ∧
    ¬ (∀ i j, i < 2 → j < 2 → i ≠ j →
      readCacheKey "h/n" twoSeasons i ≠ readCacheKey "h/n" twoSeasons j) := by
  refine ⟨by decide, by decide, by decide, fun h => ?_⟩
  exact h 0 1 (by decide) (by decide) (by decide) (by decide)

theorem cacheKeys_differ_iff_twoSeasons :
    readCacheKey "h/n" twoSeasons 0 ≠ readCacheKey "h/n" twoSeasons 1 ↔
      Distinguishable (baseName ⟨1, "/S01/E01.mkv", 10, 1⟩ 0)
        (baseName ⟨2, "/S02/E01.mkv", 20, 1⟩ 1) :=
  cacheKeys_differ_iff "h/n" twoSeasons 0 1 _ _ rfl rfl

end RdRs.Fuse

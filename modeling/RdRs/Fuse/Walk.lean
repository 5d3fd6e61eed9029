/-
  Walking through `__all__` with `readdir` or `readdirplus`.

  A reply covers 1000 positions of the key list and leaves out the keys that have left the registry.
  The kernel takes what fits of a reply and asks again from the offset of the last entry it took; an
  empty reply ends the walk (`Paging.walk`).

  A page without any present key is an empty reply, though present keys may follow it.  So the walk
  lists everything exactly when this does not happen: `Unbroken` says that 1000 positions whose keys
  are all absent are followed by absent keys only.  With such a gap NO walk goes beyond it, whatever
  the kernel takes of each reply: a page that starts before the gap ends inside it.
-/
import RdRs.Lib.Paging
import RdRs.Fuse.TorrentDir

set_option linter.unusedVariables false

namespace RdRs.Fuse

open RdRs.Rd RdRs.Paging

/-- What a walk sees of an entry: its name and its offset, which is its place in the list. -/
def shown (e : DirectoryEntry) : String × Int := (e.name, e.offset)

variable (torrents : AList (fun _ : String => ManagedTorrent))

/-- A listed key is in the registry. -/
def present (entry : String × String) : Bool := (torrents.lookup entry.1).isSome

/-- The present ones of listed keys, the first of them having the index `index`. -/
def presentFrom (index : Nat) (keys : List (String × String)) : List (String × Int) :=
  (keys.zipIdx index).filterMap fun e =>
    if present torrents e.1 then some (e.1.2, (e.2 : Int) + 3) else none

/-- **What a walk has to see**: `.`, `..` and the listed keys that are in the registry. -/
def listing (keys : List (String × String)) : List (String × Int) :=
  dotEntries.map shown ++ presentFrom torrents 0 keys

/-- No 1000 absent keys in a row come before a present one. -/
def Unbroken (keys : List (String × String)) : Prop :=
  ∀ g, (∀ e ∈ (keys.drop g).take 1000, present torrents e = false) →
    ∀ e ∈ keys.drop (g + 1000), present torrents e = false

variable {torrents}

/-! ## Present keys -/

theorem presentFrom_append (index : Nat) (keys keys' : List (String × String)) :
    presentFrom torrents index (keys ++ keys') =
      presentFrom torrents index keys ++ presentFrom torrents (index + keys.length) keys' := by
  rw [presentFrom, List.zipIdx_append, List.filterMap_append]
  rfl

theorem presentFrom_cons (index : Nat) (e : String × String) (keys : List (String × String)) :
    presentFrom torrents index (e :: keys) =
      (if present torrents e then [(e.2, (index : Int) + 3)] else []) ++
        presentFrom torrents (index + 1) keys := by
  rw [presentFrom, List.zipIdx_cons, List.filterMap_cons]
  by_cases h : present torrents e
  · rw [if_pos h, if_pos h]
    rfl
  · rw [if_neg h, if_neg h]
    rfl

/-- The places of present keys, and the keys there. -/
theorem mem_presentFrom {index : Nat} {keys : List (String × String)} {x : String × Int} :
    x ∈ presentFrom torrents index keys ↔
      ∃ (i : Nat) (e : String × String), keys[i]? = some e ∧ present torrents e = true ∧
        x = (e.2, (index : Int) + i + 3) := by
  rw [presentFrom, List.mem_filterMap]
  constructor
  · rintro ⟨⟨e, j⟩, hmem, hx⟩
    obtain ⟨hle, hj⟩ := List.mk_mem_zipIdx_iff_le_and_getElem?_sub.mp hmem
    by_cases hp : present torrents e = true
    · rw [if_pos hp, Option.some.injEq] at hx
      refine ⟨j - index, e, hj, hp, ?_⟩
      rw [← hx, Prod.mk.injEq]
      exact ⟨rfl, by omega⟩
    · rw [if_neg hp] at hx
      exact absurd hx.symm (Option.some_ne_none x)
  · rintro ⟨i, e, hi, hp, rfl⟩
    refine ⟨(e, index + i), List.mk_mem_zipIdx_iff_le_and_getElem?_sub.mpr ⟨by omega, ?_⟩, ?_⟩
    · rw [Nat.add_sub_cancel_left]
      exact hi
    · rw [if_pos hp]
      simp

/-- Nothing present, nothing listed. -/
theorem presentFrom_eq_nil {index : Nat} {keys : List (String × String)} :
    presentFrom torrents index keys = [] ↔ ∀ e ∈ keys, present torrents e = false := by
  rw [List.eq_nil_iff_forall_not_mem]
  constructor
  · intro h e he
    obtain ⟨i, hi⟩ := List.mem_iff_getElem?.mp he
    by_contra hp
    exact h _ (mem_presentFrom.mpr ⟨i, e, hi, Bool.eq_true_of_not_eq_false hp, rfl⟩)
  · intro h x hx
    obtain ⟨i, e, hi, hp, -⟩ := mem_presentFrom.mp hx
    rw [h e (List.mem_of_getElem? hi)] at hp
    exact Bool.false_ne_true hp

/-- Places increase along the list. -/
theorem presentFrom_sorted : ∀ (keys : List (String × String)) (index : Nat),
    (presentFrom torrents index keys).Pairwise fun a b => a.2 < b.2
  | [], index => List.Pairwise.nil
  | e :: keys, index => by
    rw [presentFrom_cons, List.pairwise_append]
    refine ⟨?_, presentFrom_sorted keys (index + 1), fun a ha b hb => ?_⟩
    · split
      · exact List.pairwise_singleton _ _
      · exact List.Pairwise.nil
    · obtain ⟨i, e', -, -, rfl⟩ := mem_presentFrom.mp hb
      split at ha
      · rw [List.mem_singleton.mp ha]
        dsimp only
        omega
      · exact absurd ha List.not_mem_nil

theorem listing_sorted (keys : List (String × String)) :
    (listing torrents keys).Pairwise fun a b => a.2 < b.2 := by
  rw [listing, List.pairwise_append]
  refine ⟨by decide, presentFrom_sorted keys 0, fun a ha b hb => ?_⟩
  obtain ⟨i, e, -, -, rfl⟩ := mem_presentFrom.mp hb
  have hdots : ∀ a ∈ dotEntries.map shown, a.2 ≤ 2 := by decide
  have hle := hdots a ha
  dsimp only
  omega

/-- What lies beyond an offset: of `.` and `..`, and of the keys from the start index of its page. -/
theorem beyond_listing (keys : List (String × String)) {offset : Int} (h : 0 ≤ offset) :
    beyond Prod.snd (listing torrents keys) offset =
      (dotEntries.map shown).filter (fun x => decide (offset < x.2)) ++
        presentFrom torrents (startIdx offset) (keys.drop (startIdx offset)) := by
  have hlo : ∀ x ∈ presentFrom torrents 0 (keys.take (startIdx offset)), ¬ offset < x.2 := by
    intro x hx
    obtain ⟨i, e, hi, -, rfl⟩ := mem_presentFrom.mp hx
    have hlt := (List.getElem?_eq_some_iff.mp hi).1
    rw [List.length_take, startIdx] at hlt
    dsimp only
    omega
  have hhi : ∀ x ∈ presentFrom torrents (startIdx offset) (keys.drop (startIdx offset)),
      offset < x.2 := by
    intro x hx
    obtain ⟨i, e, -, -, rfl⟩ := mem_presentFrom.mp hx
    rw [startIdx]
    dsimp only
    omega
  have hsplit : presentFrom torrents 0 keys =
      presentFrom torrents 0 (keys.take (startIdx offset)) ++
        presentFrom torrents (startIdx offset) (keys.drop (startIdx offset)) := by
    by_cases hlen : startIdx offset ≤ keys.length
    · conv_lhs => rw [← List.take_append_drop (startIdx offset) keys]
      rw [presentFrom_append, List.length_take, Nat.zero_add, min_eq_left hlen]
    · rw [List.take_of_length_le (by omega), List.drop_eq_nil_of_le (by omega),
        presentFrom_eq_nil.mpr fun e he => absurd he List.not_mem_nil, List.append_nil]
  have hnone : (presentFrom torrents 0 (keys.take (startIdx offset))).filter
      (fun x => decide (offset < x.2)) = [] :=
    List.filter_eq_nil_iff.mpr fun x hx => by simpa using hlo x hx
  have hall : (presentFrom torrents (startIdx offset) (keys.drop (startIdx offset))).filter
      (fun x => decide (offset < x.2)) =
        presentFrom torrents (startIdx offset) (keys.drop (startIdx offset)) :=
    List.filter_eq_self.mpr fun x hx => by simpa using hhi x hx
  rw [beyond, listing, List.filter_append, hsplit, List.filter_append, hnone, hall, List.nil_append]

/-! ## Replies -/

/-- A page shows its present keys. -/
theorem listPage_shown : ∀ (page : List (String × String)) (index : Nat) (inodes : InodeTable),
    (listPage torrents index inodes page).1.map shown = presentFrom torrents index page
  | [], _, _ => rfl
  | (key, name) :: rest, index, inodes => by
    rw [listPage, presentFrom_cons]
    by_cases hp : (torrents.lookup key).isSome
    · rw [if_pos hp, if_pos (show present torrents (key, name) = true from hp), List.map_cons,
        listPage_shown rest]
      rfl
    · rw [if_neg hp, if_neg (show ¬ present torrents (key, name) = true from hp),
        listPage_shown rest]
      rfl

/-- Looking at the key list does not touch the registry. -/
theorem getSortedKeys_torrents {fs fs' : RdFs} {now : Nat} {keys : List (String × String)}
    (h : getSortedKeys fs now = some (keys, fs')) : fs'.torrents = fs.torrents := by
  rw [getSortedKeys] at h
  split at h
  · rw [← (Prod.mk.inj (Option.some.inj h)).2]
  · obtain ⟨res, -, hres⟩ := Option.bind_eq_some_iff.mp h
    rw [← (Prod.mk.inj (Option.some.inj hres)).2]

/-- A reply shows what its 1000 positions have of what lies beyond the offset. -/
theorem listAll_shown {fs fs₁ : RdFs} {now : Nat} {keys : List (String × String)}
    (h : getSortedKeys fs now = some (keys, fs₁)) {offset : Int} (hoff : 0 ≤ offset) :
    ∃ reply fs', listAll fs now (startIdx offset) offset = some (reply, fs') ∧
      reply.map shown = (dotEntries.map shown).filter (fun x => decide (offset < x.2)) ++
        presentFrom fs.torrents (startIdx offset) ((keys.drop (startIdx offset)).take 1000) := by
  refine ⟨_, _, by rw [listAll, h]; rfl, ?_⟩
  have hcomp : (fun e : DirectoryEntry => decide (offset < e.offset)) =
      (fun x : String × Int => decide (offset < x.2)) ∘ shown := rfl
  have hall : ∀ x ∈ presentFrom fs.torrents (startIdx offset)
      ((keys.drop (startIdx offset)).take 1000), offset < x.2 := by
    intro x hx
    obtain ⟨i, e, -, -, rfl⟩ := mem_presentFrom.mp hx
    rw [startIdx]
    dsimp only
    omega
  rw [hcomp, ← List.filter_map, List.map_append, listPage_shown, getSortedKeys_torrents h,
    List.filter_append]
  congr 1
  exact List.filter_eq_self.mpr fun x hx => by simpa using hall x hx

/-- Requests that are answered from a fixed registry and a fixed key list. -/
def ListsPages (torrents : AList (fun _ : String => ManagedTorrent)) (keys : List (String × String))
    (serve : Nat → Int → Option (List DirectoryEntry)) : Prop :=
  ∀ (n : Nat) (c : Int), 0 ≤ c → c ≤ keys.length + 2 → ∃ reply, serve n c = some reply ∧
    reply.map shown = (dotEntries.map shown).filter (fun x => decide (c < x.2)) ++
      presentFrom torrents (startIdx c) ((keys.drop (startIdx c)).take 1000)

/-- The states in which the requests of a walk arrive, and their times: whatever happens in between,
    the registry is the same, and so is the list `get_sorted_keys` gives. -/
def Fixed (torrents : AList (fun _ : String => ManagedTorrent)) (keys : List (String × String))
    (fsAt : Nat → RdFs) (nowAt : Nat → Nat) : Prop :=
  ∀ n, (fsAt n).torrents = torrents ∧ ∃ fs', getSortedKeys (fsAt n) (nowAt n) = some (keys, fs')

/-- The requests of a walk, made with `readdir`. -/
def readdirReplies (fsAt : Nat → RdFs) (nowAt : Nat → Nat) (n : Nat) (c : Int) :
    Option (List DirectoryEntry) :=
  (readdirAll (fsAt n) (nowAt n) c).map Prod.fst

/-- The requests of a walk, made with `readdirplus`. -/
def readdirplusReplies (fsAt : Nat → RdFs) (nowAt : Nat → Nat) (n : Nat) (c : Int) :
    Option (List DirectoryEntry) :=
  (readdirplusAll (fsAt n) (nowAt n) c.toNat).map Prod.fst

theorem readdirReplies_pages {keys : List (String × String)} {fsAt : Nat → RdFs} {nowAt : Nat → Nat}
    (h : Fixed torrents keys fsAt nowAt) : ListsPages torrents keys (readdirReplies fsAt nowAt) := by
  intro n c hc _
  obtain ⟨htorrents, fs', hkeys⟩ := h n
  obtain ⟨reply, fs₂, hreply, hshown⟩ := listAll_shown hkeys hc
  rw [htorrents] at hshown
  exact ⟨reply, by rw [readdirReplies, readdirAll, hreply]; rfl, hshown⟩

/-- Read back as an `i64`, an offset into a list that fits in memory is what it was. -/
theorem readdirplusReplies_pages {keys : List (String × String)} {fsAt : Nat → RdFs}
    {nowAt : Nat → Nat} (hfits : keys.length + 2 < 2 ^ 63) (h : Fixed torrents keys fsAt nowAt) :
    ListsPages torrents keys (readdirplusReplies fsAt nowAt) := by
  intro n c hc hlen
  obtain ⟨htorrents, fs', hkeys⟩ := h n
  obtain ⟨reply, fs₂, hreply, hshown⟩ := listAll_shown hkeys hc
  rw [htorrents] at hshown
  have hcast : ((c.toNat : Nat) : Int) = c := Int.toNat_of_nonneg hc
  have hi64 : asI64 c.toNat = c := by
    rw [asI64, if_pos (by omega)]
    exact hcast
  exact ⟨reply, by rw [readdirplusReplies, readdirplusAll, hcast, hi64, hreply]; rfl, hshown⟩

/-! ## The walk -/

variable {keys : List (String × String)} {serve : Nat → Int → Option (List DirectoryEntry)}

/-- Each reply is a front part of what lies beyond its offset. -/
theorem ListsPages.front (h : ListsPages torrents keys serve) (n : Nat) {c : Int} (hc : 0 ≤ c)
    (hlen : c ≤ keys.length + 2) :
    ∃ reply, serve n c = some reply ∧
      reply.map shown <+: beyond Prod.snd (listing torrents keys) c := by
  obtain ⟨reply, hreply, hshown⟩ := h n c hc hlen
  refine ⟨reply, hreply, ?_⟩
  rw [hshown, beyond_listing keys hc, List.prefix_append_right_inj]
  conv_rhs => rw [← List.take_append_drop 1000 (keys.drop (startIdx c)), presentFrom_append]
  exact List.prefix_append _ _

/-- Without a gap an empty reply comes at the end only. -/
theorem ListsPages.full (h : ListsPages torrents keys serve) (hun : Unbroken torrents keys) {n : Nat}
    {c : Int} (hc : 0 ≤ c) (hlen : c ≤ keys.length + 2) (hnil : serve n c = some []) :
    beyond Prod.snd (listing torrents keys) c = [] := by
  obtain ⟨reply, hreply, hshown⟩ := h n c hc hlen
  rw [hnil, Option.some.injEq] at hreply
  rw [← hreply, List.map_nil, eq_comm, List.append_eq_nil_iff] at hshown
  obtain ⟨hdots, hpage⟩ := hshown
  have habsent := presentFrom_eq_nil.mp hpage
  rw [beyond_listing keys hc, hdots, List.nil_append, presentFrom_eq_nil]
  intro e he
  rw [← List.take_append_drop 1000 (keys.drop (startIdx c)), List.mem_append, List.drop_drop] at he
  exact he.elim (habsent e) (hun _ habsent e)

/-- A page that starts before a gap ends inside it. -/
theorem ListsPages.trapped (h : ListsPages torrents keys serve) {g : Nat}
    (hgap : ∀ e ∈ (keys.drop g).take 1000, present torrents e = false) (hg : g ≤ keys.length)
    {n : Nat} {c : Int} (hc : 0 ≤ c) (hcg : c ≤ g + 2) {reply : List DirectoryEntry}
    (hreply : serve n c = some reply) {e : DirectoryEntry} (he : e ∈ reply) :
    0 ≤ e.offset ∧ e.offset ≤ g + 2 := by
  obtain ⟨reply', hreply', hshown⟩ := h n c hc (by omega)
  rw [hreply, Option.some.injEq] at hreply'
  have hmem : shown e ∈ reply.map shown := List.mem_map_of_mem he
  rw [hreply', hshown, List.mem_append] at hmem
  rcases hmem with hmem | hmem
  · have hdots : ∀ x ∈ dotEntries.map shown, 0 ≤ x.2 ∧ x.2 ≤ 2 := by decide
    have hle := hdots _ (List.mem_filter.mp hmem).1
    rw [shown] at hle
    exact ⟨hle.1, by omega⟩
  · obtain ⟨i, x, hi, hp, hx⟩ := mem_presentFrom.mp hmem
    have hoff : e.offset = (startIdx c : Int) + i + 3 := congrArg Prod.snd hx
    have hstart : startIdx c ≤ g := by
      rw [startIdx]
      omega
    have hlt := (List.getElem?_eq_some_iff.mp hi).1
    rw [List.length_take] at hlt
    rw [List.getElem?_take_of_lt (by omega), List.getElem?_drop] at hi
    refine ⟨by omega, ?_⟩
    by_contra hbeyond
    -- the entry would be one of the 1000 absent keys
    have hgap_x := hgap x (List.mem_of_getElem? (i := startIdx c + i - g) (by
      rw [List.getElem?_take_of_lt (by omega), List.getElem?_drop,
        show g + (startIdx c + i - g) = startIdx c + i by omega]
      exact hi))
    rw [hp] at hgap_x
    exact Bool.false_ne_true hgap_x.symm

theorem listing_length_le (keys : List (String × String)) :
    (listing torrents keys).length ≤ keys.length + 2 := by
  have hle := List.length_filterMap_le (fun e : (String × String) × Nat =>
    if present torrents e.1 then some (e.1.2, (e.2 : Int) + 3) else none) (keys.zipIdx 0)
  rw [List.length_zipIdx] at hle
  rw [listing, presentFrom, List.length_append, show (dotEntries.map shown).length = 2 from rfl]
  omega

/-- Everything lies beyond offset 0. -/
theorem beyond_zero (keys : List (String × String)) :
    beyond Prod.snd (listing torrents keys) 0 = listing torrents keys := by
  rw [beyond_listing keys le_rfl]
  rfl

/-- Offsets of the listing are offsets to ask from. -/
theorem listing_offsets (keys : List (String × String)) :
    ∀ x ∈ listing torrents keys, 0 ≤ x.2 ∧ x.2 ≤ keys.length + 2 := by
  intro x hx
  rcases List.mem_append.mp hx with hx | hx
  · have hdots : ∀ x ∈ dotEntries.map shown, 0 ≤ x.2 ∧ x.2 ≤ 2 := by decide
    have hle := hdots x hx
    exact ⟨hle.1, by omega⟩
  · obtain ⟨i, e, hi, -, rfl⟩ := mem_presentFrom.mp hx
    have hlt := (List.getElem?_eq_some_iff.mp hi).1
    dsimp only
    omega

/-- **When a walk sees the whole directory.**  Whatever it takes of each reply, it ends; it has seen
    `.`, `..` and the listed keys that are in the registry, each once and in order, exactly when no
    1000 absent keys in a row come before a present one. -/
theorem ListsPages.walk_iff (h : ListsPages torrents keys serve) (consume : Nat → Nat) {fuel : Nat}
    (hfuel : keys.length + 2 < fuel) :
    ∃ seen, walk serve DirectoryEntry.offset consume fuel 0 0 = some seen ∧
      (seen.map shown = listing torrents keys ↔ Unbroken torrents keys) := by
  have hlen : (listing torrents keys).length ≤ keys.length + 2 := listing_length_le keys
  obtain ⟨seen, hwalk, -, hfull⟩ := @walk_spec _ _ _ _ Prod.snd (listing torrents keys) serve
    DirectoryEntry.offset shown consume (fun c => 0 ≤ c ∧ c ≤ keys.length + 2)
    (listing_sorted keys) (fun _ => rfl) (listing_offsets keys)
    (fun n c hc => h.front n hc.1 hc.2) fuel 0 0 ⟨le_rfl, by omega⟩
    (by rw [beyond_zero]; omega)
  refine ⟨seen, hwalk, fun hseen g hgap e he => ?_, fun hun => ?_⟩
  · obtain ⟨j, hj⟩ := List.mem_iff_getElem?.mp he
    rw [List.getElem?_drop] at hj
    have hlt := (List.getElem?_eq_some_iff.mp hj).1
    by_contra hp
    -- the listing has the key behind the gap, which the walk never reaches
    have hmem : (e.2, ((g + 1000 + j : Nat) : Int) + 3) ∈ listing torrents keys :=
      List.mem_append_right _ (mem_presentFrom.mpr
        ⟨g + 1000 + j, e, hj, Bool.eq_true_of_not_eq_false hp, by simp⟩)
    rw [← hseen] at hmem
    obtain ⟨d, hd, hshown⟩ := List.mem_map.mp hmem
    have hbound := @walk_trapped _ _ _ serve DirectoryEntry.offset consume
      (fun c => 0 ≤ c ∧ c ≤ (g : Int) + 2) ((g : Int) + 2)
      (fun n c reply hok hc hreply d hd =>
        have hd' := h.trapped hgap (by omega) hok.1 hc hreply hd
        ⟨hd', hd'.2⟩)
      fuel 0 0 seen ⟨le_rfl, by omega⟩ (by omega) hwalk d hd
    have hoff : d.offset = ((g + 1000 + j : Nat) : Int) + 3 := congrArg Prod.snd hshown
    omega
  · rw [hfull fun n c hc hnil => h.full hun hc.1 hc.2 hnil, beyond_zero]

/-- **Both listings** list the whole directory under the same condition. -/
theorem walk_lists_iff (torrents : AList (fun _ : String => ManagedTorrent))
    (keys : List (String × String)) (hfits : keys.length + 2 < 2 ^ 63) {fsAt : Nat → RdFs}
    {nowAt : Nat → Nat} (hfixed : Fixed torrents keys fsAt nowAt) (consume : Nat → Nat) {fuel : Nat}
    (hfuel : keys.length + 2 < fuel) :
    (∃ seen, walk (readdirReplies fsAt nowAt) DirectoryEntry.offset consume fuel 0 0 = some seen ∧
      (seen.map shown = listing torrents keys ↔ Unbroken torrents keys)) ∧
    ∃ seen, walk (readdirplusReplies fsAt nowAt) DirectoryEntry.offset consume fuel 0 0 = some seen ∧
      (seen.map shown = listing torrents keys ↔ Unbroken torrents keys) :=
  ⟨(readdirReplies_pages hfixed).walk_iff consume hfuel,
    (readdirplusReplies_pages hfits hfixed).walk_iff consume hfuel⟩

/-- A mount that has cached a list at time 0. -/
def cachedFs (torrents : AList (fun _ : String => ManagedTorrent)) (keys : List (String × String)) :
    RdFs where
  torrents := torrents
  inodes := .empty
  cachedAllDir := (0, keys)

/-- Within 15 seconds, the list and the registry are the same for every request. -/
theorem cachedFs_fixed (torrents : AList (fun _ : String => ManagedTorrent))
    (keys : List (String × String)) : Fixed torrents keys (fun _ => cachedFs torrents keys) fun _ => 1 :=
  fun _ => ⟨rfl, cachedFs torrents keys, rfl⟩

/-- One torrent and one that is gone, read entry by entry. -/
theorem walk_lists_iff_two :
    (∃ seen, walk (readdirReplies (fun _ => cachedFs (fsOf [("b", "Movie")]).torrents
        [("a", "Film"), ("b", "Movie")]) fun _ => 1) DirectoryEntry.offset (fun _ => 0) 5 0 0 =
          some seen ∧
      (seen.map shown = listing (fsOf [("b", "Movie")]).torrents [("a", "Film"), ("b", "Movie")] ↔
        Unbroken (fsOf [("b", "Movie")]).torrents [("a", "Film"), ("b", "Movie")])) ∧
    listing (fsOf [("b", "Movie")]).torrents [("a", "Film"), ("b", "Movie")] =
      [(".", 1), ("..", 2), ("Movie", 4)] :=
  ⟨(walk_lists_iff (fsOf [("b", "Movie")]).torrents [("a", "Film"), ("b", "Movie")] (by decide)
    (cachedFs_fixed _ _) (fun _ => 0) (by decide)).1, by decide⟩

/-! ## A gap -/

/-- Keys that differ in length only, so that their order is known. -/
def cloneKey (i : Nat) : String := String.ofList (List.replicate (i + 1) 'k')

theorem cloneKey_inj {i j : Nat} (h : cloneKey i = cloneKey j) : i = j := by
  have hlen := congrArg (fun s => s.toList.length) h
  simpa [cloneKey] using hlen

theorem cloneKey_le {i j : Nat} (h : i ≤ j) : cloneKey i ≤ cloneKey j := by
  have hprefix : List.replicate (i + 1) 'k' <+: List.replicate (j + 1) 'k' := by
    refine ⟨List.replicate (j - i) 'k', ?_⟩
    rw [List.replicate_append_replicate]
    congr 1
    omega
  refine not_lt.mp fun hlt => hprefix.le ?_
  rw [String.lt_iff_toList_lt, cloneKey, cloneKey, String.toList_ofList, String.toList_ofList] at hlt
  exact hlt

/-- A torrent called `Movie`. -/
def movie (key : String) : ManagedTorrent where
  accessKey := key
  rdIds := []
  torrent := ⟨"", "Movie", "", 100, "downloaded", [], 0⟩
  info := none
  state := .ok
  unrepairableReason := none
  lastRepairedAt := none
  fileStates := none
  underRepairStartedAt := none

/-- The registry with the `n` torrents from number `a` on, all of one name. -/
def clones (a n : Nat) : AList (fun _ : String => ManagedTorrent) where
  entries := (List.range' a n).map fun i => ⟨cloneKey i, movie (cloneKey i)⟩
  nodupKeys := by
    rw [List.NodupKeys, List.keys, List.map_map]
    exact List.Nodup.map (fun i j h => cloneKey_inj h) List.nodup_range'

theorem present_clones {a n i : Nat} {name : String} :
    present (clones a n) (cloneKey i, name) = true ↔ a ≤ i ∧ i < a + n := by
  have hkeys : (clones a n).keys = (List.range' a n).map cloneKey := by
    show ((List.range' a n).map _).map Sigma.fst = _
    rw [List.map_map]
    rfl
  rw [present, AList.lookup_isSome, AList.mem_keys, hkeys, List.mem_map]
  constructor
  · rintro ⟨j, hj, hij⟩
    rw [← cloneKey_inj hij]
    exact List.mem_range'_1.mp hj
  · intro hi
    exact ⟨i, List.mem_range'_1.mpr hi, rfl⟩

/-- Their list is in the order of the numbers. -/
theorem clones_keys {n : Nat} (hn : n ≤ 10 ^ 10) : ∃ keys, buildSortedKeys (clones 0 n) = some keys ∧
    keys.map Prod.fst = (List.range n).map cloneKey := by
  obtain ⟨keys, hkeys⟩ := (buildSortedKeys_isSome_iff (clones 0 n)).mpr fun name i hi => by
    have hnames : torrentNames (clones 0 n) = List.replicate n "Movie" := by
      rw [torrentNames, clones, List.map_map]
      refine List.eq_replicate_iff.mpr ⟨by rw [List.length_map, List.length_range'], ?_⟩
      intro name hname
      obtain ⟨i, -, rfl⟩ := List.mem_map.mp hname
      rfl
    rw [hnames, List.count_replicate] at hi
    split at hi
    · rename_i hname
      have hdigits : (Nat.toDigits 10 i).length ≤ 10 :=
        Nat.toDigits_length 10 i 10 (by decide) (hi.trans_le hn)
      rw [← beq_iff_eq.mp hname, copyName, copyNumber, if_neg (by decide), displayName]
      refine cutsCleanly_of_length ?_
      split
      · decide
      · simp only [String.toList_append, List.length_append, Nat.toString_eq_ofList_toDigits,
          String.toList_ofList]
        have hopen : " (".toList.length = 2 := by decide
        have hname' : "Movie".toList.length = 5 := by decide
        have hclose : ")".toList.length = 1 := by decide
        omega
    · exact absurd hi (Nat.not_lt_zero i)
  refine ⟨keys, hkeys, ?_⟩
  have hsorted : keyNames (clones 0 n) = (List.range n).map fun i => (cloneKey i, "Movie") := by
    rw [keyNames, clones, List.map_map, List.range_eq_range']
    refine List.Pairwise.insertionSort_eq (List.pairwise_map.mpr ?_)
    exact List.Pairwise.imp (fun hlt => Or.inr ⟨rfl, cloneKey_le hlt.le⟩) List.pairwise_lt_range'
  rw [((uniqueEntries_eq_some_iff _ _ _ _).mp hkeys).2.1, hsorted, List.map_map]
  rfl

/-- All but the last of 1001 torrents are removed within 15 seconds of the list being built. -/
theorem clones_broken {keys : List (String × String)}
    (hkeys : keys.map Prod.fst = (List.range 1001).map cloneKey) :
    ¬ Unbroken (clones 1000 1) keys := by
  intro hun
  have hget : ∀ i, i < 1001 → ∃ name, keys[i]? = some (cloneKey i, name) := by
    intro i hi
    have hmap := congrArg (fun l => l[i]?) hkeys
    simp only [List.getElem?_map, List.getElem?_range hi, Option.map_some,
      Option.map_eq_some_iff] at hmap
    obtain ⟨e, he, hkey⟩ := hmap
    exact ⟨e.2, by rw [he, ← hkey]⟩
  obtain ⟨last, hlast⟩ := hget 1000 (by omega)
  have habsent := hun 0 ?_ (cloneKey 1000, last) (List.mem_of_getElem? (i := 0) (by
    rw [List.getElem?_drop]
    exact hlast))
  · rw [present_clones.mpr ⟨le_rfl, by omega⟩] at habsent
    exact Bool.false_ne_true habsent.symm
  · intro e he
    obtain ⟨i, hi⟩ := List.mem_iff_getElem?.mp he
    have hlt := (List.getElem?_eq_some_iff.mp hi).1
    rw [List.length_take] at hlt
    rw [List.getElem?_take_of_lt (by omega), List.drop_zero] at hi
    obtain ⟨name, hname⟩ := hget i (by omega)
    rw [hi, Option.some.injEq] at hname
    rw [hname, Bool.eq_false_iff, ne_eq, present_clones]
    omega

/-- The list is built while there are 1001 torrents; the first 1000 are removed, and within 15 seconds
    the kernel reads the directory entry by entry: it never sees the torrent that is left. -/
theorem gap_ends_walk : ∃ keys, buildSortedKeys (clones 0 1001) = some keys ∧
    ∃ seen, walk (readdirReplies (fun _ => cachedFs (clones 1000 1) keys) fun _ => 1)
        DirectoryEntry.offset (fun _ => 0) (keys.length + 3) 0 0 = some seen ∧
      seen.map shown ≠ listing (clones 1000 1) keys := by
  obtain ⟨keys, hbuild, hkeys⟩ := clones_keys (n := 1001) (by norm_num)
  obtain ⟨seen, hwalk, hiff⟩ := (readdirReplies_pages (cachedFs_fixed (clones 1000 1) keys)).walk_iff
    (fun _ => 0) (Nat.lt_succ_self (keys.length + 2))
  exact ⟨keys, hbuild, seen, hwalk, fun hseen => clones_broken hkeys (hiff.mp hseen)⟩

end RdRs.Fuse

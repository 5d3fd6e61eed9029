/-
  `torrent/refresh/diff.rs` beside the list it reads: what Real-Debrid says about a key, the difference
  between that and the map, and what a pass leaves of it.

  The list says two things about a key: its REPRESENTATIVE, the first of its entries of highest
  progress (`representative`), and its ids.  `fresh_map` is the running version of both
  (`freshMap_spec`).

  * `diff_exact_then_fixed` — the difference is exact, and after a pass only torrents under repair are
    left in it;
  * `refresh_converges_iff` — a pass takes over what the list says of every key exactly when the
    records it leaves alone had it already: the comparison looks at status, progress and ids, and a
    record loaded from the database has made up the rest.
-/
import RdRs.Torrent.Mirror

set_option linter.unusedVariables false

namespace RdRs.Torrent

open RdRs.Rd RdRs.Repair RdRs.Programs

/-! ## What the list says about a key -/

/-- The list's entries for a key, in order. -/
def entriesOf (fresh : List Torrent) (k : String) : List Torrent := fresh.filter fun t => keyOf t = k

/-- The first entry of highest progress. -/
def representative (fresh : List Torrent) (k : String) : Option Torrent :=
  (entriesOf fresh k).argmax Torrent.progress

/-- The ids the list has for a key. -/
def IdOf (fresh : List Torrent) (k id : String) : Prop := ∃ t ∈ entriesOf fresh k, t.id = id

/-- Sorted, each id once, and the ids the list has for the key. -/
def ListedIds (fresh : List Torrent) (k : String) (ids : List String) : Prop :=
  ids.Pairwise (· < ·) ∧ ∀ id, id ∈ ids ↔ IdOf fresh k id

/-- An entry of `fresh_map` that says what the list says. -/
structure Fresh.Says (f : Fresh) (fresh : List Torrent) (k : String) : Prop where
  torrent : representative fresh k = some f.torrent
  nodup : f.ids.Nodup
  ids : ∀ id, id ∈ f.ids ↔ IdOf fresh k id

theorem entriesOf_concat (fresh : List Torrent) (t : Torrent) (k : String) :
    entriesOf (fresh ++ [t]) k = entriesOf fresh k ++ if keyOf t = k then [t] else [] := by
  rw [entriesOf, List.filter_append, List.filter_singleton]
  by_cases h : keyOf t = k
  · simp [h, entriesOf]
  · simp [h, entriesOf]

/-- An entry of another key changes nothing. -/
theorem Fresh.Says.other {f : Fresh} {fresh : List Torrent} {k : String} {t : Torrent}
    (h : f.Says fresh k) (hk : keyOf t ≠ k) : f.Says (fresh ++ [t]) k := by
  have hsame : entriesOf (fresh ++ [t]) k = entriesOf fresh k := by
    rw [entriesOf_concat, if_neg hk, List.append_nil]
  refine ⟨?_, h.nodup, fun id => ?_⟩
  · rw [representative, hsame]
    exact h.torrent
  · rw [IdOf, hsame]
    exact h.ids id

/-- The first entry of a key. -/
theorem says_first {fresh : List Torrent} {t : Torrent} (h : entriesOf fresh (keyOf t) = []) :
    Fresh.Says ⟨t, [t.id]⟩ (fresh ++ [t]) (keyOf t) := by
  have hone : entriesOf (fresh ++ [t]) (keyOf t) = [t] := by
    rw [entriesOf_concat, h, if_pos rfl, List.nil_append]
  refine ⟨?_, List.nodup_singleton _, fun id => ?_⟩
  · rw [representative, hone]
    rfl
  · rw [IdOf, hone]
    simp [eq_comm]

/-- A further entry: the representative gives way to higher progress only, and the id is noted. -/
theorem Fresh.Says.more {f : Fresh} {fresh : List Torrent} {t : Torrent}
    (h : f.Says fresh (keyOf t)) :
    Fresh.Says ⟨if t.progress > f.torrent.progress then t else f.torrent,
      if t.id ∈ f.ids then f.ids else f.ids ++ [t.id]⟩ (fresh ++ [t]) (keyOf t) := by
  have hone : entriesOf (fresh ++ [t]) (keyOf t) = entriesOf fresh (keyOf t) ++ [t] := by
    rw [entriesOf_concat, if_pos rfl]
  have hids : ∀ id, IdOf (fresh ++ [t]) (keyOf t) id ↔ id ∈ f.ids ∨ id = t.id := by
    intro id
    rw [IdOf, hone, h.ids, IdOf]
    simp only [List.mem_append, List.mem_singleton, or_and_right, exists_or, exists_eq_left,
      eq_comm (a := id)]
  refine ⟨?_, ?_, fun id => ?_⟩
  · have htop : (entriesOf fresh (keyOf t)).argmax Torrent.progress = some f.torrent := h.torrent
    rw [representative, hone, List.argmax_concat, htop]
    exact (apply_ite some _ _ _).symm
  · show (if t.id ∈ f.ids then f.ids else f.ids ++ [t.id]).Nodup
    split
    · exact h.nodup
    · rename_i hnew
      exact h.nodup.append (List.nodup_singleton _) (by simpa using hnew)
  · rw [hids]
    show id ∈ (if t.id ∈ f.ids then f.ids else f.ids ++ [t.id]) ↔ _
    split
    · rename_i hold
      exact ⟨Or.inl, fun h => h.elim (fun h => h) fun h => h ▸ hold⟩
    · rw [List.mem_append, List.mem_singleton]

theorem addFresh_lookup_ne {fm : AList (fun _ : String => Fresh)} {t : Torrent} {k : String}
    (hk : k ≠ keyOf t) : (addFresh fm t).lookup k = fm.lookup k := by
  rw [addFresh]
  split
  · exact AList.lookup_insert_ne hk
  · exact AList.lookup_insert_ne hk

/-- **`fresh_map` says what the list says**, of every key.  Induction on the list from its end, as
    the fold goes. -/
theorem freshMap_spec (fresh : List Torrent) (k : String) :
    match (freshMap fresh).lookup k with
    | none => entriesOf fresh k = []
    | some f => f.Says fresh k := by
  induction fresh using List.reverseRecOn with
  | nil => rfl
  | append_singleton fresh t ih =>
    have hfold : freshMap (fresh ++ [t]) = addFresh (freshMap fresh) t := by
      rw [freshMap, List.foldl_append]
      rfl
    rw [hfold]
    by_cases hk : keyOf t = k
    · subst hk
      rw [addFresh]
      cases hold : (freshMap fresh).lookup (keyOf t) with
      | none =>
        rw [hold] at ih
        rw [AList.lookup_insert]
        exact says_first ih
      | some f =>
        rw [hold] at ih
        rw [AList.lookup_insert]
        exact ih.more
    · have hne : k ≠ keyOf t := fun h => hk h.symm
      rw [addFresh_lookup_ne hne]
      cases hold : (freshMap fresh).lookup k with
      | none =>
        rw [hold] at ih
        show entriesOf (fresh ++ [t]) k = []
        rw [entriesOf_concat, if_neg hk, List.append_nil]
        exact ih
      | some f =>
        rw [hold] at ih
        exact ih.other hk

theorem says_of_lookup {fresh : List Torrent} {k : String} {f : Fresh}
    (h : (freshMap fresh).lookup k = some f) : f.Says fresh k := by
  have hspec := freshMap_spec fresh k
  rw [h] at hspec
  exact hspec

/-- A key has a representative exactly if it is listed, and `fresh_map` has it. -/
theorem lookup_of_representative {fresh : List Torrent} {k : String} {t : Torrent}
    (h : representative fresh k = some t) :
    ∃ f, (freshMap fresh).lookup k = some f ∧ f.torrent = t := by
  have hspec := freshMap_spec fresh k
  cases hf : (freshMap fresh).lookup k with
  | none =>
    rw [hf] at hspec
    rw [representative, hspec] at h
    exact absurd h (by simp)
  | some f =>
    rw [hf] at hspec
    exact ⟨f, rfl, Option.some.inj (hspec.torrent.symm.trans h)⟩

/-- The sorted ids of an entry. -/
theorem Fresh.Says.listedIds {f : Fresh} {fresh : List Torrent} {k : String} (h : f.Says fresh k) :
    ListedIds fresh k (sortIds f.ids) := by
  have hperm : (sortIds f.ids).Perm f.ids := List.perm_insertionSort (· ≤ ·) f.ids
  refine ⟨?_, fun id => hperm.mem_iff.trans (h.ids id)⟩
  have hle : (sortIds f.ids).Pairwise (· ≤ ·) := List.pairwise_insertionSort (· ≤ ·) f.ids
  exact hle.imp₂ (fun a b hab hne => lt_of_le_of_ne hab hne) (hperm.nodup_iff.mpr h.nodup)

/-! ## The difference -/

/-- The ids of two lists without repeats differ as the code tests it. -/
theorem ids_differ_iff {xs ys : List String} (hxs : xs.Nodup) (hys : ys.Nodup) :
    (xs.length != ys.length || xs.any fun id => !ys.contains id) = true ↔
      ¬∀ id, id ∈ xs ↔ id ∈ ys := by
  rw [Bool.or_eq_true, bne_iff_ne, ← not_iff_not, not_or, not_not, not_not, List.any_eq_true]
  constructor
  · rintro ⟨hlen, hsub⟩
    have hin : xs ⊆ ys := by
      intro id hid
      by_contra hnot
      exact hsub ⟨id, hid, by simpa using hnot⟩
    have hperm : xs.Perm ys := (hxs.subperm hin).perm_of_length_le (Nat.le_of_eq hlen.symm)
    exact fun id => hperm.mem_iff
  · intro h
    have hperm : xs.Perm ys := (List.perm_ext_iff_of_nodup hxs hys).mpr h
    refine ⟨hperm.length_eq, ?_⟩
    rintro ⟨id, hid, hnot⟩
    simp [(h id).mp hid] at hnot

/-- The test of `diff`, for a record without repeated ids. -/
theorem isChanged_iff {mt : ManagedTorrent} {f : Fresh} {fresh : List Torrent} {k : String}
    (hf : f.Says fresh k) (hnodup : mt.rdIds.Nodup) : isChanged mt f = true ↔
      f.torrent.status ≠ mt.torrent.status ∨ f.torrent.progress ≠ mt.torrent.progress ∨
        ¬∀ id, id ∈ mt.rdIds ↔ IdOf fresh k id := by
  have hids := ids_differ_iff hnodup hf.nodup
  simp only [hf.ids] at hids
  rw [isChanged, Bool.or_eq_true, Bool.or_eq_true, hids, bne_iff_ne, bne_iff_ne, or_assoc]

/-- A record that `diff` leaves alone has the list's status, progress and ids. -/
theorem same_of_unchanged {mt : ManagedTorrent} {f : Fresh} {fresh : List Torrent} {k : String}
    (hf : f.Says fresh k) (hnodup : mt.rdIds.Nodup) (hsame : isChanged mt f = false) :
    mt.torrent.status = f.torrent.status ∧ mt.torrent.progress = f.torrent.progress ∧
      ∀ id, id ∈ mt.rdIds ↔ IdOf fresh k id := by
  have hnot : ¬isChanged mt f = true := by
    rw [hsame]
    exact Bool.false_ne_true
  rw [isChanged_iff hf hnodup, not_or, not_or, not_not, not_not, not_not] at hnot
  exact ⟨hnot.1.symm, hnot.2.1.symm, hnot.2.2⟩

/-- **The difference is exact**: which keys are new, gone or changed, what is said of them, no key
    twice, and how many entries of the list are further ones of their key. -/
structure Exact (current : Torrents) (fresh : List Torrent) (d : DiffResult) : Prop where
  added : ∀ k, k ∈ d.added.map (fun a => keyOf a.1) ↔ (∃ t ∈ fresh, keyOf t = k) ∧ k ∉ current
  removed : ∀ k, k ∈ d.removedKeys ↔ k ∈ current ∧ ¬∃ t ∈ fresh, keyOf t = k
  changed : ∀ k, k ∈ d.changed.map (fun a => keyOf a.1) ↔
    ∃ mt t, current.lookup k = some mt ∧ representative fresh k = some t ∧
      (t.status ≠ mt.torrent.status ∨ t.progress ≠ mt.torrent.progress ∨
        ¬∀ id, id ∈ mt.rdIds ↔ IdOf fresh k id)
  groups : ∀ a ∈ d.added ++ d.changed,
    representative fresh (keyOf a.1) = some a.1 ∧ ListedIds fresh (keyOf a.1) a.2
  once : (d.added.map (fun a => keyOf a.1) ++ d.removedKeys ++
    d.changed.map (fun a => keyOf a.1)).Nodup
  duplicates : d.duplicates + (fresh.map keyOf).dedup.length = fresh.length

theorem lookup_isSome_iff_listed {fresh : List Torrent} {k : String} :
    (∃ f, (freshMap fresh).lookup k = some f) ↔ ∃ t ∈ fresh, keyOf t = k := by
  rw [← mem_freshMap, ← AList.lookup_isSome, Option.isSome_iff_exists]

/-- As many entries in `fresh_map` as different keys in the list. -/
theorem length_freshMap (fresh : List Torrent) :
    (freshMap fresh).entries.length = (fresh.map keyOf).dedup.length := by
  have hperm : (freshMap fresh).keys.Perm (fresh.map keyOf).dedup := by
    refine (List.perm_ext_iff_of_nodup (freshMap fresh).keys_nodup (List.nodup_dedup _)).mpr ?_
    intro k
    rw [← AList.mem_keys, mem_freshMap, List.mem_dedup, List.mem_map]
  rw [← hperm.length_eq]
  exact (List.length_map _).symm

section Diff

variable (current : Torrents) (fresh : List Torrent)

/-- What `diff` says of a key it has found new or changed is what the list says. -/
theorem diff_groups (a : Torrent × List String)
    (ha : a ∈ (diff current fresh).added ++ (diff current fresh).changed) :
    representative fresh (keyOf a.1) = some a.1 ∧ ListedIds fresh (keyOf a.1) a.2 := by
  obtain ⟨k, f, hf, rfl⟩ : ∃ k f, (freshMap fresh).lookup k = some f ∧
      a = (f.torrent, sortIds f.ids) := by
    rcases List.mem_append.mp ha with ha | ha
    · obtain ⟨k, f, hf, -, heq⟩ := (mem_added current fresh a).mp ha
      exact ⟨k, f, hf, heq⟩
    · obtain ⟨k, f, mt, hf, -, -, heq⟩ := (mem_changed current fresh a).mp ha
      exact ⟨k, f, hf, heq⟩
  obtain rfl : keyOf f.torrent = k := (freshMap_fits fresh k f hf).1
  exact ⟨(says_of_lookup hf).torrent, (says_of_lookup hf).listedIds⟩

/-- A key is new, gone or changed, and only one of these. -/
theorem diff_once : ((diff current fresh).added.map (fun a => keyOf a.1) ++
    (diff current fresh).removedKeys ++
    (diff current fresh).changed.map (fun a => keyOf a.1)).Nodup := by
  have hremoved := nodup_removedKeys current fresh
  rw [List.map_id] at hremoved
  refine List.Nodup.append (List.Nodup.append (nodup_added current fresh) hremoved ?_)
    (nodup_changed current fresh) ?_
  · intro k ha hr
    obtain ⟨⟨f, hf⟩, -⟩ := (mem_added_keys current fresh).mp ha
    rw [((mem_removedKeys current fresh k).mp hr).1] at hf
    cases hf
  · intro k har hc
    obtain ⟨f, mt, hf, hmt, -⟩ := (mem_changed_keys current fresh).mp hc
    rcases List.mem_append.mp har with ha | hr
    · rw [((mem_added_keys current fresh).mp ha).2] at hmt
      cases hmt
    · rw [((mem_removedKeys current fresh k).mp hr).1] at hf
      cases hf

theorem diff_exact (hnodup : ∀ k mt, current.lookup k = some mt → mt.rdIds.Nodup) :
    Exact current fresh (diff current fresh) where
  added := fun k => by
    rw [mem_added_keys, lookup_isSome_iff_listed, AList.lookup_eq_none]
  removed := fun k => by
    rw [mem_removedKeys, ← lookup_isSome_iff_listed, ← AList.lookup_isSome,
      Option.isSome_iff_exists, and_comm, ← Option.not_isSome_iff_eq_none, Option.isSome_iff_exists]
  changed := fun k => by
    rw [mem_changed_keys]
    constructor
    · rintro ⟨f, mt, hf, hmt, hch⟩
      have hsays := says_of_lookup hf
      exact ⟨mt, f.torrent, hmt, hsays.torrent, (isChanged_iff hsays (hnodup k mt hmt)).mp hch⟩
    · rintro ⟨mt, t, hmt, ht, hne⟩
      obtain ⟨f, hf, rfl⟩ := lookup_of_representative ht
      exact ⟨f, mt, hf, hmt, (isChanged_iff (says_of_lookup hf) (hnodup k mt hmt)).mpr hne⟩
  groups := diff_groups current fresh
  once := diff_once current fresh
  duplicates := by
    have hle : (fresh.map keyOf).dedup.length ≤ (fresh.map keyOf).length :=
      (List.dedup_sublist _).length_le
    rw [List.length_map] at hle
    show fresh.length - (freshMap fresh).entries.length + _ = _
    rw [length_freshMap]
    omega

end Diff

/-- **A pass over the same list would do nothing**, but for torrents under repair that the list
    lacks. -/
def Fixed (torrents : Torrents) (fresh : List Torrent) : Prop :=
  (diff torrents fresh).added = [] ∧ (diff torrents fresh).changed = [] ∧
    ∀ k ∈ (diff torrents fresh).removedKeys,
      ∃ mt, torrents.lookup k = some mt ∧ mt.state = .underRepair

theorem fixed_of_refreshed {old new : Torrents} {fresh : List Torrent}
    (h : ∀ k, new.lookup k = refreshed ((freshMap fresh).lookup k) (old.lookup k)) :
    Fixed new fresh := by
  obtain ⟨hadded, hchanged, hkept⟩ := diff_of_refreshed h
  refine ⟨hadded, hchanged, fun k hk => ?_⟩
  obtain ⟨mt, hmt⟩ := Option.isSome_iff_exists.mp (hkept k hk)
  obtain ⟨hlook, hskip⟩ := Option.filter_eq_some_iff.mp hmt
  exact ⟨mt, hlook, skipLocalRemoveForState_iff.mp hskip⟩

/-- **The difference is exact and a pass is done with it**: for records without repeated ids `diff`
    says what is new, gone and changed, and once its result is merged (by the loops of `run_once`, and
    by a whole pass over a list) only torrents under repair are left. -/
theorem diff_exact_then_fixed (m : Manager) (fresh : List Torrent)
    (hnodup : ∀ k mt, m.torrents.lookup k = some mt → mt.rdIds.Nodup) :
    Exact m.torrents fresh (diff m.torrents fresh) ∧
      (∀ env, Fixed (applied m fresh env).2.torrents fresh) ∧
      ∀ cfg env freshAll, (env 0).list = some freshAll → usable freshAll = fresh →
        Fixed ((runOnce cfg).eval performAlone m env).2.1.torrents fresh := by
  refine ⟨diff_exact m.torrents fresh hnodup, fun env => ?_, fun cfg env freshAll hlist hfresh => ?_⟩
  · exact fixed_of_refreshed (applied_lookup m fresh env)
  · obtain ⟨c, ok, hlook, -⟩ := @runOnce_spec cfg m env freshAll hlist
    rw [hfresh] at hlook
    exact fixed_of_refreshed hlook

/-- The film is listed twice, the second entry further on. -/
def filmTwice : List Torrent :=
  [{ soundFilm.torrent with id := "RD3", progress := 40 },
    { soundFilm.torrent with id := "RD2", progress := 60 }]

theorem diff_exact_then_fixed_filmTwice :
    (diff filmStored.torrents filmTwice).changed =
        [({ soundFilm.torrent with id := "RD2", progress := 60 }, ["RD2", "RD3"])] ∧
      Exact filmStored.torrents filmTwice (diff filmStored.torrents filmTwice) := by
  refine ⟨by decide, (diff_exact_then_fixed filmStored filmTwice fun k mt hmt => ?_).1⟩
  have hk : k ∈ filmStored.torrents := by
    rw [← AList.lookup_isSome, hmt]
    rfl
  obtain rfl : k = "HASH/Film" := by
    simpa [filmStored, atRest, AList.mem_keys] using hk
  obtain rfl : soundFilm = mt := Option.some.inj hmt
  exact List.nodup_singleton _

/-! ## The records after a pass -/

/-- The record has what the list says of its key. -/
structure Shows (mt : ManagedTorrent) (fresh : List Torrent) (k : String) : Prop where
  torrent : ∀ t, representative fresh k = some t → mt.torrent.id = t.id ∧
    mt.torrent.status = t.status ∧ mt.torrent.progress = t.progress ∧
    mt.torrent.links = t.links ∧ mt.torrent.added = t.added
  ids : ListedIds fresh k mt.rdIds

/-- **The map has taken over the list**: each listed key has a record that shows what the list
    says. -/
def ShowsList (torrents : Torrents) (fresh : List Torrent) : Prop :=
  ∀ k, (∃ t ∈ fresh, keyOf t = k) → ∃ mt, torrents.lookup k = some mt ∧ Shows mt fresh k

/-- The records that `diff` finds unchanged have the list's id, links and time, and sorted ids. -/
def Unfabricated (torrents : Torrents) (fresh : List Torrent) : Prop :=
  ∀ k mt f, torrents.lookup k = some mt → (freshMap fresh).lookup k = some f →
    isChanged mt f = false → mt.torrent.id = f.torrent.id ∧ mt.torrent.links = f.torrent.links ∧
      mt.torrent.added = f.torrent.added ∧ mt.rdIds.Pairwise (· < ·)

/-- What is taken over shows what the list says. -/
theorem shows_of_taken {mt : ManagedTorrent} {f : Fresh} {fresh : List Torrent} {k : String}
    (hf : f.Says fresh k) (htorrent : mt.torrent = f.torrent) (hids : mt.rdIds = sortIds f.ids) :
    Shows mt fresh k := by
  refine ⟨fun t ht => ?_, hids ▸ hf.listedIds⟩
  obtain rfl : f.torrent = t := Option.some.inj (hf.torrent.symm.trans ht)
  rw [htorrent]
  exact ⟨rfl, rfl, rfl, rfl, rfl⟩

/-- A record that is left alone shows what the list says exactly if its other fields do. -/
theorem shows_unchanged_iff {mt : ManagedTorrent} {f : Fresh} {fresh : List Torrent} {k : String}
    (hf : f.Says fresh k) (hsame : isChanged mt f = false) : Shows mt fresh k ↔
      mt.torrent.id = f.torrent.id ∧ mt.torrent.links = f.torrent.links ∧
        mt.torrent.added = f.torrent.added ∧ mt.rdIds.Pairwise (· < ·) := by
  constructor
  · intro h
    obtain ⟨hid, -, -, hlinks, hadded⟩ := h.torrent _ hf.torrent
    exact ⟨hid, hlinks, hadded, h.ids.1⟩
  · rintro ⟨hid, hlinks, hadded, hsorted⟩
    have hnodup : mt.rdIds.Nodup := hsorted.imp fun hab => hab.ne
    obtain ⟨hstatus, hprogress, hids⟩ := same_of_unchanged hf hnodup hsame
    refine ⟨fun t ht => ?_, hsorted, hids⟩
    obtain rfl : f.torrent = t := Option.some.inj (hf.torrent.symm.trans ht)
    exact ⟨hid, hstatus, hprogress, hlinks, hadded⟩

/-- **A refresh converges to the list** exactly if the records it leaves alone were there already. -/
theorem refresh_converges_iff (cfg : RefreshConfig) (m : Manager) (env : Nat → Env)
    (fresh : List Torrent) (hlist : (env 0).list = some fresh)
    (hclean : ∀ t ∈ fresh, isErrored t = false) :
    ShowsList ((runOnce cfg).eval performAlone m env).2.1.torrents fresh ↔
      Unfabricated m.torrents fresh := by
  have husable : usable fresh = fresh := by
    rw [usable, List.filter_eq_self]
    intro t ht
    rw [hclean t ht]
    rfl
  obtain ⟨c, ok, hlook, -⟩ := @runOnce_spec cfg m env fresh hlist
  rw [husable] at hlook
  constructor
  · intro h k mt f hmt hf hsame
    have hlisted := lookup_isSome_iff_listed.mp ⟨f, hf⟩
    obtain ⟨mt', hmt', hshows⟩ := h k hlisted
    -- the pass has left the record alone
    rw [hlook, hf, hmt, refreshed, hsame, if_neg Bool.false_ne_true] at hmt'
    obtain rfl := Option.some.inj hmt'
    exact (shows_unchanged_iff (says_of_lookup hf) hsame).mp hshows
  · intro h k hlisted
    obtain ⟨f, hf⟩ := lookup_isSome_iff_listed.mpr hlisted
    rw [hlook, hf]
    cases hmt : m.torrents.lookup k with
    | none => exact ⟨_, rfl, shows_of_taken (says_of_lookup hf) rfl rfl⟩
    | some mt =>
      rw [refreshed]
      cases hch : isChanged mt f with
      | true => exact ⟨_, rfl, shows_of_taken (says_of_lookup hf) rfl rfl⟩
      | false =>
        exact ⟨mt, rfl, (shows_unchanged_iff (says_of_lookup hf) hch).mpr (h k mt f hmt hf hch)⟩

/-- The film's row, loaded at the second 1000. -/
def filmLoaded : Manager :=
  atRest (loadFromDb (AList.singleton "HASH/Film" (torrentToRow soundFilm)) 1000)
    (AList.singleton "HASH/Film" (torrentToRow soundFilm))

/-- The film is listed as it was before the restart, and keeps the time of the restart. -/
theorem loaded_film_keeps_restart_time :
    ((runOnce keepErrored).eval performAlone filmLoaded
        fun _ => answering [soundFilm.torrent] true).1 = true ∧
      ¬ShowsList ((runOnce keepErrored).eval performAlone filmLoaded
        fun _ => answering [soundFilm.torrent] true).2.1.torrents [soundFilm.torrent] := by
  refine ⟨by decide, fun h => ?_⟩
  obtain ⟨mt, hmt, hshows⟩ := h "HASH/Film" ⟨soundFilm.torrent, List.mem_singleton_self _, by decide⟩
  have hadded := (hshows.torrent soundFilm.torrent (by decide)).2.2.2.2
  have htime : (((runOnce keepErrored).eval performAlone filmLoaded
      fun _ => answering [soundFilm.torrent] true).2.1.torrents.lookup "HASH/Film").map
        (fun mt => mt.torrent.added) = some 1000 := by decide
  rw [hmt, Option.map_some, hadded] at htime
  exact absurd htime (by decide)

theorem refresh_converges_iff_filmTwice :
    ShowsList ((runOnce keepErrored).eval performAlone filmLoaded
        fun _ => answering filmTwice true).2.1.torrents filmTwice := by
  refine (refresh_converges_iff keepErrored filmLoaded (fun _ => answering filmTwice true) filmTwice
    rfl (by decide)).mpr fun k mt f hmt hf hsame => ?_
  have hk : k ∈ filmLoaded.rows :=
    mem_loadFromDb.mp (AList.lookup_isSome.mp (Option.isSome_of_eq_some hmt))
  obtain rfl : k = "HASH/Film" := by
    simpa [filmLoaded, atRest, AList.mem_keys] using hk
  obtain rfl : rowToTorrent "HASH/Film" (torrentToRow soundFilm) 1000 = mt := Option.some.inj hmt
  obtain rfl : (⟨{ soundFilm.torrent with id := "RD2", progress := 60 }, ["RD3", "RD2"]⟩ : Fresh) = f :=
    Option.some.inj hf
  exact absurd hsame (by decide)

end RdRs.Torrent

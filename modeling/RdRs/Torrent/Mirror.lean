/-
  The table `torrents` beside the map, after a refresh pass that runs alone.

  A pass writes a row for every key that is new or has changed and takes keys out of the map, but no
  row is ever deleted, and a key the pass leaves as it is gets no row.

  * `mirrors_iff` — after a pass that succeeds the table has the keys of the map exactly if it began
    in step with the list: every row's key is listed or under repair, and every key that is kept
    unwritten has its row.
  * `failed_pass_not_recovered` — when the batch fails, the map has already taken over the list, so
    the next pass over the same list finds nothing to write and nothing to send.
-/
import RdRs.Torrent.Pass
import RdRs.Repair.Bandwidth

set_option linter.unusedVariables false

namespace RdRs.Torrent

open RdRs.Rd RdRs.Repair RdRs.Programs

/-! ## The keys of the table -/

/-- Map and table have the same keys, and so has the map a restart loads. -/
def Mirrors (m : Manager) : Prop :=
  (∀ k, k ∈ m.rows ↔ k ∈ m.torrents) ∧ ∀ now k, k ∈ loadFromDb m.rows now ↔ k ∈ m.torrents

/-- Before a pass over `fresh`: each row belongs to a key that is listed or under repair, and a key
    that is kept as it is has its row. -/
structure InStep (m : Manager) (fresh : List Torrent) : Prop where
  listed : ∀ k ∈ m.rows, k ∈ freshMap fresh ∨
    ∃ mt, m.torrents.lookup k = some mt ∧ mt.state = .underRepair
  stored : ∀ k mt, m.torrents.lookup k = some mt →
    (∀ f, (freshMap fresh).lookup k = some f → isChanged mt f = false) →
    (k ∉ freshMap fresh → mt.state = .underRepair) → k ∈ m.rows

theorem skipLocalRemoveForState_iff {state : TorrentState} :
    skipLocalRemoveForState state = true ↔ state = .underRepair := by
  rw [skipLocalRemoveForState, beq_iff_eq]

/-- A key is in the map after a pass when the list has it or it is under repair. -/
theorem refreshed_isSome {f : Option Fresh} {old : Option ManagedTorrent} :
    (refreshed f old).isSome = true ↔
      f.isSome = true ∨ ∃ mt, old = some mt ∧ mt.state = .underRepair := by
  cases f with
  | none =>
    cases old with
    | none => simp [refreshed]
    | some t =>
      rw [refreshed]
      by_cases hur : t.state = .underRepair
      · rw [if_pos (skipLocalRemoveForState_iff.mpr hur)]
        simp [hur]
      · rw [if_neg (mt skipLocalRemoveForState_iff.mp hur)]
        simp [hur]
  | some f =>
    cases old with
    | none => simp [refreshed]
    | some t =>
      rw [refreshed]
      split
      · simp
      · simp

/-- A key the pass writes is in the map after it. -/
theorem refreshed_of_isWritten {f : Option Fresh} {old : Option ManagedTorrent}
    (h : isWritten f old = true) : (refreshed f old).isSome = true := by
  cases f with
  | none => cases h
  | some f => exact refreshed_isSome.mpr (Or.inl rfl)

/-- A key the pass keeps has its record, and is listed as it is or under repair, or is written. -/
theorem isWritten_or_kept {f : Option Fresh} {old : Option ManagedTorrent}
    (h : (refreshed f old).isSome = true) : isWritten f old = true ∨
      ∃ mt, old = some mt ∧ (∀ g, f = some g → isChanged mt g = false) ∧
        (f = none → mt.state = .underRepair) := by
  cases f with
  | none =>
    rcases refreshed_isSome.mp h with hf | ⟨mt, rfl, hur⟩
    · cases hf
    · refine Or.inr ⟨mt, rfl, fun g hg => ?_, fun _ => hur⟩
      cases hg
  | some f =>
    cases old with
    | none => exact Or.inl rfl
    | some mt =>
      cases hch : isChanged mt f with
      | true => exact Or.inl hch
      | false =>
        refine Or.inr ⟨mt, rfl, fun g hg => ?_, fun hf => ?_⟩
        · obtain rfl := Option.some.inj hg
          exact hch
        · cases hf

/-- The table after a pass that succeeds has the old keys and the written ones. -/
theorem mem_rows_runOnce {cfg : RefreshConfig} {m : Manager} {env : Nat → Env}
    {freshAll : List Torrent} (hjobs : m.jobs = []) (hlist : (env 0).list = some freshAll)
    (hok : ((runOnce cfg).eval performAlone m env).1 = true) (k : String) :
    k ∈ ((runOnce cfg).eval performAlone m env).2.1.rows ↔ k ∈ m.rows ∨
      isWritten ((freshMap (usable freshAll)).lookup k) (m.torrents.lookup k) = true := by
  obtain ⟨c, ok, -, hbatch, -, hres, hrows, -⟩ := @runOnce_spec cfg m env freshAll hlist
  rw [hok] at hres
  rw [hrows, hjobs, ← hbatch]
  cases hempty : c.rows.isEmpty with
  | true =>
    rw [Bool.true_or, if_pos rfl, List.isEmpty_iff.mp hempty]
    simp
  | false =>
    rw [hempty, Bool.false_or] at hres
    rw [← hres, Bool.not_true, Bool.or_self, if_neg Bool.false_ne_true]
    exact mem_upsertRows

/-- **The table mirrors the map** after a pass that succeeds exactly when the pass began in step with
    the list. -/
theorem mirrors_iff (cfg : RefreshConfig) (m : Manager) (env : Nat → Env) (freshAll : List Torrent)
    (hjobs : m.jobs = []) (hlist : (env 0).list = some freshAll)
    (hok : ((runOnce cfg).eval performAlone m env).1 = true) :
    Mirrors ((runOnce cfg).eval performAlone m env).2.1 ↔ InStep m (usable freshAll) := by
  have hmem := mem_rows_runOnce hjobs hlist hok
  have hmap : ∀ k, k ∈ ((runOnce cfg).eval performAlone m env).2.1.torrents ↔
      (refreshed ((freshMap (usable freshAll)).lookup k) (m.torrents.lookup k)).isSome = true := by
    intro k
    obtain ⟨c, ok, hlook, -⟩ := @runOnce_spec cfg m env freshAll hlist
    rw [← AList.lookup_isSome, hlook]
  constructor
  · rintro ⟨hkeys, -⟩
    constructor
    · intro k hk
      have hin := (hmap k).mp ((hkeys k).mp ((hmem k).mpr (Or.inl hk)))
      rw [refreshed_isSome, AList.lookup_isSome] at hin
      exact hin
    · intro k mt hmt hsame hur
      have hin : k ∈ ((runOnce cfg).eval performAlone m env).2.1.rows := by
        refine (hkeys k).mpr ((hmap k).mpr (refreshed_isSome.mpr ?_))
        by_cases hk : k ∈ freshMap (usable freshAll)
        · exact Or.inl (AList.lookup_isSome.mpr hk)
        · exact Or.inr ⟨mt, hmt, hur hk⟩
      rcases (hmem k).mp hin with hrow | hw
      · exact hrow
      · -- the pass has not written the key
        cases hf : (freshMap (usable freshAll)).lookup k with
        | none =>
          rw [hf] at hw
          cases hw
        | some f =>
          rw [hf, hmt] at hw
          rw [isWritten, hsame f hf] at hw
          cases hw
  · rintro ⟨hlisted, hstored⟩
    have hkeys : ∀ k, k ∈ ((runOnce cfg).eval performAlone m env).2.1.rows ↔
        k ∈ ((runOnce cfg).eval performAlone m env).2.1.torrents := by
      intro k
      rw [hmem, hmap]
      constructor
      · rintro (hrow | hw)
        · rw [refreshed_isSome, AList.lookup_isSome]
          exact hlisted k hrow
        · exact refreshed_of_isWritten hw
      · intro hin
        rcases isWritten_or_kept hin with hw | ⟨mt, hmt, hsame, hur⟩
        · exact Or.inr hw
        · exact Or.inl (hstored k mt hmt hsame fun hk => hur (AList.lookup_eq_none.mpr hk))
    exact ⟨hkeys, fun now k => mem_loadFromDb.trans (hkeys k)⟩

/-- Real-Debrid answers with this list, the database with `ok`; nothing else is asked. -/
def answering (list : List Torrent) (ok : Bool) : Env where
  time := 0
  ok := ok
  list := some list
  info := none
  outside := outOfTraffic
  answers :=
    { delete := fun _ => .ok ()
      magnet := fun _ => ⟨.ok "N", .ok (), fun _ => .ok oneFilmInfo, .ok ()⟩
      dropDelete := fun _ => (.ok (), .ok ()) }
  timeout := none

/-- The film while nothing is wrong with it. -/
def soundFilm : ManagedTorrent := { oneFilm with state := .ok, underRepairStartedAt := none }

/-- A manager at rest with these torrents and rows. -/
def atRest (torrents : Torrents) (rows : Rows) : Manager :=
  ⟨torrents, rows, [], [], ∅, [], [], []⟩

/-- The film in the map and in the table. -/
def filmStored : Manager :=
  atRest (AList.singleton "HASH/Film" soundFilm)
    (AList.singleton "HASH/Film" (torrentToRow soundFilm))

/-- No deletes of errored torrents; downloads may stall for a day. -/
def keepErrored : RefreshConfig := ⟨false, 1440⟩

/-- The film is no longer listed: the pass takes it out of the map and its row stays. -/
theorem removed_film_keeps_row :
    ((runOnce keepErrored).eval performAlone filmStored fun _ => answering [] true).1 = true ∧
      ¬Mirrors ((runOnce keepErrored).eval performAlone filmStored fun _ => answering [] true).2.1 := by
  refine ⟨by decide, fun h => ?_⟩
  have hgone := (h.1 "HASH/Film").mp (by decide)
  exact absurd hgone (by decide)

/-- The film is listed once more under another id, and there is a new one. -/
def filmTwiceAndNext : List Torrent :=
  [soundFilm.torrent, { soundFilm.torrent with id := "RD2" },
    ⟨"RD3", "Next", "HASH2", 100, "downloaded", ["https://real-debrid.com/d/BBBB"], 0⟩]

/-- One key is changed and one is added; map and table have both. -/
theorem mirrors_iff_changedAndAdded :
    ((diff filmStored.torrents (usable filmTwiceAndNext)).changed.map fun a => keyOf a.1) =
        ["HASH/Film"] ∧
      ((diff filmStored.torrents (usable filmTwiceAndNext)).added.map fun a => keyOf a.1) =
        ["HASH2/Next"] ∧
      "HASH2/Next" ∈ ((runOnce keepErrored).eval performAlone filmStored
        fun _ => answering filmTwiceAndNext true).2.1.rows ∧
      Mirrors ((runOnce keepErrored).eval performAlone filmStored
        fun _ => answering filmTwiceAndNext true).2.1 ∧
      InStep filmStored (usable filmTwiceAndNext) := by
  have hstep : InStep filmStored (usable filmTwiceAndNext) := by
    constructor
    · intro k hk
      obtain rfl : k = "HASH/Film" := by
        simpa [filmStored, atRest, AList.mem_keys] using hk
      exact Or.inl (by decide)
    · intro k mt hmt _ _
      have hk : k ∈ filmStored.torrents := by
        rw [← AList.lookup_isSome, hmt]
        rfl
      simpa [filmStored, atRest, AList.mem_keys] using hk
  exact ⟨by decide, by decide, by decide, (mirrors_iff keepErrored filmStored
    (fun _ => answering filmTwiceAndNext true) filmTwiceAndNext rfl rfl (by decide)).mpr hstep, hstep⟩

/-! ## Two passes over one list -/

/-- What a pass takes over is what the list says: the same list has not changed it. -/
theorem isChanged_of_taken {mt : ManagedTorrent} {f : Fresh} (htorrent : mt.torrent = f.torrent)
    (hids : mt.rdIds = sortIds f.ids) : isChanged mt f = false := by
  have hperm : (sortIds f.ids).Perm f.ids := List.perm_insertionSort (· ≤ ·) f.ids
  have hany : (sortIds f.ids).any (fun id => !f.ids.contains id) = false := by
    rw [List.any_eq_false]
    intro id hid
    simp [hperm.mem_iff.mp hid]
  rw [isChanged, htorrent, hids, hperm.length_eq, hany]
  simp

theorem isWritten_refreshed (f : Option Fresh) (old : Option ManagedTorrent) :
    isWritten f (refreshed f old) = false := by
  cases f with
  | none => rfl
  | some f =>
    cases old with
    | none => exact isChanged_of_taken rfl rfl
    | some mt =>
      rw [refreshed]
      cases hch : isChanged mt f with
      | true => exact isChanged_of_taken rfl rfl
      | false => exact hch

/-- A key the list does not have is in the map after a pass only because it is under repair. -/
theorem keptIfRepaired_refreshed {old : Option ManagedTorrent} {mt : ManagedTorrent}
    (h : refreshed none old = some mt) : (keptIfRepaired (some mt)).isSome = true := by
  cases old with
  | none => cases h
  | some t =>
    rw [refreshed] at h
    split at h
    · rename_i hskip
      obtain rfl := Option.some.inj h
      rw [keptIfRepaired, Option.filter_some, if_pos hskip]
      rfl
    · cases h

/-- **What a pass leaves of the difference**: nothing is new or changed, and what the list lacks is
    still under repair. -/
theorem diff_of_refreshed {old new : Torrents} {fresh : List Torrent}
    (h : ∀ k, new.lookup k = refreshed ((freshMap fresh).lookup k) (old.lookup k)) :
    (diff new fresh).added = [] ∧ (diff new fresh).changed = [] ∧
      ∀ k ∈ (diff new fresh).removedKeys, (keptIfRepaired (new.lookup k)).isSome = true := by
  have hnone : ∀ k, isWritten ((freshMap fresh).lookup k) (new.lookup k) = false := by
    intro k
    rw [h]
    exact isWritten_refreshed _ _
  refine ⟨?_, ?_, fun k hk => ?_⟩
  · refine List.eq_nil_iff_forall_not_mem.mpr fun a ha => ?_
    obtain ⟨k, f, hf, hk, -⟩ := (mem_added _ _ a).mp ha
    have hw := hnone k
    rw [hf, hk] at hw
    cases hw
  · refine List.eq_nil_iff_forall_not_mem.mpr fun a ha => ?_
    obtain ⟨k, f, mt, hf, hk, hch, -⟩ := (mem_changed _ _ a).mp ha
    have hw := hnone k
    rw [hf, hk, isWritten, hch] at hw
    cases hw
  · obtain ⟨hf, mt, hmt⟩ := (mem_removedKeys _ _ k).mp hk
    have hk' := h k
    rw [hf, hmt] at hk'
    rw [hmt]
    exact keptIfRepaired_refreshed hk'.symm

/-- **A second pass over the same list** writes no row and sends no path. -/
theorem second_pass_silent {cfg cfg' : RefreshConfig} {m : Manager} {env env' : Nat → Env}
    {freshAll : List Torrent} (hlist : (env 0).list = some freshAll)
    (hlist' : (env' 0).list = some freshAll) :
    ((runOnce cfg').eval performAlone ((runOnce cfg).eval performAlone m env).2.1 env').2.1.rows =
        ((runOnce cfg).eval performAlone m env).2.1.rows ∧
      ((runOnce cfg').eval performAlone ((runOnce cfg).eval performAlone m env).2.1 env').2.1.hooks =
        ((runOnce cfg).eval performAlone m env).2.1.hooks := by
  obtain ⟨c1, ok1, hlook, -⟩ := @runOnce_spec cfg m env freshAll hlist
  generalize hm1 : ((runOnce cfg).eval performAlone m env).2.1 = m1 at hlook
  obtain ⟨c, ok, -, hbatch, hpaths, -, hrows, hhooks⟩ := @runOnce_spec cfg' m1 env' freshAll hlist'
  -- no key is written
  have hcrows : c.rows = [] := by
    refine List.eq_nil_iff_forall_not_mem.mpr fun row hrow => ?_
    have hw := (hbatch row.accessKey).mp ⟨row, hrow, rfl⟩
    rw [hlook, isWritten_refreshed] at hw
    cases hw
  obtain ⟨hadded, hchanged, hkept⟩ := diff_of_refreshed hlook
  have hremoved : (diff m1.torrents (usable freshAll)).removedKeys.flatMap (fun key =>
      if (keptIfRepaired (m1.torrents.lookup key)).isSome then [] else [pathOf key]) = [] :=
    List.flatMap_eq_nil_iff.mpr fun k hk => if_pos (hkept k hk)
  rw [hadded, hchanged, hremoved] at hpaths
  rw [hrows, hhooks, hcrows, hpaths]
  exact ⟨rfl, rfl⟩

/-- **After a failed pass over the list, a later pass makes good**: for each key the failed pass has
    added or changed there is a row with the ids and the state of the map, and its path has gone to
    the hook since. -/
def Recovers (m m1 m2 : Manager) (fresh : List Torrent) : Prop :=
  ∀ k, isWritten ((freshMap fresh).lookup k) (m.torrents.lookup k) = true →
    (∃ row mt, m2.rows.lookup k = some row ∧ m2.torrents.lookup k = some mt ∧
      row.rdIds = mt.rdIds ∧ row.state = mt.state) ∧
    ∃ paths ∈ m2.hooks.drop m1.hooks.length, pathOf k ∈ paths

/-- **A failed pass is lost.**  The pass fails with a list only if its batch fails, so it has written
    a key; the next pass over that list sends nothing. -/
theorem failed_pass_not_recovered (cfg cfg' : RefreshConfig) (m : Manager) (env env' : Nat → Env)
    (freshAll : List Torrent) (hlist : (env 0).list = some freshAll)
    (hfail : ((runOnce cfg).eval performAlone m env).1 = false)
    (hlist' : (env' 0).list = some freshAll) :
    ¬Recovers m ((runOnce cfg).eval performAlone m env).2.1
      ((runOnce cfg').eval performAlone ((runOnce cfg).eval performAlone m env).2.1 env').2.1
      (usable freshAll) := by
  intro hrec
  obtain ⟨c, ok, -, hbatch, -, hres, -⟩ := @runOnce_spec cfg m env freshAll hlist
  rw [hfail] at hres
  obtain ⟨hempty, -⟩ := Bool.or_eq_false_iff.mp hres.symm
  obtain ⟨row, hrow⟩ := List.exists_mem_of_ne_nil c.rows (List.isEmpty_eq_false_iff.mp hempty)
  obtain ⟨-, paths, hpaths, -⟩ := hrec row.accessKey ((hbatch row.accessKey).mp ⟨row, hrow, rfl⟩)
  rw [(second_pass_silent hlist hlist').2, List.drop_length] at hpaths
  exact List.not_mem_nil hpaths

/-- A new film is listed and the database fails, then works: the film never gets a row and the hook
    never hears of it. -/
theorem failed_add_is_lost :
    ((runOnce keepErrored).eval performAlone (atRest ∅ ∅)
        fun _ => answering [soundFilm.torrent] false).1 = false ∧
      ((runOnce keepErrored).eval performAlone ((runOnce keepErrored).eval performAlone (atRest ∅ ∅)
        fun _ => answering [soundFilm.torrent] false).2.1
        fun _ => answering [soundFilm.torrent] true).1 = true ∧
      ¬Recovers (atRest ∅ ∅) ((runOnce keepErrored).eval performAlone (atRest ∅ ∅)
          fun _ => answering [soundFilm.torrent] false).2.1
        ((runOnce keepErrored).eval performAlone ((runOnce keepErrored).eval performAlone
          (atRest ∅ ∅) fun _ => answering [soundFilm.torrent] false).2.1
          fun _ => answering [soundFilm.torrent] true).2.1 (usable [soundFilm.torrent]) := by
  refine ⟨by decide, by decide, fun h => ?_⟩
  obtain ⟨⟨row, mt, hrow, -⟩, -⟩ := h "HASH/Film" (by decide)
  have hmem : "HASH/Film" ∈ ((runOnce keepErrored).eval performAlone ((runOnce keepErrored).eval
      performAlone (atRest ∅ ∅) fun _ => answering [soundFilm.torrent] false).2.1
      fun _ => answering [soundFilm.torrent] true).2.1.rows := by
    rw [← AList.lookup_isSome, hrow]
    rfl
  exact absurd hmem (by decide)

theorem failed_pass_not_recovered_newFilm :
    ((runOnce keepErrored).eval performAlone (atRest ∅ ∅)
        fun _ => answering [soundFilm.torrent] false).1 = false ∧
      ¬Recovers (atRest ∅ ∅) ((runOnce keepErrored).eval performAlone (atRest ∅ ∅)
          fun _ => answering [soundFilm.torrent] false).2.1
        ((runOnce keepErrored).eval performAlone ((runOnce keepErrored).eval performAlone
          (atRest ∅ ∅) fun _ => answering [soundFilm.torrent] false).2.1
          fun _ => answering [soundFilm.torrent] true).2.1 (usable [soundFilm.torrent]) :=
  ⟨by decide, failed_pass_not_recovered keepErrored keepErrored (atRest ∅ ∅)
    (fun _ => answering [soundFilm.torrent] false) (fun _ => answering [soundFilm.torrent] true)
    [soundFilm.torrent] rfl (by decide) rfl⟩

end RdRs.Torrent

/-
  One refresh pass that runs alone: what `run_once` makes of the map, the table and the hook.

  The three loops of the pass (add, merge, remove) each change the map at the keys they walk over and
  nowhere else; `eval_loop` says so once, and their key sets are disjoint.  Together
  (`applied_lookup`) the new record of a key depends on its old record and on what the list has for
  it, and on nothing else: `refreshed`.  `runOnce_spec` is the summary of a whole pass.
-/
import RdRs.Torrent.Refresh

set_option linter.unusedVariables false

namespace RdRs.Torrent

open RdRs.Rd RdRs.Repair RdRs.Programs

/-! ## What the list has for a key -/

/-- An entry of `fresh_map` has its own key, and different ids. -/
def Fresh.Fits (f : Fresh) (key : String) : Prop := keyOf f.torrent = key ∧ f.ids.Nodup

theorem addFresh_fits {fm : AList (fun _ : String => Fresh)} {t : Torrent}
    (h : ∀ k f, fm.lookup k = some f → f.Fits k) :
    ∀ k f, (addFresh fm t).lookup k = some f → f.Fits k := by
  intro k f hf
  rw [addFresh] at hf
  cases hold : fm.lookup (keyOf t) with
  | none =>
    rw [hold] at hf
    by_cases hk : k = keyOf t
    · subst hk
      rw [AList.lookup_insert, Option.some.injEq] at hf
      subst hf
      exact ⟨rfl, List.nodup_singleton t.id⟩
    · rw [AList.lookup_insert_ne hk] at hf
      exact h k f hf
  | some g =>
    rw [hold] at hf
    by_cases hk : k = keyOf t
    · subst hk
      rw [AList.lookup_insert, Option.some.injEq] at hf
      subst hf
      obtain ⟨hkey, hids⟩ := h (keyOf t) g hold
      refine ⟨?_, ?_⟩
      · show keyOf (if t.progress > g.torrent.progress then t else g.torrent) = keyOf t
        split
        · rfl
        · exact hkey
      · show (if t.id ∈ g.ids then g.ids else g.ids ++ [t.id]).Nodup
        split
        · exact hids
        · rename_i hnew
          exact hids.append (List.nodup_singleton _) (by simpa using hnew)
    · rw [AList.lookup_insert_ne hk] at hf
      exact h k f hf

/-- Every entry of `fresh_map` is one of its key. -/
theorem freshMap_fits (fresh : List Torrent) :
    ∀ k f, (freshMap fresh).lookup k = some f → f.Fits k := by
  have hgen : ∀ (ts : List Torrent) (fm : AList (fun _ : String => Fresh)),
      (∀ k f, fm.lookup k = some f → f.Fits k) →
      ∀ k f, (ts.foldl addFresh fm).lookup k = some f → f.Fits k := by
    intro ts
    induction ts with
    | nil => intro fm h; exact h
    | cons t ts ih => intro fm h; exact ih _ (addFresh_fits h)
  exact hgen fresh ∅ fun k f hf => absurd hf (by simp)

/-- An entry adds its own key. -/
theorem mem_addFresh {fm : AList (fun _ : String => Fresh)} {t : Torrent} {k : String} :
    k ∈ addFresh fm t ↔ k = keyOf t ∨ k ∈ fm := by
  rw [addFresh]
  split
  · exact AList.mem_insert _
  · exact AList.mem_insert _

/-- The keys of `fresh_map` are the keys of the list. -/
theorem mem_freshMap {fresh : List Torrent} {k : String} :
    k ∈ freshMap fresh ↔ ∃ t ∈ fresh, keyOf t = k := by
  have hgen : ∀ (ts : List Torrent) (fm : AList (fun _ : String => Fresh)),
      (k ∈ ts.foldl addFresh fm ↔ k ∈ fm ∨ ∃ t ∈ ts, keyOf t = k) := by
    intro ts
    induction ts with
    | nil => intro fm; simp
    | cons t ts ih =>
      intro fm
      rw [List.foldl_cons, ih, mem_addFresh]
      simp only [List.mem_cons, exists_eq_or_imp, eq_comm (a := k)]
      tauto
  rw [freshMap, hgen]
  simp

/-- The record of a key after a pass, from what the list has for it and its old record. -/
def refreshed : Option Fresh → Option ManagedTorrent → Option ManagedTorrent
  | some f, none => some (newTorrent f.torrent (sortIds f.ids))
  | some f, some mt =>
    if isChanged mt f then some (mergeTorrent mt f.torrent (sortIds f.ids)) else some mt
  | none, some mt => if skipLocalRemoveForState mt.state then some mt else none
  | none, none => none

/-- The pass writes the key's row: it is new or has changed. -/
def isWritten : Option Fresh → Option ManagedTorrent → Bool
  | some _, none => true
  | some f, some mt => isChanged mt f
  | none, _ => false

/-! ## The difference by keys -/

section Diff

variable (current : Torrents) (fresh : List Torrent)

/-- What is added: the listed keys that are not in the map. -/
theorem mem_added (a : Torrent × List String) : a ∈ (diff current fresh).added ↔
    ∃ k f, (freshMap fresh).lookup k = some f ∧ current.lookup k = none ∧
      a = (f.torrent, sortIds f.ids) := by
  simp only [diff, List.mem_filterMap]
  constructor
  · rintro ⟨⟨k, f⟩, he, ha⟩
    split at ha
    · cases ha
    · rename_i hk
      exact ⟨k, f, AList.mem_lookup_iff.mpr he, AList.lookup_eq_none.mpr hk,
        (Option.some.inj ha).symm⟩
  · rintro ⟨k, f, hf, hk, rfl⟩
    refine ⟨⟨k, f⟩, AList.mem_lookup_iff.mp hf, ?_⟩
    rw [if_neg (AList.lookup_eq_none.mp hk)]

/-- What is changed: the keys in both whose test says so. -/
theorem mem_changed (a : Torrent × List String) : a ∈ (diff current fresh).changed ↔
    ∃ k f mt, (freshMap fresh).lookup k = some f ∧ current.lookup k = some mt ∧
      isChanged mt f = true ∧ a = (f.torrent, sortIds f.ids) := by
  simp only [diff, List.mem_filterMap]
  constructor
  · rintro ⟨⟨k, f⟩, he, ha⟩
    split at ha
    · cases ha
    · rename_i mt hmt
      split at ha
      · rename_i hch
        exact ⟨k, f, mt, AList.mem_lookup_iff.mpr he, hmt, hch, (Option.some.inj ha).symm⟩
      · cases ha
  · rintro ⟨k, f, mt, hf, hmt, hch, rfl⟩
    refine ⟨⟨k, f⟩, AList.mem_lookup_iff.mp hf, ?_⟩
    simp only [hmt, hch, if_true]

/-- What is removed: the keys of the map that are not listed. -/
theorem mem_removedKeys (k : String) : k ∈ (diff current fresh).removedKeys ↔
    (freshMap fresh).lookup k = none ∧ ∃ mt, current.lookup k = some mt := by
  simp only [diff, List.mem_filter, ← AList.mem_keys, decide_eq_true_eq, AList.lookup_eq_none]
  rw [← AList.lookup_isSome, Option.isSome_iff_exists]
  exact and_comm

/-- The keys of `added` are those only the list has. -/
theorem mem_added_keys {k : String} : k ∈ (diff current fresh).added.map (fun a => keyOf a.1) ↔
    (∃ f, (freshMap fresh).lookup k = some f) ∧ current.lookup k = none := by
  rw [List.mem_map]
  constructor
  · rintro ⟨a, ha, rfl⟩
    obtain ⟨k, f, hf, hk, rfl⟩ := (mem_added current fresh a).mp ha
    obtain rfl : keyOf f.torrent = k := (freshMap_fits fresh k f hf).1
    exact ⟨⟨f, hf⟩, hk⟩
  · rintro ⟨⟨f, hf⟩, hk⟩
    exact ⟨_, (mem_added current fresh _).mpr ⟨k, f, hf, hk, rfl⟩, (freshMap_fits fresh k f hf).1⟩

/-- The keys of `changed` are those whose record differs from what the list has. -/
theorem mem_changed_keys {k : String} : k ∈ (diff current fresh).changed.map (fun a => keyOf a.1) ↔
    ∃ f mt, (freshMap fresh).lookup k = some f ∧ current.lookup k = some mt ∧
      isChanged mt f = true := by
  rw [List.mem_map]
  constructor
  · rintro ⟨a, ha, rfl⟩
    obtain ⟨k, f, mt, hf, hmt, hch, rfl⟩ := (mem_changed current fresh a).mp ha
    obtain rfl : keyOf f.torrent = k := (freshMap_fits fresh k f hf).1
    exact ⟨f, mt, hf, hmt, hch⟩
  · rintro ⟨f, mt, hf, hmt, hch⟩
    exact ⟨_, (mem_changed current fresh _).mpr ⟨k, f, mt, hf, hmt, hch, rfl⟩,
      (freshMap_fits fresh k f hf).1⟩

/-- A loop over entries of `fresh_map` walks over different keys. -/
theorem nodup_keys_filterMap {g : (Σ _ : String, Fresh) → Option (Torrent × List String)}
    (hg : ∀ e a, g e = some a → a.1 = e.2.torrent) :
    (((freshMap fresh).entries.filterMap g).map fun a => keyOf a.1).Nodup := by
  have hsub : ∀ l : List (Σ _ : String, Fresh), (∀ e ∈ l, keyOf e.2.torrent = e.1) →
      ((l.filterMap g).map fun a => keyOf a.1).Sublist (l.map Sigma.fst) := by
    intro l
    induction l with
    | nil => intro _; exact List.Sublist.slnil
    | cons e l ih =>
      intro hl
      have hrest := ih fun e' he' => hl e' (List.mem_cons_of_mem e he')
      cases hge : g e with
      | none =>
        rw [List.filterMap_cons_none hge]
        exact hrest.cons _
      | some a =>
        rw [List.filterMap_cons_some hge, List.map_cons, List.map_cons, hg e a hge,
          hl e List.mem_cons_self]
        exact hrest.cons_cons _
  refine (hsub _ fun e he => ?_).nodup (freshMap fresh).nodupKeys
  exact (freshMap_fits fresh e.1 e.2 (AList.mem_lookup_iff.mpr he)).1

/-- No key is added twice. -/
theorem nodup_added : ((diff current fresh).added.map fun a => keyOf a.1).Nodup := by
  refine nodup_keys_filterMap fresh fun e a ha => ?_
  split at ha
  · cases ha
  · rw [← Option.some.inj ha]

/-- No key is merged twice. -/
theorem nodup_changed : ((diff current fresh).changed.map fun a => keyOf a.1).Nodup := by
  refine nodup_keys_filterMap fresh fun e a ha => ?_
  split at ha
  · cases ha
  · split at ha
    · rw [← Option.some.inj ha]
    · cases ha

/-- No key is removed twice. -/
theorem nodup_removedKeys : ((diff current fresh).removedKeys.map id).Nodup := by
  rw [List.map_id]
  exact current.keys_nodup.filter _

end Diff

/-! ## The loops -/

/-- What the loops leave alone. -/
structure Untouched (m m' : Manager) : Prop where
  rows : m'.rows = m.rows
  jobs : m'.jobs = m.jobs
  done : m'.done = m.done
  hooks : m'.hooks = m.hooks

theorem Untouched.refl (m : Manager) : Untouched m m := ⟨rfl, rfl, rfl, rfl⟩

theorem Untouched.trans {m m' m'' : Manager} (h : Untouched m m') (h' : Untouched m' m'') :
    Untouched m m'' :=
  ⟨h'.rows.trans h.rows, h'.jobs.trans h.jobs, h'.done.trans h.done, h'.hooks.trans h.hooks⟩

/-- A loop body that works at one key: the new record of `key b` is `g`, and `rowsOf` and `pathsOf`
    are what it notes, all from the old record. -/
structure WorksAt {β : Type} (f : Changes → β → M Changes) (key : β → String)
    (g : Option ManagedTorrent → β → Option ManagedTorrent)
    (rowsOf : Option ManagedTorrent → β → List TorrentRow)
    (pathsOf : Option ManagedTorrent → β → List String) : Prop where
  here : ∀ c b m env, ((f c b).eval performAlone m env).2.1.torrents.lookup (key b) =
    g (m.torrents.lookup (key b)) b
  elsewhere : ∀ c b m env k, k ≠ key b →
    ((f c b).eval performAlone m env).2.1.torrents.lookup k = m.torrents.lookup k
  notes : ∀ c b m env, ((f c b).eval performAlone m env).1 =
    ⟨c.rows ++ rowsOf (m.torrents.lookup (key b)) b, c.paths ++ pathsOf (m.torrents.lookup (key b)) b⟩
  untouched : ∀ c b m env, Untouched m ((f c b).eval performAlone m env).2.1

/-- **A loop over different keys** changes the map at these keys, each from its old record. -/
theorem eval_loop {β : Type} {f : Changes → β → M Changes} {key : β → String}
    {g : Option ManagedTorrent → β → Option ManagedTorrent}
    {rowsOf : Option ManagedTorrent → β → List TorrentRow}
    {pathsOf : Option ManagedTorrent → β → List String} (hf : WorksAt f key g rowsOf pathsOf) :
    ∀ (xs : List β) (c : Changes) (m : Manager) (env : Nat → Env), (xs.map key).Nodup →
    (∀ b ∈ xs, ((Prog.fold f c xs).eval performAlone m env).2.1.torrents.lookup (key b) =
      g (m.torrents.lookup (key b)) b) ∧
    (∀ k, k ∉ xs.map key → ((Prog.fold f c xs).eval performAlone m env).2.1.torrents.lookup k =
      m.torrents.lookup k) ∧
    ((Prog.fold f c xs).eval performAlone m env).1 =
      ⟨c.rows ++ xs.flatMap (fun b => rowsOf (m.torrents.lookup (key b)) b),
        c.paths ++ xs.flatMap (fun b => pathsOf (m.torrents.lookup (key b)) b)⟩ ∧
    Untouched m ((Prog.fold f c xs).eval performAlone m env).2.1 := by
  intro xs
  induction xs with
  | nil =>
    intro c m env _
    refine ⟨fun b hb => absurd hb List.not_mem_nil, fun k _ => rfl, ?_, Untouched.refl m⟩
    rw [List.flatMap_nil, List.flatMap_nil, List.append_nil, List.append_nil]
    rfl
  | cons x xs ih =>
    intro c m env hnodup
    rw [List.map_cons, List.nodup_cons] at hnodup
    obtain ⟨hx, hxs⟩ := hnodup
    rw [Prog.fold, Prog.eval_bind]
    obtain ⟨hin, hout, hnotes, hsame⟩ := ih ((f c x).eval performAlone m env).1
      ((f c x).eval performAlone m env).2.1 ((f c x).eval performAlone m env).2.2 hxs
    -- the keys still to come have their old records
    have hold : ∀ b ∈ xs, ((f c x).eval performAlone m env).2.1.torrents.lookup (key b) =
        m.torrents.lookup (key b) := by
      intro b hb
      refine hf.elsewhere c x m env (key b) fun heq => hx ?_
      rw [← heq]
      exact List.mem_map_of_mem hb
    refine ⟨?_, ?_, ?_, (hf.untouched c x m env).trans hsame⟩
    · intro b hb
      rcases List.mem_cons.mp hb with rfl | hb
      · rw [hout (key b) hx]
        exact hf.here c b m env
      · rw [hin b hb, hold b hb]
    · intro k hk
      rw [List.map_cons, List.mem_cons, not_or] at hk
      rw [hout k hk.2]
      exact hf.elsewhere c x m env k hk.1
    · rw [hnotes, hf.notes, List.flatMap_cons, List.flatMap_cons, List.append_assoc,
        List.append_assoc, List.flatMap_congr fun b hb => by rw [hold b hb],
        List.flatMap_congr (f := fun b => pathsOf _ b) fun b hb => by rw [hold b hb]]

/-- The first loop works at the key of its entry. -/
theorem addOne_works : WorksAt addOne (fun a => keyOf a.1)
    (fun _ a => some (newTorrent a.1 a.2)) (fun _ a => [torrentToRow (newTorrent a.1 a.2)])
    (fun _ a => [pathOf (keyOf a.1)]) where
  here := fun c a m env => AList.lookup_insert _
  elsewhere := fun c a m env k hk => AList.lookup_insert_ne hk
  notes := fun c a m env => rfl
  untouched := fun c a m env => ⟨rfl, rfl, rfl, rfl⟩

/-- The body by whether the key has a record. -/
theorem mergeOne_alone (c : Changes) (a : Torrent × List String) (m : Manager) (env : Nat → Env) :
    (mergeOne c a).eval performAlone m env =
      match m.torrents.lookup (keyOf a.1) with
      | none => (c, m, fun n => env (n + 1))
      | some mt => (⟨c.rows ++ [torrentToRow (mergeTorrent mt a.1 a.2)],
          c.paths ++ [pathOf (keyOf a.1)]⟩,
        { m with torrents := m.torrents.insert (keyOf a.1) (mergeTorrent mt a.1 a.2) },
        fun n => env (n + 2)) := by
  have hget : performAlone m (.get (keyOf a.1)) (env 0) = (m.torrents.lookup (keyOf a.1), m) := rfl
  rw [mergeOne, Prog.call_bind, Prog.eval_act, hget]
  dsimp only
  cases m.torrents.lookup (keyOf a.1) with
  | none => rfl
  | some mt => rfl

/-- The second loop works at the key of its entry. -/
theorem mergeOne_works : WorksAt mergeOne (fun a => keyOf a.1)
    (fun mt a => mt.map fun mt => mergeTorrent mt a.1 a.2)
    (fun mt a => (mt.map fun mt => torrentToRow (mergeTorrent mt a.1 a.2)).toList)
    (fun mt a => (mt.map fun _ => pathOf (keyOf a.1)).toList) := by
  constructor
  · intro c a m env
    rw [mergeOne_alone]
    cases hmt : m.torrents.lookup (keyOf a.1) with
    | none => exact hmt
    | some mt => exact AList.lookup_insert _
  · intro c a m env k hk
    rw [mergeOne_alone]
    cases hmt : m.torrents.lookup (keyOf a.1) with
    | none => rfl
    | some mt => exact AList.lookup_insert_ne hk
  · intro c a m env
    rw [mergeOne_alone]
    cases hmt : m.torrents.lookup (keyOf a.1) with
    | none => simp
    | some mt => rfl
  · intro c a m env
    rw [mergeOne_alone]
    cases hmt : m.torrents.lookup (keyOf a.1) with
    | none => exact Untouched.refl m
    | some mt => exact ⟨rfl, rfl, rfl, rfl⟩

/-- `removed_keys` are kept in the map while they are under repair. -/
def keptIfRepaired (mt : Option ManagedTorrent) : Option ManagedTorrent :=
  mt.filter fun mt => skipLocalRemoveForState mt.state

/-- The third loop works at its key. -/
theorem removeOne_works : WorksAt removeOne id (fun mt _ => keptIfRepaired mt) (fun _ _ => [])
    (fun mt key => if (keptIfRepaired mt).isSome then [] else [pathOf key]) := by
  have hbody : ∀ c key m env, (removeOne c key).eval performAlone m env =
      if (keptIfRepaired (m.torrents.lookup key)).isSome then (c, m, fun n => env (n + 1))
      else (⟨c.rows, c.paths ++ [pathOf key]⟩,
        { m with torrents := m.torrents.erase key, watches := m.watches.erase key },
        fun n => env (n + 3)) := by
    intro c key m env
    have hskip : ((m.torrents.lookup key).map fun mt => skipLocalRemoveForState mt.state).getD false =
        (keptIfRepaired (m.torrents.lookup key)).isSome := by
      cases m.torrents.lookup key with
      | none => rfl
      | some mt =>
        rw [keptIfRepaired, Option.filter_some]
        simp only [Option.map_some, Option.getD_some]
        cases skipLocalRemoveForState mt.state with
        | true => rfl
        | false => rfl
    show Prog.eval performAlone (if ((m.torrents.lookup key).map fun mt =>
      skipLocalRemoveForState mt.state).getD false = true then _ else _) m _ = _
    rw [hskip]
    split
    · rfl
    · rfl
  constructor
  · intro c key m env
    rw [hbody, id]
    cases hk : keptIfRepaired (m.torrents.lookup key) with
    | none => exact AList.lookup_erase key m.torrents
    | some mt =>
      rw [keptIfRepaired, Option.filter_eq_some_iff] at hk
      exact hk.1
  · intro c key m env k hk
    rw [hbody]
    split
    · rfl
    · exact AList.lookup_erase_ne hk
  · intro c key m env
    rw [hbody]
    show _ = (⟨_, c.paths ++ if (keptIfRepaired (m.torrents.lookup key)).isSome = true then [] else
      [pathOf key]⟩ : Changes)
    split
    · simp
    · simp
  · intro c key m env
    rw [hbody]
    split
    · exact Untouched.refl m
    · exact ⟨rfl, rfl, rfl, rfl⟩

/-! ## The map after a pass -/

section Apply

variable (m : Manager) (fresh : List Torrent) (env : Nat → Env)

/-- The pass over the map, alone. -/
def applied : Changes × Manager :=
  (((applyDiff (diff m.torrents fresh)).eval performAlone m env).1,
    ((applyDiff (diff m.torrents fresh)).eval performAlone m env).2.1)

/-- The three loops, each from the records the pass began with: `m1` after the adds, `m2` after the
    merges. -/
theorem applied_stages : ∃ m1 m2 : Manager,
    (∀ a ∈ (diff m.torrents fresh).added,
      m1.torrents.lookup (keyOf a.1) = some (newTorrent a.1 a.2)) ∧
    (∀ k, k ∉ (diff m.torrents fresh).added.map (fun a => keyOf a.1) →
      m1.torrents.lookup k = m.torrents.lookup k) ∧
    (∀ a ∈ (diff m.torrents fresh).changed, m2.torrents.lookup (keyOf a.1) =
      (m.torrents.lookup (keyOf a.1)).map fun mt => mergeTorrent mt a.1 a.2) ∧
    (∀ k, k ∉ (diff m.torrents fresh).changed.map (fun a => keyOf a.1) →
      m2.torrents.lookup k = m1.torrents.lookup k) ∧
    (∀ k ∈ (diff m.torrents fresh).removedKeys, (applied m fresh env).2.torrents.lookup k =
      keptIfRepaired (m.torrents.lookup k)) ∧
    (∀ k, k ∉ (diff m.torrents fresh).removedKeys →
      (applied m fresh env).2.torrents.lookup k = m2.torrents.lookup k) ∧
    (applied m fresh env).1.rows =
      (diff m.torrents fresh).added.map (fun a => torrentToRow (newTorrent a.1 a.2)) ++
      (diff m.torrents fresh).changed.flatMap (fun a =>
        ((m.torrents.lookup (keyOf a.1)).map fun mt =>
          torrentToRow (mergeTorrent mt a.1 a.2)).toList) ∧
    (applied m fresh env).1.paths =
      (diff m.torrents fresh).added.map (fun a => pathOf (keyOf a.1)) ++
      (diff m.torrents fresh).changed.flatMap (fun a =>
        ((m.torrents.lookup (keyOf a.1)).map fun _ => pathOf (keyOf a.1)).toList) ++
      (diff m.torrents fresh).removedKeys.flatMap (fun key =>
        if (keptIfRepaired (m.torrents.lookup key)).isSome then [] else [pathOf key]) ∧
    Untouched m (applied m fresh env).2 := by
  obtain ⟨hin1, hout1, hnotes1, hsame1⟩ :=
    eval_loop addOne_works (diff m.torrents fresh).added ⟨[], []⟩ m env (nodup_added _ _)
  generalize hr1 : (Prog.fold addOne ⟨[], []⟩ (diff m.torrents fresh).added).eval performAlone m
    env = r1 at hin1 hout1 hnotes1 hsame1
  obtain ⟨hin2, hout2, hnotes2, hsame2⟩ :=
    eval_loop mergeOne_works (diff m.torrents fresh).changed r1.1 r1.2.1 r1.2.2 (nodup_changed _ _)
  generalize hr2 : (Prog.fold mergeOne r1.1 (diff m.torrents fresh).changed).eval performAlone
    r1.2.1 r1.2.2 = r2 at hin2 hout2 hnotes2 hsame2
  obtain ⟨hin3, hout3, hnotes3, hsame3⟩ :=
    eval_loop removeOne_works (diff m.torrents fresh).removedKeys r2.1 r2.2.1 r2.2.2
      (nodup_removedKeys _ _)
  have happ : applied m fresh env =
      (((Prog.fold removeOne r2.1 (diff m.torrents fresh).removedKeys).eval performAlone r2.2.1
          r2.2.2).1,
        ((Prog.fold removeOne r2.1 (diff m.torrents fresh).removedKeys).eval performAlone r2.2.1
          r2.2.2).2.1) := by
    rw [applied, applyDiff, Prog.eval_bind, hr1, Prog.eval_bind, hr2]
  -- the merges and the removals find the old records of their keys
  have hmerge : ∀ a ∈ (diff m.torrents fresh).changed,
      r1.2.1.torrents.lookup (keyOf a.1) = m.torrents.lookup (keyOf a.1) := by
    intro a ha
    obtain ⟨f, mt, -, hmt, -⟩ := (mem_changed_keys m.torrents fresh).mp (List.mem_map.mpr ⟨a, ha, rfl⟩)
    refine hout1 _ fun hk => ?_
    rw [((mem_added_keys m.torrents fresh).mp hk).2] at hmt
    cases hmt
  have hremove : ∀ k ∈ (diff m.torrents fresh).removedKeys,
      r2.2.1.torrents.lookup k = m.torrents.lookup k := by
    intro k hk
    obtain ⟨hk, -⟩ := (mem_removedKeys m.torrents fresh k).mp hk
    rw [hout2 k fun hc => ?_, hout1 k fun ha => ?_]
    · obtain ⟨⟨f, hf⟩, -⟩ := (mem_added_keys m.torrents fresh).mp ha
      rw [hk] at hf
      cases hf
    · obtain ⟨f, mt, hf, -⟩ := (mem_changed_keys m.torrents fresh).mp hc
      rw [hk] at hf
      cases hf
  rw [happ]
  refine ⟨r1.2.1, r2.2.1, hin1, hout1, ?_, hout2, ?_, ?_, ?_, ?_,
    (hsame1.trans hsame2).trans hsame3⟩
  · intro a ha
    rw [hin2 a ha, hmerge a ha]
  · intro k hk
    rw [← hremove k hk]
    exact hin3 k hk
  · intro k hk
    exact hout3 k (by rwa [List.map_id])
  · have hrows := List.flatMap_congr fun a ha => congrArg (fun o => (Option.map (fun mt =>
      torrentToRow (mergeTorrent mt a.1 a.2)) o).toList) (hmerge a ha)
    rw [hnotes3, hnotes2, hnotes1, List.map_eq_flatMap, ← hrows]
    simp
  · have hpaths := List.flatMap_congr fun a ha => congrArg (fun o => (Option.map (fun _ :
      ManagedTorrent => pathOf (keyOf a.1)) o).toList) (hmerge a ha)
    have hgone := List.flatMap_congr fun k hk => congrArg (fun o =>
      if (keptIfRepaired o).isSome then [] else [pathOf k]) (hremove k hk)
    rw [hnotes3, hnotes2, hnotes1, List.map_eq_flatMap, ← hpaths, ← hgone]
    rfl

/-- **The map after the loops**: each key's record comes from its old record and the list. -/
theorem applied_lookup (k : String) : (applied m fresh env).2.torrents.lookup k =
    refreshed ((freshMap fresh).lookup k) (m.torrents.lookup k) := by
  obtain ⟨m1, m2, hin1, hout1, hin2, hout2, hin3, hout3, -⟩ := applied_stages m fresh env
  cases hf : (freshMap fresh).lookup k with
  | none =>
    have hnot1 : k ∉ (diff m.torrents fresh).added.map fun a => keyOf a.1 := by
      intro hk
      obtain ⟨⟨f, hf'⟩, -⟩ := (mem_added_keys m.torrents fresh).mp hk
      rw [hf] at hf'
      cases hf'
    have hnot2 : k ∉ (diff m.torrents fresh).changed.map fun a => keyOf a.1 := by
      intro hk
      obtain ⟨f, mt, hf', -⟩ := (mem_changed_keys m.torrents fresh).mp hk
      rw [hf] at hf'
      cases hf'
    cases hmt : m.torrents.lookup k with
    | none =>
      rw [hout3 k fun hk => ?_, hout2 k hnot2, hout1 k hnot1, hmt]
      · rfl
      · obtain ⟨-, mt, hmt'⟩ := (mem_removedKeys m.torrents fresh k).mp hk
        rw [hmt] at hmt'
        cases hmt'
    | some mt =>
      rw [hin3 k ((mem_removedKeys m.torrents fresh k).mpr ⟨hf, mt, hmt⟩), hmt, keptIfRepaired,
        Option.filter_some]
      rfl
  | some f =>
    have hkey : keyOf f.torrent = k := (freshMap_fits fresh k f hf).1
    rw [hout3 k fun hk => ?_]
    · cases hmt : m.torrents.lookup k with
      | none =>
        have hin := hin1 _ ((mem_added m.torrents fresh _).mpr ⟨k, f, hf, hmt, rfl⟩)
        rw [hkey] at hin
        rw [hout2 k fun hc => ?_, hin]
        · rfl
        · obtain ⟨f', mt, -, hmt', -⟩ := (mem_changed_keys m.torrents fresh).mp hc
          rw [hmt] at hmt'
          cases hmt'
      | some mt =>
        rw [refreshed]
        by_cases hch : isChanged mt f = true
        · have hin := hin2 _ ((mem_changed m.torrents fresh _).mpr ⟨k, f, mt, hf, hmt, hch, rfl⟩)
          rw [hkey, hmt] at hin
          rw [hin, if_pos hch]
          rfl
        · rw [if_neg hch, hout2 k fun hc => ?_, hout1 k fun ha => ?_, hmt]
          · rw [((mem_added_keys m.torrents fresh).mp ha).2] at hmt
            cases hmt
          · obtain ⟨f', mt', hf', hmt', hch'⟩ := (mem_changed_keys m.torrents fresh).mp hc
            rw [hf, Option.some.injEq] at hf'
            rw [hmt, Option.some.injEq] at hmt'
            subst hf'
            subst hmt'
            exact hch hch'
    · rw [((mem_removedKeys m.torrents fresh k).mp hk).1] at hf
      cases hf

/-- The batch has a row exactly for the keys that are written. -/
theorem mem_applied_rows (k : String) : (∃ row ∈ (applied m fresh env).1.rows, row.accessKey = k) ↔
    isWritten ((freshMap fresh).lookup k) (m.torrents.lookup k) = true := by
  obtain ⟨m1, m2, -, -, -, -, -, -, hrows, -⟩ := applied_stages m fresh env
  rw [hrows]
  constructor
  · rintro ⟨row, hrow, rfl⟩
    rcases List.mem_append.mp hrow with hrow | hrow
    · obtain ⟨a, ha, rfl⟩ := List.mem_map.mp hrow
      obtain ⟨⟨f, hf⟩, hmt⟩ := (mem_added_keys m.torrents fresh).mp (List.mem_map.mpr ⟨a, ha, rfl⟩)
      show isWritten ((freshMap fresh).lookup (keyOf a.1)) (m.torrents.lookup (keyOf a.1)) = true
      rw [hf, hmt]
      rfl
    · obtain ⟨a, ha, hrow⟩ := List.mem_flatMap.mp hrow
      obtain ⟨f, mt, hf, hmt, hch⟩ :=
        (mem_changed_keys m.torrents fresh).mp (List.mem_map.mpr ⟨a, ha, rfl⟩)
      rw [hmt, Option.map_some, Option.toList_some, List.mem_singleton] at hrow
      subst hrow
      show isWritten ((freshMap fresh).lookup (keyOf a.1)) (m.torrents.lookup (keyOf a.1)) = true
      rw [hf, hmt]
      exact hch
  · intro hw
    cases hf : (freshMap fresh).lookup k with
    | none =>
      rw [hf] at hw
      cases hw
    | some f =>
      have hkey : keyOf f.torrent = k := (freshMap_fits fresh k f hf).1
      cases hmt : m.torrents.lookup k with
      | none =>
        refine ⟨torrentToRow (newTorrent f.torrent (sortIds f.ids)), List.mem_append_left _ ?_, hkey⟩
        exact List.mem_map.mpr ⟨_, (mem_added m.torrents fresh _).mpr ⟨k, f, hf, hmt, rfl⟩, rfl⟩
      | some mt =>
        rw [hf, hmt] at hw
        refine ⟨torrentToRow (mergeTorrent mt f.torrent (sortIds f.ids)),
          List.mem_append_right _ ?_, hkey⟩
        refine List.mem_flatMap.mpr
          ⟨_, (mem_changed m.torrents fresh _).mpr ⟨k, f, mt, hf, hmt, hw, rfl⟩, ?_⟩
        rw [hkey, hmt, Option.map_some, Option.toList_some, List.mem_singleton]

end Apply

/-! ## The whole pass -/

/-- Deleting on Real-Debrid leaves the manager as it is. -/
theorem deleteDead_alone (cfg : RefreshConfig) (freshAll : List Torrent) (m : Manager)
    (env : Nat → Env) : ((deleteDead cfg freshAll).eval performAlone m env).2.1 = m := by
  have hdel : ∀ id m env, ((deleteUnlessRepaired id).eval performAlone m env).2.1 = m := by
    intro id m env
    show (Prog.eval performAlone (if rdIdBelongsToUnderRepair m.torrents id then _ else _) m _).2.1 = m
    split
    · rfl
    · rfl
  have hloop1 : ∀ (ts : List Torrent) m env, ((Prog.fold (fun _ t => deleteUnlessRepaired t.id) ()
      ts).eval performAlone m env).2.1 = m := by
    intro ts m env
    exact Prog.eval_fold (I := fun _ _ w => w = m) (fun _ t _ w env hw => by rw [hdel, hw]) ts () m
      env rfl
  have hloop2 : ∀ (ts : List Torrent) m env, ((Prog.fold (fun _ t =>
      deleteIfStalled (max cfg.stalledDownloadMins 1) t) () ts).eval performAlone m env).2.1 = m := by
    intro ts m env
    refine Prog.eval_fold (I := fun _ _ w => w = m) (fun _ t _ w env hw => ?_) ts () m env rfl
    subst hw
    rw [deleteIfStalled]
    split
    · rfl
    · show (Prog.eval performAlone (if isStalledDownloadFromList t _ (env 0).time then _ else _) w
        _).2.1 = w
      split
      · exact hdel _ _ _
      · rfl
  rw [deleteDead, Prog.eval_bind, hloop2]
  cases cfg.deleteErrorTorrents with
  | true => exact hloop1 _ m env
  | false => rfl

/-- A batch handed over alone: the database thread runs all that waits, up to this batch. -/
theorem upsert_alone (batch : List TorrentRow) (m : Manager) (env : Nat → Env) :
    (upsert batch).eval performAlone m env =
      ((env 1).ok, drain (env 1).ok { m with jobs := m.jobs ++ [batch] }, fun n => env (n + 2)) := by
  have hblocked : blocked { m with jobs := m.jobs ++ [batch] }
      (.await (m.done.length + m.jobs.length)) = true := by
    rw [blocked, decide_eq_true_eq]
    exact Nat.le_add_right _ _
  have hend : (m.done ++ List.replicate (m.jobs ++ [batch]).length (env 1).ok)[m.done.length +
      m.jobs.length]? = some (env 1).ok := by
    rw [List.getElem?_append_right (by omega), List.getElem?_replicate, if_pos]
    rw [List.length_append, List.length_singleton]
    omega
  have hawait : performAlone { m with jobs := m.jobs ++ [batch] }
      (.await (m.done.length + m.jobs.length)) (env 1) =
      ((env 1).ok, drain (env 1).ok { m with jobs := m.jobs ++ [batch] }) := by
    rw [performAlone, if_pos hblocked]
    show ((_ : Option Bool).getD false, _) = _
    rw [show (drain (env 1).ok { m with jobs := m.jobs ++ [batch] }).done =
      m.done ++ List.replicate (m.jobs ++ [batch]).length (env 1).ok from rfl, hend]
    rfl
  show ((performAlone { m with jobs := m.jobs ++ [batch] } (.await (m.done.length + m.jobs.length))
    (env 1)).1, (performAlone { m with jobs := m.jobs ++ [batch] }
      (.await (m.done.length + m.jobs.length)) (env 1)).2, _) = _
  rw [hawait]

/-- What the pass publishes: without rows only the paths go out; with rows they go out if the
    database thread takes the batch, and everything that waited there shares its fate. -/
theorem publish_alone (c : Changes) (m : Manager) (env : Nat → Env) :
    ∃ ok, ((publish c).eval performAlone m env).1 = (c.rows.isEmpty || ok) ∧
      ((publish c).eval performAlone m env).2.1.torrents = m.torrents ∧
      ((publish c).eval performAlone m env).2.1.rows =
        (if c.rows.isEmpty || !ok then m.rows else (m.jobs ++ [c.rows]).foldl upsertRows m.rows) ∧
      ((publish c).eval performAlone m env).2.1.jobs = (if c.rows.isEmpty then m.jobs else []) ∧
      ((publish c).eval performAlone m env).2.1.hooks =
        (if (c.rows.isEmpty || ok) && !c.paths.isEmpty then m.hooks ++ [c.paths] else m.hooks) := by
  obtain ⟨rows, paths⟩ := c
  rw [publish]
  cases rows with
  | nil =>
    refine ⟨true, ?_⟩
    rw [if_neg (by simp)]
    cases paths with
    | nil => exact ⟨rfl, rfl, rfl, rfl, rfl⟩
    | cons path paths => exact ⟨rfl, rfl, rfl, rfl, rfl⟩
  | cons row rows =>
    refine ⟨(env 1).ok, ?_⟩
    rw [if_pos (by simp), Prog.eval_bind, upsert_alone]
    cases (env 1).ok with
    | false => exact ⟨rfl, rfl, rfl, rfl, rfl⟩
    | true =>
      cases paths with
      | nil => exact ⟨rfl, rfl, rfl, rfl, rfl⟩
      | cons path paths => exact ⟨rfl, rfl, rfl, rfl, rfl⟩

/-- The list `run_once` compares with: without the errored torrents. -/
def usable (freshAll : List Torrent) : List Torrent := freshAll.filter fun t => !isErrored t

theorem runOnce_alone (cfg : RefreshConfig) (m : Manager) (env : Nat → Env) :
    (runOnce cfg).eval performAlone m env = Prog.eval performAlone (match (env 0).list with
      | none => pure false
      | some freshAll => runOnList cfg freshAll) m fun n => env (n + 1) := rfl

/-- Without a list the pass fails and changes nothing. -/
theorem runOnce_without_list {cfg : RefreshConfig} {m : Manager} {env : Nat → Env}
    (hlist : (env 0).list = none) :
    (runOnce cfg).eval performAlone m env = (false, m, fun n => env (n + 1)) := by
  rw [runOnce_alone, hlist]
  rfl

/-- A pass with a list is its loops and then its publishing, an empty difference included. -/
theorem runOnList_alone (cfg : RefreshConfig) (m : Manager) (env : Nat → Env)
    (freshAll : List Torrent) : ∃ env' env'',
    ((runOnList cfg freshAll).eval performAlone m env).1 =
      ((publish (applied m (usable freshAll) env').1).eval performAlone
        (applied m (usable freshAll) env').2 env'').1 ∧
    ((runOnList cfg freshAll).eval performAlone m env).2.1 =
      ((publish (applied m (usable freshAll) env').1).eval performAlone
        (applied m (usable freshAll) env').2 env'').2.1 := by
  obtain ⟨envD, hD⟩ : ∃ envD, ((deleteDead cfg freshAll).eval performAlone m env).2.2 = envD :=
    ⟨_, rfl⟩
  have hrun : (runOnList cfg freshAll).eval performAlone m env =
      Prog.eval performAlone (if (diff m.torrents (usable freshAll)).added = [] ∧
          (diff m.torrents (usable freshAll)).removedKeys = [] ∧
          (diff m.torrents (usable freshAll)).changed = [] then pure true
        else do
          let c ← applyDiff (diff m.torrents (usable freshAll))
          publish c) m fun n => envD (n + 1) := by
    rw [runOnList, Prog.eval_bind, deleteDead_alone, hD]
    rfl
  rw [hrun]
  by_cases hd : (diff m.torrents (usable freshAll)).added = [] ∧
      (diff m.torrents (usable freshAll)).removedKeys = [] ∧
      (diff m.torrents (usable freshAll)).changed = []
  · -- the loops have nothing to walk over
    have happ : applied m (usable freshAll) env = (⟨[], []⟩, m) := by
      rw [applied, applyDiff, hd.1, hd.2.1, hd.2.2]
      rfl
    refine ⟨env, env, ?_⟩
    rw [if_pos hd, happ]
    exact ⟨rfl, rfl⟩
  · rw [if_neg hd, Prog.eval_bind]
    exact ⟨fun n => envD (n + 1), _, rfl, rfl⟩

/-- **A pass with a list**: what it makes of the map, the batch it hands over and what becomes of
    it (`ok`), and what it sends to the hook. -/
theorem runOnce_spec {cfg : RefreshConfig} {m : Manager} {env : Nat → Env} {freshAll : List Torrent}
    (hlist : (env 0).list = some freshAll) : ∃ (c : Changes) (ok : Bool),
    (∀ k, ((runOnce cfg).eval performAlone m env).2.1.torrents.lookup k =
      refreshed ((freshMap (usable freshAll)).lookup k) (m.torrents.lookup k)) ∧
    (∀ k, (∃ row ∈ c.rows, row.accessKey = k) ↔
      isWritten ((freshMap (usable freshAll)).lookup k) (m.torrents.lookup k) = true) ∧
    (c.paths =
      (diff m.torrents (usable freshAll)).added.map (fun a => pathOf (keyOf a.1)) ++
      (diff m.torrents (usable freshAll)).changed.flatMap (fun a =>
        ((m.torrents.lookup (keyOf a.1)).map fun _ => pathOf (keyOf a.1)).toList) ++
      (diff m.torrents (usable freshAll)).removedKeys.flatMap (fun key =>
        if (keptIfRepaired (m.torrents.lookup key)).isSome then [] else [pathOf key])) ∧
    ((runOnce cfg).eval performAlone m env).1 = (c.rows.isEmpty || ok) ∧
    ((runOnce cfg).eval performAlone m env).2.1.rows =
      (if c.rows.isEmpty || !ok then m.rows else (m.jobs ++ [c.rows]).foldl upsertRows m.rows) ∧
    ((runOnce cfg).eval performAlone m env).2.1.hooks =
      (if (c.rows.isEmpty || ok) && !c.paths.isEmpty then m.hooks ++ [c.paths] else m.hooks) := by
  rw [runOnce_alone, hlist]
  obtain ⟨env', env'', hres, hm⟩ := runOnList_alone cfg m (fun n => env (n + 1)) freshAll
  obtain ⟨m1, m2, -, -, -, -, -, -, -, hpaths, hsame⟩ := applied_stages m (usable freshAll) env'
  obtain ⟨ok, hok, htorrents, hrows, hjobs, hhooks⟩ :=
    publish_alone (applied m (usable freshAll) env').1 (applied m (usable freshAll) env').2 env''
  refine ⟨(applied m (usable freshAll) env').1, ok, ?_, mem_applied_rows m _ env', hpaths, ?_, ?_, ?_⟩
  · intro k
    show (Prog.eval performAlone (runOnList cfg freshAll) m fun n => env (n + 1)).2.1.torrents.lookup
      k = _
    rw [hm, htorrents]
    exact applied_lookup m _ env' k
  · exact hres.trans hok
  · show (Prog.eval performAlone (runOnList cfg freshAll) m fun n => env (n + 1)).2.1.rows = _
    rw [hm, hrows, hsame.rows, hsame.jobs]
  · show (Prog.eval performAlone (runOnList cfg freshAll) m fun n => env (n + 1)).2.1.hooks = _
    rw [hm, hhooks, hsame.hooks]

end RdRs.Torrent

/-
  `get_sorted_keys` of `fuse/fs_helpers.rs` beside the refresh — when a change of the library is seen.

  The list of `__all__` is kept for 15 s.  `invalidate_cached_all_dir` would expire it, and is meant for
  every add, remove and rename; but it is called by `purge_torrent_inode` alone, which nothing calls.
  So a pass that has added or removed a key and has sent its path (`announcing`) leaves the list as it
  is, and the next directory operation may still work on the old keys.

  1. **Parties** — `Viewed`: the registry with any tasks over it, in any interleaving, and the directory
     operations between their actions, at any times.
  2. **Invariant** — `Listed`: the list that is kept has the keys of the registry it was built from.
  3. **Result** — `announced_visible_iff`: operations that come first after an announcement see the
     registry's keys exactly when each finds the list too old, or the keys as they were.

  The cleanup task, which takes keys out of the inode maps, does not touch the list and is left out.
-/
import RdRs.Fuse.TorrentDir
import RdRs.Torrent.Mirror
import RdRs.Torrent.Tasks

set_option linter.unusedVariables false

namespace RdRs.Fuse

open RdRs.Rd RdRs.Repair RdRs.Torrent RdRs.Runs

/-! ## The parties -/

/-- What refresh passes have said of the library. -/
structure Announcements where
  /-- keys a pass has added or removed and whose path is not sent yet -/
  changed : List String
  /-- such a path was sent since the last directory operation -/
  announced : Bool

/-- `trigger_library_update` of a pass: the paths of keys it has added or removed. -/
def Announcements.send (ob : Announcements) (paths : List String) : Announcements where
  changed := ob.changed.filter fun key => pathOf key ∉ paths
  announced := ob.announced || ob.changed.any fun key => pathOf key ∈ paths

/-- Follows the passes. -/
def announcing : Observer Announcements where
  see
    | .refresh _, ob, .write .refreshAdd key _ _, _ => { ob with changed := key :: ob.changed }
    | .refresh _, ob, .remove key, _ => { ob with changed := key :: ob.changed }
    | .refresh _, ob, .hook paths, _ => ob.send paths
    | _, ob, _, _ => ob
  ran ob _ _ := ob

/-- A directory operation on `INODE_ALL`. -/
inductive DirectoryOp where
  | lookup (name : String)
  | readdir (offset : Int)
  | readdirplus (offset : Nat)

/-- The file system after the operation; `none` is a panic. -/
def DirectoryOp.after (fs : RdFs) (now : Nat) : DirectoryOp → Option RdFs
  | .lookup name => (lookupAll fs now name).map Prod.snd
  | .readdir offset => (readdirAll fs now offset).map Prod.snd
  | .readdirplus offset => (readdirplusAll fs now offset).map Prod.snd

/-- A directory operation that was served. -/
structure Served where
  /-- the registry's keys at that time -/
  registry : List String
  /-- the keys of the list it worked on, unless it panicked -/
  listed : Option (List String)
  /-- it came first after an announcement -/
  announced : Bool

/-- The registry and its tasks, and what the directory operations keep. -/
structure Viewed where
  world : World Announcements
  inodes : InodeTable
  cachedAllDir : Nat × List (String × String)
  /-- the registry's keys when the list was built -/
  builtFrom : List String
  served : List Served

namespace Viewed

/-- `RdFs` as the operation finds it. -/
def fs (s : Viewed) : RdFs := ⟨s.world.shared.m.torrents, s.inodes, s.cachedAllDir⟩

/-- The registry's keys. -/
def keys (s : Viewed) : List String := s.world.shared.m.torrents.keys

/-- The list is younger than 15 s. -/
def isFresh (s : Viewed) (now : Nat) : Prop := now - s.cachedAllDir.1 < 15 * 10 ^ 9

instance (s : Viewed) (now : Nat) : Decidable (s.isFresh now) := inferInstanceAs (Decidable (_ < _))

/-- The operation, as it is written down. -/
def entry (s : Viewed) (now : Nat) : Served where
  registry := s.keys
  listed := (getSortedKeys s.fs now).map fun r => r.1.map Prod.fst
  announced := s.world.shared.ob.announced

/-- A directory operation is served. -/
def serve (s : Viewed) (op : DirectoryOp) (now : Nat) : Viewed :=
  let world := { s.world with
    shared := ⟨s.world.shared.m, { s.world.shared.ob with announced := false }⟩ }
  match op.after s.fs now with
  | none => { s with world := world, served := s.served ++ [s.entry now] }
  | some fs =>
    { world := world
      inodes := fs.inodes
      cachedAllDir := fs.cachedAllDir
      builtFrom := if s.isFresh now then s.builtFrom else s.keys
      served := s.served ++ [s.entry now] }

/-- `RdFs::new` at time `start`, over a registry with tasks. -/
def mounted (world : World Announcements) (start : Nat) : Viewed where
  world := world
  inodes := .empty
  cachedAllDir := (start - 600 * 10 ^ 9, [])
  builtFrom := []
  served := []

end Viewed

inductive ViewStep where
  /-- a task acts, or the database thread does -/
  | world (ev : Event)
  | directory (op : DirectoryOp) (now : Nat)

def viewStep (s : Viewed) : ViewStep → Option Viewed
  | .world ev => (step announcing s.world ev).map fun w => { s with world := w }
  | .directory op now => some (s.serve op now)

/-! ## What has to hold -/

/-- **Announced changes are visible**: an operation that comes first after an announcement works on the
    registry's keys. -/
def Served.Current (v : Served) : Prop :=
  v.announced = true → ∃ keys, v.listed = some keys ∧ keys.Perm v.registry

instance (v : Served) : Decidable v.Current :=
  decidable_of_iff (v.announced = true → v.listed.any (fun keys => decide (keys.Perm v.registry)) = true)
    (imp_congr_right fun _ => by
      rw [Option.any_eq_true]
      simp only [decide_eq_true_eq])

/-- **The condition.**  After an announcement, the operation finds a list younger than 15 s and the keys
    it was built from in the registry, or an older list and names that cut cleanly. -/
def UpToDate (s : Viewed) : ViewStep → Prop
  | .world _ => True
  | .directory _ now => s.world.shared.ob.announced = true →
      if s.isFresh now then s.builtFrom.Perm s.keys
      else ∀ n i, i < (torrentNames s.world.shared.m.torrents).count n → CutsCleanly (copyName n i)

/-- The list that is kept has the keys it was built from. -/
def Listed (s : Viewed) : Prop := (s.cachedAllDir.2.map Prod.fst).Perm s.builtFrom

/-! ## The list -/

/-- A list that is built has the registry's keys. -/
theorem buildSortedKeys_keys {torrents : Torrents} {keys : List (String × String)}
    (h : buildSortedKeys torrents = some keys) : (keys.map Prod.fst).Perm torrents.keys := by
  have hfst := ((uniqueEntries_eq_some_iff _ _ _ _).mp h).2.1
  have hperm := (keyNames_perm torrents).map Prod.fst
  rw [List.map_map] at hperm
  rw [hfst]
  exact hperm

/-- What `get_sorted_keys` gives, and what it leaves. -/
theorem getSortedKeys_cases (fs : RdFs) (now : Nat) :
    (now - fs.cachedAllDir.1 < 15 * 10 ^ 9 ∧ getSortedKeys fs now = some (fs.cachedAllDir.2, fs)) ∨
    (¬ now - fs.cachedAllDir.1 < 15 * 10 ^ 9 ∧ getSortedKeys fs now =
      (buildSortedKeys fs.torrents).map fun keys => (keys, { fs with cachedAllDir := (now, keys) })) := by
  rw [getSortedKeys]
  by_cases h : now - fs.cachedAllDir.1 < 15 * 10 ^ 9
  · rw [if_pos h]
    exact Or.inl ⟨h, rfl⟩
  · rw [if_neg h]
    exact Or.inr ⟨h, Option.map_eq_bind.symm⟩

/-- **Every directory operation begins with `get_sorted_keys`** and leaves the list as that does; where
    it panics, so does the operation. -/
theorem after_cachedAllDir (op : DirectoryOp) (fs : RdFs) (now : Nat) :
    (op.after fs now).map RdFs.cachedAllDir =
      (getSortedKeys fs now).map fun r => r.2.cachedAllDir := by
  cases hget : getSortedKeys fs now with
  | none =>
    cases op with
    | lookup name => rw [DirectoryOp.after, lookupAll, hget]; rfl
    | readdir offset => rw [DirectoryOp.after, readdirAll, listAll, hget]; rfl
    | readdirplus offset => rw [DirectoryOp.after, readdirplusAll, listAll, hget]; rfl
  | some r =>
    obtain ⟨keys, fs'⟩ := r
    cases op with
    | lookup name =>
      rw [DirectoryOp.after, lookupAll, hget, Option.bind_eq_bind, Option.bind_some]
      dsimp only
      cases keys.find? fun e => e.2 == name && (fs'.torrents.lookup e.1).isSome with
      | none => rfl
      | some e => rfl
    | readdir offset => rw [DirectoryOp.after, readdirAll, listAll, hget]; rfl
    | readdirplus offset => rw [DirectoryOp.after, readdirplusAll, listAll, hget]; rfl

/-! ## One operation -/

variable {s s' : Viewed}

/-- An operation that panics leaves the list; any other leaves the one it worked on. -/
theorem serve_cases (s : Viewed) (op : DirectoryOp) (now : Nat) :
    (getSortedKeys s.fs now = none ∧ (s.serve op now).cachedAllDir = s.cachedAllDir ∧
      (s.serve op now).builtFrom = s.builtFrom) ∨
    (∃ keys fs, getSortedKeys s.fs now = some (keys, fs) ∧
      (s.serve op now).cachedAllDir = fs.cachedAllDir ∧
      (s.serve op now).builtFrom = if s.isFresh now then s.builtFrom else s.keys) := by
  have hafter := after_cachedAllDir op s.fs now
  rw [Viewed.serve]
  cases hget : getSortedKeys s.fs now with
  | none =>
    rw [hget, Option.map_none, Option.map_eq_none_iff] at hafter
    rw [hafter]
    exact Or.inl ⟨rfl, rfl, rfl⟩
  | some r =>
    rw [hget] at hafter
    obtain ⟨fs', hfs', heq⟩ := Option.map_eq_some_iff.mp hafter
    rw [hfs']
    exact Or.inr ⟨r.1, r.2, rfl, heq, rfl⟩

theorem serve_served (s : Viewed) (op : DirectoryOp) (now : Nat) :
    (s.serve op now).served = s.served ++ [s.entry now] := by
  rw [Viewed.serve]
  split
  · rfl
  · rfl

/-- A directory operation keeps the list and its keys together. -/
theorem Listed.serve (h : Listed s) (op : DirectoryOp) (now : Nat) : Listed (s.serve op now) := by
  rcases serve_cases s op now with ⟨-, hcache, hbuilt⟩ | ⟨keys, fs, hget, hcache, hbuilt⟩
  · rw [Listed, hcache, hbuilt]
    exact h
  · rw [Listed, hcache, hbuilt]
    rcases getSortedKeys_cases s.fs now with ⟨hfresh, hsame⟩ | ⟨hold, hbuild⟩
    · rw [hsame] at hget
      rw [if_pos (show s.isFresh now from hfresh), ← (Prod.mk.inj (Option.some.inj hget)).2]
      exact h
    · rw [hbuild] at hget
      obtain ⟨keys', hkeys', heq⟩ := Option.map_eq_some_iff.mp hget
      rw [if_neg (show ¬ s.isFresh now from hold), ← (Prod.mk.inj heq).2]
      exact buildSortedKeys_keys hkeys'

/-- **One operation is current exactly when the condition holds before it.** -/
theorem entry_current_iff (h : Listed s) (op : DirectoryOp) (now : Nat) :
    (s.entry now).Current ↔ UpToDate s (.directory op now) := by
  refine imp_congr_right fun _ => ?_
  rcases getSortedKeys_cases s.fs now with ⟨hfresh, hsame⟩ | ⟨hold, hbuild⟩
  · rw [if_pos (show s.isFresh now from hfresh), Viewed.entry, hsame]
    constructor
    · rintro ⟨keys, heq, hperm⟩
      obtain rfl := Option.some.inj heq
      exact h.symm.trans hperm
    · intro hperm
      exact ⟨_, rfl, h.trans hperm⟩
  · rw [if_neg (show ¬ s.isFresh now from hold), ← buildSortedKeys_isSome_iff, Viewed.entry, hbuild]
    constructor
    · rintro ⟨keys, heq, -⟩
      obtain ⟨r, hr, -⟩ := Option.map_eq_some_iff.mp heq
      obtain ⟨keys', hkeys', -⟩ := Option.map_eq_some_iff.mp hr
      exact ⟨keys', hkeys'⟩
    · rintro ⟨keys, hkeys⟩
      refine ⟨keys.map Prod.fst, ?_, buildSortedKeys_keys hkeys⟩
      rw [show buildSortedKeys s.fs.torrents = some keys from hkeys]
      rfl

/-! ## Runs -/

theorem mounted_listed (world : World Announcements) (start : Nat) :
    Listed (Viewed.mounted world start) := List.Perm.refl _

/-- What a step adds is current exactly when the step is up to date. -/
theorem viewStep_served {e : ViewStep} (h : Listed s) (hstep : viewStep s e = some s') :
    Listed s' ∧ ((∀ v ∈ s'.served, v.Current) ↔ (∀ v ∈ s.served, v.Current) ∧ UpToDate s e) := by
  cases e with
  | world ev =>
    obtain ⟨w, -, rfl⟩ := Option.map_eq_some_iff.mp hstep
    exact ⟨h, (and_iff_left trivial).symm⟩
  | directory op now =>
    obtain rfl := Option.some.inj hstep
    refine ⟨h.serve op now, ?_⟩
    rw [serve_served, ← entry_current_iff h op now]
    simp only [List.mem_append, List.mem_singleton, or_imp, forall_and, forall_eq]

theorem run_served : ∀ (es : List ViewStep) (s s' : Viewed), Listed s → run viewStep s es = some s' →
    ((∀ v ∈ s'.served, v.Current) ↔ (∀ v ∈ s.served, v.Current) ∧ Along viewStep UpToDate s es) := by
  intro es
  induction es with
  | nil =>
    intro s s' _ h
    obtain rfl := Option.some.inj h
    exact (and_iff_left trivial).symm
  | cons e es ih =>
    intro s s' hlisted h
    obtain ⟨t, ht, hrest⟩ := run_cons h
    obtain ⟨hlisted', hserved⟩ := viewStep_served hlisted ht
    rw [ih t s' hlisted' hrest, hserved, along_cons ht, and_assoc]

/-- **Announced changes are visible exactly when** every operation that comes first after an announcement
    finds the list up to date, in every interleaving of the passes, the other tasks and the directory
    operations. -/
theorem announced_visible_iff (world : World Announcements) (start : Nat) (es : List ViewStep)
    (s : Viewed) (h : run viewStep (.mounted world start) es = some s) :
    (∀ v ∈ s.served, v.Current) ↔ Along viewStep UpToDate (.mounted world start) es := by
  rw [run_served es _ s (mounted_listed world start) h]
  exact and_iff_right fun v hv => absurd hv List.not_mem_nil

/-! ## A film that is new -/

/-- A refresh pass beside the file system, with nothing in the registry. -/
def oneRefresh : World Announcements :=
  ⟨⟨atRest ∅ ∅, ⟨[], false⟩⟩, [Torrent.start (.refresh keepErrored)]⟩

/-- An action of the pass: Real-Debrid lists the film. -/
def passActs : ViewStep := .world (.act 0 (answering [soundFilm.torrent] true))

/-- `__all__` is listed, and the pass adds the film and sends its path. -/
def filmAdded : List ViewStep :=
  [ViewStep.directory (.readdir 0) (600 * 10 ^ 9)] ++ List.replicate 4 passActs ++
    [.world (.db true)] ++ List.replicate 2 passActs

/-- The last operation of a run: the registry's keys, those of its list, and whether it came first after
    an announcement. -/
def lastServed (es : List ViewStep) : Option (List String × Option (List String) × Bool) :=
  ((run viewStep (.mounted oneRefresh (600 * 10 ^ 9)) es).bind fun s => s.served.getLast?).map
    fun v => (v.registry, v.listed, v.announced)

/-- Fifteen seconds later the list is built again. -/
theorem announced_visible_iff_later : ∃ s,
    run viewStep (.mounted oneRefresh (600 * 10 ^ 9))
      (filmAdded ++ [.directory (.readdir 0) (615 * 10 ^ 9)]) = some s ∧
    (∀ v ∈ s.served, v.Current) ∧
    Along viewStep UpToDate (.mounted oneRefresh (600 * 10 ^ 9))
      (filmAdded ++ [.directory (.readdir 0) (615 * 10 ^ 9)]) ∧
    lastServed (filmAdded ++ [.directory (.readdir 0) (615 * 10 ^ 9)]) =
      some (["HASH/Film"], some ["HASH/Film"], true) := by
  have hall : (run viewStep (.mounted oneRefresh (600 * 10 ^ 9))
      (filmAdded ++ [.directory (.readdir 0) (615 * 10 ^ 9)])).any
      (fun s => decide (∀ v ∈ s.served, v.Current)) = true := by decide
  obtain ⟨s, hs, hcurrent⟩ := (Option.any_eq_true _ _).mp hall
  have hcurrent := of_decide_eq_true hcurrent
  exact ⟨s, hs, hcurrent, (announced_visible_iff oneRefresh _ _ s hs).mp hcurrent, by decide⟩

/-- **A film that is announced cannot be seen.**  One second after its path was sent, `lookup` does not
    find it and `readdir` lists nothing. -/
theorem added_film_unseen :
    (run viewStep (.mounted oneRefresh (600 * 10 ^ 9)) filmAdded).map (fun s =>
      (s.keys, (lookupAll s.fs (601 * 10 ^ 9) "Film").map Prod.fst,
        (readdirAll s.fs (601 * 10 ^ 9) 0).map fun r => r.1.map (·.name))) =
      some (["HASH/Film"], some none, some [".", ".."]) ∧
    lastServed (filmAdded ++ [.directory (.readdir 0) (601 * 10 ^ 9)]) =
      some (["HASH/Film"], some [], true) ∧
    ∃ s, run viewStep (.mounted oneRefresh (600 * 10 ^ 9))
      (filmAdded ++ [.directory (.readdir 0) (601 * 10 ^ 9)]) = some s ∧
      ¬ ∀ v ∈ s.served, v.Current := by
  have hlast : lastServed (filmAdded ++ [.directory (.readdir 0) (601 * 10 ^ 9)]) =
      some (["HASH/Film"], some [], true) := by decide
  refine ⟨by decide, hlast, ?_⟩
  obtain ⟨v, hv, hfields⟩ := Option.map_eq_some_iff.mp hlast
  obtain ⟨s, hs, hget⟩ := Option.bind_eq_some_iff.mp hv
  refine ⟨s, hs, fun hall => ?_⟩
  obtain ⟨hregistry, hrest⟩ := Prod.mk.inj hfields
  obtain ⟨hlisted, hannounced⟩ := Prod.mk.inj hrest
  obtain ⟨keys, hkeys, hperm⟩ := hall v (List.mem_of_getLast? hget) hannounced
  rw [hlisted] at hkeys
  rw [hregistry, ← Option.some.inj hkeys] at hperm
  exact absurd hperm.length_eq (by decide)

end RdRs.Fuse

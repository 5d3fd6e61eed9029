/-
  What the methods do to the map, whatever runs beside them.

  1. **One key** — `lookup_perform`: what an action does to the record of a key; only a write, the
     injection of a detail and a removal touch it.
  2. **Forms** — `MadeFrom` says, for each operation, how the record it writes is made from the copy
     it read.  `writes ops removes` is the protocol of a task that performs no operation but `ops`:
     each of its writes has its form, under the key of the record, and it removes a key or asks for a
     delete only on the licence of what it has just looked at.  The fatal reads, the marks, the clears
     and the refresh keep to it.
-/
import RdRs.Torrent.Tasks
import RdRs.Repair.Converge
import RdRs.Repair.Rules

set_option linter.unusedVariables false

namespace RdRs.Torrent

open RdRs.Rd RdRs.Repair RdRs.Programs RdRs.Runs

/-! ## The record of one key -/

/-- **What an action does to the record of a key.** -/
theorem lookup_perform {m m' : Manager} {a : Act} {e : Env} {r : a.Res}
    (h : perform m a e = (r, m')) (k : String) :
    m'.torrents.lookup k = m.torrents.lookup k ∨
      (∃ op base mt, a = .write op k base mt ∧ m'.torrents.lookup k = some mt) ∨
      (∃ info mt, a = .inject k info ∧ m.torrents.lookup k = some mt ∧
        m'.torrents.lookup k = some { mt with info := some info }) ∨
      (a = .remove k ∧ m'.torrents.lookup k = none) := by
  cases a with
  | write op key base mt =>
    cases h
    by_cases hk : k = key
    · subst hk
      exact Or.inr (Or.inl ⟨op, base, mt, rfl, AList.lookup_insert _⟩)
    · exact Or.inl (AList.lookup_insert_ne hk)
  | inject key info =>
    rw [perform] at h
    split at h
    · cases h
      exact Or.inl rfl
    · rename_i mt hmt
      cases h
      by_cases hk : k = key
      · subst hk
        exact Or.inr (Or.inr (Or.inl ⟨info, mt, rfl, hmt, AList.lookup_insert _⟩))
      · exact Or.inl (AList.lookup_insert_ne hk)
  | remove key =>
    cases h
    by_cases hk : k = key
    · subst hk
      exact Or.inr (Or.inr (Or.inr ⟨rfl, AList.lookup_erase k m.torrents⟩))
    · exact Or.inl (AList.lookup_erase_ne hk)
  | send key state =>
    cases h
    exact Or.inl (congrArg (AList.lookup k) (onWatch_same m key _).1)
  | subscribe key =>
    cases h
    exact Or.inl (congrArg (AList.lookup k) (onWatch_same m key _).1)
  | unsubscribe key =>
    cases h
    exact Or.inl (congrArg (AList.lookup k) (onWatch_same m key _).1)
  | openWatch key state =>
    cases h
    left
    split
    · rfl
    · rfl
  | resync key =>
    cases h
    left
    split
    · rfl
    · exact congrArg (AList.lookup k) (onWatch_same m key _).1
  | hook paths =>
    cases h
    left
    split
    · rfl
    · rfl
  | pushRepair key =>
    cases h
    left
    split
    · rfl
    · rfl
  | _ =>
    cases h
    exact Or.inl rfl

/-- Without a removal a record stays. -/
theorem isSome_perform {m m' : Manager} {a : Act} {e : Env} {r : a.Res} {k : String}
    (h : perform m a e = (r, m')) (ha : a ≠ .remove k) (hm : (m.torrents.lookup k).isSome) :
    (m'.torrents.lookup k).isSome := by
  rcases lookup_perform h k with hsame | ⟨op, base, mt, -, hnew⟩ | ⟨info, mt, -, -, hnew⟩ | ⟨hrem, -⟩
  · rw [hsame]
    exact hm
  · rw [hnew]
    rfl
  · rw [hnew]
    rfl
  · exact absurd hrem ha

/-- An action runs no batch, and hands over at most one. -/
theorem done_perform {m m' : Manager} {a : Act} {e : Env} {r : a.Res}
    (h : perform m a e = (r, m')) : m'.done = m.done ∧ m.jobs <+: m'.jobs := by
  have hwatch : ∀ key f, (onWatch m key f).done = m.done ∧ m.jobs <+: (onWatch m key f).jobs := by
    intro key f
    obtain ⟨-, -, hjobs, hdone⟩ := onWatch_same m key f
    rw [hjobs]
    exact ⟨hdone, List.prefix_rfl⟩
  cases a with
  | enqueue batch =>
    cases h
    exact ⟨rfl, List.prefix_append m.jobs [batch]⟩
  | inject key info =>
    rw [perform] at h
    split at h
    · cases h
      exact ⟨rfl, List.prefix_rfl⟩
    · cases h
      exact ⟨rfl, List.prefix_rfl⟩
  | send key state =>
    cases h
    exact hwatch key _
  | subscribe key =>
    cases h
    exact hwatch key _
  | unsubscribe key =>
    cases h
    exact hwatch key _
  | resync key =>
    cases h
    split
    · exact ⟨rfl, List.prefix_rfl⟩
    · exact hwatch key _
  | openWatch key state =>
    cases h
    split
    · exact ⟨rfl, List.prefix_rfl⟩
    · exact ⟨rfl, List.prefix_rfl⟩
  | hook paths =>
    cases h
    split
    · exact ⟨rfl, List.prefix_rfl⟩
    · exact ⟨rfl, List.prefix_rfl⟩
  | pushRepair key =>
    cases h
    split
    · exact ⟨rfl, List.prefix_rfl⟩
    · exact ⟨rfl, List.prefix_rfl⟩
  | _ =>
    cases h
    exact ⟨rfl, List.prefix_rfl⟩

/-- Records stay under their own keys if each write puts one there. -/
theorem keyed_perform {m m' : Manager} {a : Act} {e : Env} {r : a.Res} (hkeyed : Keyed m.torrents)
    (hwrite : ∀ op key base mt, a = .write op key base mt → mt.accessKey = key)
    (h : perform m a e = (r, m')) : Keyed m'.torrents := by
  intro k mt hmt
  rcases lookup_perform h k with hsame | ⟨op, base, new, ha, hnew⟩ | ⟨info, old, -, hold, hnew⟩ |
    ⟨-, hnone⟩
  · rw [hsame] at hmt
    exact hkeyed k mt hmt
  · rw [hnew] at hmt
    obtain rfl := Option.some.inj hmt
    exact hwrite op k base new ha
  · rw [hnew] at hmt
    obtain rfl := Option.some.inj hmt
    exact hkeyed k old hold
  · rw [hnone] at hmt
    cases hmt

/-! ## The forms -/

/-- How an operation makes the record `mt` from the copy `base`. -/
def MadeFrom : WriteOp → Option ManagedTorrent → ManagedTorrent → Prop
  | .updateState, base, mt =>
    ∃ old state reason now, base = some old ∧ mt = withState old state reason now
  | .markBroken path, base, mt => ∃ old, base = some old ∧ mt = withBroken old path
  | .preflightSnapshot, base, mt => ∃ old outside, base = some old ∧
      ((runPreflight outside old).value = .proceed mt ∨
        (runPreflight outside old).value = .verifiedOk mt)
  | .replaceRdIds, base, mt => ∃ old ids, base = some old ∧ mt = withRdIds old ids
  | .refreshAdd, base, mt => base = none ∧ ∃ t ids, mt = newTorrent t ids
  | .refreshMerge, base, mt => ∃ old t ids, base = some old ∧ mt = mergeTorrent old t ids

/-- The record stands under its own key. -/
def OfKey (key : String) (mt : Option ManagedTorrent) : Prop := ∀ t, mt = some t → t.accessKey = key

/-- What a task has looked at in its last action. -/
inductive Glance where
  | nothing
  | record (key : String) (mt : Option ManagedTorrent)
  | map (torrents : Torrents)

/-- Tasks that write with no operation and no record but those of `ops`, take keys out of the map only
    if `removes`, and make no call of a cascade. -/
def writes (ops : WriteOp → ManagedTorrent → Prop) (removes : Prop) : Protocol Act Act.Res Glance where
  allows
    | _, .write op key base mt => ops op mt ∧ mt.accessKey = key ∧ MadeFrom op base mt
    | s, .remove key => removes ∧ ∃ mt, s = .record key mt ∧
        (mt.map fun mt => skipLocalRemoveForState mt.state).getD false = false
    | s, .deleteTorrent id => ∃ torrents, s = .map torrents ∧
        rdIdBelongsToUnderRepair torrents id = false
    | _, .cascadeCall _ _ => False
    | _, _ => True
  answers
    | _, .get key, r => OfKey key r
    | _, .inject key _, r => OfKey key r
    | _, _, _ => True
  next
    | _, .get key, r => .record key r
    | _, .iter, r => .map r
    | _, _, _ => .nothing

/-- The record of an inject is that of its key. -/
theorem ofKey_inject {m m' : Manager} {key : String} {info : TorrentInfo} {e : Env}
    {r : Option ManagedTorrent} (hkeyed : Keyed m.torrents)
    (h : perform m (.inject key info) e = (r, m')) : OfKey key r := by
  rw [perform] at h
  split at h
  · cases h
    intro t ht
    cases ht
  · rename_i mt hmt
    cases h
    intro t ht
    obtain rfl := Option.some.inj ht
    exact hkeyed key mt hmt

/-- The answers the manager gives are such as the protocol lets a program see. -/
theorem writes_answers {ops : WriteOp → ManagedTorrent → Prop} {removes : Prop} {m m' : Manager}
    {s : Glance} {a : Act} {e : Env} {r : a.Res} (hkeyed : Keyed m.torrents)
    (h : perform m a e = (r, m')) :
    (writes ops removes).answers s a r := by
  cases a with
  | get key =>
    cases h
    exact fun t ht => hkeyed key t ht
  | inject key info => exact ofKey_inject hkeyed h
  | _ => trivial

section Methods

variable {ops : WriteOp → ManagedTorrent → Prop} {removes : Prop} {s : Glance}

/-- A batch for the table writes no record. -/
theorem upsert_writes (batch : List TorrentRow) :
    Follows (writes ops removes) s (upsert batch) anyEnd :=
  ⟨trivial, fun _ _ => ⟨trivial, fun _ _ => trivial⟩⟩

/-- The queue, the channels, the hook and a wait are free to use. -/
theorem writes_trails : Trails (writes ops removes) fun _ => True := by
  intro s a _ ha
  cases a with
  | enqueue _ | await _ | hook _ | send _ _ => exact ⟨trivial, fun _ _ => trivial⟩
  | _ => exact ha.elim

/-- A look at a record is a look at one under its own key. -/
theorem writes_get (key : String) : Takes (writes ops removes) s (.get key)
    (Looks (fun _ => True) fun mt _ => mt.accessKey = key) :=
  ⟨trivial, fun _ hr => looks_of hr⟩

/-- `update_torrent_state` writes the record with the new state. -/
theorem updateTorrentState_writes {state : TorrentState} {reason : Option String}
    (hops : ∀ mt now, ops .updateState (withState mt state reason now)) (key : String) :
    Follows (writes ops removes) s (updateTorrentState key state reason) anyEnd := by
  refine updateTorrentState_rule writes_trails (writes_get key) ?_ ?_
  · intro mt s hkey
    exact ⟨trivial, fun _ _ => hkey⟩
  · intro mt s now hkey
    exact ⟨⟨hops mt now, hkey, mt, state, reason, now, rfl, rfl⟩, fun _ _ => trivial⟩

/-- `mark_file_broken` writes the record with the file marked. -/
theorem markFileBroken_writes {path : String}
    (hops : ∀ mt, ops (.markBroken path) (withBroken mt path)) (key : String) :
    Follows (writes ops removes) s (markFileBroken key path) anyEnd := by
  refine markFileBroken_rule writes_trails (writes_get key) ?_
  intro mt s hkey
  exact ⟨⟨hops mt, hkey, mt, rfl, rfl⟩, fun _ _ => trivial⟩

/-- `ensure_torrent_info` has no write but its inject, which is free to use. -/
theorem ensureTorrentInfo_writes (key : String) :
    Follows (writes ops removes) s (ensureTorrentInfo key) anyEnd := by
  have hcopy : Follows (writes ops removes) s (ensureTorrentInfo key)
      (Looks (fun _ => True) fun _ _ => True) := by
    refine ensureTorrentInfo_rule ⟨trivial, fun _ _ => looks_of fun _ _ => trivial⟩
      (fun _ _ _ => trivial) ?_ ?_
    · exact fun _ _ _ _ => ⟨trivial, fun _ _ => trivial⟩
    · exact fun _ _ _ _ => ⟨trivial, fun _ _ => looks_of fun _ _ => trivial⟩
  exact hcopy.mono fun _ _ _ => trivial

theorem subscribeRepairState_writes (key : String) :
    Follows (writes ops removes) s (subscribeRepairState key) anyEnd :=
  ⟨trivial, fun _ _ => ⟨trivial, fun _ _ => ⟨trivial, fun _ _ => ⟨trivial, fun _ _ => trivial⟩⟩⟩⟩

/-- A fatal read sets `broken` and marks its file. -/
theorem leadFatalRead_writes {path : String}
    (hupdate : ∀ mt now, ops .updateState (withState mt .broken none now))
    (hmark : ∀ mt, ops (.markBroken path) (withBroken mt path)) (key : String) :
    Follows (writes ops removes) s (leadFatalRead key path) anyEnd := by
  rw [leadFatalRead]
  refine follows_bind.mpr ((updateTorrentState_writes hupdate key).mono fun _ _ _ => ?_)
  refine follows_bind.mpr ((markFileBroken_writes hmark key).mono fun _ _ _ => ?_)
  exact ⟨trivial, fun _ _ => ⟨trivial, fun _ _ => trivial⟩⟩

/-- A part that may be left out, where any end will do. -/
theorem when_writes {b : Bool} {p : M Unit} (h : Follows (writes ops removes) s p anyEnd) :
    Follows (writes ops removes) s (Prog.when b p) anyEnd :=
  follows_when (fun _ => h) fun _ => trivial

/-- The fatal read updates the state and marks its file. -/
theorem fatalRead_writes {path : String}
    (hupdate : ∀ mt now, ops .updateState (withState mt .broken none now))
    (hmark : ∀ mt, ops (.markBroken path) (withBroken mt path)) (key : String) (wait : Bool) :
    Follows (writes ops removes) s (Torrent.fatalRead key path wait) anyEnd := by
  rw [Torrent.fatalRead]
  refine follows_bind.mpr ((ensureTorrentInfo_writes key).mono fun _ _ _ => ?_)
  refine ⟨trivial, fun leader _ => ?_⟩
  show Follows (writes ops removes) _ (Prog.when wait _ >>= fun _ => _) anyEnd
  refine follows_bind.mpr ((when_writes (subscribeRepairState_writes key)).mono fun _ _ _ => ?_)
  refine follows_bind.mpr ((when_writes (leadFatalRead_writes hupdate hmark key)).mono fun _ _ _ => ?_)
  exact when_writes ⟨trivial, fun _ _ => trivial⟩

/-- A clear updates the state. -/
theorem clearReason_writes (hupdate : ∀ mt now, ops .updateState (withState mt .broken none now))
    (key : String) :
    Follows (writes ops removes) s (clearReason key) anyEnd := by
  rw [clearReason, Prog.call_bind, follows_act]
  refine ⟨trivial, fun r hr => ?_⟩
  cases r with
  | none => exact trivial
  | some mt =>
    dsimp only
    split
    · exact follows_bind.mpr ((updateTorrentState_writes hupdate key).mono fun _ _ _ => trivial)
    · exact trivial

theorem queueCandidate_writes (all : Bool) (key : String) :
    Follows (writes ops removes) s (queueCandidate all key) anyEnd := by
  rw [queueCandidate]
  split
  · exact ⟨trivial, fun _ _ => trivial⟩
  · rw [Prog.call_bind, follows_act]
    refine ⟨trivial, fun r hr => ?_⟩
    cases r with
    | none => exact trivial
    | some mt =>
      dsimp only
      split
      · exact ⟨trivial, fun _ _ => trivial⟩
      · exact trivial

/-- `enqueue_repair_all` writes only if it clears. -/
theorem enqueueRepairAll_writes (opts : EnqueueRepairAllOptions)
    (hupdate : opts.clearUnrepairable = true →
      ∀ mt now, ops .updateState (withState mt .broken none now)) :
    Follows (writes ops removes) s (enqueueRepairAll opts) anyEnd := by
  rw [enqueueRepairAll, Prog.call_bind, follows_act]
  refine ⟨trivial, fun torrents _ => ?_⟩
  have hclear : opts.clearUnrepairable = true → Follows (writes ops removes) (.map torrents)
      (Prog.fold (fun _ key => clearReason key) () torrents.keys) anyEnd := fun hopt =>
    follows_fold _ trivial fun key _ _ _ _ => clearReason_writes (hupdate hopt) key
  have hwhen : Follows (writes ops removes) (.map torrents) (Prog.when opts.clearUnrepairable
      (Prog.fold (fun _ key => clearReason key) () torrents.keys)) anyEnd :=
    follows_when hclear fun _ => trivial
  show Follows (writes ops removes) (.map torrents) (Prog.when _ _ >>= fun _ => _) anyEnd
  refine follows_bind.mpr (hwhen.mono fun _ _ _ => ?_)
  exact follows_fold _ trivial fun key _ _ _ _ => queueCandidate_writes opts.all key

/-- `enqueue_repair_front` writes only if it clears. -/
theorem enqueueRepairFront_writes (key : String) (clear : Bool)
    (hupdate : clear = true → ∀ mt now, ops .updateState (withState mt .broken none now)) :
    Follows (writes ops removes) s (enqueueRepairFront key clear) anyEnd := by
  rw [enqueueRepairFront]
  refine follows_bind.mpr ((?_ : Follows _ _ _ anyEnd).mono fun _ _ _ => ?_)
  · refine follows_when (fun hclear => ?_) fun _ => trivial
    exact follows_bind.mpr ((updateTorrentState_writes (hupdate hclear) key).mono
      fun _ _ _ => trivial)
  · exact ⟨trivial, fun _ _ => trivial⟩

/-! ## The refresh -/

theorem deleteUnlessRepaired_writes (id : String) :
    Follows (writes ops removes) s (deleteUnlessRepaired id) anyEnd := by
  rw [deleteUnlessRepaired, Prog.call_bind, follows_act]
  refine ⟨trivial, fun torrents _ => ?_⟩
  split
  · exact trivial
  · rename_i hfree
    exact ⟨⟨torrents, rfl, Bool.eq_false_iff.mpr hfree⟩, fun _ _ => trivial⟩

/-- Deleting on Real-Debrid writes no record. -/
theorem deleteDead_writes (cfg : RefreshConfig) (freshAll : List Torrent) :
    Follows (writes ops removes) s (deleteDead cfg freshAll) anyEnd := by
  rw [deleteDead]
  refine follows_bind.mpr ((?_ : Follows _ _ _ anyEnd).mono fun _ _ _ => ?_)
  · exact when_writes (follows_fold _ trivial fun t _ _ _ _ => deleteUnlessRepaired_writes t.id)
  · refine follows_fold _ trivial fun t _ _ _ _ => ?_
    rw [deleteIfStalled]
    split
    · exact trivial
    · rw [Prog.call_bind, follows_act]
      refine ⟨trivial, fun now _ => ?_⟩
      split
      · exact deleteUnlessRepaired_writes t.id
      · exact trivial

/-- The first loop of a refresh adds records. -/
theorem addOne_writes (hadd : ∀ t ids, ops .refreshAdd (newTorrent t ids)) (c : Changes)
    (a : Torrent × List String) :
    Follows (writes ops removes) s (addOne c a) anyEnd :=
  ⟨⟨hadd a.1 a.2, rfl, rfl, a.1, a.2, rfl⟩, fun _ _ => trivial⟩

/-- The second loop merges records. -/
theorem mergeOne_writes (hmerge : ∀ old t ids, ops .refreshMerge (mergeTorrent old t ids))
    (c : Changes) (a : Torrent × List String) :
    Follows (writes ops removes) s (mergeOne c a) anyEnd := by
  rw [mergeOne, Prog.call_bind, follows_act]
  refine ⟨trivial, fun r hr => ?_⟩
  cases r with
  | none => exact trivial
  | some existing =>
    exact ⟨⟨hmerge existing a.1 a.2, rfl, existing, a.1, a.2, rfl, rfl⟩, fun _ _ => trivial⟩

/-- The third loop removes keys. -/
theorem removeOne_writes (hremoves : removes) (c : Changes) (key : String) :
    Follows (writes ops removes) s (removeOne c key) anyEnd := by
  rw [removeOne, Prog.call_bind, follows_act]
  refine ⟨trivial, fun mt _ => ?_⟩
  split
  · exact trivial
  · rename_i hfree
    refine ⟨⟨hremoves, mt, rfl, Bool.eq_false_iff.mpr hfree⟩, fun _ _ => ?_⟩
    exact ⟨trivial, fun _ _ => trivial⟩

theorem applyDiff_writes (hadd : ∀ t ids, ops .refreshAdd (newTorrent t ids))
    (hmerge : ∀ old t ids, ops .refreshMerge (mergeTorrent old t ids)) (hremoves : removes)
    (d : DiffResult) : Follows (writes ops removes) s (applyDiff d) anyEnd := by
  rw [applyDiff]
  refine follows_bind.mpr ((?_ : Follows _ _ _ anyEnd).mono fun c _ _ => ?_)
  · exact follows_fold _ trivial fun a _ c _ _ => addOne_writes hadd c a
  refine follows_bind.mpr ((?_ : Follows _ _ _ anyEnd).mono fun c _ _ => ?_)
  · exact follows_fold _ trivial fun a _ c _ _ => mergeOne_writes hmerge c a
  exact follows_fold _ trivial fun key _ c _ _ => removeOne_writes hremoves c key

theorem publish_writes (c : Changes) : Follows (writes ops removes) s (publish c) anyEnd := by
  rw [publish]
  split
  · refine follows_bind.mpr ((upsert_writes _).mono fun ok _ _ => ?_)
    cases ok with
    | false => exact trivial
    | true => exact ⟨trivial, fun _ _ => trivial⟩
  · exact ⟨trivial, fun _ _ => trivial⟩

/-- A refresh adds, merges and removes. -/
theorem runOnce_writes (hadd : ∀ t ids, ops .refreshAdd (newTorrent t ids))
    (hmerge : ∀ old t ids, ops .refreshMerge (mergeTorrent old t ids)) (hremoves : removes)
    (cfg : RefreshConfig) : Follows (writes ops removes) s (runOnce cfg) anyEnd := by
  rw [runOnce, Prog.call_bind, follows_act]
  refine ⟨trivial, fun list _ => ?_⟩
  cases list with
  | none => exact trivial
  | some freshAll =>
    show Follows (writes ops removes) _ (runOnList cfg freshAll) anyEnd
    rw [runOnList]
    refine follows_bind.mpr ((deleteDead_writes cfg freshAll).mono fun _ _ _ => ?_)
    rw [Prog.call_bind, follows_act]
    refine ⟨trivial, fun current _ => ?_⟩
    dsimp only
    split
    · exact trivial
    · exact follows_bind.mpr ((applyDiff_writes hadd hmerge hremoves _).mono fun c _ _ =>
        publish_writes c)

end Methods

end RdRs.Torrent

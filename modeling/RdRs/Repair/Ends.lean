/-
  `torrent/state_ops.rs`, `repair/engine/repair_one.rs` — how a call ends when the database does not
  take its row.

  `update_torrent_state` writes the record in memory first and the row after it; the hook and the
  channel come last.  So an error leaves the new record behind (`update_writes_memory_first`).
  `repair_one_torrent` goes on to a last update by every exit after it has set `under_repair`, but one:
  it returns when that very update fails.

  * `repairPrepared_decides` — from preflight on every exit ends with `ok` or `broken`;
  * `repair_decides_iff` — so a repair leaves its torrent decided exactly when the row of
    `under_repair` was taken.
-/
import RdRs.Repair.Converge

set_option linter.unusedVariables false

namespace RdRs.Repair

open RdRs.Rd RdRs.Programs RdRs.Torrent

/-! ## One update -/

/-- The manager after an update of `mt`, when the row was offered and the database has said `ok`. -/
def offered (m : Manager) (key : String) (mt : ManagedTorrent) (ok : Bool) : Manager :=
  drain ok { m with
    torrents := m.torrents.insert key mt
    jobs := m.jobs ++ [[torrentToRow mt]] }

/-- An update of a key that has a record: the fourth answer after the look is the database's. -/
theorem updateTorrentState_run {key : String} {mt : ManagedTorrent} {m : Manager}
    (h : m.torrents.lookup key = some mt) (state : TorrentState) (reason : Option String)
    (env : Nat → Env) : (updateTorrentState key state reason).eval performAlone m env =
      if (env 4).ok then
        (true, onWatch { offered m key (withState mt state reason (env 1).time) true with
          hooks := m.hooks ++ [libraryPathsFor (withState mt state reason (env 1).time)] } key
          (fun w => w.send state), fun n => env (n + 7))
      else (false, offered m key (withState mt state reason (env 1).time) false,
        fun n => env (n + 5)) := by
  have hget : performAlone m (.get key) (env 0) = (m.torrents.lookup key, m) := rfl
  rw [updateTorrentState, Prog.call_bind, Prog.eval_act, hget, h]
  dsimp only
  rw [Prog.call_bind, Prog.eval_act, Prog.call_bind, Prog.eval_act, Prog.eval_bind, upsert_alone]
  show Prog.eval performAlone (if (env 4).ok then _ else _)
    (offered m key (withState mt state reason (env 1).time) (env 4).ok) _ = _
  cases (env 4).ok with
  | false => rfl
  | true => rfl

/-- What an update at time `now` makes of a record: state and reason are the new ones, the clock starts
    when the repair does, and the rest is as it was. -/
structure Updated (old new : ManagedTorrent) (next : TorrentState) (why : Option String)
    (now : Int) : Prop where
  state : new.state = next
  reason : new.unrepairableReason = why
  clock : new.underRepairStartedAt = if next = .underRepair then
    if old.state = .underRepair then old.underRepairStartedAt else some now else none
  repaired : new.lastRepairedAt = if next = .ok then some now else old.lastRepairedAt
  /-- nothing but these fields is written -/
  same : new = withState old next why now

theorem updated_withState (mt : ManagedTorrent) (state : TorrentState) (reason : Option String)
    (now : Int) : Updated mt (withState mt state reason now) state reason now :=
  ⟨rfl, rfl, rfl, rfl, rfl⟩

/-- **An update writes memory first.**  An error leaves the new record, with the time at which this
    call has read the clock (its call 1), and the table and the channels as they were; after success
    the record, its row and everyone who waits on the key's channel have the new state. -/
theorem update_writes_memory_first (key : String) (state : TorrentState) (reason : Option String)
    (m : Manager) (env : Nat → Env) :
    (((updateTorrentState key state reason).eval performAlone m env).1 = false →
      ∃ mt new, m.torrents.lookup key = some mt ∧
        ((updateTorrentState key state reason).eval performAlone m env).2.1.torrents.lookup key =
          some new ∧
        Updated mt new state reason (env 1).time ∧
        ((updateTorrentState key state reason).eval performAlone m env).2.1.rows = m.rows ∧
        ((updateTorrentState key state reason).eval performAlone m env).2.1.watches = m.watches) ∧
    (((updateTorrentState key state reason).eval performAlone m env).1 = true →
      ∀ mt, m.torrents.lookup key = some mt → ∃ new,
        ((updateTorrentState key state reason).eval performAlone m env).2.1.torrents.lookup key =
          some new ∧
        Updated mt new state reason (env 1).time ∧
        ((updateTorrentState key state reason).eval performAlone m env).2.1.rows.lookup mt.accessKey =
          some (torrentToRow new) ∧
        ∀ w, m.watches.lookup key = some w → w.receivers ≠ 0 →
          ((updateTorrentState key state reason).eval performAlone m env).2.1.watches.lookup key =
            some { w with value := state }) := by
  cases hmt : m.torrents.lookup key with
  | none =>
    have hget : performAlone m (.get key) (env 0) = (m.torrents.lookup key, m) := rfl
    rw [updateTorrentState, Prog.call_bind, Prog.eval_act, hget, hmt]
    exact ⟨fun h => absurd h (by simp), fun _ mt h => absurd h (by simp)⟩
  | some mt =>
    rw [updateTorrentState_run hmt]
    cases (env 4).ok with
    | false =>
      exact ⟨fun _ => ⟨mt, _, rfl, AList.lookup_insert _, updated_withState .., rfl, rfl⟩,
        fun h => absurd h (by simp)⟩
    | true =>
      refine ⟨fun h => absurd h (by simp), fun _ mt' hmt' => ?_⟩
      obtain rfl := Option.some.inj hmt'
      obtain ⟨htorrents, hrows, -, -⟩ := onWatch_same { offered m key
        (withState mt state reason (env 1).time) true with
          hooks := m.hooks ++ [libraryPathsFor (withState mt state reason (env 1).time)] } key
        fun w => w.send state
      refine ⟨withState mt state reason (env 1).time, ?_, updated_withState .., ?_,
        fun w hw hrec => ?_⟩
      · rw [if_pos rfl]
        show AList.lookup key (onWatch _ key _).torrents = _
        rw [htorrents]
        exact AList.lookup_insert _
      · rw [if_pos rfl]
        show AList.lookup mt.accessKey (onWatch _ key _).rows = _
        rw [hrows]
        show AList.lookup mt.accessKey (List.foldl upsertRows m.rows
          (m.jobs ++ [[torrentToRow (withState mt state reason (env 1).time)]])) = _
        rw [List.foldl_append]
        exact AList.lookup_insert _
      · rw [if_pos rfl]
        show AList.lookup key (onWatch { offered m key _ true with hooks := _ } key _).watches = _
        have hsame : ({ offered m key (withState mt state reason (env 1).time) true with
            hooks := m.hooks ++ [libraryPathsFor (withState mt state reason (env 1).time)] } :
            Manager).watches.lookup key = some w := hw
        rw [onWatch, hsame]
        dsimp only
        rw [AList.lookup_insert, Watch.send, if_neg hrec]

/-- The database does not take the row of `under_repair`: the record has the state all the same. -/
theorem failed_update_stays_in_memory :
    ((updateTorrentState "HASH/Film" .underRepair none).eval performAlone filmStored
        fun _ => answering [] false).1 = false ∧
      ((updateTorrentState "HASH/Film" .underRepair none).eval performAlone filmStored
        fun _ => answering [] false).2.1.torrents.lookup "HASH/Film" ≠
        filmStored.torrents.lookup "HASH/Film" := by
  refine ⟨by decide, fun h => ?_⟩
  have hstate := congrArg (Option.map ManagedTorrent.state) h
  exact absurd hstate (by decide)

/-! ## What keeps a record -/

/-- The record has a detail, or an id to fetch it for. -/
def Loadable (mt : ManagedTorrent) : Prop := mt.info.isSome = true ∨ mt.rdIds ≠ []

/-- `ensure_torrent_info`, alone, has an answer exactly for a record that is loadable. -/
theorem ensureTorrentInfo_isSome_iff {key : String} {m : Manager} {env : Nat → Env} :
    ((ensureTorrentInfo key).eval performAlone m env).1.isSome = true ↔
      ∃ old, m.torrents.lookup key = some old ∧ Loadable old := by
  have hget : performAlone m (.get key) (env 0) = (m.torrents.lookup key, m) := rfl
  rw [ensureTorrentInfo, Prog.call_bind, Prog.eval_act, hget]
  cases hold : m.torrents.lookup key with
  | none => simp
  | some old =>
    dsimp only
    cases hinfo : old.info.isSome with
    | true => exact iff_of_true rfl ⟨old, rfl, Or.inl hinfo⟩
    | false =>
      rw [if_neg Bool.false_ne_true]
      cases hid : old.rdIds.head? with
      | none =>
        refine iff_of_false Bool.false_ne_true ?_
        rintro ⟨old', hold', hload⟩
        obtain rfl := Option.some.inj hold'
        rcases hload with hload | hload
        · exact absurd (hinfo.symm.trans hload) (by simp)
        · exact hload (List.head?_eq_none_iff.mp hid)
      | some id =>
        have hne : old.rdIds ≠ [] := by
          intro hnil
          rw [hnil] at hid
          exact absurd hid (by simp)
        refine iff_of_true ?_ ⟨old, rfl, Or.inr hne⟩
        have hask : performAlone m (.torrentInfo id) (env 1) = ((env 1).info, m) := rfl
        dsimp only
        rw [Prog.call_bind, Prog.eval_act, hask]
        cases (env 1).info with
        | none => rfl
        | some info =>
          dsimp only
          rw [Prog.call_bind, Prog.eval_act]
          split
          · rfl
          · rfl

/-- The record under a key whose detail has been asked for is loadable still. -/
theorem ensureTorrentInfo_loadable {key : String} {m : Manager} {env : Nat → Env} {mt : ManagedTorrent}
    (h : ((ensureTorrentInfo key).eval performAlone m env).1 = some mt) : Loadable mt := by
  obtain ⟨old, hold, hload⟩ := ensureTorrentInfo_isSome_iff.mp (Option.isSome_of_eq_some h)
  obtain ⟨old', info, hold', rfl, hkept, -⟩ := ensureTorrentInfo_alone h
  obtain rfl := Option.some.inj (hold.symm.trans hold')
  rcases hload with hsome | hids
  · refine Or.inl ?_
    show info.isSome = true
    rw [hkept hsome]
    exact hsome
  · exact Or.inr hids

/-- A method that leaves a record under the key. -/
def KeepsKey {α : Type} (key : String) (p : M α) : Prop :=
  ∀ m env, key ∈ m.torrents → key ∈ (p.eval performAlone m env).2.1.torrents

/-- A method that ends with the torrent `ok` or `broken`. -/
def Decides {α : Type} (key : String) (p : M α) : Prop :=
  ∀ m env, key ∈ m.torrents → ∃ mt, (p.eval performAlone m env).2.1.torrents.lookup key = some mt ∧
    (mt.state = .ok ∨ mt.state = .broken)

theorem KeepsKey.decides {α β : Type} {key : String} {p : M α} {f : α → M β} (hp : KeepsKey key p)
    (hf : ∀ x, Decides key (f x)) : Decides key (p >>= f) := by
  intro m env hkey
  rw [Prog.eval_bind]
  exact hf _ _ _ (hp m env hkey)

theorem Decides.then_pure {α β : Type} {key : String} {p : M α} {f : α → β} (h : Decides key p) :
    Decides key (p >>= fun x => pure (f x)) := by
  intro m env hkey
  rw [Prog.eval_bind]
  exact h m env hkey

theorem persistTorrentSnapshot_keeps (key : String) (op : WriteOp) (base : Option ManagedTorrent)
    (mt : ManagedTorrent) : KeepsKey key (persistTorrentSnapshot op base mt) := by
  intro m env hkey
  rw [persistTorrentSnapshot_alone, AList.mem_insert]
  exact Or.inr hkey

theorem replaceRdIdsAfterRepair_keeps (key : String) (ids : List String) :
    KeepsKey key (replaceRdIdsAfterRepair key ids) := by
  intro m env hkey
  rw [replaceRdIdsAfterRepair_alone]
  split
  · exact hkey
  · exact (AList.mem_insert _).mpr (Or.inr hkey)

theorem runCascade_keeps (cfg : EngineConfig) (key : String) (mt : ManagedTorrent) :
    KeepsKey key (runCascade cfg key mt) := by
  intro m env hkey
  rw [(runCascade_alone cfg key mt m env).1]
  exact hkey

/-- An update to another state than `under_repair` decides, whether its row is taken or not. -/
theorem updateTorrentState_decides (key : String) {state : TorrentState} (reason : Option String)
    (h : state = .ok ∨ state = .broken) : Decides key (updateTorrentState key state reason) := by
  intro m env hkey
  obtain ⟨mt, hmt⟩ := Option.isSome_iff_exists.mp (AList.lookup_isSome.mpr hkey)
  obtain ⟨now, hup⟩ := updateTorrentState_lookup hmt state reason env
  exact ⟨_, hup, h⟩

theorem finishBroken_decides (key : String) (reason : Option String) :
    Decides key (finishBroken key reason) :=
  (updateTorrentState_decides key reason (Or.inr rfl)).then_pure

theorem finishCascade_decides (key : String) (outcome : Option CascadeOutcome) :
    Decides key (finishCascade key outcome) := by
  have hok := fun (x : RepairEnd) =>
    (updateTorrentState_decides key none (Or.inl rfl)).then_pure (f := fun _ => x)
  cases outcome with
  | none => exact finishBroken_decides key none
  | some outcome =>
    cases outcome with
    | success ids =>
      cases ids with
      | none => exact hok (.repaired none)
      | some ids => exact (replaceRdIdsAfterRepair_keeps key ids).decides fun _ => hok (.repaired (some ids))
    | unrepairable reason => exact finishBroken_decides key _
    | unrepairableMsg msg => exact finishBroken_decides key _
    | deferBandwidth => exact finishBroken_decides key none

/-- **From preflight on a repair decides**, by every exit. -/
theorem repairPrepared_decides (cfg : EngineConfig) (key : String) (mt : ManagedTorrent) :
    Decides key (repairPrepared cfg key mt) := by
  intro m env hkey
  have hask : performAlone m .preflight (env 0) = ((env 0).outside, m) := rfl
  rw [repairPrepared, Prog.call_bind, Prog.eval_act, hask]
  dsimp only
  cases (runPreflight (env 0).outside mt).value with
  | deferBandwidth => exact finishBroken_decides key none m _ hkey
  | verifiedOk r =>
    refine (persistTorrentSnapshot_keeps key _ _ r).decides (fun _ => ?_) m _ hkey
    exact (updateTorrentState_decides key none (Or.inl rfl)).then_pure
  | proceed r =>
    refine (persistTorrentSnapshot_keeps key _ _ r).decides (fun _ => ?_) m _ hkey
    exact (runCascade_keeps cfg key r).decides fun outcome => finishCascade_decides key outcome

/-! ## The repair -/

/-- `repair_one_torrent` up to the update to `under_repair`: whether it goes on to that. -/
def goesAhead (cfg : EngineConfig) (key : String) : M Bool := do
  let now ← call .now
  match ← ensureTorrentInfo key with
  | none => pure false
  | some mt =>
    if mt.unrepairableReason.isSome then pure false
    else if isStuck cfg mt now then do
      let _ ← updateTorrentState key .broken none
      pure false
    else call .capacity

/-- The update to `under_repair`, and the copy preflight works on. -/
def setUnderRepair (key : String) : M (Option ManagedTorrent) := do
  let ok ← updateTorrentState key .underRepair none
  if ok then ensureTorrentInfo key else pure none

theorem prepare_eq (cfg : EngineConfig) (key : String) :
    prepare cfg key =
      goesAhead cfg key >>= fun go => if go then setUnderRepair key else pure none := by
  rw [prepare, goesAhead, Prog.bind_assoc, Prog.call_bind, Prog.call_bind]
  refine congrArg (Prog.act Act.now) (funext fun now => ?_)
  refine Eq.trans ?_ (Prog.bind_assoc (ensureTorrentInfo key) _ _).symm
  refine congrArg (ensureTorrentInfo key >>= ·) (funext fun x => ?_)
  cases x with
  | none => rfl
  | some mt =>
    dsimp only
    split
    · rfl
    · split
      · rw [Prog.bind_assoc]
        rfl
      · rfl

/-- A repair that goes on has found a loadable record. -/
theorem goesAhead_record {cfg : EngineConfig} {key : String} {m : Manager} {env : Nat → Env}
    (h : ((goesAhead cfg key).eval performAlone m env).1 = true) :
    ∃ mt, ((goesAhead cfg key).eval performAlone m env).2.1.torrents.lookup key = some mt ∧
      Loadable mt := by
  have hnow : performAlone m .now (env 0) = ((env 0).time, m) := rfl
  rw [goesAhead, Prog.call_bind, Prog.eval_act, hnow, Prog.eval_bind] at h ⊢
  cases hfirst : ((ensureTorrentInfo key).eval performAlone m fun n => env (n + 1)).1 with
  | none =>
    rw [hfirst] at h
    cases h
  | some mt =>
    obtain ⟨_, _, _, _, _, hstored⟩ := ensureTorrentInfo_alone hfirst
    rw [hfirst] at h
    dsimp only at h ⊢
    split at h
    · cases h
    · rename_i hreason
      rw [if_neg hreason]
      split at h
      · rw [Prog.eval_bind] at h
        cases h
      · rename_i hstuck
        rw [if_neg hstuck]
        exact ⟨mt, hstored, ensureTorrentInfo_loadable hfirst⟩

/-- What the database says to the row of `under_repair`: the fifth answer after `goesAhead`. -/
def rowTaken (cfg : EngineConfig) (key : String) (m : Manager) (env : Nat → Env) : Bool :=
  (((goesAhead cfg key).eval performAlone m env).2.2 4).ok

/-- **A repair that has set out to repair leaves its torrent `ok` or `broken`** exactly if the database
    takes the row of `under_repair`. -/
theorem repair_decides_iff (cfg : EngineConfig) (key : String) (m : Manager) (env : Nat → Env)
    (hgo : ((goesAhead cfg key).eval performAlone m env).1 = true) :
    (∀ mt, ((repairOneTorrent cfg key).eval performAlone m env).2.1.torrents.lookup key = some mt →
      mt.state = .ok ∨ mt.state = .broken) ↔ rowTaken cfg key m env = true := by
  obtain ⟨mt, hmt, hload⟩ := goesAhead_record hgo
  rw [repairOneTorrent, prepare_eq, Prog.bind_assoc, Prog.eval_bind, hgo, if_pos rfl, rowTaken]
  generalize (goesAhead cfg key).eval performAlone m env = r at hmt hgo ⊢
  rw [setUnderRepair, Prog.bind_assoc, Prog.eval_bind, updateTorrentState_run hmt]
  cases (r.2.2 4).ok with
  | false =>
    refine iff_of_false (fun h => ?_) Bool.false_ne_true
    have hstate := h _ (AList.lookup_insert _)
    exact absurd hstate (by simp [withState])
  | true =>
    refine iff_of_true ?_ rfl
    rw [if_pos rfl, if_pos rfl]
    dsimp only
    generalize hm : onWatch _ key (fun w => w.send TorrentState.underRepair) = m1
    have hset : m1.torrents.lookup key =
        some (withState mt .underRepair none (r.2.2 1).time) := by
      rw [← hm, (onWatch_same _ key _).1]
      exact AList.lookup_insert _
    rw [Prog.eval_bind]
    obtain ⟨copy, hcopy⟩ := Option.isSome_iff_exists.mp
      ((@ensureTorrentInfo_isSome_iff key m1 fun n => r.2.2 (n + 7)).mpr ⟨_, hset, hload⟩)
    obtain ⟨_, _, _, _, _, hstored⟩ := ensureTorrentInfo_alone hcopy
    rw [hcopy]
    have hkey := AList.lookup_isSome.mp (Option.isSome_of_eq_some hstored)
    obtain ⟨left, hleft, hdecided⟩ := repairPrepared_decides cfg key copy _
      ((ensureTorrentInfo key).eval performAlone m1 fun n => r.2.2 (n + 7)).2.2 hkey
    intro mt' hmt'
    obtain rfl := Option.some.inj (hleft.symm.trans hmt')
    exact hdecided

/-- The database is full: it takes no row.  Real-Debrid has room (the answer to the third action). -/
def databaseFull : Nat → Env := fun n => if n = 2 then allGood else { allGood with ok := false }

/-- The film is set to `under_repair`, the row is not taken, and the repair returns. -/
theorem refused_row_leaves_under_repair :
    ((goesAhead oneHour "HASH/Film").eval performAlone
        (filmOnly (brokenFilm [⟨1, "/Film.mkv", 700, 1⟩])) databaseFull).1 = true ∧
      (((repairOneTorrent oneHour "HASH/Film").eval performAlone
        (filmOnly (brokenFilm [⟨1, "/Film.mkv", 700, 1⟩])) databaseFull).2.1.torrents.lookup
        "HASH/Film").map ManagedTorrent.state = some .underRepair ∧
      ((repairOneTorrent oneHour "HASH/Film").eval performAlone
        (filmOnly (brokenFilm [⟨1, "/Film.mkv", 700, 1⟩])) databaseFull).1 = .skipped := by
  refine ⟨by decide, by decide, by decide⟩

theorem repair_decides_iff_allGood :
    rowTaken oneHour "HASH/Film" (filmOnly (brokenFilm [⟨1, "/Film.mkv", 700, 1⟩]))
        (fun _ => allGood) = true ∧
      ∀ mt, ((repairOneTorrent oneHour "HASH/Film").eval performAlone
        (filmOnly (brokenFilm [⟨1, "/Film.mkv", 700, 1⟩])) fun _ => allGood).2.1.torrents.lookup
        "HASH/Film" = some mt → mt.state = .ok ∨ mt.state = .broken := by
  have htaken : rowTaken oneHour "HASH/Film" (filmOnly (brokenFilm [⟨1, "/Film.mkv", 700, 1⟩]))
      (fun _ => allGood) = true := by decide
  exact ⟨htaken, (repair_decides_iff oneHour "HASH/Film" _ _ (by decide)).mpr htaken⟩

end RdRs.Repair

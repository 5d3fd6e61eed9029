/-
  `torrent/state_ops.rs`, `torrent/mod.rs`, `db/conn.rs` — the operations that build records, in any
  interleaving and over restarts.

  1. **Operations** — `Op`: the writers of the registry, each the program it is.  A snapshot takes a
     copy, may load its detail, edits it while others go on, and writes it back; its `Edit` leaves the
     state and the clock alone, as preflight does (`preflightEdit`).
  2. **Lives** — `happen`: operations start at any time and act in turns, the database thread runs
     batches, and a restart loads the map from the table.  Beside the manager it is written down what
     was fetched, and for which id.
  3. **Rules** — `happen_inv` for a step of a life, `runOnce_rule` for the refresh, over any protocol.
-/
import RdRs.Torrent.Verdict

set_option linter.unusedVariables false

namespace RdRs.Torrent

open RdRs.Rd RdRs.Repair RdRs.Programs RdRs.Runs

/-! ## The state column -/

/-- The `Display` text of a state, as the column `state` has it. -/
def stateText : TorrentState → String
  | .ok => "ok"
  | .broken => "broken"
  | .underRepair => "under_repair"

/-- `TorrentState::from_str` -/
def stateFromStr (s : String) : Option TorrentState :=
  if s = "ok" then some .ok
  else if s = "broken" then some .broken
  else if s = "under_repair" then some .underRepair
  else none

/-- `row_to_torrent` reads back the state that was stored; the model's rows hold it as it is. -/
theorem stored_state_read_back (state : TorrentState) :
    (stateFromStr (stateText state)).getD .ok = state := by
  cases state <;> rfl

/-! ## The operations -/

/-- What a caller of `persist_torrent_snapshot` makes of its copy, if it goes on. -/
structure Edit where
  run : Outside → ManagedTorrent → Option ManagedTorrent
  state : ∀ o mt m, run o mt = some m → m.state = mt.state
  clock : ∀ o mt m, run o mt = some m → m.underRepairStartedAt = mt.underRepairStartedAt

/-- The record preflight leaves, unless it defers. -/
def preflightLeaves (o : Outside) (mt : ManagedTorrent) : Option ManagedTorrent :=
  match (runPreflight o mt).value with
  | .proceed m => some m
  | .verifiedOk m => some m
  | .deferBandwidth => none

theorem preflightLeaves_some {o : Outside} {mt m : ManagedTorrent}
    (h : preflightLeaves o mt = some m) :
    (runPreflight o mt).value = .proceed m ∨ (runPreflight o mt).value = .verifiedOk m := by
  rw [preflightLeaves] at h
  split at h
  · rename_i hv
    exact Or.inl (Option.some.inj h ▸ hv)
  · rename_i hv
    exact Or.inr (Option.some.inj h ▸ hv)
  · cases h

/-- Preflight, as an edit. -/
def preflightEdit : Edit where
  run := preflightLeaves
  state := fun o mt m h => by
    obtain ⟨info, states, rfl⟩ := runPreflight_edits (preflightLeaves_some h)
    rfl
  clock := fun o mt m h => by
    obtain ⟨info, states, rfl⟩ := runPreflight_edits (preflightLeaves_some h)
    rfl

/-- A copy of the record of the key, with its detail if `loads`. -/
def takeCopy (key : String) (loads : Bool) : M (Option ManagedTorrent) :=
  if loads then ensureTorrentInfo key else call (.get key)

/-- `persist_torrent_snapshot` of an edited copy. -/
def snapshotEdited (key : String) (loads : Bool) (edit : Edit) : M Unit := do
  match ← takeCopy key loads with
  | none => pure ()
  | some mt => do
    let outside ← call .preflight
    match edit.run outside mt with
    | none => pure ()
    | some m => done (persistTorrentSnapshot .preflightSnapshot (some mt) m)

/-- An operation on the registry. -/
inductive Op where
  | updateState (key : String) (state : TorrentState) (reason : Option String)
  | markBroken (key path : String)
  | snapshot (key : String) (loads : Bool) (edit : Edit)
  | replaceRdIds (key : String) (rdIds : List String)
  | ensureInfo (key : String)
  | refresh (cfg : RefreshConfig)

/-- Its program. -/
def Op.prog : Op → M Unit
  | .updateState key state reason => done (updateTorrentState key state reason)
  | .markBroken key path => done (markFileBroken key path)
  | .snapshot key loads edit => snapshotEdited key loads edit
  | .replaceRdIds key rdIds => done (replaceRdIdsAfterRepair key rdIds)
  | .ensureInfo key => done (ensureTorrentInfo key)
  | .refresh cfg => done (runOnce cfg)

/-- An operation in progress. -/
abbrev OpTask := Task Op Act Act.Res

/-- An operation at its start. -/
def Op.task (op : Op) : OpTask := ⟨op, op.prog⟩

/-! ## Lives -/

/-- The manager, and what `get_torrent_info` has answered for which id. -/
structure Living where
  m : Manager
  fetched : List (String × TorrentInfo)

/-- What an action fetches. -/
def newlyFetched : (a : Act) → a.Res → List (String × TorrentInfo)
  | .torrentInfo id, some info => [(id, info)]
  | _, _ => []

/-- An action of an operation among others. -/
def performFetching (op : Op) (w : Living) (a : Act) (e : Env) : Option (a.Res × Living) :=
  (performAmong w.m a e).map fun rm => (rm.1, ⟨rm.2, w.fetched ++ newlyFetched a rm.1⟩)

/-- One thing that happens. -/
inductive Happening where
  | starts (op : Op)
  /-- the i-th operation acts -/
  | acts (i : Nat) (e : Env)
  /-- the database thread runs its oldest batch -/
  | db (ok : Bool)
  /-- the process ends, and the next one loads the table -/
  | restarts (now : Int)

/-- The operations in progress over the manager. -/
abbrev Lived := Pool Living OpTask

/-- One step of a life. -/
def happen (p : Lived) : Happening → Option Lived
  | .starts op => some { p with tasks := p.tasks ++ [op.task] }
  | .acts i e => Pool.step (taskAct performFetching) p (i, e)
  | .db ok => (runJob p.shared.m ok).map fun m => { p with shared := ⟨m, p.shared.fetched⟩ }
  | .restarts now => some ⟨⟨reboot p.shared.m now, p.shared.fetched⟩, []⟩

/-- The start of a process over a table. -/
def booted (rows : Rows) (now : Int) : Lived :=
  ⟨⟨⟨loadFromDb rows now, rows, [], [], ∅, [], [], []⟩, []⟩, []⟩

/-- `i`-th operation `t` performs `a`, gets `r` and leaves the manager `m'`. -/
structure OpActs (p : Lived) (i : Nat) (t : OpTask) (a : Act) (kont : a.Res → M Unit) (r : a.Res)
    (m' : Manager) : Prop where
  task : p.tasks[i]? = some t
  prog : t.prog = .act a kont
  unblocked : blocked p.shared.m a = false
  effect : ∃ e, perform p.shared.m a e = (r, m')

/-- **What an operation can do**: perform its next action; the others are as they were. -/
theorem happen_acts {p q : Lived} {i : Nat} {e : Env} (h : happen p (.acts i e) = some q) :
    ∃ t a kont r m', p.tasks[i]? = some t ∧ t.prog = .act a kont ∧ blocked p.shared.m a = false ∧
      perform p.shared.m a e = (r, m') ∧
      q = ⟨⟨m', p.shared.fetched ++ newlyFetched a r⟩, p.tasks.set i ⟨t.kind, kont r⟩⟩ := by
  obtain ⟨t, w', t', hti, hact, rfl⟩ := Pool.step_eq_some h
  obtain ⟨a, kont, r, hprog, hperf, rfl⟩ := taskAct_cases hact
  obtain ⟨⟨r', m'⟩, hamong, heq⟩ := Option.map_eq_some_iff.mp hperf
  obtain ⟨rfl, rfl⟩ := Prod.mk.inj heq
  obtain ⟨hblocked, hperform⟩ := performAmong_some hamong
  exact ⟨t, a, kont, _, m', hti, hprog, hblocked, hperform, rfl⟩

/-- **The invariant rule of a life**, under a condition `C` on what happens: `I` of the manager and what
    was fetched, `J` of each operation in progress, which fetching more does not hurt. -/
theorem happen_inv {C : Lived → Happening → Prop} {I : Living → Prop} {J : Living → OpTask → Prop}
    (hgrow : ∀ w w' t, J w t → w.fetched ⊆ w'.fetched → J w' t)
    (hstarts : ∀ p op, C p (.starts op) → J p.shared op.task)
    (hacts : ∀ p i e t a kont r m', C p (.acts i e) → I p.shared → J p.shared t →
      OpActs p i t a kont r m' →
      I ⟨m', p.shared.fetched ++ newlyFetched a r⟩ ∧
        J ⟨m', p.shared.fetched ++ newlyFetched a r⟩ ⟨t.kind, kont r⟩)
    (hdb : ∀ w ok m', I w → runJob w.m ok = some m' → I ⟨m', w.fetched⟩)
    (hrestarts : ∀ w now, I w → I ⟨reboot w.m now, w.fetched⟩) :
    ∀ (p : Lived) ev q, (I p.shared ∧ ∀ t ∈ p.tasks, J p.shared t) → C p ev → happen p ev = some q →
      I q.shared ∧ ∀ t ∈ q.tasks, J q.shared t := by
  rintro p ev q ⟨hI, hJ⟩ hC h
  cases ev with
  | starts op =>
    cases h
    refine ⟨hI, fun t ht => ?_⟩
    rcases List.mem_append.mp ht with ht | ht
    · exact hJ t ht
    · obtain rfl := List.mem_singleton.mp ht
      exact hstarts p op hC
  | acts i e =>
    obtain ⟨t, a, kont, r, m', hti, hprog, hblocked, hperf, rfl⟩ := happen_acts h
    obtain ⟨hI', hJ'⟩ := hacts p i e t a kont r m' hC hI (hJ t (List.mem_of_getElem? hti))
      ⟨hti, hprog, hblocked, e, hperf⟩
    refine ⟨hI', fun u hu => ?_⟩
    rcases List.mem_or_eq_of_mem_set hu with hu | rfl
    · exact hgrow _ _ u (hJ u hu) (List.subset_append_left _ _)
    · exact hJ'
  | db ok =>
    obtain ⟨m', hm', rfl⟩ := Option.map_eq_some_iff.mp h
    exact ⟨hdb p.shared ok m' hI hm', fun t ht => hgrow _ _ t (hJ t ht) (List.Subset.refl _)⟩
  | restarts now =>
    cases h
    exact ⟨hrestarts p.shared now hI, fun t ht => absurd ht List.not_mem_nil⟩

/-! ## A rule for the refresh -/

section Rule

variable {σ : Type} {P : Protocol Act Act.Res σ} {J : σ → Prop} {D : Changes → σ → Prop}

/-- The deletes of a refresh: looks at the map and the clock, and calls. -/
theorem deleteDead_rule (hiter : ∀ s, J s → Takes P s .iter fun _ => J)
    (hnow : ∀ s, J s → Takes P s .now fun _ => J)
    (hdelete : ∀ s id, J s → Takes P s (.deleteTorrent id) fun _ => J) {s : σ} (hs : J s)
    (cfg : RefreshConfig) (freshAll : List Torrent) :
    Follows P s (deleteDead cfg freshAll) fun _ => J := by
  have hone : ∀ id s, J s → Follows P s (deleteUnlessRepaired id) fun _ => J := by
    intro id s hs
    rw [deleteUnlessRepaired, Prog.call_bind, follows_act]
    refine ⟨(hiter s hs).1, fun torrents ht => ?_⟩
    have hs' := (hiter s hs).2 torrents ht
    split
    · exact hs'
    · exact ⟨(hdelete _ id hs').1, (hdelete _ id hs').2⟩
  rw [deleteDead]
  refine follows_bind.mpr ((?_ : Follows P s _ fun _ => J).mono fun _ s hs => ?_)
  · exact follows_when (fun _ => follows_fold _ hs fun t _ _ s hs => hone t.id s hs) fun _ => hs
  · refine follows_fold _ hs fun t _ _ s hs => ?_
    rw [deleteIfStalled]
    split
    · exact hs
    · rw [Prog.call_bind, follows_act]
      refine ⟨(hnow s hs).1, fun now hn => ?_⟩
      have hs' := (hnow s hs).2 now hn
      split
      · exact hone t.id _ hs'
      · exact hs'

/-- `run_once`: it fetches the list, deletes, looks at the map, and then each of its loops goes on with
    the changes so far (`D`). -/
theorem runOnce_rule (hlist : ∀ s, J s → Takes P s .listTorrents fun _ => J)
    (hiter : ∀ s, J s → Takes P s .iter fun _ => J) (hnow : ∀ s, J s → Takes P s .now fun _ => J)
    (hdelete : ∀ s id, J s → Takes P s (.deleteTorrent id) fun _ => J)
    (hstart : ∀ s, J s → D ⟨[], []⟩ s)
    (hadd : ∀ a c s, D c s → Follows P s (addOne c a) D)
    (hmerge : ∀ a c s, D c s → Follows P s (mergeOne c a) D)
    (hremove : ∀ key c s, D c s → Follows P s (removeOne c key) D)
    (hpublish : ∀ c s, D c s → Follows P s (publish c) anyEnd) {s : σ} (hs : J s)
    (cfg : RefreshConfig) : Follows P s (runOnce cfg) anyEnd := by
  have happly : ∀ d s, J s → Follows P s (applyDiff d) D := by
    intro d s hs
    rw [applyDiff]
    refine follows_bind.mpr ((follows_fold d.added (hstart s hs)
      fun a _ c s hc => hadd a c s hc).mono fun c s hc => ?_)
    refine follows_bind.mpr ((follows_fold d.changed hc
      fun a _ c s hc => hmerge a c s hc).mono fun c s hc => ?_)
    exact follows_fold d.removedKeys hc fun key _ c s hc => hremove key c s hc
  rw [runOnce, Prog.call_bind, follows_act]
  refine ⟨(hlist s hs).1, fun list hl => ?_⟩
  have hs' := (hlist s hs).2 list hl
  cases list with
  | none => exact trivial
  | some freshAll =>
    show Follows P _ (runOnList cfg freshAll) anyEnd
    rw [runOnList]
    refine follows_bind.mpr ((deleteDead_rule hiter hnow hdelete hs' cfg freshAll).mono
      fun _ s hs => ?_)
    rw [Prog.call_bind, follows_act]
    refine ⟨(hiter s hs).1, fun current hc => ?_⟩
    have hs' := (hiter s hs).2 current hc
    dsimp only
    split
    · exact trivial
    · exact follows_bind.mpr ((happly _ _ hs').mono fun c s hc => hpublish c s hc)

end Rule

end RdRs.Torrent

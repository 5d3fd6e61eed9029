/-
  The verdict `unrepairable_reason` over the life of the registry.

  A repair that is beyond help writes a reason, and `repair_one_torrent` turns away a torrent that has
  one.  The reason is a field of the record like any other: whoever stores a record stores its own idea
  of the reason with it, and `update_torrent_state` stores its argument.

  1. **Lives** — `live`: steps of the tasks, and restarts, which load the map from the table and start
     new tasks.  The repair engine is one task (its sessions are single-flight); fatal reads, marks,
     refresh passes and the two ways to queue repairs run beside it.
  2. **Engine** — `engineProtocol`: it writes a key, and makes the calls of a cascade for it, only after
     a look that showed no reason and as long as it has written none itself.
  3. **Condition** — `Heeds`: the others write no state over a verdict, and what they store is made from
     a copy with the reason the map has; a restart finds the reason in the table.
  4. **Result** — the verdict stays until it is cleared or its torrent is removed, and meanwhile no
     cascade call is made for it (`verdict_sticks`).
-/
import RdRs.Repair.Rules
import RdRs.Torrent.Writes
import RdRs.Torrent.Replicas

set_option linter.unusedVariables false

namespace RdRs.Torrent

open RdRs.Rd RdRs.Repair RdRs.Programs RdRs.Runs

/-- The reason in a record, if there is a record. -/
def reasonIn (mt : Option ManagedTorrent) : Option String :=
  mt.bind ManagedTorrent.unrepairableReason

/-- The verdict on a key. -/
def verdict (k : String) (torrents : Torrents) : Option String := reasonIn (torrents.lookup k)

/-! ## The engine -/

/-- The engine, as far as `k` goes: the state of the protocol says that its last look at `k` showed no
    reason and that it has written none since. -/
def engineProtocol (k : String) : Protocol Act Act.Res Bool where
  allows
    | clear, .write _ key _ mt => mt.accessKey = key ∧ (key = k → clear = true)
    | clear, .cascadeCall key _ => key = k → clear = true
    | _, .remove _ => False
    | _, _ => True
  answers
    | clear, .get key, r => OfKey key r ∧ (key = k → clear = true → reasonIn r = none)
    | clear, .inject key _, r => OfKey key r ∧ (key = k → clear = true → reasonIn r = none)
    | _, _, _ => True
  next
    | clear, .get key, r => if key = k then (reasonIn r).isNone else clear
    | clear, .inject key _, r => if key = k then (reasonIn r).isNone else clear
    | clear, .write _ key _ mt, _ => if key = k then mt.unrepairableReason.isNone else clear
    | clear, _, _ => clear

section Engine

variable {k key : String}

/-- If the repair is about `k`, its last look at it showed no reason. -/
def SeenClear (k key : String) (clear : Bool) : Prop := key = k → clear = true

/-- A copy the repair has just taken. -/
def FirstCopy (k key : String) (mt : ManagedTorrent) (clear : Bool) : Prop :=
  mt.accessKey = key ∧ (mt.unrepairableReason = none → SeenClear k key clear)

/-- A copy without a reason. -/
def ClearCopy (k key : String) (mt : ManagedTorrent) (clear : Bool) : Prop :=
  mt.accessKey = key ∧ (key = k → mt.unrepairableReason = none) ∧ SeenClear k key clear

theorem engine_get (k key : String) (clear : Bool) :
    Takes (engineProtocol k) clear (.get key) (Looks (SeenClear k key) (FirstCopy k key)) := by
  refine ⟨trivial, fun r hr => ?_⟩
  have hnext : (engineProtocol k).next clear (.get key) r =
      if key = k then (reasonIn r).isNone else clear := rfl
  rw [hnext]
  cases r with
  | none => exact fun hk => by rw [if_pos hk]; rfl
  | some mt =>
    refine ⟨hr.1 mt rfl, fun hnone hk => ?_⟩
    rw [if_pos hk]
    exact Option.isNone_iff_eq_none.mpr hnone

theorem engine_getClear {clear : Bool} (h : SeenClear k key clear) :
    Takes (engineProtocol k) clear (.get key) (Looks (SeenClear k key) (ClearCopy k key)) := by
  refine ⟨trivial, fun r hr => ?_⟩
  have hlook := (engine_get k key clear).2 r hr
  cases r with
  | none => exact hlook
  | some mt =>
    have hnone : key = k → mt.unrepairableReason = none := fun hk => hr.2 hk (h hk)
    exact ⟨hlook.1, hnone, fun hk => hlook.2 (hnone hk) hk⟩

theorem engine_trails {J : Bool → Prop} : Trails (engineProtocol k) J := by
  intro clear a hs ha
  cases a with
  | enqueue batch => exact ⟨trivial, fun r _ => hs⟩
  | await ticket => exact ⟨trivial, fun r _ => hs⟩
  | hook paths => exact ⟨trivial, fun r _ => hs⟩
  | send key state => exact ⟨trivial, fun r _ => hs⟩
  | _ => exact False.elim ha

theorem engine_write {clear : Bool} (op : WriteOp) (base : Option ManagedTorrent)
    (mt : ManagedTorrent) (hkey : mt.accessKey = key) (hclear : SeenClear k key clear) :
    Takes (engineProtocol k) clear (.write op key base mt) fun _ clear' =>
      (key = k → mt.unrepairableReason = none) → SeenClear k key clear' := by
  refine ⟨⟨hkey, hclear⟩, fun r _ hnone hk => ?_⟩
  show (if key = k then mt.unrepairableReason.isNone else clear) = true
  rw [if_pos hk]
  exact Option.isNone_iff_eq_none.mpr (hnone hk)

/-- A look at the record: what `get` shows of a copy, and what a write of its details leaves of it. -/
theorem engine_looks {C : ManagedTorrent → Bool → Prop} {clear : Bool}
    (hget : Takes (engineProtocol k) clear (.get key) (Looks (SeenClear k key) C))
    (hinject : ∀ mt s info, C mt s → Takes (engineProtocol k) s (.inject key info)
      (Looks (C { mt with info := some info }) C)) :
    Follows (engineProtocol k) clear (ensureTorrentInfo key) (Looks (fun _ => True) C) := by
  refine ensureTorrentInfo_rule (J := fun _ => True) ⟨hget.1, fun r hr => ?_⟩
    (fun mt s h => trivial) ?_ hinject
  · have hlook := hget.2 r hr
    cases r with
    | none => exact trivial
    | some mt => exact hlook
  · intro mt s id h
    exact ⟨trivial, fun r _ => h⟩

/-- The first look at the record. -/
theorem engine_ensureTorrentInfo (clear : Bool) :
    Follows (engineProtocol k) clear (ensureTorrentInfo key)
      (Looks (fun _ => True) (FirstCopy k key)) := by
  refine engine_looks (engine_get k key clear) fun mt s info h => ⟨trivial, fun r hr => ?_⟩
  have hnext : (engineProtocol k).next s (.inject key info) r =
      if key = k then (reasonIn r).isNone else s := rfl
  rw [hnext]
  cases r with
  | none => exact ⟨h.1, fun _ hk => by rw [if_pos hk]; rfl⟩
  | some updated =>
    refine ⟨hr.1 updated rfl, fun hnone hk => ?_⟩
    rw [if_pos hk]
    exact Option.isNone_iff_eq_none.mpr hnone

/-- The second look, at a record that had no reason. -/
theorem engine_ensureTorrentInfoClear {clear : Bool} (h : SeenClear k key clear) :
    Follows (engineProtocol k) clear (ensureTorrentInfo key)
      (Looks (fun _ => True) (ClearCopy k key)) := by
  refine engine_looks (engine_getClear h) fun mt s info h => ⟨trivial, fun r hr => ?_⟩
  have hnext : (engineProtocol k).next s (.inject key info) r =
      if key = k then (reasonIn r).isNone else s := rfl
  have hclear : SeenClear k key ((engineProtocol k).next s (.inject key info) r) := by
    intro hk
    rw [hnext, if_pos hk]
    exact Option.isNone_iff_eq_none.mpr (hr.2 hk (h.2.2 hk))
  cases r with
  | none => exact ⟨h.1, h.2.1, hclear⟩
  | some updated => exact ⟨hr.1 updated rfl, fun hk => hr.2 hk (h.2.2 hk), hclear⟩

theorem engine_updateTorrentState {clear : Bool} (h : SeenClear k key clear) (state : TorrentState)
    (reason : Option String) :
    Follows (engineProtocol k) clear (updateTorrentState key state reason) fun _ clear' =>
      reason = none → SeenClear k key clear' := by
  have hget := engine_getClear h
  refine updateTorrentState_rule (J := fun clear' => reason = none → SeenClear k key clear')
    (K := ClearCopy k key) engine_trails ⟨hget.1, fun r hr => ?_⟩ ?_ ?_
  · have hlook := hget.2 r hr
    cases r with
    | none => exact fun _ => hlook
    | some mt => exact hlook
  · intro mt s h
    exact ⟨trivial, fun r _ => h⟩
  · intro mt s now h
    obtain ⟨hallows, hafter⟩ := engine_write .updateState (some mt)
      (withState mt state reason now) h.1 h.2.2
    exact ⟨hallows, fun r hr hnone => hafter r hr fun _ => hnone⟩

/-- **A repair keeps to the protocol**, whichever key it repairs. -/
theorem engine_repairOneTorrent (cfg : EngineConfig) (clear : Bool) :
    Follows (engineProtocol k) clear (repairOneTorrent cfg key) anyEnd := by
  refine repairOneTorrent_rule (prepare_rule (A := fun _ => True) (B := SeenClear k key) ?_
    (fun s _ => engine_ensureTorrentInfo s) ?_ ?_ (fun s h => engine_ensureTorrentInfoClear h)
    trivial) ?_
  · intro s _
    exact ⟨trivial, fun r _ => trivial⟩
  · intro mt s h
    exact ⟨trivial, fun r _ => h⟩
  · intro mt s state h hreason
    exact (engine_updateTorrentState (h.2 hreason) state none).mono fun _ s hs => hs rfl
  · intro mt s h
    refine repairPrepared_rule (D := SeenClear k key) (Q := fun _ => ClearCopy k key mt)
      ⟨trivial, fun o _ => h⟩ ?_ ?_ ?_ ?_ ?_
    · intro o s h
      exact (engine_updateTorrentState h.2.2 .broken none).mono fun _ _ _ => trivial
    · intro o s m h hm
      obtain ⟨info, states, rfl⟩ := runPreflight_edits hm
      obtain ⟨rfl, hnone, hclear⟩ := h
      refine persistTorrentSnapshot_rule engine_trails ?_
      obtain ⟨hallows, hafter⟩ := engine_write .preflightSnapshot (some mt)
        { mt with info := info, fileStates := states } rfl hclear
      exact ⟨hallows, fun r hr => hafter r hr hnone⟩
    · intro m s hs
      refine runCascade_rule ?_ ?_ hs
      · intro s hs
        exact ⟨trivial, fun r _ => hs⟩
      · intro s ev hs
        exact ⟨hs, fun r _ => hs⟩
    · intro ids s hs
      refine replaceRdIdsAfterRepair_rule engine_trails (engine_getClear hs) ?_
      rintro mt s ⟨rfl, hnone, hclear⟩
      obtain ⟨hallows, hafter⟩ := engine_write .replaceRdIds (some mt) (withRdIds mt ids) rfl hclear
      exact ⟨hallows, fun r hr => hafter r hr hnone⟩
    · intro state reason s hs
      exact (engine_updateTorrentState hs state reason).mono fun _ _ _ => trivial

end Engine

/-! ## Lives -/

/-- What runs beside the engine. -/
def RegistryKind : Kind → Prop
  | .fatalRead _ _ _ | .markBroken _ _ | .refresh _ | .enqueueAll _ | .enqueueFront _ _ => True
  | _ => False

/-- The task was called to clear reasons. -/
def clears : Kind → Bool
  | .enqueueAll opts => opts.clearUnrepairable
  | .enqueueFront _ clear => clear
  | _ => false

/-- What is started with the registry. -/
structure Boot where
  cfg : EngineConfig
  keys : List String
  others : List Kind
  registry : ∀ kind ∈ others, RegistryKind kind

/-- Its tasks. -/
def Boot.tasks (b : Boot) : List RegTask := (.engine b.cfg b.keys :: b.others).map start

/-- The manager after a restart: the map is what the table holds, and whatever the database thread had
    not run is gone. -/
def reboot (m : Manager) (now : Int) : Manager :=
  ⟨loadFromDb m.rows now, m.rows, [], [], ∅, [], [], []⟩

/-- One step of a life. -/
inductive Life where
  | within (ev : Event)
  | restart (now : Int) (boot : Boot)

/-- The registry over its restarts. -/
def live (p : World Unit) : Life → Option (World Unit)
  | .within ev => step unobserved p ev
  | .restart now boot => some ⟨⟨reboot p.shared.m now, ()⟩, boot.tasks⟩

/-! ## The condition -/

/-- A write to `k` by anyone but the engine, if not called to clear: no state is set over a verdict, a
    new record replaces none, and any other record has the reason of the one in the map. -/
def Heedful (k : String) (m : Manager) : WriteOp → Option ManagedTorrent → Prop
  | .updateState, _ => verdict k m.torrents = none
  | .refreshAdd, _ => verdict k m.torrents = none
  | _, base => reasonIn base = verdict k m.torrents

/-- The same for an event. -/
def HeedfulEvent (k : String) (p : World Unit) (ev : Event) : Prop :=
  ∀ t op base mt, Acts p ev t (.write op k base mt) → RegistryKind t.kind → clears t.kind = false →
    Heedful k p.shared.m op base

/-- Every write heeds the verdict, and a restart finds it in the table. -/
def Heeds (k : String) (p : World Unit) : Life → Prop
  | .within ev => HeedfulEvent k p ev
  | .restart _ _ => (verdict k p.shared.m.torrents).isSome →
      ((p.shared.m.rows.lookup k).bind TorrentRow.unrepairableReason).isSome

/-- The verdict is let go: the torrent is removed, or a task writes it that was called to clear. -/
def LetGo (k : String) (p : World Unit) : Life → Prop
  | .within ev => ∃ t, Acts p ev t (.remove k) ∨
      clears t.kind = true ∧ ∃ op base mt, Acts p ev t (.write op k base mt)
  | .restart _ _ => False

/-! ## The invariant -/

/-- What a task beside the engine writes: states without a reason; and one that clears, only those. -/
def RegistryOp (kind : Kind) (op : WriteOp) (mt : ManagedTorrent) : Prop :=
  (op = .updateState → mt.unrepairableReason = none) ∧ (clears kind = true → op = .updateState)

/-- The engine at work: where its last look showed no reason there is none. -/
def EngineTask (k : String) (w : Watched Unit) (t : RegTask) : Prop :=
  (∃ cfg keys, t.kind = .engine cfg keys) ∧ Keyed w.m.torrents ∧
    ∃ clear, Follows (engineProtocol k) clear t.prog anyEnd ∧
      (clear = true → verdict k w.m.torrents = none)

/-- A task beside it. -/
def RegistryTask (t : RegTask) : Prop :=
  RegistryKind t.kind ∧ ∃ g, Follows (writes (RegistryOp t.kind) True) g t.prog anyEnd

theorem registryTask_start {kind : Kind} (h : RegistryKind kind) : RegistryTask (start kind) := by
  refine ⟨h, .nothing, ?_⟩
  cases kind with
  | fatalRead key path wait =>
    refine fatalRead_writes (fun mt now => ⟨fun _ => rfl, fun hc => ?_⟩)
      (fun mt => ⟨fun hop => WriteOp.noConfusion hop, fun hc => ?_⟩) key wait
    · cases hc
    · cases hc
  | markBroken key path =>
    refine follows_done (markFileBroken_writes (fun mt => ⟨fun hop => WriteOp.noConfusion hop,
      fun hc => ?_⟩) key)
    cases hc
  | refresh cfg =>
    refine follows_done (runOnce_writes (fun t ids => ⟨fun hop => WriteOp.noConfusion hop,
      fun hc => ?_⟩) (fun old t ids => ⟨fun hop => WriteOp.noConfusion hop, fun hc => ?_⟩) trivial cfg)
    · cases hc
    · cases hc
  | enqueueAll opts =>
    exact enqueueRepairAll_writes opts fun _ mt now => ⟨fun _ => rfl, fun _ => rfl⟩
  | enqueueFront key clear =>
    exact enqueueRepairFront_writes key clear fun _ mt now => ⟨fun _ => rfl, fun _ => rfl⟩
  | _ => exact False.elim h

/-- The tasks of a boot, over a manager whose records are under their keys. -/
theorem boot_led (k : String) {m : Manager} (hkeyed : Keyed m.torrents) (boot : Boot) :
    Led (EngineTask k) (fun _ => RegistryTask) ⟨⟨m, ()⟩, boot.tasks⟩ := by
  refine ⟨start (.engine boot.cfg boot.keys), boot.others.map start, rfl,
    ⟨⟨_, _, rfl⟩, hkeyed, false, ?_, fun h => ?_⟩, ?_⟩
  · refine follows_fold _ trivial fun key _ _ clear _ => ?_
    exact follows_done (engine_repairOneTorrent boot.cfg clear)
  · cases h
  · intro t ht
    obtain ⟨kind, hkind, rfl⟩ := List.mem_map.mp ht
    exact registryTask_start (boot.registry kind hkind)

theorem keyed_loadFromDb (rows : Rows) (now : Int) : Keyed (loadFromDb rows now) := by
  intro k mt hmt
  rw [loadFromDb_lookup] at hmt
  obtain ⟨row, -, rfl⟩ := Option.map_eq_some_iff.mp hmt
  rfl

section Step

variable {k : String} {w : Watched Unit} {m' : Manager} {a : Act} {e : Env} {r : a.Res}

/-- A record that is neither a new one nor one with a new state has the reason of its copy. -/
theorem reason_of_madeFrom {op : WriteOp} {base : Option ManagedTorrent} {mt : ManagedTorrent}
    (h : MadeFrom op base mt) (hupdate : op ≠ .updateState) (hadd : op ≠ .refreshAdd) :
    mt.unrepairableReason = reasonIn base := by
  cases op with
  | updateState => exact absurd rfl hupdate
  | markBroken path =>
    obtain ⟨old, rfl, rfl⟩ := h
    rfl
  | preflightSnapshot =>
    obtain ⟨old, o, rfl, hm⟩ := h
    obtain ⟨_, _, rfl⟩ := runPreflight_edits hm
    rfl
  | replaceRdIds =>
    obtain ⟨old, ids, rfl, rfl⟩ := h
    rfl
  | refreshAdd => exact absurd rfl hadd
  | refreshMerge =>
    obtain ⟨old, t, ids, rfl, rfl⟩ := h
    rfl

/-- The reason a task beside the engine writes: none, or that in the map. -/
theorem registry_reason {kind : Kind} {op : WriteOp} {base : Option ManagedTorrent}
    {mt : ManagedTorrent} {m : Manager} (hop : RegistryOp kind op mt) (hmade : MadeFrom op base mt)
    (hheed : clears kind = false → Heedful k m op base) :
    mt.unrepairableReason = none ∧ (clears kind = true ∨ verdict k m.torrents = none) ∨
      mt.unrepairableReason = verdict k m.torrents := by
  cases hc : clears kind with
  | true => exact Or.inl ⟨hop.1 (hop.2 hc), Or.inl rfl⟩
  | false =>
    have hh := hheed hc
    cases op with
    | updateState => exact Or.inl ⟨hop.1 rfl, Or.inr hh⟩
    | refreshAdd =>
      obtain ⟨-, t, ids, rfl⟩ := hmade
      exact Or.inl ⟨rfl, Or.inr hh⟩
    | _ => exact Or.inr ((reason_of_madeFrom hmade WriteOp.noConfusion WriteOp.noConfusion).trans hh)

theorem engine_answers {clear : Bool} (hkeyed : Keyed w.m.torrents)
    (hclear : clear = true → verdict k w.m.torrents = none) (h : perform w.m a e = (r, m')) :
    (engineProtocol k).answers clear a r := by
  cases a with
  | get key =>
    cases h
    refine ⟨fun t ht => hkeyed key t ht, ?_⟩
    rintro rfl hc
    exact hclear hc
  | inject key info =>
    refine ⟨ofKey_inject hkeyed h, ?_⟩
    rintro rfl hc
    have hnone := hclear hc
    rw [perform] at h
    split at h
    · cases h
      rfl
    · rename_i mt hmt
      cases h
      rw [verdict, hmt] at hnone
      exact hnone
  | _ => trivial

/-- What an action does to the verdict: a write sets it, a removal takes it away. -/
theorem verdict_perform {m : Manager} (h : perform m a e = (r, m')) (k : String) :
    verdict k m'.torrents = verdict k m.torrents ∨
      (∃ op base mt, a = .write op k base mt ∧
        verdict k m'.torrents = mt.unrepairableReason) ∨
      (a = .remove k ∧ verdict k m'.torrents = none) := by
  rcases lookup_perform h k with hsame | ⟨op, base, mt, ha, hnew⟩ | ⟨info, mt, -, hold, hnew⟩ |
    ⟨ha, hnone⟩
  · left
    rw [verdict, hsame]
    rfl
  · refine Or.inr (Or.inl ⟨op, base, mt, ha, ?_⟩)
    rw [verdict, hnew]
    rfl
  · left
    rw [verdict, verdict, hnew, hold]
    rfl
  · refine Or.inr (Or.inr ⟨ha, ?_⟩)
    rw [verdict, hnone]
    rfl

/-- Every other action leaves it. -/
theorem verdict_same {m : Manager} (h : perform m a e = (r, m')) {k : String}
    (hwrite : ∀ op base mt, a ≠ .write op k base mt) (hremove : a ≠ .remove k) :
    verdict k m'.torrents = verdict k m.torrents := by
  rcases verdict_perform h k with hsame | ⟨op, base, mt, ha, -⟩ | ⟨ha, -⟩
  · exact hsame
  · exact absurd ha (hwrite op base mt)
  · exact absurd ha hremove

/-- The engine knows the verdict on `k` from its own looks and writes. -/
theorem engine_verdict {clear : Bool} (hallows : (engineProtocol k).allows clear a)
    (hclear : clear = true → verdict k w.m.torrents = none) (h : perform w.m a e = (r, m')) :
    (engineProtocol k).next clear a r = true → verdict k m'.torrents = none := by
  intro hnext
  cases a with
  | get key =>
    cases h
    have hnext' : (if key = k then (reasonIn (w.m.torrents.lookup key)).isNone else clear) = true :=
      hnext
    split at hnext'
    · rename_i hk
      rw [verdict, ← hk]
      exact Option.isNone_iff_eq_none.mp hnext'
    · exact hclear hnext'
  | inject key info =>
    have hnext' : (if key = k then (reasonIn r).isNone else clear) = true := hnext
    rw [verdict_same h (fun _ _ _ ha => by cases ha) fun ha => by cases ha]
    split at hnext'
    · rename_i hk
      have hr : reasonIn r = verdict key w.m.torrents := by
        rw [perform] at h
        split at h
        · rename_i hnone
          cases h
          rw [verdict, hnone]
        · rename_i mt hmt
          cases h
          rw [verdict, hmt]
          rfl
      rw [← hk, ← hr]
      exact Option.isNone_iff_eq_none.mp hnext'
    · exact hclear hnext'
  | write op key base mt =>
    have hnext' : (if key = k then mt.unrepairableReason.isNone else clear) = true := hnext
    rcases verdict_perform h k with hsame | ⟨op', base', mt', ha, hnew⟩ | ⟨ha, -⟩
    · rw [hsame]
      split at hnext'
      · rename_i hk
        exact hclear (hallows.2 hk)
      · exact hclear hnext'
    · obtain ⟨rfl, rfl, rfl, rfl⟩ := Act.write.inj ha
      rw [if_pos rfl] at hnext'
      rw [hnew]
      exact Option.isNone_iff_eq_none.mp hnext'
    · cases ha
  | remove key => exact False.elim hallows
  | _ =>
    rw [verdict_same h (fun _ _ _ ha => by cases ha) fun ha => by cases ha]
    exact hclear hnext

theorem EngineTask.next {t : RegTask} {kont : a.Res → M Unit} (h : EngineTask k w t)
    (hprog : t.prog = .act a kont) (hperf : perform w.m a e = (r, m')) :
    EngineTask k ⟨m', ()⟩ ⟨t.kind, kont r⟩ := by
  obtain ⟨hkind, hkeyed, clear, hfollows, hclear⟩ := h
  obtain ⟨hallows, hnext⟩ := hfollows.step hprog
  refine ⟨hkind, ?_, _, hnext r (engine_answers hkeyed hclear hperf),
    engine_verdict hallows hclear hperf⟩
  refine keyed_perform hkeyed ?_ hperf
  rintro op key base mt rfl
  exact hallows.1

/-- Beside the engine nobody brings a verdict back. -/
theorem EngineTask.beside {t : RegTask} {kind : Kind} {g : Glance} (h : EngineTask k w t)
    (hallows : (writes (RegistryOp kind) True).allows g a) (hperf : perform w.m a e = (r, m'))
    (hheed : ∀ op base mt, a = .write op k base mt → clears kind = false → Heedful k w.m op base) :
    EngineTask k ⟨m', ()⟩ t := by
  obtain ⟨hkind, hkeyed, clear, hfollows, hclear⟩ := h
  refine ⟨hkind, ?_, clear, hfollows, fun hc => ?_⟩
  · refine keyed_perform hkeyed ?_ hperf
    rintro op key base mt rfl
    exact hallows.2.1
  · have hnone := hclear hc
    rcases verdict_perform hperf k with hsame | ⟨op, base, mt, rfl, hnew⟩ | ⟨-, hgone⟩
    · exact hsame.trans hnone
    · obtain ⟨hop, -, hmade⟩ := hallows
      rcases registry_reason hop hmade (hheed op base mt rfl) with ⟨hreason, -⟩ | hreason
      · exact hnew.trans hreason
      · exact hnew.trans (hreason.trans hnone)
    · exact hgone

end Step

theorem engine_step (k : String) : ∀ (p : World Unit) ev q,
    Led (EngineTask k) (fun _ => RegistryTask) p → HeedfulEvent k p ev →
      step unobserved p ev = some q → Led (EngineTask k) (fun _ => RegistryTask) q := by
  refine led_step ?_ ?_ ?_
  · rintro p ev lead rest a kont r m' htasks hlead hrest hC ⟨hacts, hprog, hb, e, hperf⟩
    exact ⟨hlead.next hprog hperf, hrest⟩
  · rintro p ev lead rest t a kont r m' htasks ht hlead hrest hC ⟨hacts, hprog, hb, e, hperf⟩
    obtain ⟨hkind, g, hfollows⟩ := hrest t ht
    obtain ⟨hallows, hnext⟩ := hfollows.step hprog
    refine ⟨hlead.beside hallows hperf ?_, ⟨hkind, _, hnext r (writes_answers hlead.2.1 hperf)⟩, hrest⟩
    rintro op base mt rfl hc
    exact hC t op base mt hacts hkind hc
  · intro p ok lead rest m' htasks hlead hrest hrun
    obtain ⟨batch, others, hjobs, rfl⟩ := runJob_some hrun
    exact ⟨hlead, hrest⟩

theorem live_step (k : String) (p : World Unit) (ev : Life) (q : World Unit)
    (h : Led (EngineTask k) (fun _ => RegistryTask) p) (hC : Heeds k p ev)
    (hstep : live p ev = some q) : Led (EngineTask k) (fun _ => RegistryTask) q := by
  cases ev with
  | within ev => exact engine_step k p ev q h hC hstep
  | restart now boot =>
    obtain rfl := Option.some.inj hstep
    exact boot_led k (keyed_loadFromDb _ now) boot

/-! ## The result -/

/-- One step keeps the verdict, unless it lets it go. -/
theorem verdict_step (k : String) (p : World Unit) (ev : Life) (q : World Unit)
    (h : Led (EngineTask k) (fun _ => RegistryTask) p)
    (hsome : (verdict k p.shared.m.torrents).isSome) (hC : Heeds k p ev) (hgo : ¬LetGo k p ev)
    (hstep : live p ev = some q) : (verdict k q.shared.m.torrents).isSome := by
  cases ev with
  | restart now boot =>
    obtain rfl := Option.some.inj hstep
    have hrow := hC hsome
    show (verdict k (loadFromDb p.shared.m.rows now)).isSome
    rw [verdict, loadFromDb_lookup]
    cases hlook : p.shared.m.rows.lookup k with
    | none =>
      rw [hlook] at hrow
      exact hrow
    | some row =>
      rw [hlook] at hrow
      exact hrow
  | within ev =>
    obtain ⟨lead, rest, htasks, ⟨-, -, clear, hfollows, hclear⟩, hrest⟩ := h
    rcases step_cases hstep with ⟨xs, t, ys, e, a, kont, r, m', hsplit, hacts, hprog, hb, hperf, rfl⟩ |
      ⟨ok, m', rfl, hrun, rfl⟩
    · have ht : t ∈ lead :: rest := by
        rw [← htasks, hsplit]
        simp
      rcases verdict_perform hperf k with hsame | ⟨op, base, mt, rfl, hnew⟩ | ⟨rfl, -⟩
      · show (verdict k m'.torrents).isSome
        rw [hsame]
        exact hsome
      · show (verdict k m'.torrents).isSome
        rw [hnew]
        rcases List.mem_cons.mp ht with rfl | ht
        · -- the engine writes the key only where there is no verdict
          obtain ⟨hallows, -⟩ := hfollows.step hprog
          rw [hclear (hallows.2 rfl)] at hsome
          exact absurd hsome Bool.false_ne_true
        · obtain ⟨hkind, g, hwrites⟩ := hrest t ht
          obtain ⟨⟨hop, -, hmade⟩, -⟩ := hwrites.step hprog
          rcases registry_reason hop hmade (hC t op base mt hacts hkind) with ⟨-, hc | hnone⟩ | hsame
          · exact absurd ⟨t, Or.inr ⟨hc, op, base, mt, hacts⟩⟩ hgo
          · rw [hnone] at hsome
            exact absurd hsome Bool.false_ne_true
          · rw [hsame]
            exact hsome
      · exact absurd ⟨t, Or.inl hacts⟩ hgo
    · obtain ⟨batch, others, -, rfl⟩ := runJob_some hrun
      exact hsome

/-- **A verdict is sticky**: over any steps of the engine and of the tasks beside it, and over any
    restarts, a reason stays until it is let go, and as long as it stays no call of a cascade is made
    for the torrent. -/
theorem verdict_sticks (k : String) (m : Manager) (boot : Boot) (es fs : List Life)
    (p q : World Unit) (hkeyed : Keyed m.torrents)
    (hes : Along live (Heeds k) ⟨⟨m, ()⟩, boot.tasks⟩ es)
    (hp : run live ⟨⟨m, ()⟩, boot.tasks⟩ es = some p)
    (hsome : (verdict k p.shared.m.torrents).isSome)
    (hfs : Along live (fun p ev => Heeds k p ev ∧ ¬LetGo k p ev) p fs)
    (hq : run live p fs = some q) :
    (verdict k q.shared.m.torrents).isSome ∧
      ∀ ev t call, ¬Acts q ev t (.cascadeCall k call) := by
  have hled := run_inv (live_step k) es _ p (boot_led k hkeyed boot) hes hp
  obtain ⟨hled', hsome'⟩ := run_inv (I := fun p => Led (EngineTask k) (fun _ => RegistryTask) p ∧
      (verdict k p.shared.m.torrents).isSome)
    (fun p ev q h hC hstep => ⟨live_step k p ev q h.1 hC.1 hstep,
      verdict_step k p ev q h.1 h.2 hC.1 hC.2 hstep⟩) fs p q ⟨hled, hsome⟩ hfs hq
  refine ⟨hsome', ?_⟩
  rintro ev t call ⟨i, e, -, hi, hhead⟩
  obtain ⟨lead, rest, htasks, ⟨-, -, clear, hfollows, hclear⟩, hrest⟩ := hled'
  have ht : t ∈ lead :: rest := htasks ▸ List.mem_of_getElem? hi
  cases hprog : t.prog with
  | ret x =>
    rw [hprog] at hhead
    cases hhead
  | act a kont =>
    rw [hprog] at hhead
    obtain rfl : a = .cascadeCall k call := Option.some.inj hhead
    rcases List.mem_cons.mp ht with rfl | ht
    · obtain ⟨hallows, -⟩ := hfollows.step hprog
      rw [hclear (hallows rfl)] at hsome'
      exact absurd hsome' Bool.false_ne_true
    · obtain ⟨-, g, hwrites⟩ := hrest t ht
      exact (hwrites.step hprog).1

/-- The film with a verdict on it. -/
def loneFilm : ManagedTorrent :=
  { soundFilm with state := .broken, unrepairableReason := some "lone_broken" }

/-- It is in the map and in the table. -/
def loneStored : Manager :=
  atRest (AList.singleton "HASH/Film" loneFilm) (AList.singleton "HASH/Film" (torrentToRow loneFilm))

/-- The engine repairs the film; one of these runs beside it. -/
def bootWith (other : Kind) (h : RegistryKind other) : Boot where
  cfg := oneHour
  keys := ["HASH/Film"]
  others := [other]
  registry := fun kind hkind => (List.mem_singleton.mp hkind).symm ▸ h

/-- A read of the film's file that fails for good. -/
def readBoot : Boot := bootWith (.fatalRead "HASH/Film" "/Film.mkv" false) trivial

/-- A mark of the film's file. -/
def markBoot : Boot := bootWith (.markBroken "HASH/Film" "/Film.mkv") trivial

/-- A read fails for good and sets the film to broken; the engine comes to the film, whose links are
    dead, and has the answers to its cascade. -/
def readThenRepair : List Life :=
  (List.replicate 5 (does 1) ++ List.replicate 7 (does 0) ++ [Event.db true] ++
    List.replicate 4 (does 0) ++
    [Event.act 0 allDead, does 0, does 0, Event.db true, does 0, does 0]).map .within

/-- The call of a cascade the first task is about to make. -/
def nextCall (p : World Unit) : Option (String × Ev) :=
  match p.tasks[0]? with
  | none => none
  | some t =>
    match t.prog.head with
    | some (.cascadeCall key call) => some (key, call)
    | _ => none

theorem acts_of_nextCall {p : World Unit} {key : String} {call : Ev}
    (h : nextCall p = some (key, call)) (e : Env) : ∃ t, Acts p (.act 0 e) t (.cascadeCall key call) := by
  rw [nextCall] at h
  split at h
  · cases h
  · rename_i t ht
    split at h
    · rename_i key' call' hhead
      obtain ⟨rfl, rfl⟩ := Prod.mk.inj (Option.some.inj h)
      exact ⟨t, 0, e, rfl, ht, hhead⟩
    · cases h

/-- The read has wiped out the verdict, nobody was called to clear it, and the engine is about to have
    the film deleted. -/
theorem read_wipes_verdict :
    (verdict "HASH/Film" loneStored.torrents).isSome ∧
      ∃ p, run live ⟨⟨loneStored, ()⟩, readBoot.tasks⟩ readThenRepair = some p ∧
        verdict "HASH/Film" p.shared.m.torrents = none ∧
        ∃ t, Acts p (does 0) t (.cascadeCall "HASH/Film" (.delete "RD1" true)) := by
  have htest : ((run live ⟨⟨loneStored, ()⟩, readBoot.tasks⟩ readThenRepair).any fun p =>
        verdict "HASH/Film" p.shared.m.torrents == none &&
          nextCall p == some ("HASH/Film", .delete "RD1" true)) = true := by decide +kernel
  obtain ⟨p, hp, htest⟩ := (Option.any_eq_true _ _).mp htest
  rw [Bool.and_eq_true, beq_iff_eq, beq_iff_eq] at htest
  exact ⟨by decide, p, hp, htest.1, acts_of_nextCall htest.2 _⟩

/-- The test of `Heedful`. -/
def testHeedful (k : String) (m : Manager) : WriteOp → Option ManagedTorrent → Bool
  | .updateState, _ => verdict k m.torrents == none
  | .refreshAdd, _ => verdict k m.torrents == none
  | _, base => reasonIn base == verdict k m.torrents

/-- The action is heedful, and lets no verdict on the key go. -/
def testAction (k : String) (p : World Unit) (t : RegTask) : Act → Bool
  | .write op key base _ => key != k || (!clears t.kind &&
      (match t.kind with
        | .engine _ _ => true
        | _ => testHeedful k p.shared.m op base))
  | .remove key => key != k
  | _ => true

/-- The test of `Heeds`, of a life in which nobody lets go. -/
def testHeeds (k : String) (p : World Unit) : Life → Bool
  | .within ev => testEvent (testAction k) (fun _ => true) p ev
  | .restart _ _ => ((p.shared.m.rows.lookup k).bind TorrentRow.unrepairableReason).isSome

theorem heeds_of_test {k : String} (p : World Unit) (ev : Life) (h : testHeeds k p ev = true) :
    Heeds k p ev ∧ ¬LetGo k p ev := by
  cases ev with
  | restart now boot => exact ⟨fun _ => h, fun hgo => hgo⟩
  | within ev =>
    have hevent : testEvent (testAction k) (fun _ => true) p ev = true := h
    have hwrite : ∀ t op base mt, Acts p ev t (.write op k base mt) → clears t.kind = false ∧
        (match t.kind with
          | .engine _ _ => true
          | _ => testHeedful k p.shared.m op base) = true := by
      intro t op base mt hacts
      have htest := testEvent_acts hevent hacts
      rw [testAction, bne_self_eq_false, Bool.false_or, Bool.and_eq_true, Bool.not_eq_true'] at htest
      exact htest
    refine ⟨?_, ?_⟩
    · intro t op base mt hacts hkind hc
      obtain ⟨-, htest⟩ := hwrite t op base mt hacts
      have hheed : testHeedful k p.shared.m op base = true := by
        cases hk : t.kind with
        | engine cfg keys =>
          rw [hk] at hkind
          exact False.elim hkind
        | _ =>
          rw [hk] at htest
          exact htest
      cases op with
      | _ => exact beq_iff_eq.mp hheed
    · rintro ⟨t, hacts | ⟨hc, op, base, mt, hacts⟩⟩
      · have htest := testEvent_acts hevent hacts
        rw [testAction, bne_self_eq_false] at htest
        exact Bool.false_ne_true htest
      · rw [(hwrite t op base mt hacts).1] at hc
        exact Bool.false_ne_true hc

/-- A file of the film is marked, the registry is started again, and the engine comes to the film. -/
def markThenRestart : List Life :=
  ([does 1, does 1, does 1, .db true].map .within) ++
    [.restart 0 markBoot] ++
    ([does 0, does 0].map .within)

theorem verdict_sticks_restarted :
    ∃ q, run live ⟨⟨loneStored, ()⟩, markBoot.tasks⟩ markThenRestart = some q ∧
      (verdict "HASH/Film" q.shared.m.torrents).isSome ∧
      ∀ ev t call, ¬Acts q ev t (.cascadeCall "HASH/Film" call) := by
  have htest : (run live ⟨⟨loneStored, ()⟩, markBoot.tasks⟩ markThenRestart).isSome = true := by
    decide +kernel
  obtain ⟨q, hq⟩ := Option.isSome_iff_exists.mp htest
  refine ⟨q, hq, ?_⟩
  exact verdict_sticks "HASH/Film" loneStored markBoot [] markThenRestart _ q
    (keyed_singleton loneFilm) trivial rfl (by decide)
    (along_of_check heeds_of_test _ _ (by decide +kernel)) hq

end RdRs.Torrent

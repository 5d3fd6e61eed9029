/-
  `torrent/state_ops.rs`, `torrent/mod.rs`, `repair_one.rs` — `under_repair_started_at`, the clock of a
  repair.

  1. **Pairing** — `Paired`: the clock is set exactly under repair.  Each operation writes paired
     records and rows if the copies it reads are paired (`op_clocked`).
  2. **Starts** — `Clocked`: a life, and beside it what each operation has last read from the clock and
     since when each key is under repair (`tick`).
  3. **The crux** — a snapshot stores the state and the clock of its copy.  Made in one repair and
     stored in the next, it puts the old clock back (`late_snapshot_turns_clock_back`).  `UpToDate`
     says that what is stored under repair comes from a copy with the clock the map has.
  4. **Result** — records and rows are paired in every life, and where the steps are up to date the
     timeout of `repair_one_torrent` measures from the start of the current repair (`clock_tied`).
-/
import RdRs.Torrent.Operations

set_option linter.unusedVariables false

namespace RdRs.Torrent

open RdRs.Rd RdRs.Repair RdRs.Programs RdRs.Runs

/-! ## The repair clock -/

/-- The clock of a record runs exactly under repair. -/
def Paired (mt : ManagedTorrent) : Prop :=
  mt.underRepairStartedAt.isSome = true ↔ mt.state = .underRepair

/-- The same for a row. -/
def PairedRow (row : TorrentRow) : Prop :=
  row.underRepairStartedAt.isSome = true ↔ row.state = .underRepair

/-- The state of a record, if there is one. -/
def stateIn (mt : Option ManagedTorrent) : Option TorrentState := mt.map ManagedTorrent.state

/-- The clock of a record, if there is one and it runs. -/
def clockIn (mt : Option ManagedTorrent) : Option Int := mt.bind ManagedTorrent.underRepairStartedAt

/-- An update that stays in a repair keeps the clock. -/
theorem withState_keepsClock {mt : ManagedTorrent} {state : TorrentState} {reason : Option String}
    {now : Int} (hbefore : mt.state = .underRepair) (hafter : state = .underRepair) :
    (withState mt state reason now).underRepairStartedAt = mt.underRepairStartedAt := by
  show (if state = .underRepair then _ else _) = _
  rw [if_pos hafter, if_pos hbefore]

/-- An update that begins a repair starts the clock. -/
theorem withState_startsClock {mt : ManagedTorrent} {state : TorrentState} {reason : Option String}
    {now : Int} (hbefore : mt.state ≠ .underRepair) (hafter : state = .underRepair) :
    (withState mt state reason now).underRepairStartedAt = some now := by
  show (if state = .underRepair then _ else _) = _
  rw [if_pos hafter, if_neg hbefore]

/-- After an update the clock runs exactly in a repair. -/
theorem paired_withState {mt : ManagedTorrent} (h : Paired mt) (state : TorrentState)
    (reason : Option String) (now : Int) : Paired (withState mt state reason now) := by
  by_cases hstate : state = .underRepair
  · refine iff_of_true ?_ hstate
    by_cases hbefore : mt.state = .underRepair
    · rw [withState_keepsClock hbefore hstate]
      exact h.mpr hbefore
    · rw [withState_startsClock hbefore hstate]
      rfl
  · refine iff_of_false ?_ hstate
    show ¬(if state = .underRepair then _ else _ : Option Int).isSome = true
    rw [if_neg hstate]
    exact Bool.false_ne_true

/-- What an operation stores.  Under repair the clock is that of a copy under repair, or else what the
    operation has read from the clock. -/
structure Stores (reading : Option Int) (base : Option ManagedTorrent) (mt : ManagedTorrent) : Prop where
  paired : Paired mt
  copy : ∀ old, base = some old → Paired old
  clock : mt.state = .underRepair →
    mt.underRepairStartedAt = if stateIn base = some .underRepair then clockIn base else reading

/-- An operation that leaves state and clock alone. -/
theorem stores_kept {reading : Option Int} {copy mt : ManagedTorrent} (h : Paired copy)
    (hstate : mt.state = copy.state)
    (hclock : mt.underRepairStartedAt = copy.underRepairStartedAt) :
    Stores reading (some copy) mt := by
  refine ⟨?_, fun old hold => Option.some.inj hold ▸ h, fun hafter => ?_⟩
  · rw [Paired, hstate, hclock]
    exact h
  · have hcopy : stateIn (some copy) = some .underRepair := congrArg some (hstate.symm.trans hafter)
    rw [if_pos hcopy]
    exact hclock

/-- A state update that enters `under_repair` starts the clock, one that stays there keeps it. -/
theorem stores_withState {mt : ManagedTorrent} (h : Paired mt) (state : TorrentState)
    (reason : Option String) (now : Int) :
    Stores (some now) (some mt) (withState mt state reason now) := by
  refine ⟨paired_withState h state reason now, fun old hold => Option.some.inj hold ▸ h,
    fun hafter => ?_⟩
  by_cases hbefore : mt.state = .underRepair
  · have hcopy : stateIn (some mt) = some .underRepair := congrArg some hbefore
    rw [if_pos hcopy]
    exact withState_keepsClock hbefore hafter
  · have hcopy : stateIn (some mt) ≠ some .underRepair := fun h => hbefore (Option.some.inj h)
    rw [if_neg hcopy]
    exact withState_startsClock hbefore hafter

/-- Copies that are read are paired, and so are the rows and records that are written, with the clock
    of the copy or the operation's own; the protocol remembers the last reading. -/
def clocked : Protocol Act Act.Res (Option Int) where
  allows
    | reading, .write _ _ base mt => Stores reading base mt
    | _, .enqueue batch => ∀ row ∈ batch, PairedRow row
    | _, _ => True
  answers
    | _, .get _, r => ∀ mt, r = some mt → Paired mt
    | _, .inject _ _, r => ∀ mt, r = some mt → Paired mt
    | _, _, _ => True
  next
    | _, .now, now => some now
    | reading, _, _ => reading

section Writers

variable {s : Option Int}

/-- A batch of paired rows may be written. -/
theorem upsert_clocked {batch : List TorrentRow} (h : ∀ row ∈ batch, PairedRow row) :
    Follows clocked s (upsert batch) anyEnd :=
  ⟨h, fun _ _ => ⟨trivial, fun _ _ => trivial⟩⟩

theorem pairedRow_single {mt : ManagedTorrent} (h : Paired mt) :
    ∀ row ∈ [torrentToRow mt], PairedRow row := by
  intro row hrow
  obtain rfl := List.mem_singleton.mp hrow
  exact h

/-- `update_torrent_state` keeps to the protocol. -/
theorem updateTorrentState_clocked (key : String) (state : TorrentState) (reason : Option String) :
    Follows clocked s (updateTorrentState key state reason) anyEnd := by
  rw [updateTorrentState, Prog.call_bind, follows_act]
  refine ⟨trivial, fun r hr => ?_⟩
  cases r with
  | none => exact trivial
  | some mt =>
    refine ⟨trivial, fun now _ => ?_⟩
    have hnew := stores_withState (hr mt rfl) state reason now
    refine ⟨hnew, fun _ _ => ?_⟩
    show Follows clocked (some now) (upsert _ >>= fun ok => _) anyEnd
    refine follows_bind.mpr ((upsert_clocked (pairedRow_single hnew.paired)).mono
      fun ok _ _ => ?_)
    cases ok with
    | false => exact trivial
    | true => exact ⟨trivial, fun _ _ => ⟨trivial, fun _ _ => trivial⟩⟩

/-- `mark_file_broken` keeps to the protocol: it changes no clock. -/
theorem markFileBroken_clocked (key path : String) :
    Follows clocked s (markFileBroken key path) anyEnd := by
  rw [markFileBroken, Prog.call_bind, follows_act]
  refine ⟨trivial, fun r hr => ?_⟩
  cases r with
  | none => exact trivial
  | some mt =>
    have hnew : Stores s (some mt) (withBroken mt path) := stores_kept (hr mt rfl) rfl rfl
    exact ⟨hnew, fun _ _ => upsert_clocked (pairedRow_single hnew.paired)⟩

/-- `persist_torrent_snapshot` keeps to it if its record may be stored. -/
theorem persistTorrentSnapshot_clocked {op : WriteOp} {base : Option ManagedTorrent}
    {mt : ManagedTorrent} (h : Stores s base mt) :
    Follows clocked s (persistTorrentSnapshot op base mt) anyEnd := by
  rw [persistTorrentSnapshot, Prog.call_bind, follows_act]
  exact ⟨h, fun _ _ => upsert_clocked (pairedRow_single h.paired)⟩

theorem replaceRdIdsAfterRepair_clocked (key : String) (rdIds : List String) :
    Follows clocked s (replaceRdIdsAfterRepair key rdIds) anyEnd := by
  rw [replaceRdIdsAfterRepair, Prog.call_bind, follows_act]
  refine ⟨trivial, fun r hr => ?_⟩
  cases r with
  | none => exact trivial
  | some mt =>
    have hnew : Stores s (some mt) (withRdIds mt rdIds) := stores_kept (hr mt rfl) rfl rfl
    exact persistTorrentSnapshot_clocked hnew

/-- The copy `ensure_torrent_info` returns is paired. -/
theorem ensureTorrentInfo_clocked (key : String) :
    Follows clocked s (ensureTorrentInfo key) fun r _ => ∀ mt, r = some mt → Paired mt := by
  have hcopy : Follows clocked s (ensureTorrentInfo key)
      (Looks (fun _ => True) fun mt _ => Paired mt) := by
    refine ensureTorrentInfo_rule ⟨trivial, fun _ hr => looks_of hr⟩ (fun _ _ _ => trivial) ?_ ?_
    · intro mt s id hpaired
      exact ⟨trivial, fun _ _ => hpaired⟩
    · intro mt s info hpaired
      refine ⟨trivial, fun updated hupdated => ?_⟩
      cases updated with
      | none => exact hpaired
      | some new => exact hupdated new rfl
  exact hcopy.mono fun r s hr mt hmt => hr.of_some hmt

/-- A snapshot that is edited keeps the clock of its copy. -/
theorem snapshotEdited_clocked (key : String) (loads : Bool) (edit : Edit) :
    Follows clocked s (snapshotEdited key loads edit) anyEnd := by
  rw [snapshotEdited]
  have hcopy : Follows clocked s (takeCopy key loads) fun r _ => ∀ mt, r = some mt → Paired mt := by
    unfold takeCopy
    split
    · exact ensureTorrentInfo_clocked key
    · exact ⟨trivial, fun r hr => hr⟩
  refine follows_bind.mpr (hcopy.mono fun copy _ hpaired => ?_)
  cases copy with
  | none => exact trivial
  | some mt =>
    dsimp only
    rw [Prog.call_bind, follows_act]
    refine ⟨trivial, fun outside _ => ?_⟩
    split
    · exact trivial
    · rename_i m hm
      exact follows_done (persistTorrentSnapshot_clocked
        (stores_kept (hpaired mt rfl) (edit.state _ _ _ hm) (edit.clock _ _ _ hm)))

/-- The rows a refresh has collected. -/
def PairedChanges (c : Changes) : Prop := ∀ row ∈ c.rows, PairedRow row

theorem pairedChanges_add {c : Changes} {mt : ManagedTorrent} {paths : List String}
    (hc : PairedChanges c) (h : Paired mt) :
    PairedChanges ⟨c.rows ++ [torrentToRow mt], paths⟩ := by
  intro row hrow
  rcases List.mem_append.mp hrow with hrow | hrow
  · exact hc row hrow
  · exact pairedRow_single h row hrow

/-- A record that is added has no clock. -/
theorem addOne_clocked {c : Changes} (hc : PairedChanges c) (a : Torrent × List String) :
    Follows clocked s (addOne c a) fun c' _ => PairedChanges c' := by
  have hstate : (newTorrent a.1 a.2).state ≠ .underRepair := show TorrentState.ok ≠ _ by decide
  have hnew : Paired (newTorrent a.1 a.2) := iff_of_false Bool.false_ne_true hstate
  refine ⟨⟨hnew, fun old hold => ?_, fun h => absurd h hstate⟩, fun _ _ => pairedChanges_add hc hnew⟩
  exact absurd hold (Option.some_ne_none old).symm

/-- A record that is merged keeps its clock. -/
theorem mergeOne_clocked {c : Changes} (hc : PairedChanges c) (a : Torrent × List String) :
    Follows clocked s (mergeOne c a) fun c' _ => PairedChanges c' := by
  rw [mergeOne, Prog.call_bind, follows_act]
  refine ⟨trivial, fun r hr => ?_⟩
  cases r with
  | none => exact hc
  | some existing =>
    have hnew : Stores s (some existing) (mergeTorrent existing a.1 a.2) :=
      stores_kept (hr existing rfl) rfl rfl
    exact ⟨hnew, fun _ _ => pairedChanges_add hc hnew.paired⟩

theorem removeOne_clocked {c : Changes} (hc : PairedChanges c) (key : String) :
    Follows clocked s (removeOne c key) fun c' _ => PairedChanges c' := by
  rw [removeOne, Prog.call_bind, follows_act]
  refine ⟨trivial, fun r hr => ?_⟩
  split
  · exact hc
  · exact ⟨trivial, fun _ _ => ⟨trivial, fun _ _ => hc⟩⟩

/-- The rows of a refresh are paired. -/
theorem publish_clocked {c : Changes} (hc : PairedChanges c) :
    Follows clocked s (publish c) anyEnd := by
  rw [publish]
  split
  · refine follows_bind.mpr ((upsert_clocked hc).mono fun ok _ _ => ?_)
    cases ok with
    | false => exact trivial
    | true => exact ⟨trivial, fun _ _ => trivial⟩
  · exact ⟨trivial, fun _ _ => trivial⟩

/-- **Every operation** writes paired records and rows, if the copies it reads are paired. -/
theorem op_clocked (op : Op) : Follows clocked s op.prog anyEnd := by
  cases op with
  | updateState key state reason => exact follows_done (updateTorrentState_clocked key state reason)
  | markBroken key path => exact follows_done (markFileBroken_clocked key path)
  | snapshot key loads edit => exact snapshotEdited_clocked key loads edit
  | replaceRdIds key rdIds => exact follows_done (replaceRdIdsAfterRepair_clocked key rdIds)
  | ensureInfo key =>
    exact follows_done ((ensureTorrentInfo_clocked key).mono fun _ _ _ => trivial)
  | refresh cfg =>
    have htakes : ∀ s (a : Act), clocked.allows s a → Takes clocked s a fun _ _ => True :=
      fun s a ha => ⟨ha, fun _ _ => trivial⟩
    exact follows_done (runOnce_rule (J := fun _ => True) (D := fun c _ => PairedChanges c)
      (fun s _ => htakes s .listTorrents trivial) (fun s _ => htakes s .iter trivial)
      (fun s _ => htakes s .now trivial) (fun s id _ => htakes s (.deleteTorrent id) trivial)
      (fun _ _ row hrow => absurd hrow List.not_mem_nil) (fun a c _ hc => addOne_clocked hc a)
      (fun a c _ hc => mergeOne_clocked hc a) (fun key c _ hc => removeOne_clocked hc key)
      (fun c _ hc => publish_clocked hc) trivial cfg)

end Writers

/-! ## The table -/

/-- **What an action does to the table**: it hands over a batch, or nothing. -/
theorem table_perform {m m' : Manager} {a : Act} {e : Env} {r : a.Res}
    (h : perform m a e = (r, m')) : m'.rows = m.rows ∧
      (m'.jobs = m.jobs ∨ ∃ batch, a = .enqueue batch ∧ m'.jobs = m.jobs ++ [batch]) := by
  have hwatch : ∀ key f, (onWatch m key f).rows = m.rows ∧ ((onWatch m key f).jobs = m.jobs ∨
      ∃ batch, a = .enqueue batch ∧ (onWatch m key f).jobs = m.jobs ++ [batch]) := fun key f =>
    ⟨(onWatch_same m key f).2.1, Or.inl (onWatch_same m key f).2.2.1⟩
  cases a with
  | enqueue batch =>
    cases h
    exact ⟨rfl, Or.inr ⟨batch, rfl, rfl⟩⟩
  | inject key info =>
    rw [perform] at h
    split at h <;> cases h <;> exact ⟨rfl, Or.inl rfl⟩
  | send key state =>
    cases h
    exact hwatch key _
  | subscribe key =>
    cases h
    exact hwatch key _
  | unsubscribe key =>
    cases h
    exact hwatch key _
  | resync key =>
    cases h
    split
    · exact ⟨rfl, Or.inl rfl⟩
    · exact hwatch key _
  | openWatch key state =>
    cases h
    split <;> exact ⟨rfl, Or.inl rfl⟩
  | hook paths =>
    cases h
    split <;> exact ⟨rfl, Or.inl rfl⟩
  | pushRepair key =>
    cases h
    split <;> exact ⟨rfl, Or.inl rfl⟩
  | _ =>
    cases h
    exact ⟨rfl, Or.inl rfl⟩

/-- A row is one of the batch, or was there before. -/
theorem lookup_upsertRows {batch : List TorrentRow} {rows : Rows} {k : String} {row : TorrentRow}
    (h : (upsertRows rows batch).lookup k = some row) : rows.lookup k = some row ∨ row ∈ batch := by
  rw [upsertRows] at h
  induction batch generalizing rows with
  | nil => exact Or.inl h
  | cons first batch ih =>
    rcases ih h with hrow | hrow
    · by_cases hk : k = first.accessKey
      · rw [hk, AList.lookup_insert] at hrow
        exact Or.inr (List.mem_cons.mpr (Or.inl (Option.some.inj hrow).symm))
      · rw [AList.lookup_insert_ne hk] at hrow
        exact Or.inl hrow
    · exact Or.inr (List.mem_cons_of_mem first hrow)

/-! ## The clock over a life -/

/-- All records, rows and batches are paired. -/
structure AllPaired (m : Manager) : Prop where
  torrents : ∀ k mt, m.torrents.lookup k = some mt → Paired mt
  rows : ∀ k row, m.rows.lookup k = some row → PairedRow row
  jobs : ∀ batch ∈ m.jobs, ∀ row ∈ batch, PairedRow row

/-- What a restart loads is paired. -/
theorem paired_loaded {rows : Rows} (h : ∀ k row, rows.lookup k = some row → PairedRow row)
    (now : Int) (k : String) (mt : ManagedTorrent) (hmt : (loadFromDb rows now).lookup k = some mt) :
    Paired mt := by
  rw [loadFromDb_lookup] at hmt
  obtain ⟨row, hrow, rfl⟩ := Option.map_eq_some_iff.mp hmt
  exact h k row hrow

section Steps

variable {m m' : Manager}

/-- A call that the protocol allows keeps all records paired. -/
theorem AllPaired.perform {a : Act} {e : Env} {r : a.Res} (h : AllPaired m)
    {s : Option Int} (hallows : clocked.allows s a) (hperf : Torrent.perform m a e = (r, m')) :
    AllPaired m' := by
  obtain ⟨hrows, hjobs⟩ := table_perform hperf
  refine ⟨fun k mt hmt => ?_, fun k row hrow => h.rows k row (hrows ▸ hrow), fun batch hbatch => ?_⟩
  · rcases lookup_perform hperf k with hsame | ⟨op, base, new, rfl, hnew⟩ |
      ⟨info, old, -, hold, hnew⟩ | ⟨-, hnone⟩
    · rw [hsame] at hmt
      exact h.torrents k mt hmt
    · obtain rfl := Option.some.inj (hnew.symm.trans hmt)
      exact hallows.paired
    · obtain rfl := Option.some.inj (hnew.symm.trans hmt)
      exact h.torrents k old hold
    · rw [hnone] at hmt
      cases hmt
  · rcases hjobs with hsame | ⟨new, rfl, hnew⟩
    · rw [hsame] at hbatch
      exact h.jobs batch hbatch
    · rw [hnew] at hbatch
      rcases List.mem_append.mp hbatch with hold | hlast
      · exact h.jobs batch hold
      · obtain rfl := List.mem_singleton.mp hlast
        exact hallows

/-- The answers a program gets are what the protocol expects. -/
theorem AllPaired.answers {s : Option Int} {a : Act} {e : Env} {r : a.Res} (h : AllPaired m)
    (hperf : Torrent.perform m a e = (r, m')) : clocked.answers s a r := by
  cases a with
  | get key =>
    cases hperf
    exact fun mt hmt => h.torrents key mt hmt
  | inject key info =>
    rw [Torrent.perform] at hperf
    split at hperf
    · cases hperf
      exact fun mt hmt => absurd hmt (Option.some_ne_none mt).symm
    · rename_i old hold
      cases hperf
      intro mt hmt
      obtain rfl := Option.some.inj hmt
      exact h.torrents key old hold
  | _ => trivial

/-- The database thread keeps all records paired. -/
theorem AllPaired.runJob {ok : Bool} (h : AllPaired m) (hrun : Torrent.runJob m ok = some m') :
    AllPaired m' := by
  obtain ⟨batch, rest, hjobs, rfl⟩ := runJob_some hrun
  have hbatch : ∀ row ∈ batch, PairedRow row := h.jobs batch (hjobs ▸ List.mem_cons_self)
  refine ⟨h.torrents, fun k row hrow => ?_,
    fun b hb => h.jobs b (hjobs ▸ List.mem_cons_of_mem batch hb)⟩
  cases ok with
  | false => exact h.rows k row hrow
  | true =>
    rcases lookup_upsertRows hrow with hold | hnew
    · exact h.rows k row hold
    · exact hbatch row hnew

/-- A restart keeps all records paired. -/
theorem AllPaired.reboot (h : AllPaired m) (now : Int) : AllPaired (Torrent.reboot m now) :=
  ⟨paired_loaded h.rows now, h.rows, fun batch hbatch => absurd hbatch List.not_mem_nil⟩

end Steps

/-! ## Starts of repairs -/

/-- A life; what each operation in progress has last read from the clock; and since when each key is
    under repair. -/
structure Clocked where
  life : Lived
  reading : Nat → Option Int
  since : String → Option Int

/-- The record of a key. -/
def recordOf (p : Lived) (k : String) : Option ManagedTorrent := p.shared.m.torrents.lookup k

/-- The clock in the row of a key. -/
def rowClock (p : Lived) (k : String) : Option Int :=
  (p.shared.m.rows.lookup k).bind TorrentRow.underRepairStartedAt

/-- The action an operation takes next. -/
def nextAct (p : Lived) (i : Nat) : Option Act := p.tasks[i]?.bind fun t => t.prog.head

/-- What the operations have read after a step. -/
def readingAfter (c : Clocked) : Happening → Nat → Option Int
  | .starts _, j => if j = c.life.tasks.length then none else c.reading j
  | .acts i e, j =>
    match nextAct c.life i with
    | some .now => if j = i then some e.time else c.reading j
    | _ => c.reading j
  | .db _, j => c.reading j
  | .restarts _, _ => none

/-- When a repair of the key begins, if it does so in this step: at the reading of the operation that
    acts; a restart takes up the one in the table. -/
def beginsAt (c : Clocked) (k : String) : Happening → Option Int
  | .acts i _ => c.reading i
  | .restarts _ => rowClock c.life k
  | _ => none

/-- Since when the key is under repair after a step to `q`. -/
def sinceAfter (c : Clocked) (ev : Happening) (q : Lived) (k : String) : Option Int :=
  if stateIn (recordOf q k) = some .underRepair then
    if stateIn (recordOf c.life k) = some .underRepair then c.since k else beginsAt c k ev
  else none

/-- One step of a life, with its clocks. -/
def tick (c : Clocked) (ev : Happening) : Option Clocked :=
  (happen c.life ev).map fun q => ⟨q, readingAfter c ev, sinceAfter c ev q⟩

/-- The start of a process over an empty table. -/
def Clocked.boot (now : Int) : Clocked := ⟨booted ∅ now, fun _ => none, fun _ => none⟩

/-- Two clocks that both run show the same. -/
def agree : Option Int → Option Int → Bool
  | some t, some t' => t == t'
  | _, _ => true

/-- What is stored under repair was made from a copy with the clock that the map has; and a restart
    finds the clocks of the map in the table. -/
def upToDate (c : Clocked) : Happening → Bool
  | .acts i _ =>
    match nextAct c.life i with
    | some (.write _ key base mt) =>
      mt.state != .underRepair || clockIn base == clockIn (recordOf c.life key)
    | _ => true
  | .restarts _ => c.life.shared.m.rows.keys.all fun k =>
      agree (rowClock c.life k) (clockIn (recordOf c.life k))
  | _ => true

/-- What a life keeps: the pairing, and that each operation in progress will keep it. -/
structure ClockInv (c : Clocked) : Prop where
  paired : AllPaired c.life.shared.m
  tasks : ∀ i t, c.life.tasks[i]? = some t → Follows clocked (c.reading i) t.prog anyEnd

/-- A record under repair has the clock of its repair. -/
def OnTime (c : Clocked) : Prop :=
  ∀ k mt, recordOf c.life k = some mt → mt.state = .underRepair →
    mt.underRepairStartedAt = c.since k

section Ticks

variable {c : Clocked} {i j : Nat} {e : Env}

theorem readingAfter_other (h : j ≠ i) : readingAfter c (.acts i e) j = c.reading j := by
  rw [readingAfter]
  split
  · exact if_neg h
  · rfl

/-- The operation that acts has read what the protocol remembers. -/
theorem readingAfter_self {a : Act} {r : a.Res} {m m' : Manager} (hnext : nextAct c.life i = some a)
    (hperf : perform m a e = (r, m')) :
    readingAfter c (.acts i e) i = clocked.next (c.reading i) a r := by
  rw [readingAfter, hnext]
  cases a with
  | now =>
    cases hperf
    exact if_pos rfl
  | _ => rfl

/-- A step of a task keeps the invariant. -/
theorem clockInv_acts {d : Clocked} (h : ClockInv c) (hstep : tick c (.acts i e) = some d) :
    ClockInv d := by
  obtain ⟨q, hq, rfl⟩ := Option.map_eq_some_iff.mp hstep
  obtain ⟨t, a, kont, r, m', hti, hprog, -, hperf, rfl⟩ := happen_acts hq
  obtain ⟨hallows, hnext⟩ := (h.tasks i t hti).step hprog
  refine ⟨h.paired.perform hallows hperf, fun j u hu => ?_⟩
  by_cases hj : j = i
  · subst hj
    have hhead : nextAct c.life j = some a := by
      rw [nextAct, hti, Option.bind_some, hprog]
      rfl
    have hlt : j < c.life.tasks.length := (List.getElem?_eq_some_iff.mp hti).1
    have hself : u = ⟨t.kind, kont r⟩ := by
      have hget : (c.life.tasks.set j ⟨t.kind, kont r⟩)[j]? = some u := hu
      rw [List.getElem?_set_self hlt] at hget
      exact (Option.some.inj hget).symm
    subst hself
    show Follows clocked (readingAfter c (.acts j e) j) (kont r) anyEnd
    rw [readingAfter_self hhead hperf]
    exact hnext r (h.paired.answers hperf)
  · have hget : (c.life.tasks.set i ⟨t.kind, kont r⟩)[j]? = some u := hu
    rw [List.getElem?_set_ne (Ne.symm hj)] at hget
    show Follows clocked (readingAfter c (.acts i e) j) u.prog anyEnd
    rw [readingAfter_other hj]
    exact h.tasks j u hget

end Ticks

/-- **Every step** keeps the pairing. -/
theorem clockInv_step (c : Clocked) (ev : Happening) (d : Clocked) (h : ClockInv c)
    (hstep : tick c ev = some d) : ClockInv d := by
  cases ev with
  | starts op =>
    cases hstep
    refine ⟨h.paired, fun i t ht => ?_⟩
    have hget : (c.life.tasks ++ [op.task])[i]? = some t := ht
    show Follows clocked (if i = c.life.tasks.length then none else c.reading i) t.prog anyEnd
    by_cases hi : i = c.life.tasks.length
    · subst hi
      rw [List.getElem?_concat_length] at hget
      obtain rfl := Option.some.inj hget
      rw [if_pos rfl]
      exact op_clocked op
    · rw [if_neg hi]
      have hlt : i < (c.life.tasks ++ [op.task]).length := (List.getElem?_eq_some_iff.mp hget).1
      rw [List.length_append, List.length_singleton] at hlt
      rw [List.getElem?_append_left (by omega)] at hget
      exact h.tasks i t hget
  | acts i e => exact clockInv_acts h hstep
  | db ok =>
    obtain ⟨q, hq, rfl⟩ := Option.map_eq_some_iff.mp hstep
    obtain ⟨m', hrun, rfl⟩ := Option.map_eq_some_iff.mp hq
    exact ⟨h.paired.runJob hrun, h.tasks⟩
  | restarts now =>
    cases hstep
    exact ⟨h.paired.reboot now, fun i t ht => absurd ht (by simp)⟩

/-! ### On time -/

/-- Of a paired record the clock tells whether it is under repair. -/
theorem stateIn_iff_clockIn {mt : Option ManagedTorrent} (h : ∀ m, mt = some m → Paired m) :
    stateIn mt = some .underRepair ↔ (clockIn mt).isSome = true := by
  cases mt with
  | none => exact iff_of_false (Option.some_ne_none _).symm Bool.false_ne_true
  | some m => exact Option.some_inj.trans (h m rfl).symm

section Ticks

variable {c : Clocked} {ev : Happening} {q : Lived} {k : String}

/-- A repair that goes on began when it did. -/
theorem sinceAfter_kept (hafter : stateIn (recordOf q k) = some .underRepair)
    (hbefore : stateIn (recordOf c.life k) = some .underRepair) :
    sinceAfter c ev q k = c.since k := by
  rw [sinceAfter, if_pos hafter, if_pos hbefore]

/-- A repair that begins begins now. -/
theorem sinceAfter_begun (hafter : stateIn (recordOf q k) = some .underRepair)
    (hbefore : stateIn (recordOf c.life k) ≠ some .underRepair) :
    sinceAfter c ev q k = beginsAt c k ev := by
  rw [sinceAfter, if_pos hafter, if_neg hbefore]

/-- A step that leaves state and clock of the key alone. -/
theorem onTime_kept (h : OnTime c) {mt old : ManagedTorrent}
    (hmt : recordOf q k = some mt) (hold : recordOf c.life k = some old)
    (hstate : mt.state = old.state) (hclock : mt.underRepairStartedAt = old.underRepairStartedAt)
    (hunder : mt.state = .underRepair) : mt.underRepairStartedAt = sinceAfter c ev q k := by
  have hbefore : old.state = .underRepair := hstate.symm.trans hunder
  rw [sinceAfter_kept (by rw [hmt]; exact congrArg some hunder)
    (by rw [hold]; exact congrArg some hbefore), hclock]
  exact h k old hold hbefore

theorem agree_eq {a b : Option Int} (h : agree a b = true) (ha : a.isSome = true)
    (hb : b.isSome = true) : a = b := by
  obtain ⟨t, rfl⟩ := Option.isSome_iff_exists.mp ha
  obtain ⟨t', rfl⟩ := Option.isSome_iff_exists.mp hb
  exact congrArg some (eq_of_beq h)

/-- **A write that is up to date** goes on with the clock of the repair, or starts it. -/
theorem onTime_write (hinv : ClockInv c) (h : OnTime c) {i : Nat} {e : Env}
    {base : Option ManagedTorrent} {mt : ManagedTorrent} (hstores : Stores (c.reading i) base mt)
    (hsame : clockIn base = clockIn (recordOf c.life k)) (hmt : recordOf q k = some mt)
    (hunder : mt.state = .underRepair) :
    mt.underRepairStartedAt = sinceAfter c (.acts i e) q k := by
  have hafter : stateIn (recordOf q k) = some .underRepair := by
    rw [hmt]
    exact congrArg some hunder
  have hrecord := stateIn_iff_clockIn fun m => hinv.paired.torrents k m
  have hbase : stateIn base = some .underRepair ↔ stateIn (recordOf c.life k) = some .underRepair := by
    rw [stateIn_iff_clockIn hstores.copy, hsame]
    exact hrecord.symm
  by_cases hbefore : stateIn (recordOf c.life k) = some .underRepair
  · obtain ⟨old, hold, hstate⟩ := Option.map_eq_some_iff.mp hbefore
    rw [sinceAfter_kept hafter hbefore, hstores.clock hunder, if_pos (hbase.mpr hbefore), hsame, hold]
    exact h k old hold hstate
  · rw [sinceAfter_begun hafter hbefore, hstores.clock hunder, if_neg fun hb => hbefore (hbase.mp hb)]
    rfl

end Ticks

/-- **Every step that is up to date** leaves the clocks on time. -/
theorem onTime_step (c : Clocked) (ev : Happening) (d : Clocked) (h : ClockInv c ∧ OnTime c)
    (hC : upToDate c ev = true) (hstep : tick c ev = some d) : ClockInv d ∧ OnTime d := by
  obtain ⟨hinv, hon⟩ := h
  refine ⟨clockInv_step c ev d hinv hstep, fun k mt hmt hunder => ?_⟩
  obtain ⟨q, hq, rfl⟩ := Option.map_eq_some_iff.mp hstep
  cases ev with
  | starts op =>
    cases hq
    exact onTime_kept hon hmt hmt rfl rfl hunder
  | acts i e =>
    obtain ⟨t, a, kont, r, m', hti, hprog, -, hperf, rfl⟩ := happen_acts hq
    have hallows := ((hinv.tasks i t hti).step hprog).1
    have hafter : m'.torrents.lookup k = some mt := hmt
    rcases lookup_perform hperf k with hsame | ⟨op, base, new, rfl, hnew⟩ |
      ⟨info, old, -, hold, hnew⟩ | ⟨-, hnone⟩
    · exact onTime_kept hon hmt (hsame.symm.trans hafter) rfl rfl hunder
    · obtain rfl := Option.some.inj (hnew.symm.trans hafter)
      refine onTime_write hinv hon hallows ?_ hmt hunder
      have hhead : nextAct c.life i = some (.write op k base new) := by
        rw [nextAct, hti, Option.bind_some, hprog]
        rfl
      have hcond : (new.state != .underRepair ||
          clockIn base == clockIn (recordOf c.life k)) = true := by
        rw [upToDate, hhead] at hC
        exact hC
      rw [hunder] at hcond
      exact eq_of_beq hcond
    · obtain rfl := Option.some.inj (hnew.symm.trans hafter)
      exact onTime_kept hon hmt hold rfl rfl hunder
    · rw [hnone] at hafter
      cases hafter
  | db ok =>
    obtain ⟨m', hrun, rfl⟩ := Option.map_eq_some_iff.mp hq
    obtain ⟨batch, rest, -, rfl⟩ := runJob_some hrun
    exact onTime_kept hon hmt hmt rfl rfl hunder
  | restarts now =>
    cases hq
    have hloaded : (loadFromDb c.life.shared.m.rows now).lookup k = some mt := hmt
    rw [loadFromDb_lookup] at hloaded
    obtain ⟨row, hrow, rfl⟩ := Option.map_eq_some_iff.mp hloaded
    have hclock : rowClock c.life k = row.underRepairStartedAt := by
      rw [rowClock, hrow]
      rfl
    have hafter := (congrArg stateIn hmt).trans (congrArg some hunder)
    show row.underRepairStartedAt = sinceAfter c (.restarts now)
      ⟨⟨reboot c.life.shared.m now, c.life.shared.fetched⟩, []⟩ k
    by_cases hbefore : stateIn (recordOf c.life k) = some .underRepair
    · obtain ⟨old, hold, hstate⟩ := Option.map_eq_some_iff.mp hbefore
      rw [sinceAfter_kept hafter hbefore, ← hon k old hold hstate]
      have hcond := List.all_eq_true.mp hC k (AList.mem_keys.mp (AList.lookup_isSome.mp
        (Option.isSome_iff_exists.mpr ⟨row, hrow⟩)))
      rw [hclock, hold] at hcond
      exact agree_eq hcond ((hinv.paired.rows k row hrow).mpr hunder)
        ((hinv.paired.torrents k old hold).mpr hstate)
    · rw [sinceAfter_begun hafter hbefore]
      exact hclock.symm

/-! ## The result -/

/-- At the start nothing is under repair. -/
theorem clockInv_boot (now : Int) : ClockInv (Clocked.boot now) ∧ OnTime (Clocked.boot now) := by
  refine ⟨⟨⟨fun k mt hmt => ?_, fun k row hrow => ?_, fun batch hbatch => ?_⟩, fun i t ht => ?_⟩,
    fun k mt hmt => ?_⟩
  · exact absurd hmt (Option.some_ne_none mt).symm
  · exact absurd hrow (Option.some_ne_none row).symm
  · exact absurd hbatch List.not_mem_nil
  · exact absurd ht (Option.some_ne_none t).symm
  · exact absurd hmt (Option.some_ne_none mt).symm

/-- Under repair since `t`, a record is stuck when the timeout has passed since then. -/
theorem isStuck_since {mt : ManagedTorrent} {t : Int} (hunder : mt.state = .underRepair)
    (hclock : mt.underRepairStartedAt = some t) (cfg : EngineConfig) (now : Int) :
    isStuck cfg mt now = decide (now - t > (max cfg.timeoutMins 1 : Nat) * 60) := by
  rw [isStuck, hunder, hclock]
  exact Bool.true_and _

/-- **The repair clock is tied to the state.**  In every life that starts from an empty table, whatever
    the operations and their interleaving and over any restarts, every record and every row has its
    clock set exactly under repair; an update that is about to be written over a copy that was under
    repair has the clock of the copy; and one that runs undisturbed leaves the clock of the record.
    If every step is up to date, the timeout of a record under repair measures from the start of its
    current repair. -/
theorem clock_tied (now : Int) (es : List Happening) (c : Clocked)
    (hrun : run tick (Clocked.boot now) es = some c) :
    (∀ k mt, c.life.shared.m.torrents.lookup k = some mt →
      (mt.underRepairStartedAt.isSome = true ↔ mt.state = .underRepair)) ∧
    (∀ k row, c.life.shared.m.rows.lookup k = some row →
      (row.underRepairStartedAt.isSome = true ↔ row.state = .underRepair)) ∧
    (∀ t ∈ c.life.tasks, ∀ key old mt, t.prog.head = some (.write .updateState key (some old) mt) →
      old.state = .underRepair → mt.state = .underRepair →
      mt.underRepairStartedAt = old.underRepairStartedAt) ∧
    (∀ key mt reason env, c.life.shared.m.torrents.lookup key = some mt → mt.state = .underRepair →
      ∃ mt', ((updateTorrentState key .underRepair reason).eval performAlone c.life.shared.m
          env).2.1.torrents.lookup key = some mt' ∧
        mt'.state = .underRepair ∧ mt'.underRepairStartedAt = mt.underRepairStartedAt) ∧
    (Along tick (fun c ev => upToDate c ev = true) (Clocked.boot now) es →
      ∀ key mt, c.life.shared.m.torrents.lookup key = some mt → mt.state = .underRepair →
        ∃ t, c.since key = some t ∧ mt.underRepairStartedAt = some t ∧ ∀ cfg at',
          isStuck cfg mt at' = decide (at' - t > (max cfg.timeoutMins 1 : Nat) * 60)) := by
  obtain ⟨hpaired, htasks⟩ := run_inv' clockInv_step es _ c (clockInv_boot now).1 hrun
  refine ⟨hpaired.torrents, hpaired.rows, fun t ht key old mt hhead hbefore hafter => ?_,
    fun key mt reason env hmt hbefore => ?_, fun hC key mt hmt hunder => ?_⟩
  · obtain ⟨i, hi⟩ := List.mem_iff_getElem?.mp ht
    cases hprog : t.prog with
    | ret x =>
      rw [hprog] at hhead
      cases hhead
    | act a kont =>
      rw [hprog] at hhead
      obtain rfl := Option.some.inj hhead
      have hstores := ((htasks i t hi).step hprog).1
      exact (hstores.clock hafter).trans (if_pos (congrArg some hbefore))
  · obtain ⟨now', htorrents⟩ := updateTorrentState_alone key .underRepair reason c.life.shared.m env
    rw [hmt] at htorrents
    refine ⟨withState mt .underRepair reason now', ?_, rfl, withState_keepsClock hbefore rfl⟩
    rw [htorrents]
    exact AList.lookup_insert _
  · have hon := (run_inv onTime_step es _ c (clockInv_boot now) hC hrun).2 key mt hmt hunder
    obtain ⟨t, ht⟩ := Option.isSome_iff_exists.mp ((hpaired.torrents key mt hmt).mpr hunder)
    exact ⟨t, hon.symm.trans ht, ht, isStuck_since hunder ht⟩

/-- Nothing is answered but the time. -/
def clockShows (time : Int) : Env := { answering [] true with time := time }

/-- A refresh finds a film, a repair of it begins and is stored with preflight's snapshot, the process
    starts again, and the repair is begun anew. -/
def repairedAcrossRestart : List Happening :=
  [Happening.starts (.refresh keepErrored)] ++
    List.replicate 4 (Happening.acts 0 (answering [soundFilm.torrent] true)) ++
    [.starts (.updateState "HASH/Film" .underRepair none)] ++
    List.replicate 4 (Happening.acts 1 (clockShows 100)) ++
    [.starts (.snapshot "HASH/Film" true preflightEdit)] ++
    List.replicate 5 (Happening.acts 2 (clockShows 200)) ++
    List.replicate 3 (.db true) ++
    [.restarts 300, .starts (.updateState "HASH/Film" .underRepair none)] ++
    List.replicate 3 (Happening.acts 0 (clockShows 400))

/-- The clock still runs from the 100th second. -/
theorem clock_tied_repairedAcrossRestart :
    ∃ c mt, run tick (Clocked.boot 0) repairedAcrossRestart = some c ∧
      c.life.shared.m.torrents.lookup "HASH/Film" = some mt ∧
      mt.underRepairStartedAt.isSome = true ∧ c.since "HASH/Film" = some 100 ∧
      isStuck oneHour mt 3700 = false ∧ isStuck oneHour mt 3701 = true := by
  have hview : (run tick (Clocked.boot 0) repairedAcrossRestart).map (fun c =>
      (stateIn (recordOf c.life "HASH/Film"), c.since "HASH/Film")) =
      some (some .underRepair, some 100) := by decide
  obtain ⟨c, hrun, hfields⟩ := Option.map_eq_some_iff.mp hview
  obtain ⟨hstate, hsince⟩ := Prod.mk.inj hfields
  obtain ⟨mt, hmt, hunder⟩ := Option.map_eq_some_iff.mp hstate
  obtain ⟨hpaired, -, -, -, hstuck⟩ := clock_tied 0 repairedAcrossRestart c hrun
  have hupToDate : Along tick (fun c ev => upToDate c ev = true) (Clocked.boot 0)
      repairedAcrossRestart := along_of_check (fun _ _ h => h) _ _ (by decide)
  obtain ⟨t, ht, -, hmeasures⟩ := hstuck hupToDate "HASH/Film" mt hmt hunder
  obtain rfl : 100 = t := Option.some.inj (hsince.symm.trans ht)
  exact ⟨c, mt, hrun, hmt, (hpaired "HASH/Film" mt hmt).mpr hunder, hsince,
    (hmeasures oneHour 3700).trans (by decide), (hmeasures oneHour 3701).trans (by decide)⟩

/-- A snapshot is made in a repair that begins at 0; that repair ends, the next one begins at 6000, and
    then the snapshot is stored. -/
def lateSnapshot : List Happening :=
  [Happening.starts (.refresh keepErrored)] ++
    List.replicate 3 (Happening.acts 0 (answering [soundFilm.torrent] true)) ++
    [.starts (.updateState "HASH/Film" .underRepair none)] ++
    List.replicate 3 (Happening.acts 1 (clockShows 0)) ++
    [.starts (.snapshot "HASH/Film" true preflightEdit)] ++
    List.replicate 3 (Happening.acts 2 (clockShows 0)) ++
    [.starts (.updateState "HASH/Film" .broken none)] ++
    List.replicate 3 (Happening.acts 3 (clockShows 1800)) ++
    [.starts (.updateState "HASH/Film" .underRepair none)] ++
    List.replicate 3 (Happening.acts 4 (clockShows 6000)) ++
    [.acts 2 (clockShows 6000)]

/-- **A late snapshot turns the clock back.**  One minute into the second repair it counts as stuck for
    an hour. -/
theorem late_snapshot_turns_clock_back :
    ∃ c mt, run tick (Clocked.boot 0) lateSnapshot = some c ∧
      c.life.shared.m.torrents.lookup "HASH/Film" = some mt ∧ mt.state = .underRepair ∧
      c.since "HASH/Film" = some 6000 ∧ mt.underRepairStartedAt = some 0 ∧
      isStuck oneHour mt 6060 = true ∧
      ¬∃ t, c.since "HASH/Film" = some t ∧ ∀ cfg at',
        isStuck cfg mt at' = decide (at' - t > (max cfg.timeoutMins 1 : Nat) * 60) := by
  have hview : (run tick (Clocked.boot 0) lateSnapshot).map (fun c =>
      (stateIn (recordOf c.life "HASH/Film"), clockIn (recordOf c.life "HASH/Film"),
        c.since "HASH/Film")) = some (some .underRepair, some 0, some 6000) := by decide
  obtain ⟨c, hrun, hfields⟩ := Option.map_eq_some_iff.mp hview
  obtain ⟨hstate, hrest⟩ := Prod.mk.inj hfields
  obtain ⟨hclock, hsince⟩ := Prod.mk.inj hrest
  obtain ⟨mt, hmt, hunder⟩ := Option.map_eq_some_iff.mp hstate
  have hzero : mt.underRepairStartedAt = some 0 := by
    rw [hmt] at hclock
    exact hclock
  have hstuck : isStuck oneHour mt 6060 = true :=
    (isStuck_since hunder hzero oneHour 6060).trans (by decide)
  refine ⟨c, mt, hrun, hmt, hunder, hsince, hzero, hstuck, ?_⟩
  rintro ⟨t, ht, hmeasures⟩
  obtain rfl : 6000 = t := Option.some.inj (hsince.symm.trans ht)
  exact absurd (hstuck.symm.trans (hmeasures oneHour 6060)) (by decide)

end RdRs.Torrent

/-
  The snapshot of preflight and the marks of the file system.

  A repair works on a copy: it reads the record, runs preflight on what it has read (many calls to
  Real-Debrid), and stores the result over whatever the map holds by then (`persist_torrent_snapshot`).
  A file that `mark_file_broken` marks in between is in the map, but not in the copy.

  1. **Observer** — `sight`: the copy, the answers preflight got, the files marked since, and the place
     of the snapshot's batch in the database's queue.
  2. **Protocol** — `snapshotProtocol`: from the copy to the batch of the snapshot.
  3. **Result** — when the batch has run, the marks are still there, in the map and in the row, exactly
     when each of these files is one that the answers say is broken, or that no answer is about and the
     copy has broken (`LeavesBroken`, `marks_kept_iff`).
-/
import RdRs.Repair.FileMarks
import RdRs.Repair.Rules
import RdRs.Torrent.Writes
import RdRs.Torrent.Replicas

set_option linter.unusedVariables false

namespace RdRs.Torrent

open RdRs.Rd RdRs.Repair RdRs.Programs RdRs.Runs RdRs.Effects

/-! ## The observer -/

/-- What is seen of a repair and of the marks beside it. -/
structure Sight where
  /-- the copy the repair has taken last -/
  copy : Option ManagedTorrent
  /-- the answers preflight got -/
  outside : Option Outside
  /-- the files marked broken since the copy -/
  marked : List String
  /-- the snapshot is in the map -/
  saved : Bool
  /-- the place of its batch among those of the database thread -/
  ticket : Option Nat

/-- Nothing is seen yet. -/
def Sight.blank : Sight := ⟨none, none, [], false, none⟩

/-- The copy is taken again, unless it has become the snapshot. -/
def Sight.look (ob : Sight) (mt : Option ManagedTorrent) : Sight :=
  if ob.saved then ob else { ob with copy := mt, marked := [] }

/-- The observer of the key: what the repair does (it is the only one of its kind), and the marks of
    everybody else. -/
def sight (k : String) : Observer Sight where
  see
    | .repair _ _, ob, .get _, r => ob.look r
    | .repair _ _, ob, .inject _ _, r => ob.look r
    | .repair _ _, ob, .preflight, r => { ob with outside := some r }
    | .repair _ _, ob, .write .preflightSnapshot _ _ _, _ => { ob with saved := true }
    | .repair _ _, ob, .enqueue _, r =>
      if ob.saved && ob.ticket.isNone then { ob with ticket := some r } else ob
    | .repair _ _, ob, _, _ => ob
    | _, ob, .write (.markBroken path) key _ _, _ =>
      if key = k then { ob with marked := path :: ob.marked } else ob
    | _, ob, _, _ => ob
  ran ob _ _ := ob

/-! ## The repair -/

/-- Where a repair stands with its snapshot. -/
inductive SnapPhase where
  /-- before preflight, with the last copy -/
  | reading (copy : Option ManagedTorrent)
  /-- preflight has run on the copy, with these answers -/
  | asked (copy : ManagedTorrent) (outside : Outside)
  /-- the snapshot is in the map -/
  | wrote (mt : ManagedTorrent)
  /-- its row is with the database thread -/
  | queued (mt : ManagedTorrent) (ticket : Nat)
  /-- its row has been stored -/
  | past

/-- The repair of `k`: the snapshot is what preflight makes of the last copy, its row follows at once,
    and nothing else happens until that has run. -/
def snapshotProtocol (k : String) : Protocol Act Act.Res SnapPhase where
  allows
    | .reading _, .get key => key = k
    | .reading _, .write op key _ mt => op = .updateState ∧ key = k ∧ mt.accessKey = k
    | .reading copy, .inject key _ => key = k ∧ copy.isSome
    | .reading copy, .preflight => copy.isSome
    | .reading _, .remove _ => False
    | .reading _, _ => True
    | .asked _ _, .get key => key = k
    | .asked copy o, .write op key base mt => op = .preflightSnapshot ∧ key = k ∧ mt.accessKey = k ∧
        ((runPreflight o copy).value = .proceed mt ∨ (runPreflight o copy).value = .verifiedOk mt)
    | .wrote mt, .enqueue batch => batch = [torrentToRow mt]
    | .queued _ ticket, .await t => t = ticket
    | .past, .write op key _ mt => op ≠ .preflightSnapshot ∧ key = k ∧ mt.accessKey = k
    | .past, .inject _ _ | .past, .remove _ => False
    | .past, _ => True
    | _, _ => False
  answers
    | _, .get key, r => OfKey key r
    | _, .inject key _, r => OfKey key r ∧ r.isSome
    | _, _, _ => True
  next
    | .reading _, .get _, r => .reading r
    | .reading _, .inject _ _, r => .reading r
    | .reading (some copy), .preflight, o => .asked copy o
    | .asked _ _, .get _, r => .reading r
    | .asked _ _, .write _ _ _ mt, _ => .wrote mt
    | .wrote mt, .enqueue _, ticket => .queued mt ticket
    | .queued _ _, .await _, _ => .past
    | s, _, _ => s

section Repair

variable {k : String}

/-- The repair holds this copy. -/
def HoldsCopy (k : String) (mt : ManagedTorrent) (s : SnapPhase) : Prop :=
  s = .reading (some mt) ∧ mt.accessKey = k

/-- It has not come to preflight. -/
def IsReading (s : SnapPhase) : Prop := ∃ copy, s = .reading copy

theorem HoldsCopy.isReading {mt : ManagedTorrent} {s : SnapPhase} (h : HoldsCopy k mt s) :
    IsReading s := ⟨some mt, h.1⟩

/-- Before preflight and from it on, the record is read as it stands under its key. -/
theorem reading_get {s : SnapPhase} (hs : IsReading s ∨ ∃ copy o, s = .asked copy o) :
    Takes (snapshotProtocol k) s (.get k) (Looks IsReading (HoldsCopy k)) := by
  rcases hs with ⟨copy, rfl⟩ | ⟨copy, o, rfl⟩
  · refine ⟨rfl, fun r hr => ?_⟩
    cases r with
    | none => exact ⟨none, rfl⟩
    | some mt => exact ⟨rfl, hr mt rfl⟩
  · refine ⟨rfl, fun r hr => ?_⟩
    cases r with
    | none => exact ⟨none, rfl⟩
    | some mt => exact ⟨rfl, hr mt rfl⟩

theorem reading_trails : Trails (snapshotProtocol k) IsReading := by
  rintro s a ⟨copy, rfl⟩ ha
  cases a with
  | enqueue batch => exact ⟨trivial, fun r _ => ⟨copy, rfl⟩⟩
  | await ticket => exact ⟨trivial, fun r _ => ⟨copy, rfl⟩⟩
  | hook paths => exact ⟨trivial, fun r _ => ⟨copy, rfl⟩⟩
  | send key state => exact ⟨trivial, fun r _ => ⟨copy, rfl⟩⟩
  | _ => exact False.elim ha

theorem reading_ensureTorrentInfo {s : SnapPhase} (hs : IsReading s) :
    Follows (snapshotProtocol k) s (ensureTorrentInfo k) (Looks IsReading (HoldsCopy k)) := by
  refine ensureTorrentInfo_rule (reading_get (Or.inl hs)) (fun mt s h => h.isReading) ?_ ?_
  · rintro mt s id ⟨rfl, hkey⟩
    exact ⟨trivial, fun r _ => ⟨rfl, hkey⟩⟩
  · rintro mt s info ⟨rfl, hkey⟩
    refine ⟨⟨rfl, rfl⟩, fun r hr => ?_⟩
    cases r with
    | none => exact absurd hr.2 Bool.false_ne_true
    | some updated => exact ⟨rfl, hr.1 updated rfl⟩

theorem reading_updateTorrentState {s : SnapPhase} (hs : IsReading s ∨ ∃ copy o, s = .asked copy o)
    (state : TorrentState) (reason : Option String) :
    Follows (snapshotProtocol k) s (updateTorrentState k state reason) fun _ => IsReading := by
  refine updateTorrentState_rule reading_trails (reading_get hs) ?_ ?_
  · rintro mt s ⟨rfl, hkey⟩
    exact ⟨trivial, fun r _ => ⟨rfl, hkey⟩⟩
  · rintro mt s now ⟨rfl, hkey⟩
    exact ⟨⟨rfl, rfl, hkey⟩, fun r _ => ⟨some mt, rfl⟩⟩

/-- Past the snapshot, with a copy. -/
def PastCopy (k : String) (mt : ManagedTorrent) (s : SnapPhase) : Prop :=
  s = .past ∧ mt.accessKey = k

theorem past_get : Takes (snapshotProtocol k) .past (.get k) (Looks (· = .past) (PastCopy k)) := by
  refine ⟨trivial, fun r hr => ?_⟩
  cases r with
  | none => exact rfl
  | some mt => exact ⟨rfl, hr mt rfl⟩

theorem past_trails : Trails (snapshotProtocol k) (· = .past) := by
  rintro s a rfl ha
  cases a with
  | enqueue batch => exact ⟨trivial, fun r _ => rfl⟩
  | await ticket => exact ⟨trivial, fun r _ => rfl⟩
  | hook paths => exact ⟨trivial, fun r _ => rfl⟩
  | send key state => exact ⟨trivial, fun r _ => rfl⟩
  | _ => exact False.elim ha

/-- **A repair keeps to the protocol.** -/
theorem repair_follows (cfg : EngineConfig) :
    Follows (snapshotProtocol k) (.reading none) (repairOneTorrent cfg k) anyEnd := by
  have hlook : ∀ s, IsReading s → Follows (snapshotProtocol k) s (ensureTorrentInfo k)
      (Looks (fun _ => True) (HoldsCopy k)) := by
    intro s hs
    refine (reading_ensureTorrentInfo hs).mono fun x s' hx => ?_
    cases x with
    | none => exact trivial
    | some mt => exact hx
  refine repairOneTorrent_rule (prepare_rule (A := IsReading) (B := IsReading) ?_ hlook ?_ ?_ hlook
    ⟨none, rfl⟩) ?_
  · rintro s ⟨copy, rfl⟩
    exact ⟨trivial, fun r _ => ⟨copy, rfl⟩⟩
  · rintro mt s ⟨rfl, hkey⟩
    exact ⟨trivial, fun r _ => ⟨rfl, hkey⟩⟩
  · intro mt s state hs hreason
    exact reading_updateTorrentState (Or.inl hs.isReading) state none
  · rintro mt s ⟨rfl, hkey⟩
    refine repairPrepared_rule (D := (· = .past)) (Q := fun o s => s = .asked mt o)
      ⟨rfl, fun o _ => rfl⟩ ?_ ?_ ?_ ?_ ?_
    · rintro o s rfl
      exact (reading_updateTorrentState (Or.inr ⟨mt, o, rfl⟩) .broken none).mono fun _ _ _ => trivial
    · rintro o s m rfl hm
      have hmkey : m.accessKey = k := by
        obtain ⟨_, _, rfl⟩ := runPreflight_edits hm
        exact hkey
      -- the write, its row and the wait for it
      refine ⟨⟨rfl, hmkey, hmkey, hm⟩, fun _ _ => ?_⟩
      refine ⟨rfl, fun ticket _ => ?_⟩
      exact ⟨rfl, fun ok _ => rfl⟩
    · rintro m s rfl
      refine runCascade_rule ?_ ?_ rfl
      · rintro s rfl
        exact ⟨trivial, fun r _ => rfl⟩
      · rintro s ev rfl
        exact ⟨trivial, fun r _ => rfl⟩
    · rintro ids s rfl
      refine replaceRdIdsAfterRepair_rule past_trails past_get ?_
      rintro mt s ⟨rfl, hkey⟩
      exact ⟨⟨WriteOp.noConfusion, hkey, hkey⟩, fun r _ => rfl⟩
    · rintro state reason s rfl
      refine (updateTorrentState_rule past_trails past_get ?_ ?_).mono fun _ _ _ => trivial
      · rintro mt s ⟨rfl, hkey⟩
        exact ⟨trivial, fun r _ => ⟨rfl, hkey⟩⟩
      · rintro mt s now ⟨rfl, hkey⟩
        exact ⟨⟨WriteOp.noConfusion, rfl, hkey⟩, fun r _ => rfl⟩

end Repair

/-! ## The invariant -/

/-- The calls of the file system: fatal reads, marks and updates of the state. -/
def FuseKind : Kind → Prop
  | .fatalRead _ _ _ | .markBroken _ _ | .updateState _ _ _ => True
  | _ => False

/-- What they write. -/
def FuseOp (op : WriteOp) (mt : ManagedTorrent) : Prop :=
  op = .updateState ∨ ∃ path, op = .markBroken path

/-- A call of the file system in progress. -/
def FuseTask (t : RegTask) : Prop :=
  FuseKind t.kind ∧ ∃ s, Follows (writes FuseOp False) s t.prog anyEnd

theorem fuseTask_start {kind : Kind} (h : FuseKind kind) : FuseTask (start kind) := by
  refine ⟨h, .nothing, ?_⟩
  cases kind with
  | fatalRead key path wait =>
    exact fatalRead_writes (fun mt now => Or.inl rfl) (fun mt => Or.inr ⟨path, rfl⟩) key wait
  | markBroken key path =>
    exact follows_done (markFileBroken_writes (fun mt => Or.inr ⟨path, rfl⟩) key)
  | updateState key state reason =>
    exact follows_done (updateTorrentState_writes (fun mt now => Or.inl rfl) key)
  | _ => exact False.elim h

section Invariant

variable {k : String}

/-- The snapshot `mt` is what preflight has made of the copy, and the files it has marked broken are
    so in the map. -/
def Carries (k : String) (mt : ManagedTorrent) (w : Watched Sight) : Prop :=
  ∃ copy o cur, w.ob.copy = some copy ∧ w.ob.outside = some o ∧
    ((runPreflight o copy).value = .proceed mt ∨ (runPreflight o copy).value = .verifiedOk mt) ∧
    mt.accessKey = k ∧ w.m.torrents.lookup k = some cur ∧
    ∀ path, isBroken (mt.fileStates.getD ∅) path = true → isBroken (cur.fileStates.getD ∅) path = true

/-- What the phase of the repair says of the manager and of what is seen. -/
def Stands (k : String) : SnapPhase → Watched Sight → Prop
  | .reading copy, w => w.ob.copy = copy ∧ w.ob.saved = false ∧ w.ob.ticket = none ∧
      (copy.isSome → (w.m.torrents.lookup k).isSome)
  | .asked copy o, w => w.ob.copy = some copy ∧ w.ob.outside = some o ∧ w.ob.saved = false ∧
      w.ob.ticket = none
  | .wrote mt, w => w.ob.saved = true ∧ w.ob.ticket = none ∧ Carries k mt w
  | .queued mt ticket, w => w.ob.saved = true ∧ w.ob.ticket = some ticket ∧
      (w.m.done.length ≤ ticket → Carries k mt w ∧
        w.m.jobs[ticket - w.m.done.length]? = some [torrentToRow mt])
  | .past, w => w.ob.saved = true ∧ ∃ ticket, w.ob.ticket = some ticket ∧ ticket < w.m.done.length

/-- The repair of `k` in progress. -/
def RepairTask (k : String) (w : Watched Sight) (t : RegTask) : Prop :=
  (∃ cfg, t.kind = .repair cfg k) ∧ Keyed w.m.torrents ∧
    ∃ s, Follows (snapshotProtocol k) s t.prog anyEnd ∧ Stands k s w

variable {w : Watched Sight} {m' : Manager} {a : Act} {e : Env} {r : a.Res} {cfg : EngineConfig}

theorem snapshot_answers {s : SnapPhase} (hkeyed : Keyed w.m.torrents) (hs : Stands k s w)
    (ha : (snapshotProtocol k).allows s a) (h : perform w.m a e = (r, m')) :
    (snapshotProtocol k).answers s a r := by
  cases a with
  | get key =>
    cases h
    exact fun t ht => hkeyed key t ht
  | inject key info =>
    refine ⟨ofKey_inject hkeyed h, ?_⟩
    cases s with
    | reading copy =>
      obtain ⟨rfl, hcopy⟩ := ha
      have hin := hs.2.2.2 hcopy
      rw [perform] at h
      split at h
      · rename_i hnone
        rw [hnone] at hin
        exact absurd hin Bool.false_ne_true
      · cases h
        rfl
    | _ => exact False.elim ha
  | _ => trivial

/-- Before preflight the last copy is seen. -/
theorem reading_stands {copy : Option ManagedTorrent} (hs : Stands k (.reading copy) w)
    (ha : (snapshotProtocol k).allows (.reading copy) a) (h : perform w.m a e = (r, m')) :
    Stands k ((snapshotProtocol k).next (.reading copy) a r)
      ⟨m', (sight k).see (.repair cfg k) w.ob a r⟩ := by
  obtain ⟨hcopy, hsaved, hticket, hin⟩ := hs
  have hin' : a ≠ .remove k → copy.isSome → (m'.torrents.lookup k).isSome :=
    fun hne hc => isSome_perform h hne (hin hc)
  have hlook : ∀ mt, w.ob.look mt = { w.ob with copy := mt, marked := [] } :=
    fun mt => if_neg (by rw [hsaved]; exact Bool.false_ne_true)
  cases a with
  | get key =>
    obtain rfl : key = k := ha
    cases h
    show Stands key (.reading _) ⟨w.m, w.ob.look _⟩
    rw [hlook]
    exact ⟨rfl, hsaved, hticket, fun hc => hc⟩
  | inject key info =>
    obtain ⟨rfl, hc⟩ := ha
    show Stands key (.reading r) ⟨m', w.ob.look r⟩
    rw [hlook]
    exact ⟨rfl, hsaved, hticket, fun _ => hin' Act.noConfusion hc⟩
  | preflight =>
    obtain ⟨mt, rfl⟩ := Option.isSome_iff_exists.mp ha
    exact ⟨hcopy, rfl, hsaved, hticket⟩
  | write op key base mt =>
    obtain ⟨rfl, rfl, -⟩ := ha
    exact ⟨hcopy, hsaved, hticket, hin' Act.noConfusion⟩
  | remove key => exact False.elim ha
  | enqueue batch =>
    have hsee : (sight k).see (.repair cfg k) w.ob (.enqueue batch) r = w.ob := by
      show (if w.ob.saved && w.ob.ticket.isNone then _ else w.ob) = w.ob
      rw [hsaved]
      rfl
    rw [hsee]
    exact ⟨hcopy, hsaved, hticket, hin' Act.noConfusion⟩
  | _ => exact ⟨hcopy, hsaved, hticket, hin' Act.noConfusion⟩

/-- From preflight on, up to the run of the snapshot's batch. -/
theorem snapshot_stands {s : SnapPhase} (hs : Stands k s w) (hphase : ∀ copy, s ≠ .reading copy)
    (ha : (snapshotProtocol k).allows s a) (hb : blocked w.m a = false)
    (h : perform w.m a e = (r, m')) :
    Stands k ((snapshotProtocol k).next s a r) ⟨m', (sight k).see (.repair cfg k) w.ob a r⟩ := by
  cases s with
  | reading copy => exact absurd rfl (hphase copy)
  | asked copy o =>
    obtain ⟨hcopy, houtside, hsaved, hticket⟩ := hs
    cases a with
    | get key =>
      obtain rfl : key = k := ha
      cases h
      have hlook : w.ob.look (w.m.torrents.lookup key) =
          { w.ob with copy := w.m.torrents.lookup key, marked := [] } :=
        if_neg (by rw [hsaved]; exact Bool.false_ne_true)
      show Stands key (.reading _) ⟨w.m, w.ob.look _⟩
      rw [hlook]
      exact ⟨rfl, hsaved, hticket, fun hc => hc⟩
    | write op key base mt =>
      obtain ⟨rfl, rfl, hkey, hmt⟩ := ha
      cases h
      exact ⟨rfl, hticket, copy, o, mt, hcopy, houtside, hmt, hkey, AList.lookup_insert _,
        fun path hpath => hpath⟩
    | _ => exact False.elim ha
  | wrote mt =>
    obtain ⟨hsaved, hticket, hcarries⟩ := hs
    cases a with
    | enqueue batch =>
      obtain rfl : batch = [torrentToRow mt] := ha
      cases h
      have hsee : (sight k).see (.repair cfg k) w.ob (.enqueue [torrentToRow mt])
          (w.m.done.length + w.m.jobs.length) =
          { w.ob with ticket := some (w.m.done.length + w.m.jobs.length) } :=
        if_pos (by rw [hsaved, hticket]; rfl)
      rw [hsee]
      refine ⟨hsaved, rfl, fun _ => ⟨hcarries, ?_⟩⟩
      show (w.m.jobs ++ [[torrentToRow mt]])[w.m.done.length + w.m.jobs.length - w.m.done.length]? = _
      rw [Nat.add_sub_cancel_left, List.getElem?_append_right (Nat.le_refl _), Nat.sub_self]
      rfl
    | _ => exact False.elim ha
  | queued mt ticket =>
    obtain ⟨hsaved, hticket, hpending⟩ := hs
    cases a with
    | await t =>
      obtain rfl : t = ticket := ha
      have hlt : t < w.m.done.length := by
        rw [blocked, decide_eq_false_iff_not] at hb
        omega
      cases h
      exact ⟨hsaved, t, hticket, hlt⟩
    | _ => exact False.elim ha
  | past =>
    obtain ⟨hsaved, ticket, hticket, hlt⟩ := hs
    have hdone : ticket < m'.done.length := by
      rw [(done_perform h).1]
      exact hlt
    have hlook : ∀ mt, w.ob.look mt = w.ob := fun mt => if_pos hsaved
    cases a with
    | get key =>
      show Stands k .past ⟨m', w.ob.look r⟩
      rw [hlook]
      exact ⟨hsaved, ticket, hticket, hdone⟩
    | inject key info => exact False.elim ha
    | remove key => exact False.elim ha
    | write op key base mt =>
      have hsee : (sight k).see (.repair cfg k) w.ob (.write op key base mt) r = w.ob := by
        cases op with
        | preflightSnapshot => exact absurd rfl ha.1
        | _ => rfl
      rw [hsee]
      exact ⟨hsaved, ticket, hticket, hdone⟩
    | enqueue batch =>
      have hsee : (sight k).see (.repair cfg k) w.ob (.enqueue batch) r = w.ob :=
        if_neg (by rw [hticket, Option.isNone_some, Bool.and_false]; exact Bool.false_ne_true)
      rw [hsee]
      exact ⟨hsaved, ticket, hticket, hdone⟩
    | _ => exact ⟨hsaved, ticket, hticket, hdone⟩

/-- A repair that acts goes on in its next phase, and writes records under their keys. -/
theorem RepairTask.next {t : RegTask} {kont : a.Res → M Unit} (h : RepairTask k w t)
    (hprog : t.prog = .act a kont) (hb : blocked w.m a = false) (hperf : perform w.m a e = (r, m')) :
    RepairTask k ⟨m', (sight k).see t.kind w.ob a r⟩ ⟨t.kind, kont r⟩ := by
  obtain ⟨⟨cfg, hkind⟩, hkeyed, s, hfollows, hs⟩ := h
  obtain ⟨hallows, hnext⟩ := hfollows.step hprog
  have hanswers := snapshot_answers hkeyed hs hallows hperf
  have hkeyed' : Keyed m'.torrents := by
    refine keyed_perform hkeyed ?_ hperf
    rintro op key base mt rfl
    cases s with
    | reading copy =>
      obtain ⟨-, rfl, hkey⟩ := hallows
      exact hkey
    | asked copy o =>
      obtain ⟨-, rfl, hkey, -⟩ := hallows
      exact hkey
    | past =>
      obtain ⟨-, rfl, hkey⟩ := hallows
      exact hkey
    | _ => exact False.elim hallows
  refine ⟨⟨cfg, hkind⟩, hkeyed', _, hnext r hanswers, ?_⟩
  rw [hkind]
  cases s with
  | reading copy => exact reading_stands hs hallows hperf
  | _ => exact snapshot_stands hs (fun copy => SnapPhase.noConfusion) hallows hb hperf

/-- The snapshot is in the map and its batch has not run. -/
def Pending (w : Watched Sight) : Prop :=
  w.ob.saved = true ∧ ∀ ticket, w.ob.ticket = some ticket → w.m.done.length ≤ ticket

/-- The observer takes a call of the file system for its mark only. -/
theorem fuse_see {kind : Kind} (hkind : FuseKind kind) (ob : Sight) (a : Act) (r : a.Res) :
    ((sight k).see kind ob a r).copy = ob.copy ∧ ((sight k).see kind ob a r).outside = ob.outside ∧
      ((sight k).see kind ob a r).saved = ob.saved ∧
      ((sight k).see kind ob a r).ticket = ob.ticket := by
  have hmark : ∀ key path, (if key = k then { ob with marked := path :: ob.marked } else ob).copy =
      ob.copy ∧ (if key = k then { ob with marked := path :: ob.marked } else ob).outside =
      ob.outside ∧ (if key = k then { ob with marked := path :: ob.marked } else ob).saved =
      ob.saved ∧ (if key = k then { ob with marked := path :: ob.marked } else ob).ticket =
      ob.ticket := by
    intro key path
    split
    · exact ⟨rfl, rfl, rfl, rfl⟩
    · exact ⟨rfl, rfl, rfl, rfl⟩
  cases kind with
  | fatalRead _ _ _ | markBroken _ _ | updateState _ _ _ =>
    cases a with
    | write op key base mt =>
      cases op with
      | markBroken path => exact hmark key path
      | _ => exact ⟨rfl, rfl, rfl, rfl⟩
    | _ => exact ⟨rfl, rfl, rfl, rfl⟩
  | _ => exact False.elim hkind

/-- A write of the file system that is made from the record in the map loses no mark. -/
theorem fuse_keeps_broken {op : WriteOp} {cur mt : ManagedTorrent} (hop : FuseOp op mt)
    (hmade : MadeFrom op (some cur) mt) {path : String}
    (h : isBroken (cur.fileStates.getD ∅) path = true) :
    isBroken (mt.fileStates.getD ∅) path = true := by
  rcases hop with rfl | ⟨marked, rfl⟩
  · obtain ⟨old, state, reason, now, hold, rfl⟩ := hmade
    obtain rfl := Option.some.inj hold
    exact h
  · obtain ⟨old, hold, rfl⟩ := hmade
    obtain rfl := Option.some.inj hold
    rw [isBroken_eq_true] at h ⊢
    show ((cur.fileStates.getD ∅).insert marked "broken").lookup path = some "broken"
    by_cases hp : path = marked
    · rw [hp, AList.lookup_insert]
    · rw [AList.lookup_insert_ne hp, h]

/-- The files the snapshot has marked stay marked in the map, if what the file system writes is made
    from the record there. -/
theorem Carries.beside {mt : ManagedTorrent} {kind : Kind} {g : Glance} (h : Carries k mt w)
    (hkind : FuseKind kind) (hallows : (writes FuseOp False).allows g a)
    (hperf : perform w.m a e = (r, m'))
    (hcur : ∀ op base new, a = .write op k base new → base = w.m.torrents.lookup k) :
    Carries k mt ⟨m', (sight k).see kind w.ob a r⟩ := by
  obtain ⟨copy, o, cur, hcopy, houtside, hmt, hkey, hmap, hbroken⟩ := h
  obtain ⟨hcopy', houtside', -, -⟩ := fuse_see (k := k) hkind w.ob a r
  rw [← hcopy'] at hcopy
  rw [← houtside'] at houtside
  rcases lookup_perform hperf k with hsame | ⟨op, base, new, rfl, hnew⟩ |
    ⟨info, old, rfl, hold, hnew⟩ | ⟨rfl, -⟩
  · exact ⟨copy, o, cur, hcopy, houtside, hmt, hkey, hsame.trans hmap, hbroken⟩
  · obtain rfl := hcur op base new rfl
    obtain ⟨hop, -, hmade⟩ := hallows
    rw [hmap] at hmade
    exact ⟨copy, o, new, hcopy, houtside, hmt, hkey, hnew, fun path hpath =>
      fuse_keeps_broken hop hmade (hbroken path hpath)⟩
  · rw [hmap] at hold
    obtain rfl := Option.some.inj hold
    exact ⟨copy, o, _, hcopy, houtside, hmt, hkey, hnew, hbroken⟩
  · exact False.elim hallows.1

/-- What the repair has stands while the file system acts, if its writes are up to date once the
    snapshot is in the map. -/
theorem RepairTask.beside {t u : RegTask} {g : Glance} (h : RepairTask k w t) (hu : FuseKind u.kind)
    (hallows : (writes FuseOp False).allows g a) (hperf : perform w.m a e = (r, m'))
    (hcur : ∀ op base mt, a = .write op k base mt → Pending w → base = w.m.torrents.lookup k) :
    RepairTask k ⟨m', (sight k).see u.kind w.ob a r⟩ t := by
  obtain ⟨hkind, hkeyed, s, hfollows, hs⟩ := h
  obtain ⟨hcopy', houtside', hsaved', hticket'⟩ := fuse_see (k := k) hu w.ob a r
  obtain ⟨hdone, new, hjobs⟩ := done_perform hperf
  have hremove : ∀ key, a ≠ .remove key := by
    rintro key rfl
    exact hallows.1
  have hkeyed' : Keyed m'.torrents := by
    refine keyed_perform hkeyed ?_ hperf
    rintro op key base mt rfl
    exact hallows.2.1
  have hcarries : ∀ mt, Pending w → Carries k mt w →
      Carries k mt ⟨m', (sight k).see u.kind w.ob a r⟩ :=
    fun mt hpending hmt => hmt.beside hu hallows hperf fun op base new ha =>
      hcur op base new ha hpending
  refine ⟨hkind, hkeyed', s, hfollows, ?_⟩
  cases s with
  | reading copy =>
    obtain ⟨hcopy, hsaved, hticket, hin⟩ := hs
    exact ⟨hcopy'.trans hcopy, hsaved'.trans hsaved, hticket'.trans hticket,
      fun hc => isSome_perform hperf (hremove k) (hin hc)⟩
  | asked copy o =>
    obtain ⟨hcopy, houtside, hsaved, hticket⟩ := hs
    exact ⟨hcopy'.trans hcopy, houtside'.trans houtside, hsaved'.trans hsaved, hticket'.trans hticket⟩
  | wrote mt =>
    obtain ⟨hsaved, hticket, hmt⟩ := hs
    have hpending : Pending w := by
      refine ⟨hsaved, fun ticket ht => ?_⟩
      rw [hticket] at ht
      cases ht
    exact ⟨hsaved'.trans hsaved, hticket'.trans hticket, hcarries mt hpending hmt⟩
  | queued mt ticket =>
    obtain ⟨hsaved, hticket, hmt⟩ := hs
    refine ⟨hsaved'.trans hsaved, hticket'.trans hticket, fun hle => ?_⟩
    have hle' : w.m.done.length ≤ ticket := by
      rw [← hdone]
      exact hle
    have hpending : Pending w := by
      refine ⟨hsaved, fun t ht => ?_⟩
      rw [hticket] at ht
      obtain rfl := Option.some.inj ht
      exact hle'
    obtain ⟨hmt, hjob⟩ := hmt hle'
    refine ⟨hcarries mt hpending hmt, ?_⟩
    show m'.jobs[ticket - m'.done.length]? = _
    have hlt := (List.getElem?_eq_some_iff.mp hjob).1
    rw [hdone, ← hjobs, List.getElem?_append_left hlt]
    exact hjob
  | past =>
    obtain ⟨hsaved, ticket, hticket, hlt⟩ := hs
    have hlt' : ticket < m'.done.length := by
      rw [hdone]
      exact hlt
    exact ⟨hsaved'.trans hsaved, ticket, hticket'.trans hticket, hlt'⟩

/-- And while the database thread runs a batch. -/
theorem RepairTask.db {t : RegTask} {ok : Bool} {n : Nat} (h : RepairTask k w t)
    (hrun : runJob w.m ok = some m') : RepairTask k ⟨m', (sight k).ran w.ob n ok⟩ t := by
  obtain ⟨hkind, hkeyed, s, hfollows, hs⟩ := h
  obtain ⟨batch, rest, hjobs, rfl⟩ := runJob_some hrun
  refine ⟨hkind, hkeyed, s, hfollows, ?_⟩
  have hlen : (w.m.done ++ [ok]).length = w.m.done.length + 1 := by
    rw [List.length_append, List.length_singleton]
  cases s with
  | reading copy => exact hs
  | asked copy o => exact hs
  | wrote mt => exact hs
  | queued mt ticket =>
    obtain ⟨hsaved, hticket, hmt⟩ := hs
    refine ⟨hsaved, hticket, fun hle => ?_⟩
    have hle' : w.m.done.length + 1 ≤ ticket := by
      rw [← hlen]
      exact hle
    obtain ⟨hmt, hjob⟩ := hmt (by omega)
    refine ⟨hmt, ?_⟩
    show rest[ticket - (w.m.done ++ [ok]).length]? = _
    have hidx : ticket - w.m.done.length = ticket - (w.m.done ++ [ok]).length + 1 := by
      rw [hlen]
      omega
    rw [hjobs, hidx, List.getElem?_cons_succ] at hjob
    exact hjob
  | past =>
    obtain ⟨hsaved, ticket, hticket, hlt⟩ := hs
    refine ⟨hsaved, ticket, hticket, ?_⟩
    show ticket < (w.m.done ++ [ok]).length
    rw [hlen]
    omega

end Invariant

/-! ## The result -/

/-- Every write to the key between the snapshot's write to the map and the run of its batch is made
    from the record that is then in the map. -/
def UpToDate (k : String) (p : World Sight) (ev : Event) : Prop :=
  ∀ t op base mt, Acts p ev t (.write op k base mt) → Pending p.shared →
    base = p.shared.m.torrents.lookup k

theorem repair_step (k : String) : ∀ (p : World Sight) ev q,
    Led (RepairTask k) (fun _ => FuseTask) p → UpToDate k p ev → step (sight k) p ev = some q →
      Led (RepairTask k) (fun _ => FuseTask) q := by
  refine led_step ?_ ?_ ?_
  · rintro p ev lead rest a kont r m' htasks hlead hfuse hC ⟨hacts, hprog, hb, e, hperf⟩
    exact ⟨hlead.next hprog hb hperf, hfuse⟩
  · rintro p ev lead rest t a kont r m' htasks ht hlead hfuse hC ⟨hacts, hprog, hb, e, hperf⟩
    obtain ⟨hkind, g, hfollows⟩ := hfuse t ht
    obtain ⟨hallows, hnext⟩ := hfollows.step hprog
    refine ⟨?_, ⟨hkind, _, hnext r (writes_answers hlead.2.1 hperf)⟩, hfuse⟩
    refine hlead.beside hkind hallows hperf ?_
    rintro op base mt rfl hpending
    exact hC t op base mt hacts hpending
  · intro p ok lead rest m' htasks hlead hfuse hrun
    exact ⟨hlead.db hrun, hfuse⟩

/-- The files marked since the copy are marked in the map and in the row. -/
def MarksKept (k : String) (w : Watched Sight) : Prop :=
  ∀ path ∈ w.ob.marked,
    (∃ mt, w.m.torrents.lookup k = some mt ∧ isBroken (mt.fileStates.getD ∅) path = true) ∧
      ∃ row, w.m.rows.lookup k = some row ∧ isBroken (row.fileStates.getD ∅) path = true

/-- **Marks and the snapshot**: one repair of the key and any calls of the file system, in any order
    of their steps.  When the batch of the snapshot runs, the files marked since the copy are still
    marked exactly when each of them is left broken by the answers, or without one by the copy. -/
theorem marks_kept_iff (k : String) (cfg : EngineConfig) (m : Manager) (fuse : List Kind)
    (es : List Event) (p q : World Sight) (hkeyed : Keyed m.torrents)
    (hfuse : ∀ kind ∈ fuse, FuseKind kind)
    (hcur : Along (step (sight k)) (UpToDate k)
      ⟨⟨m, .blank⟩, (.repair cfg k :: fuse).map start⟩ es)
    (hrun : run (step (sight k)) ⟨⟨m, .blank⟩, (.repair cfg k :: fuse).map start⟩ es = some p)
    (hturn : p.shared.ob.ticket = some p.shared.m.done.length)
    (hstep : step (sight k) p (.db true) = some q) :
    ∃ copy o, p.shared.ob.copy = some copy ∧ p.shared.ob.outside = some o ∧
      (MarksKept k q.shared ↔ ∀ path ∈ p.shared.ob.marked, LeavesBroken o copy path) := by
  have hstart : Led (RepairTask k) (fun _ => FuseTask)
      ⟨⟨m, .blank⟩, (.repair cfg k :: fuse).map start⟩ := by
    refine ⟨start (.repair cfg k), fuse.map start, rfl, ⟨⟨cfg, rfl⟩, hkeyed, .reading none, ?_, ?_⟩, ?_⟩
    · exact follows_done (repair_follows cfg)
    · exact ⟨rfl, rfl, rfl, fun hc => absurd hc Bool.false_ne_true⟩
    · intro t ht
      obtain ⟨kind, hkind, rfl⟩ := List.mem_map.mp ht
      exact fuseTask_start (hfuse kind hkind)
  obtain ⟨lead, rest, htasks, ⟨hkind, hkeyed', s, hfollows, hs⟩, hrest⟩ :=
    run_inv (repair_step k) es _ p hstart hcur hrun
  -- it is the turn of the snapshot's batch, so the repair waits for it
  cases s with
  | reading copy =>
    rw [hs.2.2.1] at hturn
    cases hturn
  | asked copy o =>
    rw [hs.2.2.2] at hturn
    cases hturn
  | wrote mt =>
    rw [hs.2.1] at hturn
    cases hturn
  | past =>
    obtain ⟨-, ticket, hticket, hlt⟩ := hs
    rw [hticket] at hturn
    obtain rfl := Option.some.inj hturn
    exact absurd hlt (Nat.lt_irrefl _)
  | queued mt ticket =>
    obtain ⟨-, hticket, hmt⟩ := hs
    rw [hticket] at hturn
    obtain rfl := Option.some.inj hturn
    obtain ⟨⟨copy, o, cur, hcopy, houtside, hout, hkey, hmap, hbroken⟩, hjob⟩ := hmt (Nat.le_refl _)
    obtain ⟨m', hm', rfl⟩ := Option.map_eq_some_iff.mp hstep
    obtain ⟨batch, others, hjobs, rfl⟩ := runJob_some hm'
    rw [Nat.sub_self, hjobs, List.getElem?_cons_zero] at hjob
    obtain rfl := Option.some.inj hjob
    have hrow : (upsertRows p.shared.m.rows [torrentToRow mt]).lookup k = some (torrentToRow mt) := by
      rw [← hkey]
      exact AList.lookup_insert _
    refine ⟨copy, o, hcopy, houtside, ?_⟩
    constructor
    · intro hkept path hpath
      obtain ⟨-, row, hrow', hb⟩ := hkept path hpath
      obtain rfl : torrentToRow mt = row := Option.some.inj (hrow.symm.trans hrow')
      exact (runPreflight_broken hout path).mp hb
    · intro hleaves path hpath
      have hb : isBroken (mt.fileStates.getD ∅) path = true :=
        (runPreflight_broken hout path).mpr (hleaves path hpath)
      exact ⟨⟨cur, hmap, hbroken path hb⟩, torrentToRow mt, hrow, hb⟩

/-- A repair of the film, and a mark of its file. -/
def repairAndMark : List Kind :=
  [.repair oneHour "HASH/Film", .markBroken "HASH/Film" "/Film.mkv"]

/-- Preflight asks its questions, the file is marked, and the snapshot is stored up to its batch. -/
def markedMeanwhile (e : Env) : List Event :=
  List.replicate 7 (does 0) ++ [.db true] ++ List.replicate 4 (does 0) ++ [.act 0 e] ++
    [does 1, does 1, does 1] ++ [does 0, does 0, .db true]

/-- The state of the film's file in the map, and in its row. -/
def filmStates (m : Manager) : Option String × Option String :=
  ((m.torrents.lookup "HASH/Film").bind fun mt => (mt.fileStates.getD ∅).lookup "/Film.mkv",
    (m.rows.lookup "HASH/Film").bind fun row => (row.fileStates.getD ∅).lookup "/Film.mkv")

/-- Preflight finds the link good, then the file is marked: the snapshot wipes the mark out of the map
    and out of the row. -/
theorem snapshot_erases_mark :
    ∃ p q, run (step (sight "HASH/Film")) ⟨⟨filmStored, .blank⟩, repairAndMark.map start⟩
        (markedMeanwhile allGood) = some p ∧
      p.shared.ob.ticket = some p.shared.m.done.length ∧
      step (sight "HASH/Film") p (.db true) = some q ∧ q.shared.ob.marked = ["/Film.mkv"] ∧
      filmStates q.shared.m = (some "ok", some "ok") ∧ ¬MarksKept "HASH/Film" q.shared := by
  have htest : ((run (step (sight "HASH/Film")) ⟨⟨filmStored, .blank⟩, repairAndMark.map start⟩
      (markedMeanwhile allGood)).any fun p => p.shared.ob.ticket == some p.shared.m.done.length &&
        (step (sight "HASH/Film") p (.db true)).any fun q => q.shared.ob.marked == ["/Film.mkv"] &&
          filmStates q.shared.m == (some "ok", some "ok")) = true := by decide +kernel
  obtain ⟨p, hp, htest⟩ := (Option.any_eq_true _ _).mp htest
  rw [Bool.and_eq_true, beq_iff_eq] at htest
  obtain ⟨hturn, htest⟩ := htest
  obtain ⟨q, hq, htest⟩ := (Option.any_eq_true _ _).mp htest
  rw [Bool.and_eq_true, beq_iff_eq, beq_iff_eq] at htest
  obtain ⟨hmarked, hstates⟩ := htest
  refine ⟨p, q, hp, hturn, hq, hmarked, hstates, fun h => ?_⟩
  obtain ⟨⟨mt, hmt, hb⟩, -⟩ := h "/Film.mkv" (by rw [hmarked]; exact List.mem_singleton_self _)
  have hok := congrArg Prod.fst hstates
  rw [filmStates, hmt] at hok
  have hbroken := isBroken_eq_true.mp hb
  rw [show (mt.fileStates.getD ∅).lookup "/Film.mkv" = some "ok" from hok] at hbroken
  exact absurd hbroken (by decide)

/-- The test of `UpToDate`: no write to the key once the snapshot is in the map. -/
def testUpToDate (k : String) : World Sight → Event → Bool :=
  testEvent (fun p _ a => match a with
    | .write _ key _ _ => key != k || !p.shared.ob.saved
    | _ => true) fun _ => true

theorem upToDate_of_test {k : String} (p : World Sight) (ev : Event)
    (h : testUpToDate k p ev = true) : UpToDate k p ev := by
  intro t op base mt hacts hpending
  have htest : (k != k || !p.shared.ob.saved) = true := testEvent_acts h hacts
  rw [hpending.1] at htest
  simp at htest

/-- With every link dead preflight marks the file itself. -/
theorem marks_kept_iff_allDead :
    ∃ p q, run (step (sight "HASH/Film")) ⟨⟨filmStored, .blank⟩, repairAndMark.map start⟩
        (markedMeanwhile allDead) = some p ∧
      step (sight "HASH/Film") p (.db true) = some q ∧ q.shared.ob.marked = ["/Film.mkv"] ∧
      MarksKept "HASH/Film" q.shared := by
  have htest : ((run (step (sight "HASH/Film")) ⟨⟨filmStored, .blank⟩, repairAndMark.map start⟩
      (markedMeanwhile allDead)).any fun p => p.shared.ob.ticket == some p.shared.m.done.length &&
        (p.shared.ob.copy.all fun copy => copy.info == some oneFilmInfo) &&
        (p.shared.ob.outside.all fun o => !answersGood o (.probe 0)) &&
        p.shared.ob.marked == ["/Film.mkv"] &&
        (step (sight "HASH/Film") p (.db true)).any fun q => q.shared.ob.marked == ["/Film.mkv"]) =
      true := by decide +kernel
  obtain ⟨p, hp, htest⟩ := (Option.any_eq_true _ _).mp htest
  simp only [Bool.and_eq_true, beq_iff_eq] at htest
  obtain ⟨⟨⟨⟨hturn, hinfo⟩, hdead⟩, hmarked⟩, htest⟩ := htest
  obtain ⟨q, hq, hmarked'⟩ := (Option.any_eq_true _ _).mp htest
  refine ⟨p, q, hp, hq, beq_iff_eq.mp hmarked', ?_⟩
  obtain ⟨copy, o, hcopy, ho, hiff⟩ := marks_kept_iff "HASH/Film" oneHour filmStored
    [.markBroken "HASH/Film" "/Film.mkv"] (markedMeanwhile allDead) p q
    (keyed_singleton soundFilm)
    (fun kind hkind => by rw [List.mem_singleton.mp hkind]; trivial)
    (along_of_check upToDate_of_test _ _ (by decide +kernel)) hp hturn hq
  rw [hcopy] at hinfo
  rw [ho] at hdead
  refine hiff.mpr fun path hpath => ?_
  rw [hmarked] at hpath
  obtain rfl := List.mem_singleton.mp hpath
  -- its one link is dead, and it has no other file of that path
  refine leavesBroken_of_dead (f := ⟨1, "/Film.mkv", 700, 1⟩) (i := 0) (beq_iff_eq.mp hinfo) rfl
    (by decide) (by decide) (fun j g hg _ => ?_) (by simpa using hdead)
  exact Nat.lt_succ_iff.mp (List.getElem?_eq_some_iff.mp hg).1

end RdRs.Torrent

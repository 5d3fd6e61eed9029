/-
  Map, table and watch channel of one key under concurrent `update_torrent_state` calls.

  A call writes the map, hands its row to the database thread, waits, and sends its state on the
  channel; calls overtake each other between any two of these steps.

  1. **Protocol** — `callProtocol k`: the phases of a call on `k`, with the state it carries.  A call
     and a waiter keep to it (`updateState_follows`, `waiter_follows`).
  2. **Invariant** — for the row and for the channel alike: it has the state of the map, or some call
     still owes it that state (`RowOwed`, `WatchOwed`).  An enqueue or a send in the order of the map
     writes (`InOrder`) keeps that; one that is overtaken by another write does not.
  3. **Rest** — when all calls are over nobody owes anything (`replicas_agree`).
-/
import RdRs.Torrent.Tasks
import RdRs.Torrent.Mirror

set_option linter.unusedVariables false

namespace RdRs.Torrent

open RdRs.Rd RdRs.Repair RdRs.Programs RdRs.Runs

/-! ## The phases of a call -/

/-- Where a call stands. -/
inductive Phase where
  /-- it has not written the map -/
  | ready
  /-- the map is written with this state, the row is not handed over -/
  | wrote (state : TorrentState)
  /-- the row is with the database thread -/
  | queued (state : TorrentState) (ticket : Nat)
  /-- the row is in the table, the state is not sent -/
  | stored (state : TorrentState)
  /-- nothing is left to do (a waiter is here from the start) -/
  | finished

/-- The calls of `update_torrent_state` on `k`, and waiters for `k`. -/
def callProtocol (k : String) : Protocol Act Act.Res Phase where
  allows
    | .ready, .get key => key = k
    | .ready, .now => True
    | .ready, .write _ key _ mt => key = k ∧ mt.accessKey = k
    | .wrote state, .enqueue batch => ∃ row, batch = [row] ∧ row.accessKey = k ∧ row.state = state
    | .queued _ ticket, .await t => t = ticket
    | .stored _, .hook _ => True
    | .stored state, .send key sent => key = k ∧ sent = state
    | .finished, .get _ | .finished, .resync _ | .finished, .subscribe _ | .finished, .unsubscribe _ => True
    | .finished, .openWatch key _ => key = k
    | _, _ => False
  answers
    | .ready, .get _, r => ∃ mt, r = some mt ∧ mt.accessKey = k
    | .queued _ _, .await _, r => r = true
    | _, _, _ => True
  next
    | .ready, .write _ _ _ mt, _ => .wrote mt.state
    | .wrote state, .enqueue _, ticket => .queued state ticket
    | .queued state _, .await _, _ => .stored state
    | .stored _, .send _ _, _ => .finished
    | s, _, _ => s

/-- The call is over. -/
def isFinished : Unit → Phase → Prop := fun _ s => s = .finished

theorem updateState_follows (k : String) (state : TorrentState) (reason : Option String) :
    Follows (callProtocol k) .ready (Kind.updateState k state reason).prog isFinished := by
  rw [Kind.prog, done, updateTorrentState, Prog.call_bind, Prog.act_bind, follows_act]
  refine ⟨rfl, ?_⟩
  rintro _ ⟨mt, rfl, hkey⟩
  refine ⟨trivial, fun now _ => ?_⟩
  refine ⟨⟨rfl, hkey⟩, fun _ _ => ?_⟩
  refine ⟨⟨_, rfl, hkey, rfl⟩, fun ticket _ => ?_⟩
  refine ⟨rfl, ?_⟩
  rintro _ rfl
  refine ⟨trivial, fun _ _ => ?_⟩
  exact ⟨⟨rfl, rfl⟩, fun _ _ => rfl⟩

theorem waiter_follows (k : String) :
    Follows (callProtocol k) .finished (Kind.waiter k).prog isFinished := by
  rw [Kind.prog, subscribeRepairState, Prog.call_bind, Prog.act_bind, follows_act]
  refine ⟨trivial, fun r _ => ?_⟩
  refine ⟨rfl, fun _ _ => ?_⟩
  refine ⟨trivial, fun _ _ => ?_⟩
  refine ⟨trivial, fun _ _ => ?_⟩
  exact ⟨trivial, fun _ _ => rfl⟩

/-! ## What a call owes -/

section Calls

variable (k : String)

/-- The state of the key in the map. -/
def stateOf (m : Manager) : Option TorrentState := (m.torrents.lookup k).map ManagedTorrent.state

/-- Its state in the table once the database thread has run all that waits. -/
def rowAhead (m : Manager) : Option TorrentState :=
  ((m.jobs.foldl upsertRows m.rows).lookup k).map TorrentRow.state

/-- The value of its channel, if it has one. -/
def watchOf (m : Manager) : Option TorrentState := (m.watches.lookup k).map Watch.value

/-- The task is in this phase of a call on the key. -/
def InPhase (s : Phase) (t : RegTask) : Prop := Follows (callProtocol k) s t.prog isFinished

/-- The task will hand over a row with the state that is in the map when it does. -/
def RowOwed (state : TorrentState) (t : RegTask) : Prop :=
  InPhase k .ready t ∨ InPhase k (.wrote state) t

/-- The task will send the state. -/
def WatchOwed (state : TorrentState) (t : RegTask) : Prop :=
  RowOwed k state t ∨ (∃ ticket, InPhase k (.queued state ticket) t) ∨ InPhase k (.stored state) t

/-- Actions that touch neither the record, the row nor the value of the channel. -/
def Quiet : Act → Prop
  | .get _ | .now | .await _ | .hook _ | .subscribe _ | .unsubscribe _ => True
  | _ => False

variable {k}

theorem not_inPhase_ret {s : Phase} {t : RegTask} (h : InPhase k s t) (hret : t.prog = .ret ()) :
    s = .finished := by
  rw [InPhase, hret] at h
  exact h

/-- **What a call can do.** -/
theorem callProtocol_cases {s : Phase} {a : Act} (h : (callProtocol k).allows s a) :
    Quiet a ∨ (∃ op base mt, s = .ready ∧ a = .write op k base mt ∧ mt.accessKey = k) ∨
      (∃ state row, s = .wrote state ∧ a = .enqueue [row] ∧ row.accessKey = k ∧ row.state = state) ∨
      (∃ state, s = .stored state ∧ a = .send k state) ∨
      (∃ state, s = .finished ∧ a = .openWatch k state) ∨ (∃ key, s = .finished ∧ a = .resync key) := by
  cases s with
  | ready =>
    cases a with
    | get key => exact Or.inl trivial
    | now => exact Or.inl trivial
    | write op key base mt =>
      obtain ⟨rfl, hkey⟩ := h
      exact Or.inr (Or.inl ⟨op, base, mt, rfl, rfl, hkey⟩)
    | _ => exact False.elim h
  | wrote state =>
    cases a with
    | enqueue batch =>
      obtain ⟨row, rfl, hkey, hstate⟩ := h
      exact Or.inr (Or.inr (Or.inl ⟨state, row, rfl, rfl, hkey, hstate⟩))
    | _ => exact False.elim h
  | queued state ticket =>
    cases a with
    | await t => exact Or.inl trivial
    | _ => exact False.elim h
  | stored state =>
    cases a with
    | hook paths => exact Or.inl trivial
    | send key sent =>
      obtain ⟨rfl, rfl⟩ := h
      exact Or.inr (Or.inr (Or.inr (Or.inl ⟨sent, rfl, rfl⟩)))
    | _ => exact False.elim h
  | finished =>
    cases a with
    | get key => exact Or.inl trivial
    | subscribe key => exact Or.inl trivial
    | unsubscribe key => exact Or.inl trivial
    | openWatch key state =>
      obtain rfl := h
      exact Or.inr (Or.inr (Or.inr (Or.inr (Or.inl ⟨state, rfl, rfl⟩))))
    | resync key => exact Or.inr (Or.inr (Or.inr (Or.inr (Or.inr ⟨key, rfl, rfl⟩))))
    | _ => exact False.elim h

theorem onWatch_watchOf (m : Manager) (key : String) (f : Watch → Watch)
    (hf : ∀ w, (f w).value = w.value) : watchOf k (onWatch m key f) = watchOf k m := by
  rw [onWatch]
  cases hw : m.watches.lookup key with
  | none => rfl
  | some w =>
    rw [watchOf, watchOf]
    by_cases hk : k = key
    · subst hk
      rw [AList.lookup_insert, hw, Option.map_some, Option.map_some, hf]
    · rw [AList.lookup_insert_ne hk]

theorem quiet_effect {m m' : Manager} {a : Act} {e : Env} {r : a.Res} (ha : Quiet a)
    (h : perform m a e = (r, m')) :
    (m'.torrents = m.torrents ∧ m'.rows = m.rows ∧ m'.jobs = m.jobs ∧ m'.done = m.done) ∧
      watchOf k m' = watchOf k m := by
  cases a with
  | get key =>
    cases h
    exact ⟨⟨rfl, rfl, rfl, rfl⟩, rfl⟩
  | now =>
    cases h
    exact ⟨⟨rfl, rfl, rfl, rfl⟩, rfl⟩
  | await ticket =>
    cases h
    exact ⟨⟨rfl, rfl, rfl, rfl⟩, rfl⟩
  | hook paths =>
    cases h
    split
    · exact ⟨⟨rfl, rfl, rfl, rfl⟩, rfl⟩
    · exact ⟨⟨rfl, rfl, rfl, rfl⟩, rfl⟩
  | subscribe key =>
    cases h
    exact ⟨onWatch_same m key _, onWatch_watchOf m key _ fun w => rfl⟩
  | unsubscribe key =>
    cases h
    exact ⟨onWatch_same m key _, onWatch_watchOf m key _ fun w => rfl⟩
  | _ => exact False.elim ha

/-- The answers a call gets while the record is there and the database works. -/
theorem callProtocol_answers {m m' : Manager} {s : Phase} {a : Act} {e : Env} {r : a.Res}
    (hrecord : ∃ mt, m.torrents.lookup k = some mt ∧ mt.accessKey = k)
    (hok : ∀ b ∈ m.done, b = true) (hs : (callProtocol k).allows s a)
    (hblocked : blocked m a = false) (h : perform m a e = (r, m')) :
    (callProtocol k).answers s a r := by
  cases s with
  | ready =>
    cases a with
    | get key =>
      obtain rfl : key = k := hs
      cases h
      exact hrecord
    | _ => trivial
  | queued state ticket =>
    cases a with
    | await t =>
      have hlt : t < m.done.length := by
        rw [blocked, decide_eq_false_iff_not] at hblocked
        omega
      cases h
      show (m.done[t]?).getD false = true
      rw [List.getElem?_eq_getElem hlt, Option.getD_some]
      exact hok _ (List.getElem_mem hlt)
    | _ => trivial
  | wrote state => trivial
  | stored state => trivial
  | finished => trivial

theorem RowOwed.next {state : TorrentState} {t t' : RegTask} {a : Act} {r : a.Res}
    (h : RowOwed k state t)
    (hnext : ∀ s, InPhase k s t → (callProtocol k).allows s a ∧ InPhase k ((callProtocol k).next s a r) t')
    (hwrite : ∀ op key base mt, a ≠ .write op key base mt) (hrow : ∀ batch, a ≠ .enqueue batch) :
    RowOwed k state t' := by
  rcases h with h | h
  · obtain ⟨hs, ht⟩ := hnext _ h
    cases a with
    | get key => exact Or.inl ht
    | now => exact Or.inl ht
    | write op key base mt => exact absurd rfl (hwrite op key base mt)
    | _ => exact False.elim hs
  · obtain ⟨hs, ht⟩ := hnext _ h
    cases a with
    | enqueue batch => exact absurd rfl (hrow batch)
    | _ => exact False.elim hs

theorem WatchOwed.next {state : TorrentState} {t t' : RegTask} {a : Act} {r : a.Res}
    (h : WatchOwed k state t)
    (hnext : ∀ s, InPhase k s t → (callProtocol k).allows s a ∧ InPhase k ((callProtocol k).next s a r) t')
    (hwrite : ∀ op key base mt, a ≠ .write op key base mt) (hsend : ∀ key sent, a ≠ .send key sent) :
    WatchOwed k state t' := by
  rcases h with (h | h) | ⟨ticket, h⟩ | h
  · obtain ⟨hs, ht⟩ := hnext _ h
    cases a with
    | get key => exact Or.inl (Or.inl ht)
    | now => exact Or.inl (Or.inl ht)
    | write op key base mt => exact absurd rfl (hwrite op key base mt)
    | _ => exact False.elim hs
  · obtain ⟨hs, ht⟩ := hnext _ h
    cases a with
    | enqueue batch => exact Or.inr (Or.inl ⟨r, ht⟩)
    | _ => exact False.elim hs
  · obtain ⟨hs, ht⟩ := hnext _ h
    cases a with
    | await t => exact Or.inr (Or.inr ht)
    | _ => exact False.elim hs
  · obtain ⟨hs, ht⟩ := hnext _ h
    cases a with
    | hook paths => exact Or.inr (Or.inr ht)
    | send key sent => exact absurd rfl (hsend key sent)
    | _ => exact False.elim hs

end Calls

/-! ## The invariant -/

/-- Some task satisfies `Q` after one has acted, if one did before and the acting one keeps it. -/
theorem exists_task {xs ys : List RegTask} {t t' : RegTask} {Q : RegTask → Prop}
    (h : ∃ u ∈ xs ++ t :: ys, Q u) (ht : Q t → Q t') : ∃ u ∈ xs ++ t' :: ys, Q u := by
  obtain ⟨u, hu, hQ⟩ := h
  rcases List.mem_append.mp hu with hu | hu
  · exact ⟨u, List.mem_append_left _ hu, hQ⟩
  · rcases List.mem_cons.mp hu with rfl | hu
    · exact ⟨t', by simp, ht hQ⟩
    · exact ⟨u, List.mem_append_right _ (List.mem_cons_of_mem _ hu), hQ⟩

/-- The record is there, every batch has gone well, the tasks are calls or waiters, row and channel
    have the state of the map or are owed it, and each waiting batch has its call. -/
structure CallsOn (k : String) (m : Manager) (tasks : List RegTask) : Prop where
  record : ∃ mt, m.torrents.lookup k = some mt ∧ mt.accessKey = k
  allOk : ∀ b ∈ m.done, b = true
  phases : ∀ t ∈ tasks, ∃ s, InPhase k s t
  row : rowAhead k m = stateOf k m ∨
    ∃ t ∈ tasks, ∃ state, stateOf k m = some state ∧ RowOwed k state t
  watch : (watchOf k m = none ∨ watchOf k m = stateOf k m) ∨
    ∃ t ∈ tasks, ∃ state, stateOf k m = some state ∧ WatchOwed k state t
  pending : ∀ i, m.done.length ≤ i → i < m.done.length + m.jobs.length →
    ∃ t ∈ tasks, ∃ state, InPhase k (.queued state i) t

/-- The action does not fall behind the map: a row handed over and a state sent are what the map has,
    a send reaches a channel with receivers, and a new channel starts with the state of the map. -/
def Timely (k : String) (m : Manager) : Act → Prop
  | .enqueue batch => ∀ row ∈ batch, row.accessKey = k → stateOf k m = some row.state
  | .send key sent => key = k → stateOf k m = some sent ∧
      ∀ w, m.watches.lookup k = some w → w.receivers ≠ 0
  | .openWatch key state => key = k → k ∉ m.watches → stateOf k m = some state
  | _ => True

instance (k : String) (m : Manager) : DecidablePred (Timely k m)
  | .enqueue batch => inferInstanceAs
      (Decidable (∀ row ∈ batch, row.accessKey = k → stateOf k m = some row.state))
  | .send key sent => inferInstanceAs (Decidable (key = k → stateOf k m = some sent ∧
      ∀ w ∈ m.watches.lookup k, w.receivers ≠ 0))
  | .openWatch key state => inferInstanceAs
      (Decidable (key = k → k ∉ m.watches → stateOf k m = some state))
  | .get _ | .write _ _ _ _ | .inject _ _ | .remove _ | .iter | .now | .await _ | .resync _
  | .subscribe _ | .unsubscribe _ | .closeWatch _ | .hook _ | .pushRepair _ | .pushRepairFront _
  | .beginFatal _ _ | .endFatal _ _ | .listTorrents | .torrentInfo _ | .deleteTorrent _ | .capacity
  | .preflight | .cascade | .cascadeCall _ _ => .isTrue trivial

section Step

variable {k : String} {m m' : Manager} {xs ys : List RegTask} {t : RegTask} {a : Act}
  {kont : a.Res → M Unit} {r : a.Res} {e : Env}

/-- A send leaves the channels of other keys, and its own without receivers. -/
theorem watchOf_send (key : String) (sent : TorrentState) :
    watchOf k (onWatch m key fun w => w.send sent) = watchOf k m ∨
      k = key ∧ watchOf k (onWatch m key fun w => w.send sent) = some sent := by
  rw [onWatch]
  cases hw : m.watches.lookup key with
  | none => exact Or.inl rfl
  | some w =>
    by_cases hk : k = key
    · subst hk
      have hnew : watchOf k { m with watches := m.watches.insert k (w.send sent) } =
          some (w.send sent).value := by
        rw [watchOf, AList.lookup_insert]
        rfl
      dsimp only
      rw [hnew, Watch.send]
      split
      · left
        rw [watchOf, hw]
        rfl
      · exact Or.inr ⟨rfl, rfl⟩
    · left
      rw [watchOf, watchOf, AList.lookup_insert_ne hk]

/-- A send that finds a receiver, if there is a channel at all, leaves its state there. -/
theorem watchOf_sent {sent : TorrentState}
    (hreceivers : ∀ w, m.watches.lookup k = some w → w.receivers ≠ 0) :
    watchOf k (onWatch m k fun w => w.send sent) = none ∨
      watchOf k (onWatch m k fun w => w.send sent) = some sent := by
  rw [onWatch]
  cases hw : m.watches.lookup k with
  | none =>
    left
    rw [watchOf, hw]
    rfl
  | some w =>
    right
    dsimp only
    rw [watchOf, AList.lookup_insert, Watch.send, if_neg (hreceivers w hw)]
    rfl

/-- A row handed over is the last of all that waits. -/
theorem rowAhead_enqueue {row : TorrentRow} (hkey : row.accessKey = k) :
    rowAhead k { m with jobs := m.jobs ++ [[row]] } = some row.state := by
  show (((m.jobs ++ [[row]]).foldl upsertRows m.rows).lookup k).map TorrentRow.state = _
  have hlast : upsertRows (m.jobs.foldl upsertRows m.rows) [row] =
      (m.jobs.foldl upsertRows m.rows).insert row.accessKey row := rfl
  rw [List.foldl_append, List.foldl_cons, List.foldl_nil, hlast, hkey, AList.lookup_insert]
  rfl

/-- A call that acts goes on in its next phase. -/
theorem CallsOn.next (h : CallsOn k m (xs ++ t :: ys)) (hprog : t.prog = .act a kont)
    (hblocked : blocked m a = false) (hperf : perform m a e = (r, m')) :
    ∀ s, InPhase k s t → (callProtocol k).allows s a ∧
      InPhase k ((callProtocol k).next s a r) ⟨t.kind, kont r⟩ := by
  intro s hs
  obtain ⟨hallows, hgo⟩ := Follows.step hs hprog
  exact ⟨hallows, hgo r (callProtocol_answers h.record h.allOk hallows hblocked hperf)⟩

theorem CallsOn.phases_next (h : CallsOn k m (xs ++ t :: ys)) (hprog : t.prog = .act a kont)
    (hblocked : blocked m a = false) (hperf : perform m a e = (r, m')) :
    ∀ u ∈ xs ++ ⟨t.kind, kont r⟩ :: ys, ∃ s, InPhase k s u := by
  intro u hu
  rcases List.mem_append.mp hu with hu | hu
  · exact h.phases u (List.mem_append_left _ hu)
  · rcases List.mem_cons.mp hu with rfl | hu
    · obtain ⟨s, hs⟩ := h.phases t (by simp)
      exact ⟨_, (h.next hprog hblocked hperf s hs).2⟩
    · exact h.phases u (List.mem_append_right _ (List.mem_cons_of_mem _ hu))

/-- A call whose batch has not run does not act. -/
theorem CallsOn.pending_next (h : CallsOn k m (xs ++ t :: ys)) (hprog : t.prog = .act a kont)
    (hblocked : blocked m a = false) (hperf : perform m a e = (r, m')) (i : Nat)
    (hlo : m.done.length ≤ i) (hhi : i < m.done.length + m.jobs.length) :
    ∃ u ∈ xs ++ ⟨t.kind, kont r⟩ :: ys, ∃ state, InPhase k (.queued state i) u := by
  refine exists_task (h.pending i hlo hhi) ?_
  rintro ⟨state, hs⟩
  obtain ⟨hallows, -⟩ := h.next hprog hblocked hperf _ hs
  cases a with
  | await ticket =>
    obtain rfl : ticket = i := hallows
    rw [blocked, decide_eq_false_iff_not] at hblocked
    exact absurd hlo hblocked
  | _ => exact False.elim hallows

/-- What is owed stays owed under an action that neither writes the map nor pays. -/
theorem CallsOn.row_next (h : CallsOn k m (xs ++ t :: ys)) (hprog : t.prog = .act a kont)
    (hblocked : blocked m a = false) (hperf : perform m a e = (r, m'))
    (hwrite : ∀ op key base mt, a ≠ .write op key base mt) (hrow : ∀ batch, a ≠ .enqueue batch)
    (hstate : stateOf k m' = stateOf k m) (hahead : rowAhead k m' = rowAhead k m) :
    rowAhead k m' = stateOf k m' ∨ ∃ u ∈ xs ++ ⟨t.kind, kont r⟩ :: ys,
      ∃ state, stateOf k m' = some state ∧ RowOwed k state u := by
  rw [hstate, hahead]
  rcases h.row with hrow' | howed
  · exact Or.inl hrow'
  · refine Or.inr (exists_task howed ?_)
    rintro ⟨state, hst, ht⟩
    exact ⟨state, hst, ht.next (h.next hprog hblocked hperf) hwrite hrow⟩

theorem CallsOn.watch_next (h : CallsOn k m (xs ++ t :: ys)) (hprog : t.prog = .act a kont)
    (hblocked : blocked m a = false) (hperf : perform m a e = (r, m'))
    (hwrite : ∀ op key base mt, a ≠ .write op key base mt) (hsend : ∀ key sent, a ≠ .send key sent)
    (hstate : stateOf k m' = stateOf k m)
    (hwatch : watchOf k m' = watchOf k m ∨ watchOf k m' = stateOf k m) :
    (watchOf k m' = none ∨ watchOf k m' = stateOf k m') ∨ ∃ u ∈ xs ++ ⟨t.kind, kont r⟩ :: ys,
      ∃ state, stateOf k m' = some state ∧ WatchOwed k state u := by
  rw [hstate]
  rcases hwatch with hwatch | hwatch
  · rw [hwatch]
    rcases h.watch with hw | howed
    · exact Or.inl hw
    · refine Or.inr (exists_task howed ?_)
      rintro ⟨state, hst, ht⟩
      exact ⟨state, hst, ht.next (h.next hprog hblocked hperf) hwrite hsend⟩
  · exact Or.inl (Or.inr hwatch)

/-- An action that leaves record and rows, and at most brings the channel up to date. -/
theorem CallsOn.channel (h : CallsOn k m (xs ++ t :: ys)) (hprog : t.prog = .act a kont)
    (hblocked : blocked m a = false) (hperf : perform m a e = (r, m'))
    (hwrite : ∀ op key base mt, a ≠ .write op key base mt) (hrow : ∀ batch, a ≠ .enqueue batch)
    (hsend : ∀ key sent, a ≠ .send key sent)
    (hsame : m'.torrents = m.torrents ∧ m'.rows = m.rows ∧ m'.jobs = m.jobs ∧ m'.done = m.done)
    (hwatch : watchOf k m' = watchOf k m ∨ watchOf k m' = stateOf k m) :
    CallsOn k m' (xs ++ ⟨t.kind, kont r⟩ :: ys) := by
  obtain ⟨htor, hrows, hjobs, hdone⟩ := hsame
  have hst : stateOf k m' = stateOf k m := by rw [stateOf, stateOf, htor]
  refine ⟨htor ▸ h.record, hdone ▸ h.allOk, h.phases_next hprog hblocked hperf, ?_, ?_, ?_⟩
  · refine h.row_next hprog hblocked hperf hwrite hrow hst ?_
    rw [rowAhead, rowAhead, hrows, hjobs]
  · exact h.watch_next hprog hblocked hperf hwrite hsend hst hwatch
  · rw [hdone, hjobs]
    exact h.pending_next hprog hblocked hperf

/-- **One action** in the order of the map keeps the invariant. -/
theorem CallsOn.act (h : CallsOn k m (xs ++ t :: ys)) (hprog : t.prog = .act a kont)
    (hblocked : blocked m a = false) (hperf : perform m a e = (r, m')) (htimely : Timely k m a) :
    CallsOn k m' (xs ++ ⟨t.kind, kont r⟩ :: ys) := by
  obtain ⟨s, hs⟩ := h.phases t (by simp)
  obtain ⟨hallows, ht⟩ := h.next hprog hblocked hperf s hs
  have hphases := h.phases_next hprog hblocked hperf
  have hpending := h.pending_next hprog hblocked hperf
  have hrow := h.row_next hprog hblocked hperf
  have hwatch := h.watch_next hprog hblocked hperf
  have hchannel := h.channel hprog hblocked hperf
  rcases callProtocol_cases hallows with hq | ⟨op, base, mt, rfl, rfl, hkey⟩ |
    ⟨state, row, rfl, rfl, hkey, hstate⟩ | ⟨state, rfl, rfl⟩ | ⟨state, rfl, rfl⟩ | ⟨key, rfl, rfl⟩
  · -- nothing that counts changes
    obtain ⟨hsame, hw⟩ := @quiet_effect k m m' a e r hq hperf
    refine hchannel ?_ ?_ ?_ hsame (Or.inl hw)
    · rintro op key base mt rfl
      exact hq
    · rintro batch rfl
      exact hq
    · rintro key sent rfl
      exact hq
  · -- the map is written: this call owes row and channel
    cases hperf
    have hst : stateOf k { m with torrents := m.torrents.insert k mt } = some mt.state := by
      rw [stateOf, AList.lookup_insert]
      rfl
    have howed : RowOwed k mt.state ⟨t.kind, kont ()⟩ := Or.inr ht
    exact ⟨⟨mt, AList.lookup_insert _, hkey⟩, h.allOk, hphases,
      Or.inr ⟨_, by simp, mt.state, hst, howed⟩,
      Or.inr ⟨_, by simp, mt.state, hst, Or.inl howed⟩, hpending⟩
  · -- the row is handed over in time
    have hmap : stateOf k m = some row.state := htimely row (List.mem_singleton_self _) hkey
    cases hperf
    refine ⟨h.record, h.allOk, hphases, Or.inl ?_, ?_, ?_⟩
    · exact (rowAhead_enqueue hkey).trans hmap.symm
    · exact hwatch (fun op key base mt heq => by cases heq) (fun key sent heq => by cases heq) rfl
        (Or.inl rfl)
    · intro i hlo hhi
      have hlo' : m.done.length ≤ i := hlo
      have hhi' : i < m.done.length + (m.jobs ++ [[row]]).length := hhi
      rw [List.length_append, List.length_singleton] at hhi'
      by_cases hold : i < m.done.length + m.jobs.length
      · exact hpending i hlo hold
      · obtain rfl : i = m.done.length + m.jobs.length := by omega
        exact ⟨_, by simp, state, ht⟩
  · -- the state is sent in time
    obtain ⟨hmap, hreceivers⟩ := htimely rfl
    cases hperf
    obtain ⟨htor, hrows, hjobs, hdone⟩ := onWatch_same m k fun w => w.send state
    have hst : stateOf k (onWatch m k fun w => w.send state) = stateOf k m := by
      rw [stateOf, stateOf, htor]
    refine ⟨htor ▸ h.record, hdone ▸ h.allOk, hphases, ?_, Or.inl ?_, ?_⟩
    · refine hrow (fun op key base mt heq => by cases heq) (fun batch heq => by cases heq) hst ?_
      rw [rowAhead, rowAhead, hrows, hjobs]
    · rw [hst, hmap]
      exact watchOf_sent hreceivers
    · rw [hdone, hjobs]
      exact hpending
  · -- a channel that is opened starts with the state of the map
    have hm : m' = if k ∈ m.watches then m else { m with watches := m.watches.insert k ⟨state, 0⟩ } :=
      (congrArg Prod.snd hperf).symm
    have hnot := hchannel (by intro _ _ _ _ heq; cases heq) (by intro _ heq; cases heq)
      (by intro _ _ heq; cases heq)
    by_cases hin : k ∈ m.watches
    · rw [if_pos hin] at hm
      subst hm
      exact hnot ⟨rfl, rfl, rfl, rfl⟩ (Or.inl rfl)
    · rw [if_neg hin] at hm
      subst hm
      refine hnot ⟨rfl, rfl, rfl, rfl⟩ (Or.inr ?_)
      rw [watchOf, AList.lookup_insert, htimely rfl hin]
      rfl
  · -- a channel that is brought up to date has the state of the map
    have hm : m' = (perform m (.resync key) e).2 := (congrArg Prod.snd hperf).symm
    have hnot := hchannel (by intro _ _ _ _ heq; cases heq) (by intro _ heq; cases heq)
      (by intro _ _ heq; cases heq)
    cases hlook : m.torrents.lookup key with
    | none =>
      rw [perform, hlook] at hm
      subst hm
      exact hnot ⟨rfl, rfl, rfl, rfl⟩ (Or.inl rfl)
    | some mt =>
      rw [perform, hlook] at hm
      subst hm
      refine hnot (onWatch_same m key _) ?_
      rcases @watchOf_send k m key mt.state with hold | ⟨hk, hnew⟩
      · exact Or.inl hold
      · right
        rw [hnew, stateOf, hk, hlook]
        rfl

/-- The database thread runs a batch. -/
theorem CallsOn.db {tasks : List RegTask} (h : CallsOn k m tasks) (hrun : runJob m true = some m') :
    CallsOn k m' tasks := by
  obtain ⟨batch, rest, hjobs, rfl⟩ := runJob_some hrun
  have hahead : rowAhead k { m with
      rows := upsertRows m.rows batch, jobs := rest, done := m.done ++ [true] } = rowAhead k m := by
    rw [rowAhead, rowAhead, hjobs]
    rfl
  refine ⟨h.record, ?_, h.phases, ?_, h.watch, ?_⟩
  · intro b hb
    rcases List.mem_append.mp hb with hb | hb
    · exact h.allOk b hb
    · exact List.mem_singleton.mp hb
  · exact (hahead ▸ h.row : _)
  · intro i hlo hhi
    have hlo' : (m.done ++ [true]).length ≤ i := hlo
    have hhi' : i < (m.done ++ [true]).length + rest.length := hhi
    rw [List.length_append, List.length_singleton] at hlo' hhi'
    refine h.pending i (by omega) ?_
    rw [hjobs, List.length_cons]
    omega

end Step

/-! ## At rest -/

/-- Map, table and channel agree on the key. -/
def Agree (k : String) (m : Manager) : Prop :=
  ∃ state, stateOf k m = some state ∧ (m.rows.lookup k).map TorrentRow.state = some state ∧
    ∀ w, m.watches.lookup k = some w → w.value = state

/-- Every batch goes well, and every action is timely. -/
def InOrder (k : String) (p : World Unit) (ev : Event) : Prop :=
  (∀ ok, ev = .db ok → ok = true) ∧ ∀ t a, Acts p ev t a → Timely k p.shared.m a

theorem callsOn_step (k : String) (p : World Unit) (ev : Event) (q : World Unit)
    (h : CallsOn k p.shared.m p.tasks) (hC : InOrder k p ev) (hstep : step unobserved p ev = some q) :
    CallsOn k q.shared.m q.tasks := by
  rcases step_cases hstep with ⟨xs, t, ys, e, a, kont, r, m', htasks, hacts, hprog, hb, hperf, rfl⟩ |
    ⟨ok, m', rfl, hrun, rfl⟩
  · rw [htasks] at h
    exact h.act hprog hb hperf (hC.2 t a hacts)
  · obtain rfl : ok = true := hC.1 ok rfl
    exact h.db hrun

/-- A call of `update_torrent_state` on the key, or a read that waits for it. -/
def OnKey (k : String) (kind : Kind) : Prop :=
  (∃ state reason, kind = .updateState k state reason) ∨ kind = .waiter k

theorem callsOn_start {k : String} {m : Manager} {kinds : List Kind} {mt : ManagedTorrent}
    (hmt : m.torrents.lookup k = some mt) (hkey : mt.accessKey = k) (hjobs : m.jobs = [])
    (hdone : m.done = []) (hkinds : ∀ kind ∈ kinds, OnKey k kind)
    (hstart : Agree k m ∨ ∃ state reason, .updateState k state reason ∈ kinds) :
    CallsOn k m (kinds.map start) := by
  have howed : ∀ state reason, .updateState k state reason ∈ kinds →
      ∃ t ∈ kinds.map start, ∀ state, RowOwed k state t := by
    intro state reason hin
    exact ⟨_, List.mem_map_of_mem hin, fun _ => Or.inl (updateState_follows k state reason)⟩
  have hst : stateOf k m = some mt.state := by
    rw [stateOf, hmt]
    rfl
  refine ⟨⟨mt, hmt, hkey⟩, ?_, ?_, ?_, ?_, ?_⟩
  · rw [hdone]
    intro b hb
    exact absurd hb List.not_mem_nil
  · intro t ht
    obtain ⟨kind, hkind, rfl⟩ := List.mem_map.mp ht
    rcases hkinds kind hkind with ⟨state, reason, rfl⟩ | rfl
    · exact ⟨.ready, updateState_follows k state reason⟩
    · exact ⟨.finished, waiter_follows k⟩
  · rcases hstart with ⟨state, hmap, hrow, -⟩ | ⟨state, reason, hin⟩
    · left
      rw [rowAhead, hjobs, hmap]
      exact hrow
    · obtain ⟨t, ht, hall⟩ := howed state reason hin
      exact Or.inr ⟨t, ht, mt.state, hst, hall mt.state⟩
  · rcases hstart with ⟨state, hmap, -, hw⟩ | ⟨state, reason, hin⟩
    · left
      cases hwatch : m.watches.lookup k with
      | none =>
        left
        rw [watchOf, hwatch]
        rfl
      | some w =>
        right
        rw [watchOf, hwatch, hmap, Option.map_some, hw w hwatch]
    · obtain ⟨t, ht, hall⟩ := howed state reason hin
      exact Or.inr ⟨t, ht, mt.state, hst, Or.inl (hall mt.state)⟩
  · intro i hlo hhi
    rw [hdone, hjobs] at hhi
    exact absurd hhi (Nat.not_lt_zero i)

/-- **Map, table and channel agree at rest**: any calls on the key and any waiters, in any order of
    their steps, when no row and no state falls behind the map.  (At rest before the calls, or with at
    least one of them.) -/
theorem replicas_agree (k : String) (m : Manager) (kinds : List Kind) (mt : ManagedTorrent)
    (es : List Event) (q : World Unit) (hmt : m.torrents.lookup k = some mt) (hkey : mt.accessKey = k)
    (hjobs : m.jobs = []) (hdone : m.done = []) (hkinds : ∀ kind ∈ kinds, OnKey k kind)
    (hstart : Agree k m ∨ ∃ state reason, .updateState k state reason ∈ kinds)
    (hin : Along (step unobserved) (InOrder k) ⟨⟨m, ()⟩, kinds.map start⟩ es)
    (hrun : run (step unobserved) ⟨⟨m, ()⟩, kinds.map start⟩ es = some q)
    (hrest : ∀ t ∈ q.tasks, t.prog = .ret ()) : Agree k q.shared.m := by
  have h := run_inv (I := fun p => CallsOn k p.shared.m p.tasks) (callsOn_step k) es _ q
    (callsOn_start hmt hkey hjobs hdone hkinds hstart) hin hrun
  -- nobody is in a phase of a call any more
  have hover : ∀ t ∈ q.tasks, ∀ s, InPhase k s t → s = .finished :=
    fun t ht s hs => not_inPhase_ret hs (hrest t ht)
  have hempty : q.shared.m.jobs = [] := by
    by_contra hne
    obtain ⟨t, ht, state, hs⟩ := h.pending q.shared.m.done.length (Nat.le_refl _)
      (Nat.lt_add_of_pos_right (List.length_pos_of_ne_nil hne))
    cases hover t ht _ hs
  have hnot : ∀ t ∈ q.tasks, ∀ state, ¬RowOwed k state t := by
    rintro t ht state (hs | hs)
    · cases hover t ht _ hs
    · cases hover t ht _ hs
  obtain ⟨mt', hmt', -⟩ := h.record
  refine ⟨mt'.state, by rw [stateOf, hmt']; rfl, ?_, ?_⟩
  · rcases h.row with hrow | ⟨t, ht, state, -, howed⟩
    · rw [rowAhead, hempty, stateOf, hmt'] at hrow
      exact hrow
    · exact absurd howed (hnot t ht state)
  · intro w hw
    rcases h.watch with (hnone | hval) | ⟨t, ht, state, -, howed⟩
    · rw [watchOf, hw] at hnone
      cases hnone
    · rw [watchOf, hw, stateOf, hmt'] at hval
      exact Option.some.inj hval
    · rcases howed with howed | ⟨ticket, hs⟩ | hs
      · exact absurd howed (hnot t ht state)
      · cases hover t ht _ hs
      · cases hover t ht _ hs

/-- Two calls on the film. -/
def twoCalls : List Kind :=
  [.updateState "HASH/Film" .broken none, .updateState "HASH/Film" .ok none]

/-- The i-th task acts; nothing unusual comes from outside. -/
def does (i : Nat) : Event := .act i (answering [] true)

/-- The first call writes the map, the second overtakes it and hands over its row first. -/
def overtaken : List Event :=
  [does 0, does 0, does 0, does 1, does 1, does 1, does 1, does 0, .db true, .db true,
    does 0, does 0, does 0, does 1, does 1, does 1]

/-- A waiter comes and goes, then a call sets the film to broken. -/
def waiterThenCall : List Event :=
  [does 0, does 0, does 0, does 0, does 0, does 1, does 1, does 1, does 1, .db true, does 1, does 1,
    does 1]

/-- Two calls at once leave another state in the table than in the map; and one call alone leaves the
    channel of a waiter that has gone with its old value. -/
theorem overtaken_call_leaves_stale_row :
    Agree "HASH/Film" filmStored ∧
      (∃ q, run (step unobserved) ⟨⟨filmStored, ()⟩, twoCalls.map start⟩ overtaken = some q ∧
        (∀ t ∈ q.tasks, t.prog = .ret ()) ∧ ¬Agree "HASH/Film" q.shared.m) ∧
      ∃ q, run (step unobserved)
          ⟨⟨filmStored, ()⟩, [.waiter "HASH/Film", .updateState "HASH/Film" .broken none].map start⟩
          waiterThenCall = some q ∧
        (∀ t ∈ q.tasks, t.prog = .ret ()) ∧ ¬Agree "HASH/Film" q.shared.m := by
  refine ⟨⟨.ok, rfl, rfl, fun w hw => by cases hw⟩, ⟨_, rfl, ?_, ?_⟩, ⟨_, rfl, ?_, ?_⟩⟩
  · intro t ht
    rcases List.mem_cons.mp ht with rfl | ht
    · rfl
    · obtain rfl := List.mem_singleton.mp ht
      rfl
  · rintro ⟨state, hmap, hrow, -⟩
    obtain rfl : TorrentState.ok = state := Option.some.inj hmap
    cases hrow
  · intro t ht
    rcases List.mem_cons.mp ht with rfl | ht
    · rfl
    · obtain rfl := List.mem_singleton.mp ht
      rfl
  · rintro ⟨state, hmap, -, hwatch⟩
    obtain rfl : TorrentState.broken = state := Option.some.inj hmap
    have hstale := hwatch _ rfl
    cases hstale

/-- The calls one after the other. -/
def inTurn : List Event :=
  [does 0, does 0, does 0, does 0, .db true, does 0, does 0, does 0,
    does 1, does 1, does 1, does 1, .db true, does 1, does 1, does 1]

/-- The test of `InOrder`. -/
def testInOrder (k : String) : World Unit → Event → Bool :=
  testEvent (fun p _ a => decide (Timely k p.shared.m a)) id

theorem inOrder_of_test {k : String} (p : World Unit) (ev : Event) (h : testInOrder k p ev = true) :
    InOrder k p ev := by
  refine ⟨fun ok hok => ?_, fun t a hacts => ?_⟩
  · subst hok
    exact h
  · exact of_decide_eq_true (testEvent_acts h hacts)

theorem replicas_agree_inTurn :
    ∃ q, run (step unobserved) ⟨⟨filmStored, ()⟩, twoCalls.map start⟩ inTurn = some q ∧
      Agree "HASH/Film" q.shared.m := by
  refine ⟨_, rfl, replicas_agree "HASH/Film" filmStored twoCalls soundFilm inTurn _ rfl rfl rfl rfl ?_
    (Or.inr ⟨.ok, none, by simp [twoCalls]⟩) (along_of_check inOrder_of_test _ _ (by decide)) rfl ?_⟩
  · intro kind hkind
    rcases List.mem_cons.mp hkind with rfl | hkind
    · exact Or.inl ⟨_, _, rfl⟩
    · obtain rfl := List.mem_singleton.mp hkind
      exact Or.inl ⟨_, _, rfl⟩
  · intro t ht
    rcases List.mem_cons.mp ht with rfl | ht
    · rfl
    · obtain rfl := List.mem_singleton.mp ht
      rfl

end RdRs.Torrent

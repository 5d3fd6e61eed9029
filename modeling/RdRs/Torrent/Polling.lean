/-
  `run_refresh_loop` of `torrent/refresh/mod.rs` — when a refresh is skipped.

  The loop does not fetch the list each time.  It asks for the number of torrents, the first of them
  and the number of active downloads (`get_current_state`), and skips the pass when nothing is being
  downloaded and the answers are those before the last pass that went through.

  1. **Account** — what is listed at Real-Debrid, moment by moment, and how a page is answered, are a
     parameter (`Account`).  The loop relies on the newest being first and on pages of the list
     (`Account.Served`).
  2. **Loop** — `step`: the account moves on between any two requests, the pages of one listing are
     answered each at its own moment, and others write the manager between two passes.
  3. **Results** — `skipped_ids`: a pass is skipped only when the list has the ids it had at the poll
     before the last pass, whatever has come and gone since.  `skip_agrees`: when nothing came while
     that pass was polling and listing, nothing changed under its id since, no later pass failed and
     nobody else wrote the manager since, the skipped pass would have written no row, sent no path and
     left every record as it is.
-/
import RdRs.Lib.Newest
import RdRs.Rd.Pages
import RdRs.Torrent.Mirror

set_option linter.unusedVariables false

namespace RdRs.Torrent.Polling

open RdRs.Rd RdRs.Repair RdRs.Programs RdRs.Runs RdRs.Newest

/-! ## The account -/

/-- What Real-Debrid lists, moment by moment, and what it answers to a request for a page then. -/
structure Account where
  list : Nat → List Torrent
  respond : (moment limit page : Nat) → ListResponse

/-- What the loop relies on: new torrents are listed first, with ids of their own, and a page is a page
    of the list. -/
structure Account.Served (acc : Account) : Prop where
  newestFirst : NewestFirst Torrent.id acc.list
  pages : ∀ moment limit page,
    Serves (acc.list moment) limit page (.ok (acc.respond moment limit page))

/-! ## The loop -/

/-- `LibraryState` -/
structure LibraryState where
  totalCount : Nat
  activeCount : Nat
  firstTorrentId : Option String
deriving Repr, DecidableEq

/-- Where the loop is. -/
inductive Phase where
  /-- it sleeps -/
  | waiting
  /-- `list_torrents(1, 1)` has been answered, at this moment -/
  | counting (polled : Nat) (firstPage : List Torrent) (totalCount : Nat)
  /-- `run_once` is fetching the list; the moments at which pages have been answered -/
  | listing (polled : Nat) (currentState : LibraryState) (answered : List (Nat × Nat))
deriving DecidableEq

/-- The last pass that went through: the moments of its poll and of its end, whether a later pass has
    got a list and failed, and whether anybody else has written the manager since. -/
structure LastPass where
  polled : Nat
  listed : Nat
  failedSince : Bool
  writtenSince : Bool
deriving DecidableEq

/-- The loop and the manager, at a moment. -/
structure RefreshLoop where
  moment : Nat
  manager : Manager
  lastState : Option LibraryState
  phase : Phase
  /-- kept for the statements: the loop only has `last_state` -/
  lastPass : Option LastPass

/-- The loop begins. -/
def RefreshLoop.start (m : Manager) : RefreshLoop := ⟨0, m, none, .waiting, none⟩

/-- What becomes of the tasks of a listing: which of them do not come to their end, and the order in
    which they finish. -/
structure Tasks where
  joinError : Nat → Option String
  finish : List Nat → List Nat
  finish_perm : ∀ pages, (finish pages).Perm pages

/-- What happens. -/
inductive Event where
  /-- the account moves on -/
  | library
  /-- somebody else writes the manager -/
  | elsewhere (m : Manager)
  /-- the sleep is over and `list_torrents(1, 1)` is answered, or fails -/
  | first (ok : Bool)
  /-- `get_active_count` is answered, or fails -/
  | active (downloadingCount : Option Nat)
  /-- a request of the listing is answered -/
  | page (n : Nat)
  /-- the listing is over and `run_once` goes on; a page that was not answered has failed -/
  | pass (tasks : Tasks) (cfg : RefreshConfig) (env : Nat → Env)

/-- The answers `list_all_torrents` gets. -/
def Account.remote (acc : Account) (answered : List (Nat × Nat)) (tasks : Tasks) : Remote where
  execute page limit :=
    match answered.lookup page with
    | none => .error .maxRetriesExceeded
    | some moment => .ok (acc.respond moment limit page)
  joinError := tasks.joinError
  finish := tasks.finish
  finish_perm := tasks.finish_perm

/-- The answers of a pass, the list among them. -/
def withList (list : Except String (List Torrent)) (env : Nat → Env) : Nat → Env
  | 0 => { env 0 with list := list.toOption }
  | n + 1 => env (n + 1)

/-- The pass is skipped: nothing is downloaded and the state is as it was. -/
def isSkipped (currentState : LibraryState) (lastState : Option LibraryState) : Bool :=
  !decide (currentState.activeCount > 0) && decide (some currentState = lastState)

/-- The first request of `get_current_state` has ended. -/
def RefreshLoop.asked (acc : Account) (s : RefreshLoop) (ok : Bool) : Option RefreshLoop :=
  match s.phase with
  | .waiting =>
    if ok then
      match listTorrents (.ok (acc.respond s.moment 1 1)) with
      | .ok r => some { s with phase := .counting s.moment r.1 r.2 }
      | .error _ => some s
    else some s
  | _ => none

/-- The second one has ended, and the loop goes on: to `continue` or to `run_once`. -/
def RefreshLoop.counted (s : RefreshLoop) (downloadingCount : Option Nat) : Option RefreshLoop :=
  match s.phase with
  | .counting polled firstPage totalCount =>
    match downloadingCount with
    | none => some { s with phase := .waiting }
    | some n =>
      if isSkipped ⟨totalCount, n, firstPage.head?.map (·.id)⟩ s.lastState then
        some { s with phase := .waiting }
      else
        some { s with phase := .listing polled ⟨totalCount, n, firstPage.head?.map (·.id)⟩ [] }
  | _ => none

/-- A request of the listing has been answered. -/
def RefreshLoop.answeredPage (s : RefreshLoop) (n : Nat) : Option RefreshLoop :=
  match s.phase with
  | .listing polled currentState answered =>
    some { s with phase := .listing polled currentState (answered ++ [(n, s.moment)]) }
  | _ => none

/-- The rest of `run_once`, and what the loop makes of its result. -/
def RefreshLoop.finished (s : RefreshLoop) (polled : Nat) (currentState : LibraryState)
    (list : Except String (List Torrent)) (out : Bool × Manager × (Nat → Env)) : RefreshLoop :=
  if out.1 then
    { s with
      manager := out.2.1
      lastState := some currentState
      phase := .waiting
      lastPass := some ⟨polled, s.moment, false, false⟩ }
  else
    { s with
      manager := out.2.1
      phase := .waiting
      lastPass := s.lastPass.map fun p =>
        { p with failedSince := p.failedSince || list.toOption.isSome } }

/-- The listing is over. -/
def RefreshLoop.ran (acc : Account) (pageSize : Nat) (s : RefreshLoop) (tasks : Tasks)
    (cfg : RefreshConfig) (env : Nat → Env) : Option RefreshLoop :=
  match s.phase with
  | .listing polled currentState answered =>
    some (s.finished polled currentState (listAllTorrents (acc.remote answered tasks) pageSize)
      ((runOnce cfg).eval performAlone s.manager
        (withList (listAllTorrents (acc.remote answered tasks) pageSize) env)))
  | _ => none

/-- Somebody else has written the manager. -/
def RefreshLoop.written (s : RefreshLoop) (m : Manager) : RefreshLoop :=
  { s with manager := m, lastPass := s.lastPass.map fun p => { p with writtenSince := true } }

/-- One event; the pages have `pageSize` entries. -/
def RefreshLoop.step (acc : Account) (pageSize : Nat) (s : RefreshLoop) : Event → Option RefreshLoop
  | .library => some { s with moment := s.moment + 1 }
  | .elsewhere m => some (s.written m)
  | .first ok => s.asked acc ok
  | .active downloadingCount => s.counted downloadingCount
  | .page n => s.answeredPage n
  | .pass tasks cfg env => s.ran acc pageSize tasks cfg env

/-! ## What the loop has seen -/

/-- `list_torrents(1, 1)` was answered so at a moment. -/
def Account.Polled (acc : Account) (moment : Nat) (firstPage : List Torrent) (totalCount : Nat) :
    Prop :=
  listTorrents (.ok (acc.respond moment 1 1)) = .ok (firstPage, totalCount)

/-- A state whose number and first id are from a moment. -/
def Account.Showed (acc : Account) (moment : Nat) (c : LibraryState) : Prop :=
  ∃ firstPage, acc.Polled moment firstPage c.totalCount ∧
    c.firstTorrentId = firstPage.head?.map (·.id)

/-- The pages were answered between two moments. -/
def Between (answered : List (Nat × Nat)) (a b : Nat) : Prop := ∀ e ∈ answered, a ≤ e.2 ∧ e.2 ≤ b

/-- The last pass: its poll, its list, and what it has left. -/
structure LastPass.Sound (acc : Account) (pageSize : Nat) (s : RefreshLoop) (p : LastPass) : Prop where
  order : p.polled ≤ p.listed
  bound : p.listed ≤ s.moment
  state : ∃ c, s.lastState = some c ∧ acc.Showed p.polled c
  list : ∃ answered tasks list, Between answered p.polled p.listed ∧
    listAllTorrents (acc.remote answered tasks) pageSize = .ok list ∧
    (p.failedSince = false → p.writtenSince = false → ∃ m cfg env, (env 0).list = some list ∧
      s.manager = ((runOnce cfg).eval performAlone m env).2.1)

/-- What the loop holds while it polls. -/
def Phase.Sound (acc : Account) (s : RefreshLoop) : Phase → Prop
  | .waiting => True
  | .counting polled firstPage totalCount => acc.Polled polled firstPage totalCount ∧
      polled ≤ s.moment ∧ ∀ p, s.lastPass = some p → p.listed ≤ polled
  | .listing polled currentState answered => acc.Showed polled currentState ∧
      polled ≤ s.moment ∧ Between answered polled s.moment

/-- **The invariant of the loop.** -/
structure RefreshLoop.Sound (acc : Account) (pageSize : Nat) (s : RefreshLoop) : Prop where
  phase : s.phase.Sound acc s
  last : s.lastState.isSome → s.lastPass.isSome
  pass : ∀ p, s.lastPass = some p → p.Sound acc pageSize s

section

variable {acc : Account} {s s' : RefreshLoop} {pageSize : Nat}

theorem Between.mono {answered : List (Nat × Nat)} {a b b' : Nat} (h : Between answered a b)
    (hb : b ≤ b') : Between answered a b' :=
  fun e he => ⟨(h e he).1, (h e he).2.trans hb⟩

/-- What is known of the last pass stays, as long as the manager and `last_state` do. -/
theorem LastPass.Sound.congr {p : LastPass} (h : p.Sound acc pageSize s)
    (hmoment : s.moment ≤ s'.moment) (hmanager : s'.manager = s.manager)
    (hstate : s'.lastState = s.lastState) : p.Sound acc pageSize s' := by
  refine ⟨h.order, h.bound.trans hmoment, ?_, ?_⟩
  · rw [hstate]
    exact h.state
  · rw [hmanager]
    exact h.list

/-- The account moves on. -/
theorem sound_library (h : s.Sound acc pageSize) :
    ({ s with moment := s.moment + 1 } : RefreshLoop).Sound acc pageSize := by
  refine ⟨?_, h.last, fun p hp => (h.pass p hp).congr (Nat.le_succ _) rfl rfl⟩
  have hphase := h.phase
  show s.phase.Sound acc { s with moment := s.moment + 1 }
  cases hph : s.phase with
  | waiting => trivial
  | counting polled firstPage totalCount =>
    rw [hph] at hphase
    exact ⟨hphase.1, Nat.le_succ_of_le hphase.2.1, hphase.2.2⟩
  | listing polled currentState answered =>
    rw [hph] at hphase
    exact ⟨hphase.1, Nat.le_succ_of_le hphase.2.1, hphase.2.2.mono (Nat.le_succ _)⟩

/-- Somebody else writes: of the last pass only its list is still known. -/
theorem sound_written (h : s.Sound acc pageSize) (m : Manager) :
    (s.written m).Sound acc pageSize := by
  have hlast : ∀ p, (s.written m).lastPass = some p →
      ∃ q, s.lastPass = some q ∧ p = { q with writtenSince := true } := by
    intro p hp
    obtain ⟨q, hq, rfl⟩ := Option.map_eq_some_iff.mp hp
    exact ⟨q, hq, rfl⟩
  refine ⟨?_, fun hl => ?_, fun p hp => ?_⟩
  · have hphase := h.phase
    show s.phase.Sound acc (s.written m)
    cases hph : s.phase with
    | waiting => trivial
    | counting polled firstPage totalCount =>
      rw [hph] at hphase
      refine ⟨hphase.1, hphase.2.1, fun p hp => ?_⟩
      obtain ⟨q, hq, rfl⟩ := hlast p hp
      exact hphase.2.2 q hq
    | listing polled currentState answered =>
      rw [hph] at hphase
      exact hphase
  · obtain ⟨p, hp⟩ := Option.isSome_iff_exists.mp (h.last hl)
    rw [RefreshLoop.written, hp]
    rfl
  · obtain ⟨q, hq, rfl⟩ := hlast p hp
    obtain ⟨answered, tasks, list, hbetween, hlist, -⟩ := (h.pass q hq).list
    exact ⟨(h.pass q hq).order, (h.pass q hq).bound, (h.pass q hq).state, answered, tasks, list,
      hbetween, hlist, fun _ hw => Bool.noConfusion hw⟩

/-- The first answer of a poll. -/
theorem sound_asked {ok : Bool} (h : s.Sound acc pageSize) (hs : s.asked acc ok = some s') :
    s'.Sound acc pageSize := by
  rw [RefreshLoop.asked] at hs
  split at hs
  · split at hs
    · split at hs
      · rename_i r hanswer
        obtain rfl := Option.some.inj hs
        exact ⟨⟨hanswer, le_rfl, fun p hp => (h.pass p hp).bound⟩, h.last,
          fun p hp => (h.pass p hp).congr le_rfl rfl rfl⟩
      · obtain rfl := Option.some.inj hs
        exact h
    · obtain rfl := Option.some.inj hs
      exact h
  · cases hs

/-- The second answer of a poll. -/
theorem sound_counted {n : Option Nat} (h : s.Sound acc pageSize) (hs : s.counted n = some s') :
    s'.Sound acc pageSize := by
  have hphase := h.phase
  rw [RefreshLoop.counted] at hs
  split at hs
  · rename_i polled firstPage totalCount hph
    rw [hph] at hphase
    have hwaiting : ({ s with phase := .waiting } : RefreshLoop).Sound acc pageSize :=
      ⟨trivial, h.last, fun p hp => (h.pass p hp).congr le_rfl rfl rfl⟩
    split at hs
    · obtain rfl := Option.some.inj hs
      exact hwaiting
    · split at hs
      · obtain rfl := Option.some.inj hs
        exact hwaiting
      · obtain rfl := Option.some.inj hs
        exact ⟨⟨⟨firstPage, hphase.1, rfl⟩, hphase.2.1, fun e he => absurd he List.not_mem_nil⟩,
          h.last, fun p hp => (h.pass p hp).congr le_rfl rfl rfl⟩
  · cases hs

/-- An answer to the listing. -/
theorem sound_answeredPage {n : Nat} (h : s.Sound acc pageSize)
    (hs : s.answeredPage n = some s') : s'.Sound acc pageSize := by
  have hphase := h.phase
  rw [RefreshLoop.answeredPage] at hs
  split at hs
  · rename_i polled currentState answered hph
    rw [hph] at hphase
    obtain rfl := Option.some.inj hs
    refine ⟨⟨hphase.1, hphase.2.1, fun e he => ?_⟩, h.last,
      fun p hp => (h.pass p hp).congr le_rfl rfl rfl⟩
    rcases List.mem_append.mp he with he | he
    · exact hphase.2.2 e he
    · rw [List.mem_singleton.mp he]
      exact ⟨hphase.2.1, le_rfl⟩
  · cases hs

/-- Without a list, `run_once` fails and does nothing. -/
theorem runOnce_unlisted (cfg : RefreshConfig) (m : Manager) (text : String) (env : Nat → Env) :
    ((runOnce cfg).eval performAlone m (withList (.error text) env)).1 = false ∧
      ((runOnce cfg).eval performAlone m (withList (.error text) env)).2.1 = m := by
  rw [runOnce_alone]
  exact ⟨rfl, rfl⟩

/-- The end of a pass. -/
theorem sound_ran {tasks : Tasks} {cfg : RefreshConfig} {env : Nat → Env}
    (h : s.Sound acc pageSize) (hs : s.ran acc pageSize tasks cfg env = some s') :
    s'.Sound acc pageSize := by
  have hphase := h.phase
  rw [RefreshLoop.ran] at hs
  split at hs
  · rename_i polled currentState answered hph
    rw [hph] at hphase
    obtain rfl := Option.some.inj hs
    obtain ⟨hshowed, hle, hbetween⟩ := hphase
    generalize hout : (runOnce cfg).eval performAlone s.manager
      (withList (listAllTorrents (acc.remote answered tasks) pageSize) env) = out
    rw [RefreshLoop.finished]
    split
    · -- the pass has gone through, so there was a list
      rename_i hok
      have hlist : ∃ list, listAllTorrents (acc.remote answered tasks) pageSize = .ok list := by
        cases hlist : listAllTorrents (acc.remote answered tasks) pageSize with
        | ok list => exact ⟨list, rfl⟩
        | error text =>
          rw [hlist] at hout
          rw [← hout, (runOnce_unlisted cfg s.manager text env).1] at hok
          cases hok
      obtain ⟨list, hlist⟩ := hlist
      refine ⟨trivial, fun _ => rfl, fun p hp => ?_⟩
      obtain rfl := Option.some.inj hp
      refine ⟨hle, le_rfl, ⟨currentState, rfl, hshowed⟩, answered, tasks, list, hbetween, hlist,
        fun _ _ => ?_⟩
      rw [hlist] at hout
      exact ⟨s.manager, cfg, withList (.ok list) env, rfl, congrArg (·.2.1) hout.symm⟩
    · refine ⟨trivial, fun hl => by simpa using h.last hl, fun p hp => ?_⟩
      obtain ⟨q, hq, rfl⟩ := Option.map_eq_some_iff.mp hp
      obtain ⟨answered', tasks', list', hbetween', hlist', hleft⟩ := (h.pass q hq).list
      refine ⟨(h.pass q hq).order, (h.pass q hq).bound, (h.pass q hq).state,
        answered', tasks', list', hbetween', hlist', fun hfailed hwritten => ?_⟩
      obtain ⟨hq', hnone⟩ := Bool.or_eq_false_iff.mp hfailed
      cases hlist : listAllTorrents (acc.remote answered tasks) pageSize with
      | ok list =>
        rw [hlist] at hnone
        cases hnone
      | error text =>
        rw [hlist] at hout
        obtain ⟨m, cfg', env', henv, hm⟩ := hleft hq' hwritten
        refine ⟨m, cfg', env', henv, ?_⟩
        rw [← hout, (runOnce_unlisted cfg s.manager text env).2]
        exact hm
  · cases hs

/-- **A step keeps the invariant.** -/
theorem sound_step {e : Event} (h : s.Sound acc pageSize) (hs : s.step acc pageSize e = some s') :
    s'.Sound acc pageSize := by
  cases e with
  | library =>
    obtain rfl := Option.some.inj hs
    exact sound_library h
  | elsewhere m =>
    obtain rfl := Option.some.inj hs
    exact sound_written h m
  | first ok => exact sound_asked h hs
  | active n => exact sound_counted h hs
  | page n => exact sound_answeredPage h hs
  | pass tasks cfg env => exact sound_ran h hs

/-- **A run keeps it.** -/
theorem sound_run {m : Manager} {es : List Event}
    (hrun : run (RefreshLoop.step acc pageSize) (.start m) es = some s) : s.Sound acc pageSize := by
  refine run_inv' (fun s e s' h hs => sound_step h hs) es _ s ?_ hrun
  refine ⟨trivial, fun h => ?_, fun p hp => ?_⟩
  · cases h
  · cases hp

end

/-! ## A skipped pass -/

section

variable {acc : Account} {s : RefreshLoop} {pageSize polled n totalCount : Nat}
  {firstPage : List Torrent}

/-- The list can be counted in 32 bits. -/
def Account.Countable (acc : Account) : Prop := ∀ moment, (acc.list moment).length < 2 ^ 32

/-- What the loop knows of a list: its length and its first entry. -/
theorem polled_spec {moment : Nat} (hacc : acc.Served) (hsmall : acc.Countable)
    (h : acc.Polled moment firstPage totalCount) :
    totalCount = (acc.list moment).length ∧ firstPage.head? = (acc.list moment).head? := by
  rw [Account.Polled, listTorrents_of_serves (hsmall moment) (hacc.pages moment 1 1)] at h
  obtain ⟨rfl, rfl⟩ := Prod.mk.inj (Except.ok.inj h)
  refine ⟨rfl, ?_⟩
  cases hl : acc.list moment <;> rfl

/-- **What a skip tells of the list**: it has the ids it had at the poll before the last pass. -/
theorem skipped_ids (hacc : acc.Served) (h : s.Sound acc pageSize) (hsmall : acc.Countable)
    (hphase : s.phase = .counting polled firstPage totalCount)
    (hskip : isSkipped ⟨totalCount, n, firstPage.head?.map (·.id)⟩ s.lastState = true) :
    ∃ p, s.lastPass = some p ∧ p.listed ≤ polled ∧
      (acc.list polled).map (·.id) = (acc.list p.polled).map (·.id) := by
  obtain ⟨-, hsame⟩ := Bool.and_eq_true_iff.mp hskip
  have hstate := of_decide_eq_true hsame
  obtain ⟨p, hp⟩ := Option.isSome_iff_exists.mp (h.last (by rw [← hstate]; rfl))
  have hcounting := h.phase
  rw [hphase] at hcounting
  obtain ⟨hpolled, -, hafter⟩ := hcounting
  refine ⟨p, hp, hafter p hp, ?_⟩
  obtain ⟨c, hc, firstPage', hpolled', hid⟩ := (h.pass p hp).state
  obtain rfl := Option.some.inj (hstate.trans hc)
  obtain ⟨hcount, hhead⟩ := polled_spec hacc hsmall hpolled
  obtain ⟨hcount', hhead'⟩ := polled_spec hacc hsmall hpolled'
  have hle : p.polled ≤ polled := (h.pass p hp).order.trans (hafter p hp)
  refine hacc.newestFirst.same_keys hle (hcount.symm.trans hcount') ?_
  rw [← hhead, ← hhead']
  exact hid

/-- A listing whose pages are all answered from one list gives that list, if it gives any. -/
theorem listed_same {answered : List (Nat × Nat)} {tasks : Tasks} {l list : List Torrent}
    (hacc : acc.Served) (hk : 1 ≤ pageSize) (hl : l.length < 2 ^ 32)
    (hsame : ∀ e ∈ answered, acc.list e.2 = l)
    (h : listAllTorrents (acc.remote answered tasks) pageSize = .ok list) : list = l := by
  have hserver : ∀ page, Serves l pageSize page ((acc.remote answered tasks).execute page pageSize) ∨
      PageFails (acc.remote answered tasks) pageSize page := by
    intro page
    show Serves l pageSize page (match answered.lookup page with
      | none => .error .maxRetriesExceeded
      | some moment => .ok (acc.respond moment pageSize page)) ∨ _
    cases hlook : answered.lookup page with
    | none =>
      refine Or.inr (Or.inl ⟨"list_torrents", ?_⟩)
      show listTorrents (match answered.lookup page with
        | none => .error .maxRetriesExceeded
        | some moment => .ok (acc.respond moment pageSize page)) = _
      rw [hlook]
      rfl
    | some moment =>
      have hmem : (page, moment) ∈ answered := by
        obtain ⟨l₁, l₂, rfl, -⟩ := List.lookup_eq_some_iff.mp hlook
        exact List.mem_append_right _ List.mem_cons_self
      refine Or.inl ?_
      have hserves := hacc.pages moment pageSize page
      rw [hsame _ hmem] at hserves
      exact hserves
  by_cases hfail : ∃ page ∈ requestedPages l pageSize,
      PageFails (acc.remote answered tasks) pageSize page
  · obtain ⟨page, hpage, hfails⟩ := hfail
    obtain ⟨e, he⟩ := listAllTorrents_failed hl hk (fun page _ => hserver page) hpage hfails
    rw [h] at he
    cases he
  · push Not at hfail
    have hall := listAllTorrents_served hl hk
      (fun page hpage => (hserver page).resolve_right (hfail page hpage)) fun page hlt hpage => by
        by_contra hne
        exact hfail page hpage (Or.inr ⟨hlt, hne⟩)
    exact Except.ok.inj (h.symm.trans hall)

/-- A record that a pass has just seen is left as it is by the next one over the same list. -/
theorem refreshed_again (f : Option Fresh) (old : Option ManagedTorrent) :
    refreshed f (refreshed f old) = refreshed f old := by
  have hw := isWritten_refreshed f old
  cases f with
  | none =>
    cases old with
    | none => rfl
    | some mt =>
      rw [refreshed]
      cases hskip : skipLocalRemoveForState mt.state with
      | true => rw [if_pos rfl, refreshed, hskip, if_pos rfl]
      | false => rw [if_neg Bool.false_ne_true, refreshed]
  | some f =>
    cases hr : refreshed (some f) old with
    | none =>
      rw [hr] at hw
      cases hw
    | some mt =>
      rw [hr, isWritten] at hw
      rw [refreshed, hw, if_neg Bool.false_ne_true]

/-- **A skipped pass would have done nothing.**  The list has the ids of the poll before the last
    pass; and when nothing came while that pass was polling and listing, nothing has changed under
    its id since, no later pass has failed and nobody else has written the manager since, a pass over
    the list writes no row, sends no path and leaves every record. -/
theorem skip_agrees {m : Manager} {es : List Event} (hacc : acc.Served) (hk : 1 ≤ pageSize)
    (hsmall : acc.Countable)
    (hrun : run (RefreshLoop.step acc pageSize) (.start m) es = some s)
    (hphase : s.phase = .counting polled firstPage totalCount)
    (hskip : isSkipped ⟨totalCount, n, firstPage.head?.map (·.id)⟩ s.lastState = true) :
    ∃ p, s.lastPass = some p ∧
      (acc.list polled).map (·.id) = (acc.list p.polled).map (·.id) ∧
      (Unadded Torrent.id acc.list p.polled p.listed →
        Unmoved Torrent.id acc.list p.polled polled →
        p.failedSince = false → p.writtenSince = false → ∀ (cfg : RefreshConfig) (env : Nat → Env),
        (env 0).list = some (acc.list polled) →
          ((runOnce cfg).eval performAlone s.manager env).2.1.rows = s.manager.rows ∧
          ((runOnce cfg).eval performAlone s.manager env).2.1.hooks = s.manager.hooks ∧
          ∀ key, ((runOnce cfg).eval performAlone s.manager env).2.1.torrents.lookup key =
            s.manager.torrents.lookup key) := by
  have h := sound_run hrun
  obtain ⟨p, hp, hlater, hids⟩ := skipped_ids hacc h hsmall hphase hskip
  refine ⟨p, hp, hids, fun hquiet hun hok hunwritten cfg env hlist => ?_⟩
  have hsound := h.pass p hp
  -- the pass has seen the list of its poll, and so would the skipped one
  have hnow : acc.list polled = acc.list p.polled :=
    hacc.newestFirst.same_list (hsound.order.trans hlater) hids hun
  have hthen : ∀ q, p.polled ≤ q → q ≤ p.listed → acc.list q = acc.list p.polled := by
    intro q hpq hq
    refine hacc.newestFirst.same_within hpq (hq.trans hlater) hids (fun n han hn => ?_)
      fun n han hn => ?_
    · exact hquiet n han (hn.trans hq)
    · exact hun n han (hn.trans (hq.trans hlater))
  obtain ⟨answered, tasks, list, hbetween, hlisted, hleft⟩ := hsound.list
  obtain rfl := listed_same hacc hk (hsmall p.polled)
    (fun e he => hthen e.2 (hbetween e he).1 (hbetween e he).2) hlisted
  obtain ⟨m', cfg', env', henv', hm⟩ := hleft hok hunwritten
  rw [hnow] at hlist
  obtain ⟨hrows, hhooks⟩ := @second_pass_silent cfg' cfg m' env' env _ henv' hlist
  rw [← hm] at hrows hhooks
  refine ⟨hrows, hhooks, fun key => ?_⟩
  obtain ⟨-, -, hlook, -⟩ := @runOnce_spec cfg' m' env' _ henv'
  obtain ⟨-, -, hlook', -⟩ := @runOnce_spec cfg s.manager env _ hlist
  rw [← hm] at hlook
  rw [hlook', hlook, refreshed_again]

end

/-! ## A visit -/

/-- Pages of a list, as Real-Debrid answers. -/
def pageResponse (l : List Torrent) (limit page : Nat) : ListResponse :=
  if l = [] then ⟨204, none, .ok []⟩ else ⟨200, some (toString l.length), .ok (pageOf l limit page)⟩

theorem serves_pageResponse (l : List Torrent) (limit page : Nat) :
    Serves l limit page (.ok (pageResponse l limit page)) := by
  refine ⟨_, rfl, ?_⟩
  rw [pageResponse]
  split
  · rfl
  · exact ⟨show (200 : Nat) ≠ 204 by decide, rfl, rfl⟩

/-- Another torrent. -/
def newcomer : Torrent := ⟨"B", "Other", "OTHER", 100, "downloaded", [], 0⟩

/-- It comes, and it goes. -/
def visited : Nat → List Torrent
  | 1 => [newcomer, soundFilm.torrent]
  | _ => [soundFilm.torrent]

/-- An account with the film, where the other torrent is for one moment. -/
def visit : Account := ⟨visited, fun moment => pageResponse (visited moment)⟩

theorem visit_served : visit.Served := by
  refine ⟨⟨fun n => ?_, fun n => ?_⟩, fun moment => serves_pageResponse (visited moment)⟩
  · match n with
    | 0 => decide
    | 1 => decide
    | n + 2 => exact List.nodup_singleton _
  · match n with
    | 0 => exact ⟨["B"], ["RD1"], rfl, List.Sublist.refl _, by decide⟩
    | 1 => exact ⟨[], ["RD1"], rfl, by decide, fun k hk => absurd hk List.not_mem_nil⟩
    | n + 2 => exact ⟨[], ["RD1"], rfl, List.Sublist.refl _, fun k hk => absurd hk List.not_mem_nil⟩

theorem visit_countable : visit.Countable
  | 0 => by decide
  | 1 => by decide
  | n + 2 => show 1 < 2 ^ 32 by decide

/-- No task fails, and they finish in the order of their pages. -/
def inOrder : Tasks := ⟨fun _ => none, id, fun pages => List.Perm.refl pages⟩

/-- One poll and its pass; the database answers with `ok`. -/
def pollAndPass (ok : Bool) : List Event :=
  [.first true, .active (some 0), .page 1, .pass inOrder keepErrored fun _ => answering [] ok]

/-- Somebody empties the manager, a pass goes through, a torrent comes and goes: the next poll is
    skipped. -/
def comeAndGone : List Event :=
  [.elsewhere (atRest ∅ ∅)] ++ pollAndPass true ++ [.library, .library, .first true]

/-- What is seen of the loop. -/
def RefreshLoop.view (s : RefreshLoop) : Phase × Option LibraryState × Option LastPass :=
  (s.phase, s.lastState, s.lastPass)

theorem skip_agrees_comeAndGone : ∃ s, run (RefreshLoop.step visit 100) (.start filmStored)
      comeAndGone = some s ∧
    s.lastPass = some ⟨0, 0, false, false⟩ ∧ visit.list 1 ≠ visit.list 0 ∧
    ((runOnce keepErrored).eval performAlone s.manager
      fun _ => answering (visit.list 2) true).2.1.rows = s.manager.rows := by
  obtain ⟨s, hrun, hview⟩ : ∃ s, run (RefreshLoop.step visit 100) (.start filmStored)
      comeAndGone = some s ∧ s.view = (.counting 2 [soundFilm.torrent] 1,
        some ⟨1, 0, some "RD1"⟩, some ⟨0, 0, false, false⟩) :=
    Option.map_eq_some_iff.mp (by decide)
  obtain ⟨hphase, hrest⟩ := Prod.mk.inj hview
  obtain ⟨hstate, hpass⟩ := Prod.mk.inj hrest
  obtain ⟨p, hp, -, hagrees⟩ := skip_agrees (n := 0) visit_served (by decide) visit_countable hrun
    hphase (by rw [hstate]; decide)
  obtain rfl : ⟨0, 0, false, false⟩ = p := Option.some.inj (hpass.symm.trans hp)
  have hquiet : Unadded Torrent.id visit.list 0 0 := fun n _ hn => by
    obtain rfl := Nat.le_zero.mp hn
    exact List.Subset.refl _
  have hunmoved : Unmoved Torrent.id visit.list 0 2 := by
    intro n _ hn x hx y hy hxy
    obtain rfl := List.mem_singleton.mp hy
    interval_cases n
    · exact List.mem_singleton.mp hx
    · rcases List.mem_cons.mp hx with rfl | hx
      · exact absurd hxy (by decide)
      · exact List.mem_singleton.mp hx
    · exact List.mem_singleton.mp hx
  exact ⟨s, hrun, hpass, by decide,
    (hagrees hquiet hunmoved rfl rfl keepErrored (fun _ => answering (visit.list 2) true) rfl).1⟩

/-- A torrent comes, the pass that adds it fails on the database, and it goes: the next poll is
    skipped, and the map keeps the torrent. -/
theorem skip_keeps_removed : (run (RefreshLoop.step visit 100) (.start (atRest ∅ ∅))
    (pollAndPass true ++ [.library] ++ pollAndPass false ++
      [.library, .first true, .active (some 0)])).map (fun s =>
      (s.phase, (visit.list s.moment).map (·.id), s.manager.torrents.keys)) =
    some (.waiting, ["RD1"], ["OTHER/Other", "HASH/Film"]) := by decide

end RdRs.Torrent.Polling

/-
  `'read_retry` of `fuse/read.rs` — how much a read does, and what it holds meanwhile.

  `read` of `Fuse/Read.lean` is the calls of a read, with the rounds unfolded into each other.  Here the
  loop is a loop: a round returns, or starts over with the flag `repair_waited` set, and `ReleaseGuard`
  is a call of its own at the end of the round that has opened the cache item.

  * `readScoped_released` — without its releases, and with two rounds or more, this is `read`;
  * `RoundLeaves` — what a round leaves: its item opened, at most four links, perhaps a wait, its item
    released.  A round that starts over has waited, and a round after a wait does not start over;
  * `read_bounded` — two rounds, eight links, one wait, and one release for each item opened.

  What `read_at` does inside, its own link refreshes included, is part of that call.
-/
import RdRs.Lib.Marks
import RdRs.Fuse.Read

set_option linter.unusedVariables false

namespace RdRs.Fuse

open RdRs.Rd RdRs.Programs RdRs.Torrent
open RdRs.Cache (Fetch CacheReadError)
open VfsReadBuffer (PrepareRead)

/-! ## The loop -/

/-- A call of `read`, or `release` of the item it has opened. -/
inductive ScopedCall where
  | call (c : ReadCall)
  | release (key filename : String)

@[reducible] def ScopedCall.Res : ScopedCall → Type
  | .call c => c.Res
  | .release _ _ => Unit

/-- Programs that release what they open. -/
abbrev S := Prog ScopedCall ScopedCall.Res

/-- A part without a release. -/
def inRound {α : Type} (p : R α) : S α := p.interpret fun c => Prog.call (ScopedCall.call c)

/-- How a round ends. -/
inductive Exit where
  | reply (r : Reply)
  /-- `continue 'read_retry`; `repair_waited` is set -/
  | startOver

/-- Wait, and start over if the repair has succeeded. -/
def waitRound (cfg : ReadConfig) (key : String) : R Exit := do
  let ok ← ask (.waitForRepairOk cfg.fuseRepairWaitSecs)
  ask (.dropReceiver key)
  pure (if ok then .startOver else .reply (.error .enoent))

section

variable (cfg : ReadConfig) (f : ReadFile) (waited : Bool)

/-- The link is of no use any more. -/
def condemnRound (clear : R Unit) : R Exit := do
  clear
  ask (.invalidate f.key (cacheFilename f.file f.fileIdx))
  let leader ← ask (.fuseBeginFatalReadRepair f.key f.file.path)
  Prog.when (mayWait cfg waited) (ask (.subscribeRepairState f.key))
  Prog.when leader (leadReport f.key f.file.path)
  if mayWait cfg waited then waitRound cfg f.key else pure (.reply (.error .enoent))

/-- The retry loop, from the first of these attempts on. -/
def attemptsRound (plan : FetchPlan) (readOff readLen : Nat) : List Nat → R Exit
  | [] => pure (.reply (.error .eio))
  | attempt :: rest => do
    Prog.when (decide (0 < attempt)) (ask (.sleep (attempt * 2)))
    match ← ask (.unrestrictLink f.link) with
    | .error e =>
      if isFatal e then condemnRound cfg f waited (ask (.clearUnrestrictCacheForSourceLink f.link))
      else attemptsRound plan readOff readLen rest
    | .ok download =>
      if corruptedLink download f.file then
        condemnRound cfg f waited (ask (.clearUnrestrictCache download.token f.link))
      else do
        let fetch ← ask (.readAt readOff readLen download)
        match fetch.result with
        | .ok filled => do
          let reply ← deliver plan readOff filled
          pure (.reply reply)
        | .error .cancelled => pure (.reply (.error .eintr))
        | .error .downloadFailed => do
          ask (.clearUnrestrictCache download.token f.link)
          attemptsRound plan readOff readLen rest
        | .error .io => pure (.reply (.error .eio))

/-- From the handle's buffer, or by way of the link. -/
def cachedRound (req : ReadRequest) : R Exit := do
  match ← prepare req.fh req.offset req.size f.file.fileSize cfg.bufferSize with
  | some (.hit data) => pure (.reply (.ok data))
  | some (.miss fillOffset fillLen take) =>
    if fillLen = 0 then pure (.reply (.ok []))
    else attemptsRound cfg f waited (.buffered req.fh take) fillOffset fillLen attempts
  | none => attemptsRound cfg f waited .direct req.offset req.size attempts

/-- Everything behind the link.  The guard lives from `get_or_create` to the end of the round. -/
def linkRound (req : ReadRequest) : S Exit := do
  let cached ← Prog.call (ScopedCall.call
    (.getOrCreate f.key (cacheFilename f.file f.fileIdx) f.file.fileSize))
  if cached then do
    let exit ← inRound (cachedRound cfg f waited req)
    Prog.call (ScopedCall.release f.key (cacheFilename f.file f.fileIdx))
    pure exit
  else pure (.reply (.error .eio))

end

/-- One round of `'read_retry`. -/
def scopedRound (cfg : ReadConfig) (req : ReadRequest) (key : String) (fileIdx : Nat) (waited : Bool) :
    S Exit := do
  match ← Prog.call (ScopedCall.call (.ensureTorrentInfo key)) with
  | none => pure (.reply (.error .enoent))
  | some mt =>
    match resolveRead mt fileIdx, fileAt mt fileIdx with
    | .emptyFile, _ => pure (.reply (.ok []))
    | .markedBroken, _ =>
      if mayWait cfg waited then inRound do
        ask (.subscribeRepairState key)
        ask (.enqueueRepair key)
        waitRound cfg key
      else pure (.reply (.error .enoent))
    | .unrestrict link, some file => linkRound cfg ⟨key, fileIdx, file, link⟩ waited req
    | _, _ => pure (.reply (.error .enoent))

/-- `'read_retry: loop`, for so many rounds; `none` is a read that has not returned by then. -/
def retryLoop (cfg : ReadConfig) (req : ReadRequest) (key : String) (fileIdx : Nat) :
    Nat → Bool → S (Option Reply)
  | 0, _ => pure none
  | rounds + 1, waited => do
    match ← scopedRound cfg req key fileIdx waited with
    | .reply r => pure (some r)
    | .startOver => retryLoop cfg req key fileIdx rounds true

/-- `read`, for so many rounds. -/
def readScoped (cfg : ReadConfig) (req : ReadRequest) (rounds : Nat) : S (Option Reply) :=
  match readSlot req.inode with
  | none => pure (some (.error .enoent))
  | some (slot, fileIdx) => do
    match ← Prog.call (ScopedCall.call (.inodeToAccessKey (inodeTorrentBase + slot))) with
    | none => pure (some (.error .enoent))
    | some key => retryLoop cfg req key fileIdx rounds false

/-! ## Marks -/

/-- What is counted and matched of a read. -/
inductive ReadMark where
  | round
  | waits
  | unrestricts
  /-- `get_or_create` has succeeded -/
  | opened (key filename : String)
  | released (key filename : String)
deriving DecidableEq

def readMark : Sigma ScopedCall.Res → Option ReadMark
  | ⟨.call (.ensureTorrentInfo _), _⟩ => some .round
  | ⟨.call (.waitForRepairOk _), _⟩ => some .waits
  | ⟨.call (.unrestrictLink _), _⟩ => some .unrestricts
  | ⟨.call (.getOrCreate key filename _), ok⟩ => if ok then some (.opened key filename) else none
  | ⟨.release key filename, _⟩ => some (.released key filename)
  | _ => none

/-- The marks of calls without a release. -/
def innerMark (e : Sigma ReadCall.Res) : Option ReadMark := readMark ⟨.call e.1, e.2⟩

/-- A part without a release leaves what its calls leave. -/
theorem marked_inRound {α : Type} {Q : α → List ReadMark → Prop} : ∀ {p : R α},
    Marked innerMark p Q → Marked readMark (inRound p) Q := by
  have hlog : ∀ (p : R α) log x, History (inRound p) log x →
      ∃ log', History p log' x ∧ marks readMark log = marks innerMark log' := by
    intro p
    induction p with
    | ret x =>
      intro log y h
      cases h
      exact ⟨[], .ret x, rfl⟩
    | act c k ih =>
      intro log y h
      cases h with
      | act _ _ r rest _ h =>
        obtain ⟨log', hlog', heq⟩ := ih r rest y h
        refine ⟨⟨c, r⟩ :: log', .act c k r log' y hlog', ?_⟩
        show List.filterMap readMark (_ :: rest) = List.filterMap innerMark (_ :: log')
        rw [List.filterMap_cons, List.filterMap_cons]
        have hrest : rest.filterMap readMark = log'.filterMap innerMark := heq
        rw [hrest]
        rfl
  intro p hp log x h
  obtain ⟨log', hlog', heq⟩ := hlog p log x h
  rw [heq]
  exact hp log' x hlog'

/-! ## What a round leaves -/

/-- So many links, and a wait if `w`. -/
def spent (links : Nat) (w : Bool) : List ReadMark :=
  List.replicate links .unrestricts ++ if w then [.waits] else []

/-- At most `n` links, and perhaps a wait.  A read that has waited does not wait, and a round that starts
    over does. -/
def Spends (waited : Bool) (n : Nat) (exit : Exit) (ms : List ReadMark) : Prop :=
  ∃ links w, links ≤ n ∧ ms = spent links w ∧ (w = true → waited = false) ∧
    (exit = .startOver → w = true)

/-- A round: its links and its wait, between the opening and the release of its item if it opens one. -/
def RoundLeaves (waited : Bool) (exit : Exit) (ms : List ReadMark) : Prop :=
  ∃ rest, ms = .round :: rest ∧ (Spends waited 0 exit rest ∨
    ∃ key filename inner, rest = .opened key filename :: (inner ++ [.released key filename]) ∧
      Spends waited 4 exit inner)

variable {cfg : ReadConfig} {f : ReadFile} {waited : Bool} {key : String} {fileIdx n : Nat}

theorem spends_reply (waited : Bool) (n : Nat) (r : Reply) : Spends waited n (.reply r) [] :=
  ⟨0, false, Nat.zero_le n, rfl, nofun, nofun⟩

theorem Spends.link {exit : Exit} {ms : List ReadMark} (h : Spends waited n exit ms) :
    Spends waited (n + 1) exit (.unrestricts :: ms) := by
  obtain ⟨links, w, hle, rfl, hw, hexit⟩ := h
  exact ⟨links + 1, w, Nat.succ_le_succ hle, rfl, hw, hexit⟩

theorem Spends.mono {exit : Exit} {ms : List ReadMark} {m : Nat} (h : Spends waited n exit ms)
    (hnm : n ≤ m) : Spends waited m exit ms := by
  obtain ⟨links, w, hle, hms, hw, hexit⟩ := h
  exact ⟨links, w, hle.trans hnm, hms, hw, hexit⟩

theorem not_waited (h : mayWait cfg waited = true) : waited = false := by
  rw [mayWait, Bool.and_eq_true] at h
  exact Bool.not_eq_true' _ ▸ h.1

theorem waitRound_spends (h : mayWait cfg waited = true) (key : String) :
    Marked innerMark (waitRound cfg key) (Spends waited 0) := by
  refine marked_call_bind fun ok => marked_call_bind fun _ => marked_pure ?_
  exact ⟨0, true, le_rfl, rfl, fun _ => not_waited h, fun _ => rfl⟩

theorem leadReport_unmarked (key path : String) : Unmarked innerMark (leadReport key path) :=
  marked_call_bind fun _ => marked_call_bind fun _ => marked_call_bind fun _ =>
    unmarked_call fun _ => rfl

theorem condemnRound_spends {clear : R Unit} (h : Unmarked innerMark clear) :
    Marked innerMark (condemnRound cfg f waited clear) (Spends waited 0) := by
  refine h.bind fun _ => marked_call_bind fun _ => marked_call_bind fun leader => ?_
  refine Unmarked.bind (unmarked_when (unmarked_call fun _ => rfl)) fun _ => ?_
  refine Unmarked.bind (unmarked_when (leadReport_unmarked _ _)) fun _ => ?_
  split
  · rename_i hmay
    exact waitRound_spends hmay f.key
  · exact marked_pure (spends_reply waited 0 _)

theorem deliver_unmarked (plan : FetchPlan) (readOff : Nat) (filled : List UInt8) :
    Unmarked innerMark (deliver plan readOff filled) := by
  cases plan with
  | direct => exact unmarked_pure _
  | buffered fh take => exact marked_call_bind fun _ => unmarked_pure _

/-- **One link for each attempt.** -/
theorem attemptsRound_spends (plan : FetchPlan) (readOff readLen : Nat) : ∀ left : List Nat,
    Marked innerMark (attemptsRound cfg f waited plan readOff readLen left)
      (Spends waited left.length)
  | [] => marked_pure (spends_reply waited 0 _)
  | attempt :: rest => by
    have ih := attemptsRound_spends plan readOff readLen rest
    have hcondemn : ∀ {clear : R Unit}, Unmarked innerMark clear →
        Marked innerMark (condemnRound cfg f waited clear) fun exit ms =>
          Spends waited (rest.length + 1) exit (.unrestricts :: ms) := fun hclear =>
      (condemnRound_spends hclear).mono fun exit ms h => (h.mono (Nat.zero_le rest.length)).link
    have hreply : ∀ r, Marked innerMark (pure (.reply r) : R Exit) fun exit ms =>
        Spends waited (rest.length + 1) exit (.unrestricts :: ms) := fun r =>
      marked_pure (spends_reply waited rest.length r).link
    have hmore := ih.mono fun exit ms h => h.link
    refine Unmarked.bind (unmarked_when (unmarked_call fun _ => rfl)) fun _ => ?_
    refine marked_call_bind fun answer => ?_
    cases answer with
    | error e =>
      dsimp only
      split
      · exact hcondemn (unmarked_call fun _ => rfl)
      · exact hmore
    | ok download =>
      dsimp only
      split
      · exact hcondemn (unmarked_call fun _ => rfl)
      · refine marked_call_bind fun fetch => ?_
        cases fetch.result with
        | ok filled => exact (deliver_unmarked plan readOff filled).bind fun reply => hreply reply
        | error e => cases e with
          | cancelled => exact hreply _
          | downloadFailed => exact marked_call_bind fun _ => hmore
          | io => exact hreply _

theorem cachedRound_spends (req : ReadRequest) :
    Marked innerMark (cachedRound cfg f waited req) (Spends waited 4) := by
  have hprepare : Unmarked innerMark
      (prepare req.fh req.offset req.size f.file.fileSize cfg.bufferSize) := by
    unfold prepare
    split
    · exact unmarked_pure _
    · exact unmarked_call fun _ => rfl
  refine hprepare.bind fun prepared => ?_
  cases prepared with
  | none => exact attemptsRound_spends _ _ _ attempts
  | some p => cases p with
    | hit data => exact marked_pure (spends_reply waited 4 _)
    | miss fillOffset fillLen take =>
      dsimp only
      split
      · exact marked_pure (spends_reply waited 4 _)
      · exact attemptsRound_spends _ _ _ attempts

/-- **A round leaves** its item released, whichever way it ends. -/
theorem scopedRound_leaves (req : ReadRequest) :
    Marked readMark (scopedRound cfg req key fileIdx waited) (RoundLeaves waited) := by
  have hreply : ∀ r : Reply, Marked readMark (pure (.reply r) : S Exit) fun exit ms =>
      RoundLeaves waited exit (.round :: ms) := fun r =>
    marked_pure ⟨[], rfl, Or.inl (spends_reply waited 0 r)⟩
  have hlink : ∀ f, Marked readMark (linkRound cfg f waited req) fun exit ms =>
      RoundLeaves waited exit (.round :: ms) := by
    intro f
    refine marked_call_bind fun cached => ?_
    cases cached with
    | false => exact hreply _
    | true =>
      refine marked_bind (marked_inRound (cachedRound_spends req)) fun exit inner h => ?_
      refine marked_call_bind fun _ => marked_pure ?_
      exact ⟨_, rfl, Or.inr ⟨f.key, cacheFilename f.file f.fileIdx, inner, rfl, h⟩⟩
  refine marked_call_bind fun found => ?_
  cases found with
  | none => exact hreply _
  | some mt =>
    dsimp only
    split
    · exact hreply _
    · split
      · rename_i hmay
        refine (marked_inRound (marked_call_bind fun _ => marked_call_bind fun _ =>
          waitRound_spends hmay key)).mono fun exit ms h => ⟨ms, rfl, Or.inl h⟩
      · exact hreply _
    · exact hlink _
    · exact hreply _

/-! ## What a read leaves -/

/-- A round that starts over has waited, and no round after a wait does. -/
theorem RoundLeaves.not_waited {exit : Exit} {ms : List ReadMark} (h : RoundLeaves waited exit ms)
    (hexit : exit = .startOver) : waited = false := by
  obtain ⟨rest, -, hspends | ⟨_, _, inner, -, hspends⟩⟩ := h
  · obtain ⟨links, w, -, -, hw, hover⟩ := hspends
    exact hw (hover hexit)
  · obtain ⟨links, w, -, -, hw, hover⟩ := hspends
    exact hw (hover hexit)

/-- One round, or one that starts over and another one. -/
def LoopLeaves (ms : List ReadMark) : Prop :=
  (∃ r, RoundLeaves false (.reply r) ms) ∨
  ∃ first second r, ms = first ++ second ∧ RoundLeaves false .startOver first ∧
    RoundLeaves true (.reply r) second

/-- After a wait there is one round. -/
theorem retryLoop_waited (req : ReadRequest) (rounds : Nat) :
    Marked readMark (retryLoop cfg req key fileIdx (rounds + 1) true) fun reply ms =>
      ∃ r, reply = some r ∧ RoundLeaves true (.reply r) ms := by
  refine marked_bind (scopedRound_leaves req) fun exit ms h => ?_
  cases exit with
  | reply r => exact marked_pure ⟨r, rfl, by rwa [List.append_nil]⟩
  | startOver => exact absurd (h.not_waited rfl) (by decide)

/-- **Two rounds are enough.** -/
theorem retryLoop_leaves (req : ReadRequest) (rounds : Nat) :
    Marked readMark (retryLoop cfg req key fileIdx (rounds + 2) false) fun reply ms =>
      (∃ r, reply = some r) ∧ LoopLeaves ms := by
  refine marked_bind (scopedRound_leaves req) fun exit ms h => ?_
  cases exit with
  | reply r => exact marked_pure ⟨⟨r, rfl⟩, Or.inl ⟨r, by rwa [List.append_nil]⟩⟩
  | startOver =>
    refine (retryLoop_waited req rounds).mono fun reply ms' h' => ?_
    obtain ⟨r, hr, h'⟩ := h'
    exact ⟨⟨r, hr⟩, Or.inr ⟨ms, ms', r, rfl, h, h'⟩⟩

theorem readScoped_leaves (cfg : ReadConfig) (req : ReadRequest) (rounds : Nat) :
    Marked readMark (readScoped cfg req (rounds + 2)) fun reply ms =>
      (∃ r, reply = some r) ∧ (ms = [] ∨ LoopLeaves ms) := by
  rw [readScoped]
  split
  · exact marked_pure ⟨⟨_, rfl⟩, Or.inl rfl⟩
  · refine marked_call_bind fun found => ?_
    cases found with
    | none => exact marked_pure ⟨⟨_, rfl⟩, Or.inl rfl⟩
    | some key => exact (retryLoop_leaves req rounds).mono fun reply ms h => ⟨h.1, Or.inr h.2⟩

/-! ## Counts -/

/-- An item is opened or released. -/
def isScope : ReadMark → Bool
  | .opened _ _ => true
  | .released _ _ => true
  | _ => false

/-- Each of the items is opened and released before the next one. -/
def openedAndReleased (items : List (String × String)) : List ReadMark :=
  items.flatMap fun item => [.opened item.1 item.2, .released item.1 item.2]

theorem openedAndReleased_append (items items' : List (String × String)) :
    openedAndReleased (items ++ items') = openedAndReleased items ++ openedAndReleased items' :=
  List.flatMap_append

/-- What the marks of a read come to. -/
structure Within (rounds waits links : Nat) (ms : List ReadMark) : Prop where
  rounds : ms.count .round ≤ rounds
  waits : ms.count .waits ≤ waits
  links : ms.count .unrestricts ≤ links
  scopes : ∃ items, ms.filter isScope = openedAndReleased items

theorem Within.append {rounds waits links rounds' waits' links' : Nat} {ms ms' : List ReadMark}
    (h : Within rounds waits links ms) (h' : Within rounds' waits' links' ms') :
    Within (rounds + rounds') (waits + waits') (links + links') (ms ++ ms') where
  rounds := by
    rw [List.count_append]
    exact Nat.add_le_add h.rounds h'.rounds
  waits := by
    rw [List.count_append]
    exact Nat.add_le_add h.waits h'.waits
  links := by
    rw [List.count_append]
    exact Nat.add_le_add h.links h'.links
  scopes := by
    obtain ⟨items, hitems⟩ := h.scopes
    obtain ⟨items', hitems'⟩ := h'.scopes
    exact ⟨items ++ items', by rw [List.filter_append, hitems, hitems', openedAndReleased_append]⟩

theorem Within.mono {rounds waits links rounds' waits' links' : Nat} {ms : List ReadMark}
    (h : Within rounds waits links ms) (hr : rounds ≤ rounds') (hw : waits ≤ waits')
    (hl : links ≤ links') : Within rounds' waits' links' ms :=
  ⟨h.rounds.trans hr, h.waits.trans hw, h.links.trans hl, h.scopes⟩

/-- Links and a wait open nothing. -/
theorem spent_filter (links : Nat) (w : Bool) : (spent links w).filter isScope = [] := by
  have hlinks : (List.replicate links ReadMark.unrestricts).filter isScope = [] :=
    List.filter_eq_nil_iff.mpr fun m hm => by
      rw [List.eq_of_mem_replicate hm]
      decide
  rw [spent, List.filter_append, hlinks]
  cases w with
  | false => rfl
  | true => rfl

theorem spent_count (links : Nat) (w : Bool) : (spent links w).count .round = 0 ∧
    (spent links w).count .waits = w.toNat ∧ (spent links w).count .unrestricts = links := by
  rw [spent, List.count_append, List.count_append, List.count_append, List.count_replicate,
    List.count_replicate, List.count_replicate]
  cases w with
  | false => simp
  | true => simp

/-- **A round is within its bounds.** -/
theorem RoundLeaves.within {exit : Exit} {ms : List ReadMark} (h : RoundLeaves waited exit ms) :
    Within 1 (!waited).toNat 4 ms := by
  have hwaits : ∀ w : Bool, (w = true → waited = false) → w.toNat ≤ (!waited).toNat := by
    intro w hw
    cases w with
    | false => exact Nat.zero_le _
    | true => rw [hw rfl]; exact le_rfl
  obtain ⟨rest, rfl, ⟨links, w, hle, rfl, hw, -⟩ | ⟨key, filename, inner, rfl, hspends⟩⟩ := h
  · obtain ⟨hround, hwait, hlinks⟩ := spent_count links w
    refine ⟨?_, ?_, ?_, [], ?_⟩
    · rw [List.count_cons_self, hround]
    · rw [List.count_cons_of_ne (by decide), hwait]
      exact hwaits w hw
    · rw [List.count_cons_of_ne (by decide), hlinks]
      exact hle.trans (Nat.zero_le 4)
    · rw [List.filter_cons_of_neg (by decide), spent_filter]
      rfl
  · obtain ⟨links, w, hle, rfl, hw, -⟩ := hspends
    obtain ⟨hround, hwait, hlinks⟩ := spent_count links w
    refine ⟨?_, ?_, ?_, [(key, filename)], ?_⟩
    · simp [hround]
    · simpa [hwait] using hwaits w hw
    · simpa [hlinks] using hle
    · rw [List.filter_cons_of_neg (by decide), List.filter_cons_of_pos rfl, List.filter_append,
        spent_filter]
      rfl

/-- So is a read. -/
theorem LoopLeaves.within {ms : List ReadMark} (h : LoopLeaves ms) : Within 2 1 8 ms := by
  rcases h with ⟨r, h⟩ | ⟨first, second, r, rfl, h, h'⟩
  · exact h.within.mono (by decide) (by decide) (by decide)
  · exact h.within.append h'.within

/-! ## Without the releases -/

/-- Releases are left out. -/
def withoutRelease : (c : ScopedCall) → R c.Res
  | .call c => ask c
  | .release _ _ => pure ()

theorem inRound_released {α : Type} : ∀ p : R α, (inRound p).interpret withoutRelease = p
  | .ret x => rfl
  | .act c k => congrArg (Prog.act c) (funext fun r => inRound_released (k r))

/-- What `read` does when a round ends. -/
def resume (again : R Reply) : Exit → R Reply
  | .reply r => pure r
  | .startOver => again

theorem waitRound_resume (cfg : ReadConfig) (key : String) (again : R Reply) :
    (waitRound cfg key >>= resume again) = awaitRepair cfg key again := by
  refine congrArg (Prog.act _) (funext fun ok => congrArg (Prog.act _) (funext fun _ => ?_))
  cases ok with
  | false => rfl
  | true => rfl

theorem condemnRound_resume (again : R Reply) (clear : R Unit) :
    (condemnRound cfg f waited clear >>= resume again) = condemnLink cfg f waited again clear := by
  simp only [condemnRound, condemnLink, Prog.bind_assoc]
  refine congrArg (clear >>= ·) (funext fun _ => ?_)
  refine congrArg (Prog.act _) (funext fun _ => congrArg (Prog.act _) (funext fun leader => ?_))
  refine congrArg (Prog.when (mayWait cfg waited) (ask (.subscribeRepairState f.key)) >>= ·)
    (funext fun _ => ?_)
  refine congrArg (Prog.when leader (leadReport f.key f.file.path) >>= ·) (funext fun _ => ?_)
  split
  · exact waitRound_resume cfg f.key again
  · rfl

theorem deliver_resume (again p : R Reply) :
    ((p >>= fun reply => (pure (.reply reply) : R Exit)) >>= resume again) = p := by
  rw [Prog.bind_assoc]
  exact Prog.bind_ret p

theorem attemptsRound_resume (again : R Reply) (plan : FetchPlan) (readOff readLen : Nat) :
    ∀ left : List Nat, (attemptsRound cfg f waited plan readOff readLen left >>= resume again) =
      attemptFrom cfg f waited again plan readOff readLen left
  | [] => rfl
  | attempt :: rest => by
    have ih := attemptsRound_resume again plan readOff readLen rest
    rw [attemptsRound, attemptFrom, Prog.bind_assoc]
    refine congrArg (Prog.when _ _ >>= ·) (funext fun _ => ?_)
    simp only [Prog.call_bind, Prog.act_bind]
    refine congrArg (Prog.act _) (funext fun answer => ?_)
    cases answer with
    | error e =>
      dsimp only
      split
      · exact condemnRound_resume again _
      · exact ih
    | ok download =>
      dsimp only
      split
      · exact condemnRound_resume again _
      · refine congrArg (Prog.act _) (funext fun fetch => ?_)
        beta_reduce
        cases fetch.result with
        | ok filled => exact deliver_resume again _
        | error e => cases e with
          | cancelled => rfl
          | downloadFailed => exact congrArg (Prog.act _) (funext fun _ => ih)
          | io => rfl

theorem cachedRound_resume (req : ReadRequest) (again : R Reply) :
    (cachedRound cfg f waited req >>= resume again) = readCached cfg f waited again req := by
  rw [cachedRound, readCached, Prog.bind_assoc]
  refine congrArg (prepare _ _ _ _ _ >>= ·) (funext fun prepared => ?_)
  cases prepared with
  | none => exact attemptsRound_resume again _ _ _ attempts
  | some p => cases p with
    | hit data => rfl
    | miss fillOffset fillLen take =>
      dsimp only
      split
      · rfl
      · exact attemptsRound_resume again _ _ _ attempts

theorem linkRound_resume (req : ReadRequest) (again : R Reply) :
    ((linkRound cfg f waited req).interpret withoutRelease >>= resume again) =
      readLink cfg f waited again req := by
  refine congrArg (Prog.act _) (funext fun cached => ?_)
  cases cached with
  | false => rfl
  | true =>
    show (Prog.interpret withoutRelease (inRound (cachedRound cfg f waited req) >>= fun exit =>
      (Prog.call (ScopedCall.release _ _) >>= fun _ => (pure exit : S Exit)))) >>= resume again = _
    rw [Prog.interpret_bind, inRound_released]
    exact (Prog.bind_assoc _ _ _).trans (cachedRound_resume req again)

/-- **A round without its release** is a round of `read`. -/
theorem scopedRound_resume (req : ReadRequest) (again : R Reply) :
    ((scopedRound cfg req key fileIdx waited).interpret withoutRelease >>= resume again) =
      readRound cfg req key fileIdx waited again := by
  refine congrArg (Prog.act _) (funext fun found => ?_)
  cases found with
  | none => rfl
  | some mt =>
    dsimp only [Prog.bind]
    cases resolveRead mt fileIdx with
    | emptyFile => rfl
    | enoent => rfl
    | markedBroken =>
      dsimp only
      split
      · rw [inRound_released]
        exact congrArg (Prog.act _) (funext fun _ => congrArg (Prog.act _) (funext fun _ =>
          waitRound_resume cfg key again))
      · rfl
    | unrestrict link =>
      cases fileAt mt fileIdx with
      | none => rfl
      | some file => exact linkRound_resume req again

/-- A round and what comes after it, without releases. -/
theorem scopedRound_bind (req : ReadRequest) (again : R Reply) {next : Exit → S (Option Reply)}
    (hreply : ∀ r, next (.reply r) = pure (some r))
    (hover : (next .startOver).interpret withoutRelease = again >>= fun r => pure (some r)) :
    (scopedRound cfg req key fileIdx waited >>= next).interpret withoutRelease =
      (readRound cfg req key fileIdx waited again >>= fun r => pure (some r)) := by
  rw [Prog.interpret_bind, ← scopedRound_resume req again, Prog.bind_assoc]
  refine congrArg (Prog.interpret withoutRelease (scopedRound cfg req key fileIdx waited) >>= ·)
    (funext fun exit => ?_)
  cases exit with
  | reply r => rw [hreply r]; rfl
  | startOver => exact hover

/-- After a wait the loop returns what the round does. -/
theorem retryLoop_waited_released (req : ReadRequest) (rounds : Nat) :
    (retryLoop cfg req key fileIdx (rounds + 1) true).interpret withoutRelease =
      (readRound cfg req key fileIdx true (pure (.error .eio)) >>= fun r => pure (some r)) := by
  -- what it would do after another round does not matter
  have hsame : retryLoop cfg req key fileIdx (rounds + 1) true =
      (scopedRound cfg req key fileIdx true >>= fun exit => match exit with
        | .reply r => pure (some r)
        | .startOver => pure (some (.error .eio))) := by
    refine Prog.bind_congr fun log exit h => ?_
    cases exit with
    | reply r => rfl
    | startOver => exact absurd ((scopedRound_leaves req log _ h).not_waited rfl) (by decide)
  rw [hsame]
  exact scopedRound_bind req _ (fun r => rfl) rfl

/-- **Without its releases the loop is `read`**, if it may go on for two rounds. -/
theorem readScoped_released (cfg : ReadConfig) (req : ReadRequest) (rounds : Nat) :
    (readScoped cfg req (rounds + 2)).interpret withoutRelease =
      (read cfg req >>= fun r => pure (some r)) := by
  rw [readScoped, read]
  cases readSlot req.inode with
  | none => rfl
  | some slotted =>
    refine congrArg (Prog.act _) (funext fun found => ?_)
    cases found with
    | none => rfl
    | some key =>
      exact scopedRound_bind req _ (fun r => rfl) (retryLoop_waited_released req rounds)

/-! ## One read -/

/-- **One read does bounded work.**  Whatever its calls are answered, it returns after at most two rounds,
    with at most one wait for a repair and eight calls of `unrestrict_link`; and each item it has opened
    is released once, before another one is opened and before it returns. -/
theorem read_bounded (cfg : ReadConfig) (req : ReadRequest) (rounds : Nat)
    (log : List (Sigma ScopedCall.Res)) (reply : Option Reply)
    (h : History (readScoped cfg req (rounds + 2)) log reply) :
    (∃ r, reply = some r) ∧
      (marks readMark log).count .round ≤ 2 ∧
      (marks readMark log).count .waits ≤ 1 ∧
      (marks readMark log).count .unrestricts ≤ 8 ∧
      ∃ items, (marks readMark log).filter isScope = openedAndReleased items := by
  obtain ⟨hreply, hempty | hloop⟩ := readScoped_leaves cfg req rounds log reply h
  · rw [hempty]
    exact ⟨hreply, Nat.zero_le 2, Nat.zero_le 1, Nat.zero_le 8, [], rfl⟩
  · obtain ⟨hrounds, hwaits, hlinks, hscopes⟩ := hloop.within
    exact ⟨hreply, hrounds, hwaits, hlinks, hscopes⟩

/-- The link stays dead, though the repair is said to have succeeded. -/
def stillDead : (c : ScopedCall) → c.Res
  | .call (.waitForRepairOk _) => true
  | .call c => goneAnswers deadLink c
  | .release _ _ => ()

/-- Such a read. -/
def deadRead : List (Sigma ScopedCall.Res) × Option Reply :=
  answered stillDead (readScoped ⟨30, 0⟩ ⟨inodeFileBase, 0, 0, 10⟩ 2)

/-- It starts over once and gives up, with its item released each time. -/
theorem read_bounded_deadRead :
    marks readMark deadRead.1 =
      [.round, .opened "HASH/Film" "film.mkv", .unrestricts, .waits, .released "HASH/Film" "film.mkv",
        .round, .opened "HASH/Film" "film.mkv", .unrestricts, .released "HASH/Film" "film.mkv"] ∧
    deadRead.2 = some (.error .enoent) ∧
    (marks readMark deadRead.1).count .unrestricts ≤ 8 ∧
    ∃ items, (marks readMark deadRead.1).filter isScope = openedAndReleased items := by
  have hbound := read_bounded ⟨30, 0⟩ ⟨inodeFileBase, 0, 0, 10⟩ 0 deadRead.1 deadRead.2
    (history_answered _ _)
  exact ⟨by decide, rfl, hbound.2.2.2.1, hbound.2.2.2.2⟩

end RdRs.Fuse

/-
  `fuse/read.rs` — `read`: its retries, and what it reports for repair.

  `read` is a program over calls (`ReadCall`) that are answered from outside: by Real-Debrid, by the
  cache, by the manager.  A history of it is one read, whatever the others do in between.

  * `onManager` — the manager's part of the calls; with it the leader's report is `leadFatalRead`
    (`leadReport_onManager`) and a condemned link is `fatalRead` (`condemnLink_onManager`);
  * `unavailable_reported_iff` — a file that is reported by the CDN as unavailable is reported for
    repair only if Real-Debrid's API condemns its link as well.
-/
import RdRs.Cache.ReadAt
import RdRs.Fuse.CachePaths
import RdRs.Fuse.LinkCheck
import RdRs.Fuse.TorrentDir
import RdRs.Fuse.VfsReadBuffer
import RdRs.Repair.Converge

set_option linter.unusedVariables false

namespace RdRs.Fuse

open RdRs.Rd RdRs.Programs RdRs.Torrent
open RdRs.Repair (updateTorrentState_alone)
open RdRs.Cache (Fetch CacheReadError)
open VfsReadBuffer (PrepareRead)

/-! ## The program -/

/-- A call of `read`. -/
inductive ReadCall where
  | inodeToAccessKey (inode : Nat)
  | ensureTorrentInfo (key : String)
  | subscribeRepairState (key : String)
  /-- the receiver goes out of scope -/
  | dropReceiver (key : String)
  | waitForRepairOk (secs : Nat)
  | getOrCreate (key filename : String) (fileSize : Nat)
  /-- `prepare_read` on the buffer of the handle, if it is open -/
  | prepareRead (fh offset size fileSize bufferSize : Nat)
  | afterFetch (fh fillOffset : Nat) (filled : List UInt8) (take : Nat)
  | sleep (secs : Nat)
  | unrestrictLink (link : String)
  | clearUnrestrictCacheForSourceLink (link : String)
  | clearUnrestrictCache (token link : String)
  | invalidate (key filename : String)
  | readAt (offset size : Nat) (download : Download)
  | fuseBeginFatalReadRepair (key path : String)
  | updateTorrentState (key : String) (state : TorrentState) (reason : Option String)
  | markFileBroken (key path : String)
  | enqueueRepair (key : String)
  | fuseEndFatalReadRepair (key path : String)
deriving DecidableEq

/-- The answer to a call; for a fallible one without a value, whether it has succeeded. -/
@[reducible] def ReadCall.Res : ReadCall → Type
  | .inodeToAccessKey _ => Option String
  | .ensureTorrentInfo _ => Option ManagedTorrent
  | .waitForRepairOk _ => Bool
  | .getOrCreate _ _ _ => Bool
  | .prepareRead _ _ _ _ _ => Option PrepareRead
  | .unrestrictLink _ => Except RdError Download
  | .readAt _ _ _ => Fetch
  | .fuseBeginFatalReadRepair _ _ => Bool
  | .updateTorrentState _ _ _ => Bool
  | .markFileBroken _ _ => Bool
  | _ => Unit

inductive Errno where
  | enoent
  | eio
  | eintr
deriving Repr, DecidableEq

/-- `FuseResult<ReplyData>` -/
abbrev Reply := Except Errno (List UInt8)

/-- Programs of a read. -/
abbrev R := Prog ReadCall ReadCall.Res

abbrev ask (c : ReadCall) : R c.Res := Prog.call c

/-- What `read` looks at in its configuration; `bufferSize` is parsed and clamped. -/
structure ReadConfig where
  fuseRepairWaitSecs : Nat
  bufferSize : Nat

/-- The arguments of `read`. -/
structure ReadRequest where
  inode : Nat
  fh : Nat
  offset : Nat
  size : Nat

/-- `file_idx` -/
def ReadRequest.fileIdx (req : ReadRequest) : Nat := (req.inode - inodeFileBase) % 10000

/-- The file that is read, and its link. -/
structure ReadFile where
  key : String
  fileIdx : Nat
  file : File
  link : String

/-- `FetchPlan` -/
inductive FetchPlan where
  | direct
  | buffered (fh take : Nat)

/-- `MAX_RETRIES` -/
def maxRetries : Nat := 3

/-- `0..=MAX_RETRIES` -/
def attempts : List Nat := List.range (maxRetries + 1)

/-- A read waits for a repair once. -/
def mayWait (cfg : ReadConfig) (waited : Bool) : Bool :=
  !waited && decide (0 < cfg.fuseRepairWaitSecs)

/-- The error of `unrestrict_link` is fatal: an API error that is not worth a retry. -/
def isFatal : RdError → Bool
  | .api e => !e.shouldRetry
  | _ => false

/-- Wait, and start over if the repair has succeeded. -/
def awaitRepair (cfg : ReadConfig) (key : String) (again : R Reply) : R Reply := do
  let ok ← ask (.waitForRepairOk cfg.fuseRepairWaitSecs)
  ask (.dropReceiver key)
  if ok then again else pure (.error .enoent)

/-- What the leader among the reads of a file reports. -/
def leadReport (key path : String) : R Unit := do
  let _ ← ask (.updateTorrentState key .broken none)
  let _ ← ask (.markFileBroken key path)
  ask (.enqueueRepair key)
  ask (.fuseEndFatalReadRepair key path)

section

variable (cfg : ReadConfig) (f : ReadFile) (waited : Bool) (again : R Reply)

/-- The link is of no use any more; `clear` takes it out of the unrestrict cache. -/
def condemnLink (clear : R Unit) : R Reply := do
  clear
  ask (.invalidate f.key (cacheFilename f.file f.fileIdx))
  let leader ← ask (.fuseBeginFatalReadRepair f.key f.file.path)
  Prog.when (mayWait cfg waited) (ask (.subscribeRepairState f.key))
  Prog.when leader (leadReport f.key f.file.path)
  if mayWait cfg waited then awaitRepair cfg f.key again else pure (.error .enoent)

/-- The bytes go to the caller, and what was read ahead into the buffer of the handle. -/
def deliver (plan : FetchPlan) (readOff : Nat) (filled : List UInt8) : R Reply :=
  match plan with
  | .direct => pure (.ok filled)
  | .buffered fh take => do
    ask (.afterFetch fh readOff filled take)
    pure (.ok (filled.take (min take filled.length)))

/-- The retry loop, from the first of these attempts on. -/
def attemptFrom (plan : FetchPlan) (readOff readLen : Nat) : List Nat → R Reply
  | [] => pure (.error .eio)
  | attempt :: rest => do
    Prog.when (decide (0 < attempt)) (ask (.sleep (attempt * 2)))
    match ← ask (.unrestrictLink f.link) with
    | .error e =>
      if isFatal e then
        condemnLink cfg f waited again (ask (.clearUnrestrictCacheForSourceLink f.link))
      else attemptFrom plan readOff readLen rest
    | .ok download =>
      if corruptedLink download f.file then
        condemnLink cfg f waited again (ask (.clearUnrestrictCache download.token f.link))
      else do
        let fetch ← ask (.readAt readOff readLen download)
        match fetch.result with
        | .ok filled => deliver plan readOff filled
        | .error .cancelled => pure (.error .eintr)
        | .error .downloadFailed => do
          ask (.clearUnrestrictCache download.token f.link)
          attemptFrom plan readOff readLen rest
        | .error .io => pure (.error .eio)

/-- The handle's buffer; handle 0 has none. -/
def prepare (fh offset size fileSize bufferSize : Nat) : R (Option PrepareRead) :=
  if fh = 0 then pure none else ask (.prepareRead fh offset size fileSize bufferSize)

/-- From the handle's buffer, or by way of the link. -/
def readCached (req : ReadRequest) : R Reply := do
  match ← prepare req.fh req.offset req.size f.file.fileSize cfg.bufferSize with
  | some (.hit data) => pure (.ok data)
  | some (.miss fillOffset fillLen take) =>
    if fillLen = 0 then pure (.ok [])
    else attemptFrom cfg f waited again (.buffered req.fh take) fillOffset fillLen attempts
  | none => attemptFrom cfg f waited again .direct req.offset req.size attempts

/-- Everything behind the link. -/
def readLink (req : ReadRequest) : R Reply := do
  let cached ← ask (.getOrCreate f.key (cacheFilename f.file f.fileIdx) f.file.fileSize)
  if cached then readCached cfg f waited again req else pure (.error .eio)

end

/-- The selected file of an index. -/
def fileAt (mt : ManagedTorrent) (fileIdx : Nat) : Option File :=
  mt.info.bind fun ti => ti.selectedFiles[fileIdx]?

/-- One round of `'read_retry`. -/
def readRound (cfg : ReadConfig) (req : ReadRequest) (key : String) (fileIdx : Nat) (waited : Bool)
    (again : R Reply) : R Reply := do
  match ← ask (.ensureTorrentInfo key) with
  | none => pure (.error .enoent)
  | some mt =>
    match resolveRead mt fileIdx, fileAt mt fileIdx with
    | .emptyFile, _ => pure (.ok [])
    | .markedBroken, _ =>
      if mayWait cfg waited then do
        ask (.subscribeRepairState key)
        ask (.enqueueRepair key)
        awaitRepair cfg key again
      else pure (.error .enoent)
    | .unrestrict link, some file => readLink cfg ⟨key, fileIdx, file, link⟩ waited again req
    | _, _ => pure (.error .enoent)

/-- `read`.  A round starts over after a wait only, and there is one wait: the second round is the
    last (`readRound_waited`). -/
def read (cfg : ReadConfig) (req : ReadRequest) : R Reply :=
  match readSlot req.inode with
  | none => pure (.error .enoent)
  | some (slot, fileIdx) => do
    match ← ask (.inodeToAccessKey (inodeTorrentBase + slot)) with
    | none => pure (.error .enoent)
    | some key =>
      readRound cfg req key fileIdx false (readRound cfg req key fileIdx true (pure (.error .eio)))

/-! ## Rounds -/

theorem attemptFrom_waited (cfg : ReadConfig) (f : ReadFile) (again again' : R Reply)
    (plan : FetchPlan) (readOff readLen : Nat) : ∀ left : List Nat,
    attemptFrom cfg f true again plan readOff readLen left =
      attemptFrom cfg f true again' plan readOff readLen left
  | [] => rfl
  | attempt :: rest => by
    rw [attemptFrom, attemptFrom, attemptFrom_waited cfg f again again' plan readOff readLen rest]
    rfl

/-- A round after the wait does not start over. -/
theorem readRound_waited (cfg : ReadConfig) (req : ReadRequest) (key : String) (fileIdx : Nat)
    (again again' : R Reply) :
    readRound cfg req key fileIdx true again = readRound cfg req key fileIdx true again' := by
  have hlink : ∀ f, readLink cfg f true again req = readLink cfg f true again' req := by
    intro f
    simp only [readLink, readCached, attemptFrom_waited cfg f again again']
  simp only [readRound, hlink]
  rfl

/-! ## The manager's part -/

/-- The calls to the manager are its methods; `outside` answers the others. -/
def onManager (outside : (c : ReadCall) → c.Res) : (c : ReadCall) → M c.Res
  | .ensureTorrentInfo key => ensureTorrentInfo key
  | .subscribeRepairState key => subscribeRepairState key
  | .dropReceiver key => call (.unsubscribe key)
  | .fuseBeginFatalReadRepair key path => call (.beginFatal key path)
  | .updateTorrentState key state reason => updateTorrentState key state reason
  | .markFileBroken key path => markFileBroken key path
  | .enqueueRepair key => enqueueRepair key
  | .fuseEndFatalReadRepair key path => call (.endFatal key path)
  | c => pure (outside c)

theorem leadReport_onManager (outside : (c : ReadCall) → c.Res) (key path : String) :
    (leadReport key path).interpret (onManager outside) = leadFatalRead key path := rfl

/-- For the manager a read of a condemned link that is not taken up again is `fatalRead`. -/
theorem condemnLink_onManager (outside : (c : ReadCall) → c.Res) (cfg : ReadConfig) (f : ReadFile)
    (waited : Bool) (token : String) (reply : Reply) :
    (do
      let _ ← ask (.ensureTorrentInfo f.key)
      let _ ← condemnLink cfg f waited (pure reply) (ask (.clearUnrestrictCache token f.link))
      pure ()).interpret (onManager outside) = fatalRead f.key f.file.path (mayWait cfg waited) := by
  -- behind the two calls the manager has no part in
  have hrest : ∀ leader, (do
      Prog.when (mayWait cfg waited) (ask (.subscribeRepairState f.key))
      Prog.when leader (leadReport f.key f.file.path)
      (if mayWait cfg waited then awaitRepair cfg f.key (pure reply) else pure (.error .enoent))
        >>= fun _ => pure ()).interpret (onManager outside) = (do
        Prog.when (mayWait cfg waited) (subscribeRepairState f.key)
        Prog.when leader (leadFatalRead f.key f.file.path)
        Prog.when (mayWait cfg waited) (call (.unsubscribe f.key)) : M Unit) := by
    intro leader
    rw [Prog.interpret_bind, Prog.interpret_when, Prog.interpret_call]
    refine congrArg (Prog.when _ (subscribeRepairState f.key) >>= ·) (funext fun _ => ?_)
    rw [Prog.interpret_bind, Prog.interpret_when, leadReport_onManager]
    refine congrArg (Prog.when _ (leadFatalRead f.key f.file.path) >>= ·) (funext fun _ => ?_)
    cases mayWait cfg waited with
    | false => rfl
    | true =>
      show Prog.act (.unsubscribe f.key) (fun _ => Prog.interpret (onManager outside)
        ((if outside (.waitForRepairOk cfg.fuseRepairWaitSecs) then pure reply
          else pure (.error .enoent)) >>= fun _ => pure ())) = _
      cases outside (.waitForRepairOk cfg.fuseRepairWaitSecs) with
      | false => rfl
      | true => rfl
  rw [Prog.interpret_bind, Prog.interpret_call]
  refine congrArg (ensureTorrentInfo f.key >>= ·) (funext fun mt => ?_)
  simp only [condemnLink, Prog.bind_assoc]
  exact congrArg (Prog.act _) (funext hrest)

theorem markFileBroken_alone {key : String} {mt : ManagedTorrent} {m : Manager}
    (h : m.torrents.lookup key = some mt) (path : String) (env : Nat → Env) :
    ((markFileBroken key path).eval performAlone m env).2.1.torrents =
      m.torrents.insert key (withBroken mt path) := by
  have hget : performAlone m (.get key) (env 0) = (m.torrents.lookup key, m) := rfl
  rw [markFileBroken, Prog.call_bind, Prog.eval_act, hget, h]
  dsimp only
  rw [Prog.call_bind, Prog.eval_act, upsert_alone]
  rfl

theorem isMarkedBroken_withBroken (mt : ManagedTorrent) (path : String) :
    isMarkedBroken (withBroken mt path) path = true := by
  simp [isMarkedBroken, withBroken]

/-- **The report** of a registered torrent, when nobody interferes: the file is marked and the torrent
    is queued. -/
theorem leadFatalRead_marks (key path : String) (m : Manager) (env : Nat → Env)
    (hkey : key ∈ m.torrents) :
    (∃ mt, ((leadFatalRead key path).eval performAlone m env).2.1.torrents.lookup key = some mt ∧
      isMarkedBroken mt path = true) ∧
    key ∈ ((leadFatalRead key path).eval performAlone m env).2.1.repairQueue := by
  obtain ⟨mt, hmt⟩ := Option.isSome_iff_exists.mp (AList.lookup_isSome.mpr hkey)
  obtain ⟨now, hupdated⟩ := updateTorrentState_alone key .broken none m env
  rw [hmt] at hupdated
  rw [leadFatalRead, Prog.eval_bind, Prog.eval_bind]
  generalize (updateTorrentState key .broken none).eval performAlone m env = r at hupdated ⊢
  have hlook : r.2.1.torrents.lookup key = some (withState mt .broken none now) := by
    rw [hupdated]
    exact AList.lookup_insert _
  have hmarked := markFileBroken_alone hlook path r.2.2
  generalize (markFileBroken key path).eval performAlone r.2.1 r.2.2 = r' at hmarked ⊢
  have hpush : ∀ (m : Manager) e, (perform m (.pushRepair key) e).2.torrents = m.torrents ∧
      key ∈ (perform m (.pushRepair key) e).2.repairQueue := by
    intro m e
    show (if key ∈ m.repairQueue then m else _).torrents = _ ∧
      key ∈ (if key ∈ m.repairQueue then m else _).repairQueue
    split
    · rename_i hqueued
      exact ⟨rfl, hqueued⟩
    · exact ⟨rfl, List.mem_append_right _ List.mem_cons_self⟩
  obtain ⟨hsame, hqueued⟩ := hpush r'.2.1 (r'.2.2 0)
  refine ⟨⟨withBroken (withState mt .broken none now) path, ?_, isMarkedBroken_withBroken _ _⟩,
    hqueued⟩
  show (perform r'.2.1 (.pushRepair key) (r'.2.2 0)).2.torrents.lookup key = _
  rw [hsame, hmarked]
  exact AList.lookup_insert _

/-! ## What a read has done -/

/-- The calls of a read with their answers, oldest first. -/
abbrev Log := List (Sigma ReadCall.Res)

/-- Every GET that is made fails with `FileUnavailable`. -/
def getsUnavailable : (c : ReadCall) → c.Res → Prop
  | .readAt _ _ _, fetch => fetch.unavailable = true
  | _, _ => True

/-- The answer to `POST /unrestrict/link` condemns the link of the file. -/
def condemns (file : File) : Except RdError Download → Bool
  | .error e => isFatal e
  | .ok download => corruptedLink download file

/-- In a round of the read the API has condemned the link of the file. -/
def LinkCondemned (key : String) (fileIdx : Nat) (path : String) (log : Log) : Prop :=
  ∃ mt file link answer, ⟨.ensureTorrentInfo key, some mt⟩ ∈ log ∧ fileAt mt fileIdx = some file ∧
    file.path = path ∧ ⟨.unrestrictLink link, answer⟩ ∈ log ∧ condemns file answer = true

/-- The read is the first to report the file. -/
def Leads (key path : String) (log : Log) : Prop := ⟨.fuseBeginFatalReadRepair key path, true⟩ ∈ log

def Called (c : ReadCall) (log : Log) : Prop := ∃ r, ⟨c, r⟩ ∈ log

/-- The file is marked broken and the torrent is queued for repair. -/
def Reported (key path : String) (log : Log) : Prop :=
  Called (.markFileBroken key path) log ∧ Called (.enqueueRepair key) log

theorem LinkCondemned.mono {key path : String} {fileIdx : Nat} {log log' : Log}
    (h : LinkCondemned key fileIdx path log) (hsub : log ⊆ log') :
    LinkCondemned key fileIdx path log' := by
  obtain ⟨mt, file, link, answer, hmt, hfile, hpath, hanswer, hcond⟩ := h
  exact ⟨mt, file, link, answer, hsub hmt, hfile, hpath, hsub hanswer, hcond⟩

theorem Called.mono {c : ReadCall} {log log' : Log} (h : Called c log) (hsub : log ⊆ log') :
    Called c log' := h.imp fun r hr => hsub hr

theorem Reported.mono {key path : String} {log log' : Log} (h : Reported key path log)
    (hsub : log ⊆ log') : Reported key path log' := ⟨h.1.mono hsub, h.2.mono hsub⟩

/-- Between two reports: a mark has its condemned link and its report, a lead has its report, and no
    call of `read_at` has spent a link refresh. -/
structure Accounted (fileIdx : Nat) (log : Log) : Prop where
  refreshes : ∀ offset size download fetch, ⟨.readAt offset size download, fetch⟩ ∈ log →
    fetch.refreshes = 0
  marked : ∀ key path, Called (.markFileBroken key path) log →
    LinkCondemned key fileIdx path log ∧ Leads key path log
  led : ∀ key path, Leads key path log → Reported key path log

/-- A call that is no part of a report. -/
def Plain (e : Sigma ReadCall.Res) : Prop :=
  match e with
  | ⟨.markFileBroken _ _, _⟩ => False
  | ⟨.fuseBeginFatalReadRepair _ _, leader⟩ => leader = false
  | ⟨.readAt _ _ _, fetch⟩ => fetch.refreshes = 0
  | _ => True

section

variable {fileIdx : Nat} {log : Log}

theorem Accounted.nil : Accounted fileIdx [] :=
  ⟨fun _ _ _ _ h => absurd h List.not_mem_nil, fun _ _ ⟨_, h⟩ => absurd h List.not_mem_nil,
    fun _ _ h => absurd h List.not_mem_nil⟩

theorem Accounted.plain {e : Sigma ReadCall.Res} (h : Accounted fileIdx log) (he : Plain e) :
    Accounted fileIdx (log ++ [e]) := by
  have hsub : log ⊆ log ++ [e] := List.subset_append_left _ _
  refine ⟨fun offset size download fetch hmem => ?_, fun key path hmem => ?_, fun key path hmem => ?_⟩
  · rcases List.mem_append.mp hmem with hmem | hmem
    · exact h.refreshes _ _ _ _ hmem
    · obtain rfl := List.mem_singleton.mp hmem
      exact he
  · obtain ⟨r, hmem⟩ := hmem
    rcases List.mem_append.mp hmem with hmem | hmem
    · obtain ⟨hcond, hlead⟩ := h.marked key path ⟨r, hmem⟩
      exact ⟨hcond.mono hsub, hsub hlead⟩
    · obtain rfl := List.mem_singleton.mp hmem
      exact absurd he id
  · rcases List.mem_append.mp hmem with hmem | hmem
    · exact (h.led key path hmem).mono hsub
    · obtain rfl := List.mem_singleton.mp hmem
      cases he

theorem Accounted.plains : ∀ {es log : Log}, Accounted fileIdx log → (∀ e ∈ es, Plain e) →
    Accounted fileIdx (log ++ es)
  | [], log, h, _ => by rwa [List.append_nil]
  | e :: es, log, h, hes => by
    rw [List.append_cons]
    exact (h.plain (hes e List.mem_cons_self)).plains fun e he => hes e (List.mem_cons_of_mem _ he)

/-- The calls of a report, from the lead to its end; `mid` is the subscription. -/
def reportCalls (key path : String) (mid : Log) (updated marked : Bool) : Log :=
  ⟨.fuseBeginFatalReadRepair key path, true⟩ :: (mid ++
    [⟨.updateTorrentState key .broken none, updated⟩, ⟨.markFileBroken key path, marked⟩,
      ⟨.enqueueRepair key, ()⟩, ⟨.fuseEndFatalReadRepair key path, ()⟩])

theorem Accounted.report {key path : String} {mid : Log} {updated marked : Bool}
    (h : Accounted fileIdx log) (hcond : LinkCondemned key fileIdx path log)
    (hmid : ∀ e ∈ mid, Plain e) :
    Accounted fileIdx (log ++ reportCalls key path mid updated marked) := by
  have hsub : log ⊆ log ++ reportCalls key path mid updated marked := List.subset_append_left _ _
  have hsub' : reportCalls key path mid updated marked ⊆
      log ++ reportCalls key path mid updated marked := List.subset_append_right _ _
  have hlead : Leads key path (log ++ reportCalls key path mid updated marked) :=
    hsub' List.mem_cons_self
  have hreported : Reported key path (log ++ reportCalls key path mid updated marked) :=
    ⟨⟨marked, hsub' (by simp [reportCalls])⟩, ⟨(), hsub' (by simp [reportCalls])⟩⟩
  -- the calls of the report, one by one
  have hcases : ∀ e ∈ reportCalls key path mid updated marked,
      e = ⟨.fuseBeginFatalReadRepair key path, true⟩ ∨ e = ⟨.markFileBroken key path, marked⟩ ∨
        Plain e := by
    intro e he
    simp only [reportCalls, List.mem_cons, List.mem_append, List.not_mem_nil, or_false] at he
    rcases he with rfl | he | rfl | rfl | rfl | rfl
    · exact Or.inl rfl
    · exact Or.inr (Or.inr (hmid e he))
    · exact Or.inr (Or.inr trivial)
    · exact Or.inr (Or.inl rfl)
    · exact Or.inr (Or.inr trivial)
    · exact Or.inr (Or.inr trivial)
  refine ⟨fun offset size download fetch hmem => ?_, fun k p hmem => ?_, fun k p hmem => ?_⟩
  · rcases List.mem_append.mp hmem with hmem | hmem
    · exact h.refreshes _ _ _ _ hmem
    · rcases hcases _ hmem with heq | heq | hplain
      · cases heq
      · cases heq
      · exact hplain
  · obtain ⟨r, hmem⟩ := hmem
    rcases List.mem_append.mp hmem with hmem | hmem
    · obtain ⟨hc, hl⟩ := h.marked k p ⟨r, hmem⟩
      exact ⟨hc.mono hsub, hsub hl⟩
    · rcases hcases _ hmem with heq | heq | hplain
      · cases heq
      · cases heq
        exact ⟨hcond.mono hsub, hlead⟩
      · exact absurd hplain id
  · rcases List.mem_append.mp hmem with hmem | hmem
    · exact (h.led k p hmem).mono hsub
    · rcases hcases _ hmem with heq | heq | hplain
      · cases heq
        exact hreported
      · cases heq
      · cases hplain

end

/-! ## Every step of a read -/

section

variable {fileIdx : Nat} {log : Log} {α : Type} {Q : α → Log → Prop}

/-- At its end a read is accounted for. -/
def Ends (fileIdx : Nat) (reply : Reply) (log : Log) : Prop := Accounted fileIdx log

/-- A call that is no part of a report. -/
theorem ask_rule {c : ReadCall} {Q : c.Res → Log → Prop} (h : Accounted fileIdx log)
    (hc : ∀ r, getsUnavailable c r → Plain ⟨c, r⟩)
    (hk : ∀ r, Accounted fileIdx (log ++ [⟨c, r⟩]) → Q r (log ++ [⟨c, r⟩])) :
    Follows (logging getsUnavailable) log (ask c) Q :=
  ⟨trivial, fun r hr => hk r (h.plain (hc r hr))⟩

/-- A call that is no part of a report, and the rest. -/
theorem follows_plain {c : ReadCall} {k : c.Res → R α} (h : Accounted fileIdx log)
    (hc : ∀ r, getsUnavailable c r → Plain ⟨c, r⟩)
    (hk : ∀ r, Accounted fileIdx (log ++ [⟨c, r⟩]) →
      Follows (logging getsUnavailable) (log ++ [⟨c, r⟩]) (k r) Q) :
    Follows (logging getsUnavailable) log (ask c >>= k) Q :=
  follows_bind.mpr (ask_rule h hc hk)

/-- A read that starts over from anywhere. -/
def Restarts (fileIdx : Nat) (again : R Reply) : Prop :=
  ∀ log, Accounted fileIdx log → Follows (logging getsUnavailable) log again (Ends fileIdx)

theorem awaitRepair_rule {again : R Reply} (cfg : ReadConfig) (key : String)
    (h : Accounted fileIdx log) (hagain : Restarts fileIdx again) :
    Follows (logging getsUnavailable) log (awaitRepair cfg key again) (Ends fileIdx) := by
  refine follows_plain h (fun _ _ => trivial) fun ok h => ?_
  refine follows_plain h (fun _ _ => trivial) fun _ h => ?_
  cases ok with
  | true => exact hagain _ h
  | false => exact h

theorem leadReport_rule {key path : String} {mid : Log} (h : Accounted fileIdx log)
    (hcond : LinkCondemned key fileIdx path log) (hmid : ∀ e ∈ mid, Plain e) :
    Follows (logging getsUnavailable) (log ++ ⟨.fuseBeginFatalReadRepair key path, true⟩ :: mid)
      (leadReport key path) fun _ log => Accounted fileIdx log := by
  refine ⟨trivial, fun updated _ => ⟨trivial, fun marked _ => ⟨trivial, fun _ _ =>
    ⟨trivial, fun _ _ => ?_⟩⟩⟩⟩
  have hreport : Accounted fileIdx (log ++ reportCalls key path mid updated marked) :=
    h.report hcond hmid
  show Accounted fileIdx (log ++ _ :: mid ++ [_] ++ [_] ++ [_] ++ [_])
  simpa only [reportCalls, List.append_assoc, List.cons_append, List.nil_append] using hreport

/-- **A condemned link is accounted for**: whoever takes the lead makes the report. -/
theorem condemnLink_rule {again : R Reply} {clear : R Unit} (cfg : ReadConfig) (f : ReadFile)
    (waited : Bool) (hcond : LinkCondemned f.key fileIdx f.file.path log)
    (hagain : Restarts fileIdx again)
    (hclear : Follows (logging getsUnavailable) log clear fun _ log' =>
      Accounted fileIdx log' ∧ log ⊆ log') :
    Follows (logging getsUnavailable) log (condemnLink cfg f waited again clear) (Ends fileIdx) := by
  refine follows_bind.mpr (hclear.mono fun _ log' ⟨h, hsub⟩ => ?_)
  have hcond := hcond.mono hsub
  refine follows_plain h (fun _ _ => trivial) fun _ h => ?_
  have hcond := hcond.mono (List.subset_append_left log'
    [⟨.invalidate f.key (cacheFilename f.file f.fileIdx), ()⟩])
  generalize log' ++ [⟨.invalidate f.key (cacheFilename f.file f.fileIdx), ()⟩] = log₀ at h hcond ⊢
  refine follows_bind.mpr ⟨trivial, fun leader _ => ?_⟩
  -- with or without a subscription
  refine follows_bind.mpr ((follows_when (Q := fun _ log => ∃ mid : Log, (∀ e ∈ mid, Plain e) ∧
    log = log₀ ++ ⟨.fuseBeginFatalReadRepair f.key f.file.path, leader⟩ :: mid) ?_ ?_).mono ?_)
  · intro _
    refine ⟨trivial, fun r _ => ⟨[⟨.subscribeRepairState f.key, r⟩], fun e he => ?_, ?_⟩⟩
    · obtain rfl := List.mem_singleton.mp he
      trivial
    · exact List.append_assoc _ _ _
  · exact fun _ => ⟨[], fun e he => absurd he List.not_mem_nil, rfl⟩
  rintro _ _ ⟨mid, hmid, rfl⟩
  refine follows_bind.mpr ((follows_when (Q := fun _ log => Accounted fileIdx log) ?_ ?_).mono ?_)
  · rintro rfl
    exact leadReport_rule h hcond hmid
  · rintro rfl
    exact h.plains (List.forall_mem_cons.mpr ⟨rfl, hmid⟩)
  intro _ log h
  split
  · exact awaitRepair_rule cfg f.key h hagain
  · exact h

theorem deliver_rule (plan : FetchPlan) (readOff : Nat) (filled : List UInt8)
    (h : Accounted fileIdx log) :
    Follows (logging getsUnavailable) log (deliver plan readOff filled) (Ends fileIdx) := by
  cases plan with
  | direct => exact h
  | buffered fh take => exact follows_plain h (fun _ _ => trivial) fun _ h => h

/-- The attempts, one after the other. -/
theorem attemptFrom_rule {again : R Reply} {mt : ManagedTorrent} (cfg : ReadConfig) (f : ReadFile)
    (waited : Bool) (plan : FetchPlan) (readOff readLen : Nat)
    (hfile : fileAt mt fileIdx = some f.file) (hagain : Restarts fileIdx again) :
    ∀ (left : List Nat) (log : Log), Accounted fileIdx log →
      ⟨.ensureTorrentInfo f.key, some mt⟩ ∈ log →
      Follows (logging getsUnavailable) log
        (attemptFrom cfg f waited again plan readOff readLen left) (Ends fileIdx)
  | [], log, h, hmt => h
  | attempt :: rest, log, h, hmt => by
    have ih := attemptFrom_rule cfg f waited plan readOff readLen hfile hagain rest
    refine follows_bind.mpr ((follows_when (Q := fun _ log => Accounted fileIdx log ∧
      (⟨.ensureTorrentInfo f.key, some mt⟩ : Sigma ReadCall.Res) ∈ log) ?_ ?_).mono ?_)
    · exact fun _ => ask_rule h (fun _ _ => trivial) fun _ h => ⟨h, List.mem_append_left _ hmt⟩
    · exact fun _ => ⟨h, hmt⟩
    rintro _ log ⟨h, hmt⟩
    refine follows_plain h (fun _ _ => trivial) fun answer h => ?_
    have hmt := List.mem_append_left [⟨.unrestrictLink f.link, answer⟩] hmt
    have hcond : condemns f.file answer = true → LinkCondemned f.key fileIdx f.file.path
        (log ++ [⟨.unrestrictLink f.link, answer⟩]) := fun hc =>
      ⟨mt, f.file, f.link, answer, hmt, hfile, rfl, List.mem_append_right _ List.mem_cons_self, hc⟩
    cases answer with
    | error e =>
      dsimp only
      split
      · rename_i hfatal
        refine condemnLink_rule cfg f waited (hcond hfatal) hagain ?_
        exact ask_rule h (fun _ _ => trivial) fun _ h => ⟨h, List.subset_append_left _ _⟩
      · exact ih _ h hmt
    | ok download =>
      dsimp only
      split
      · rename_i hcorrupted
        refine condemnLink_rule cfg f waited (hcond hcorrupted) hagain ?_
        exact ask_rule h (fun _ _ => trivial) fun _ h => ⟨h, List.subset_append_left _ _⟩
      · refine follows_plain h (fun fetch hget => Cache.unavailable_spends_nothing fetch hget)
          fun fetch h => ?_
        have hmt := List.mem_append_left [⟨.readAt readOff readLen download, fetch⟩] hmt
        cases fetch.result with
        | ok filled => exact deliver_rule plan readOff filled h
        | error e => cases e with
          | cancelled | io => exact h
          | downloadFailed =>
            exact follows_plain h (fun _ _ => trivial) fun _ h => ih _ h (List.mem_append_left _ hmt)

theorem readLink_rule {again : R Reply} {mt : ManagedTorrent} (cfg : ReadConfig) (f : ReadFile)
    (waited : Bool) (req : ReadRequest) (hfile : fileAt mt fileIdx = some f.file)
    (hagain : Restarts fileIdx again) (h : Accounted fileIdx log)
    (hmt : ⟨.ensureTorrentInfo f.key, some mt⟩ ∈ log) :
    Follows (logging getsUnavailable) log (readLink cfg f waited again req) (Ends fileIdx) := by
  refine follows_plain h (fun _ _ => trivial) fun cached h => ?_
  have hmt := List.mem_append_left
    [⟨.getOrCreate f.key (cacheFilename f.file f.fileIdx) f.file.fileSize, cached⟩] hmt
  cases cached with
  | false => exact h
  | true =>
    refine follows_bind.mpr (Follows.mono (Q := fun _ log => Accounted fileIdx log ∧
      (⟨.ensureTorrentInfo f.key, some mt⟩ : Sigma ReadCall.Res) ∈ log) ?_ ?_)
    · unfold prepare
      split
      · exact ⟨h, hmt⟩
      · exact ask_rule h (fun _ _ => trivial) fun _ h => ⟨h, List.mem_append_left _ hmt⟩
    rintro prepared log ⟨h, hmt⟩
    cases prepared with
    | none => exact attemptFrom_rule cfg f waited _ _ _ hfile hagain _ _ h hmt
    | some p => cases p with
      | hit data => exact h
      | miss fillOffset fillLen take =>
        dsimp only
        split
        · exact h
        · exact attemptFrom_rule cfg f waited _ _ _ hfile hagain _ _ h hmt

theorem readRound_rule {again : R Reply} (cfg : ReadConfig) (req : ReadRequest) (key : String)
    (waited : Bool) (hagain : Restarts fileIdx again) :
    Restarts fileIdx (readRound cfg req key fileIdx waited again) := by
  intro log h
  refine follows_plain h (fun _ _ => trivial) fun found h => ?_
  cases found with
  | none => exact h
  | some mt =>
    dsimp only
    split
    · exact h
    · split
      · refine follows_plain h (fun _ _ => trivial) fun _ h => ?_
        refine follows_plain h (fun _ _ => trivial) fun _ h => ?_
        exact awaitRepair_rule cfg key h hagain
      · exact h
    · rename_i link file _ hfile
      exact readLink_rule cfg _ waited req hfile hagain h
        (List.mem_append_right _ List.mem_cons_self)
    · exact h

end

/-- **When a read of an unavailable file reports it.**  No link refresh is spent on it.  The file is
    marked broken and the torrent queued exactly when, in one of the read's rounds, the answer to
    `POST /unrestrict/link` itself condemns the link and the read is the first to report the file.
    The errors of the GETs have no part in that.  A report of a registered torrent takes effect. -/
theorem unavailable_reported_iff (cfg : ReadConfig) (req : ReadRequest) (log : Log) (reply : Reply)
    (hread : History (read cfg req) log reply) (hgets : ∀ e ∈ log, getsUnavailable e.1 e.2) :
    (∀ offset size download fetch, ⟨.readAt offset size download, fetch⟩ ∈ log →
      fetch.refreshes = 0) ∧
    (∀ key path, Reported key path log ↔
      LinkCondemned key req.fileIdx path log ∧ Leads key path log) ∧
    ∀ outside key path m env m', key ∈ m.torrents →
      (((leadReport key path).interpret (onManager outside)).eval performAlone m env).2.1 = m' →
      (∃ mt, m'.torrents.lookup key = some mt ∧ isMarkedBroken mt path = true) ∧
        key ∈ m'.repairQueue := by
  have hnil : Accounted req.fileIdx [] := Accounted.nil
  have hlast : Restarts req.fileIdx (pure (.error .eio)) := fun log h => h
  have hrounds : ∀ key, Restarts req.fileIdx (readRound cfg req key req.fileIdx false
      (readRound cfg req key req.fileIdx true (pure (.error .eio)))) := fun key =>
    readRound_rule cfg req key false (readRound_rule cfg req key true hlast)
  have hfollows : Follows (logging getsUnavailable) [] (read cfg req) (Ends req.fileIdx) := by
    rw [read, readSlot]
    split
    · exact hnil
    · rename_i slot fileIdx hslot
      split at hslot
      · cases hslot
      · cases hslot
        refine follows_plain hnil (fun _ _ => trivial) fun found h => ?_
        cases found with
        | none => exact h
        | some key => exact hrounds key _ h
  have hend : Accounted req.fileIdx log := hfollows.history hread hgets
  refine ⟨hend.refreshes, fun key path => ⟨fun hrep => hend.marked key path hrep.1,
    fun hlead => hend.led key path hlead.2⟩, fun outside key path m env m' hkey hm' => ?_⟩
  rw [← hm', leadReport_onManager]
  exact leadFatalRead_marks key path m env hkey

/-! ## A film that is gone from the CDN -/

open RdRs.Cache (Wait ByteRanges DownloaderArgs)

/-- One worker asks for the ten bytes three times. -/
def threeRefusals : Wait where
  fileSize := 10
  args := ⟨0, 10, 10, 0, 1⟩
  before := ByteRanges.new
  spawned := ⟨0, 10, 10, 0, 1⟩
  own := true
  steps := [.go, .go, .go, .work 0 (.work .pop), .work 0 .send,
    .getFails 0 (.download .fileUnavailable), .work 0 (.work .split), .work 0 .send,
    .getFails 0 (.download .fileUnavailable), .work 0 (.work .split), .work 0 .send,
    .getFails 0 (.download .fileUnavailable), .returns, .go, .go, .go, .go]
  after := ⟨⟨⟨⟨[], 1, 3, ByteRanges.new, []⟩, false, 1, 3, 0⟩, [.at_ (.stopped (0, 10) true)]⟩, 10,
    false, true, .returned .downloadFailed, 0⟩
  outcome := .downloadFailed
  runs := rfl
  ends := rfl

def goneFilm : ManagedTorrent where
  accessKey := "HASH/Film"
  rdIds := ["RD1"]
  torrent := ⟨"RD1", "Film", "HASH", 100, "downloaded", ["https://rd/1"], 0⟩
  info := some ⟨"RD1", 100, 10, ["https://rd/1"], [mkvFile]⟩
  state := .ok
  unrepairableReason := none
  lastRepairedAt := none
  fileStates := none
  underRepairStartedAt := none

/-- The answers around a link that Real-Debrid's API answers with `link`. -/
def goneAnswers (link : Except RdError Download) : (c : ReadCall) → c.Res
  | .inodeToAccessKey _ => some "HASH/Film"
  | .ensureTorrentInfo _ => some goneFilm
  | .waitForRepairOk _ => false
  | .getOrCreate _ _ _ => true
  | .prepareRead _ _ _ _ _ => none
  | .unrestrictLink _ => link
  | .readAt _ _ _ => .waited threeRefusals none
  | .fuseBeginFatalReadRepair _ _ => true
  | .updateTorrentState _ _ _ => true
  | .markFileBroken _ _ => true
  | .subscribeRepairState _ | .dropReceiver _ | .afterFetch _ _ _ _ | .sleep _ => ()
  | .clearUnrestrictCacheForSourceLink _ | .clearUnrestrictCache _ _ | .invalidate _ _ => ()
  | .enqueueRepair _ | .fuseEndFatalReadRepair _ _ => ()

/-- Ten bytes of the first file of the first directory. -/
def goneRead (link : Except RdError Download) : Log × Reply :=
  answered (goneAnswers link) (read ⟨30, 0⟩ ⟨inodeFileBase, 0, 0, 10⟩)

def goodLink : Except RdError Download := .ok ⟨10, "https://host/d/CODE", "token"⟩

def deadLink : Except RdError Download := .error (.api (.other 19 "hoster_unavailable"))

theorem goneRead_history (link : Except RdError Download) :
    History (read ⟨30, 0⟩ ⟨inodeFileBase, 0, 0, 10⟩) (goneRead link).1 (goneRead link).2 :=
  history_answered _ _

theorem goneRead_unavailable (link : Except RdError Download) :
    ∀ e ∈ (goneRead link).1, getsUnavailable e.1 e.2 := by
  intro e he
  rw [mem_answered he]
  cases e.1 with
  | readAt offset size download =>
    show threeRefusals.steps.all Cache.ServeStep.unavailable = true
    decide
  | _ => trivial

/-- A call that was made has its answer. -/
theorem goneRead_asked {link : Except RdError Download} {c : ReadCall}
    (h : c ∈ (goneRead link).1.map Sigma.fst) : ⟨c, goneAnswers link c⟩ ∈ (goneRead link).1 := by
  obtain ⟨e, he, rfl⟩ := List.mem_map.mp h
  rw [← mem_answered he]
  exact he

/-- The CDN has refused every GET and the API has not: the read ends with `EIO`, and nothing is
    reported. -/
theorem gone_film_not_reported :
    History (read ⟨30, 0⟩ ⟨inodeFileBase, 0, 0, 10⟩) (goneRead goodLink).1 (.error .eio) ∧
    (∀ e ∈ (goneRead goodLink).1, getsUnavailable e.1 e.2) ∧
    ⟨.readAt 0 10 ⟨10, "https://host/d/CODE", "token"⟩, .waited threeRefusals none⟩ ∈
      (goneRead goodLink).1 ∧
    ∀ key path, ¬Called (.markFileBroken key path) (goneRead goodLink).1 ∧
      ¬Called (.enqueueRepair key) (goneRead goodLink).1 := by
  have hcalls : (goneRead goodLink).1.map Sigma.fst =
      ([.inodeToAccessKey 3, .ensureTorrentInfo "HASH/Film",
        .getOrCreate "HASH/Film" "film.mkv" 10] : List ReadCall) ++
      [0, 2, 4, 6].flatMap fun secs => (if secs = 0 then [] else [ReadCall.sleep secs]) ++
        ([.unrestrictLink "https://rd/1", .readAt 0 10 ⟨10, "https://host/d/CODE", "token"⟩,
          .clearUnrestrictCache "token" "https://rd/1"] : List ReadCall) := by
    decide
  have hno : ∀ c, c ∉ (goneRead goodLink).1.map Sigma.fst → ¬Called c (goneRead goodLink).1 := by
    rintro c hc ⟨r, hr⟩
    exact hc (List.mem_map_of_mem hr)
  have hasked : ⟨.readAt 0 10 ⟨10, "https://host/d/CODE", "token"⟩, .waited threeRefusals none⟩ ∈
      (goneRead goodLink).1 := goneRead_asked (by rw [hcalls]; simp)
  rw [hcalls] at hno
  have hreply : (goneRead goodLink).2 = .error .eio := rfl
  have hhistory := goneRead_history goodLink
  rw [hreply] at hhistory
  have hmarks : ∀ key path, ¬Called (.markFileBroken key path) (goneRead goodLink).1 :=
    fun key path => hno _ (by simp)
  have hqueues : ∀ key, ¬Called (.enqueueRepair key) (goneRead goodLink).1 :=
    fun key => hno _ (by simp)
  exact ⟨hhistory, goneRead_unavailable goodLink, hasked,
    fun key path => ⟨hmarks key path, hqueues key⟩⟩

/-- With a good link no refresh is spent; with a dead one the film is reported. -/
theorem unavailable_reported_iff_goneFilm :
    (∀ offset size download fetch, ⟨.readAt offset size download, fetch⟩ ∈ (goneRead goodLink).1 →
      fetch.refreshes = 0) ∧
    Reported "HASH/Film" "/Film/film.mkv" (goneRead deadLink).1 := by
  have hgood := unavailable_reported_iff ⟨30, 0⟩ ⟨inodeFileBase, 0, 0, 10⟩ (goneRead goodLink).1
    (goneRead goodLink).2 (goneRead_history goodLink) (goneRead_unavailable goodLink)
  have hdead := unavailable_reported_iff ⟨30, 0⟩ ⟨inodeFileBase, 0, 0, 10⟩ (goneRead deadLink).1
    (goneRead deadLink).2 (goneRead_history deadLink) (goneRead_unavailable deadLink)
  refine ⟨hgood.1, (hdead.2.1 "HASH/Film" "/Film/film.mkv").mpr ⟨?_, ?_⟩⟩
  · exact ⟨goneFilm, mkvFile, "https://rd/1", deadLink, List.mem_of_getElem? (i := 1) rfl, rfl, rfl,
      List.mem_of_getElem? (i := 3) rfl, rfl⟩
  · exact List.mem_of_getElem? (i := 6) rfl

end RdRs.Fuse

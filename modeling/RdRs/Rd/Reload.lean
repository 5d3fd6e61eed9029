/-
  Hot reload: `Config::watch`, the task of `main.rs` that follows it, `reload_credentials` and
  `reload_config`.

  A change of `config.toml` makes an event; the watcher's thread takes the events one by one, waits
  500 ms and reads the file, and what can be loaded it sends on a `watch` channel, which keeps the
  latest value only.  The task waits for a change, sleeps 30 s, takes the value there is then, and
  puts it in place one store after the other: the credentials, the tokens of the pool and their index,
  the client's configuration, and last its own; in between it drops the unrestrict cache, if the
  tokens are others.  Meanwhile the pool is used and links are unrestricted.  The two waits only
  leave room for other steps, so they have no length here.

  1. **Safety** — `reload_safe`: whatever is in place at any time has been loaded and validated, the
     pool has the tokens of the credentials but between their two stores, and no row of the cache is
     older than the tokens but until it is dropped.
  2. **Completion and convergence** — `reload_settles`: left alone, the parties come to rest after a
     bounded number of steps, in whatever order, and then everything in place is one configuration:
     the one in the file, if that can be loaded.  The one exception is a file that was written after
     startup had read it and before the watcher was there, and not since.

  The arguments: what a step does is said once (`Worked`, `Happened`); each store counts what is in
  place (`Live.source`); and `Live.left` is what the parties have to do, at most.
-/
import RdRs.Config
import RdRs.Lib.Runs
import RdRs.Rd.Rotation
import RdRs.Rd.Unrestrict

set_option linter.unusedVariables false

namespace RdRs.Rd.Reload

open RdRs.Runs

/-! ## The parties -/

/-- A configuration with its download tokens. -/
structure LiveConfig extends RdRs.Config where
  downloadTokens : List String

/-- `Config::load`, from what parsing the file gives. -/
def load (parsed : Except String LiveConfig) : Except String LiveConfig :=
  match parsed with
  | .error e => .error e
  | .ok cfg =>
    match cfg.validate with
    | .error e => .error e
    | .ok () => .ok cfg

/-- `Config::all_download_tokens`, as a pool is made of it -/
def LiveConfig.tokenList (cfg : LiveConfig) : TokenList where
  tokens := allDownloadTokens cfg.token cfg.downloadTokens
  nonempty := (allDownloadTokens_wf _ _).1
  nodup := (allDownloadTokens_wf _ _).2

/-- `Credentials` -/
structure Credentials where
  token : String
  downloadTokens : List String
deriving DecidableEq

/-- The credentials of a configuration. -/
def LiveConfig.credentials (cfg : LiveConfig) : Credentials :=
  ⟨cfg.token, allDownloadTokens cfg.token cfg.downloadTokens⟩

/-- `tokens_changed` -/
def tokensChanged (old updated : LiveConfig) : Bool :=
  decide (old.token ≠ updated.token) || decide (old.downloadTokens ≠ updated.downloadTokens)

/-- What the task does next with the configuration it has taken. -/
inductive Next where
  /-- `credentials.store` -/
  | credentials
  /-- `update_tokens`: the tokens and their flags -/
  | poolTokens
  /-- `update_tokens`: the index -/
  | poolIndex
  /-- `reload_config` -/
  | clientConfig
  /-- `clear_unrestrict_cache_all`, if the tokens have changed -/
  | clearCache
  /-- `config_clone.store` -/
  | config
deriving DecidableEq

/-- The task that follows the watcher. -/
inductive Task where
  /-- `rx.changed()` -/
  | waiting
  /-- the debounce -/
  | sleeping
  | updating (updated : LiveConfig) (changed : Bool) (next : Next)

/-- Everything a reload touches. -/
structure Live where
  now : Nat
  /-- what parsing the file gives -/
  file : Except String LiveConfig
  /-- events the watcher has not taken -/
  events : Nat
  /-- it has taken one and has not read the file yet -/
  reading : Bool
  /-- the value of the channel, and how often it was sent -/
  sent : LiveConfig
  version : Nat
  /-- the version the task has seen -/
  seen : Nat
  task : Task
  credentials : Credentials
  pool : PoolState
  clientConfig : LiveConfig
  config : LiveConfig
  unrestrictCache : UnrestrictCache
  /-- what the watcher has read last, and when the tokens were last changed; kept for the statements -/
  lastRead : Except String LiveConfig
  changedAt : Nat

/-- `run_fuse_mount` has loaded a configuration, and `watch` has loaded another, from what the file is
    by then. -/
def Live.start (cfg : LiveConfig) (parsed : Except String LiveConfig) (initial : LiveConfig) :
    Live where
  now := 0
  file := parsed
  events := 0
  reading := false
  sent := initial
  version := 0
  seen := 0
  task := .waiting
  credentials := cfg.credentials
  pool := .ofTokens cfg.tokenList
  clientConfig := cfg
  config := cfg
  unrestrictCache := .empty
  lastRead := parsed
  changedAt := 0

/-- A step of the watcher or the task. -/
inductive Step where
  /-- the watcher takes an event -/
  | handle
  /-- it reads the file -/
  | read
  /-- `changed()` returns -/
  | wake
  /-- the sleep is over and the value is taken -/
  | take
  /-- the next store -/
  | next
deriving DecidableEq

/-- What happens around them. -/
inductive Outside where
  | tick (nanos : Nat)
  /-- the file is written, with one event at least -/
  | write (parsed : Except String LiveConfig) (more : Nat)
  /-- the pool is used, with anything but `update_tokens` -/
  | pool (op : PoolOp)
  /-- an unrestricted link is stored -/
  | insert (link : String) (d : Download)

/-- One store of the task. -/
def Live.store (s : Live) (updated : LiveConfig) (changed : Bool) : Next → Live
  | .credentials => { s with
      credentials := updated.credentials
      changedAt := if changed then s.now else s.changedAt
      task := .updating updated changed .poolTokens }
  | .poolTokens => { s with
      pool := { PoolState.ofTokens updated.tokenList with current := s.pool.current }
      task := .updating updated changed .poolIndex }
  | .poolIndex => { s with
      pool := { s.pool with current := 0 }
      task := .updating updated changed .clientConfig }
  | .clientConfig => { s with
      clientConfig := updated
      task := .updating updated changed .clearCache }
  | .clearCache => { s with
      unrestrictCache := if changed then .empty else s.unrestrictCache
      task := .updating updated changed .config }
  | .config => { s with config := updated, task := .waiting }

/-- A step of the watcher or the task. -/
def Live.work (s : Live) : Step → Option Live
  | .handle =>
    if 0 < s.events ∧ s.reading = false then some { s with events := s.events - 1, reading := true }
    else none
  | .read =>
    if s.reading then
      match load s.file with
      | .ok cfg =>
        some { s with reading := false, lastRead := s.file, sent := cfg, version := s.version + 1 }
      | .error _ => some { s with reading := false, lastRead := s.file }
    else none
  | .wake =>
    match s.task with
    | .waiting =>
      if s.version ≠ s.seen then some { s with seen := s.version, task := .sleeping } else none
    | _ => none
  | .take =>
    match s.task with
    | .sleeping => some { s with
        seen := s.version
        task := .updating s.sent (tokensChanged s.config s.sent) .credentials }
    | _ => none
  | .next =>
    match s.task with
    | .updating updated changed next => some (s.store updated changed next)
    | _ => none

/-- What happens around them. -/
def Live.around (s : Live) : Outside → Option Live
  | .tick nanos => some { s with now := s.now + nanos }
  | .write parsed more => some { s with file := parsed, events := s.events + 1 + more }
  | .pool (.updateTokens _) => none
  | .pool op => (poolStep s.pool op).map fun pool => { s with pool := pool }
  | .insert link d => some { s with unrestrictCache := s.unrestrictCache.insert link d s.now }

/-- Anything that happens. -/
def Live.step (s : Live) : Step ⊕ Outside → Option Live
  | .inl e => s.work e
  | .inr e => s.around e

/-! ## What a step does -/

/-- What the watcher and the task can do. -/
inductive Worked (s : Live) : Live → Prop where
  | handle : 0 < s.events → s.reading = false →
      Worked s { s with events := s.events - 1, reading := true }
  | loaded (cfg : LiveConfig) : s.reading = true → load s.file = .ok cfg →
      Worked s { s with reading := false, lastRead := s.file, sent := cfg, version := s.version + 1 }
  | kept (e : String) : s.reading = true → load s.file = .error e →
      Worked s { s with reading := false, lastRead := s.file }
  | wake : s.task = .waiting → s.version ≠ s.seen →
      Worked s { s with seen := s.version, task := .sleeping }
  | take : s.task = .sleeping → Worked s { s with
      seen := s.version
      task := .updating s.sent (tokensChanged s.config s.sent) .credentials }
  | next (updated : LiveConfig) (changed : Bool) (next : Next) :
      s.task = .updating updated changed next → Worked s (s.store updated changed next)

/-- What can happen around them. -/
inductive Happened (s : Live) : Live → Prop where
  | tick (nanos : Nat) : Happened s { s with now := s.now + nanos }
  | write (parsed : Except String LiveConfig) (more : Nat) :
      Happened s { s with file := parsed, events := s.events + 1 + more }
  | pool (op : PoolOp) (pool : PoolState) : (∀ ts, op ≠ .updateTokens ts) →
      poolStep s.pool op = some pool → Happened s { s with pool := pool }
  | insert (link : String) (d : Download) :
      Happened s { s with unrestrictCache := s.unrestrictCache.insert link d s.now }

section

variable {s t : Live}

/-- **What a step of the two parties can do.** -/
theorem work_cases {e : Step} (h : s.work e = some t) : Worked s t := by
  cases e with
  | handle =>
    rw [Live.work] at h
    split at h
    · rename_i hready
      exact Option.some.inj h ▸ .handle hready.1 hready.2
    · cases h
  | read =>
    rw [Live.work] at h
    split at h
    · rename_i hreading
      split at h
      · rename_i cfg hload
        exact Option.some.inj h ▸ .loaded cfg hreading hload
      · rename_i e hload
        exact Option.some.inj h ▸ .kept e hreading hload
    · cases h
  | wake =>
    rw [Live.work] at h
    split at h
    · rename_i htask
      split at h
      · rename_i hnew
        exact Option.some.inj h ▸ .wake htask hnew
      · cases h
    · cases h
  | take =>
    rw [Live.work] at h
    split at h
    · rename_i htask
      exact Option.some.inj h ▸ .take htask
    · cases h
  | next =>
    rw [Live.work] at h
    split at h
    · rename_i updated changed next htask
      exact Option.some.inj h ▸ .next updated changed next htask
    · cases h

/-- **What can happen around them.** -/
theorem around_cases {e : Outside} (h : s.around e = some t) : Happened s t := by
  cases e with
  | tick nanos => exact Option.some.inj h ▸ .tick nanos
  | write parsed more => exact Option.some.inj h ▸ .write parsed more
  | insert link d => exact Option.some.inj h ▸ .insert link d
  | pool op =>
    have hpool : ∀ op, (∀ ts, op ≠ .updateTokens ts) →
        ((poolStep s.pool op).map fun pool => { s with pool := pool }) = some t → Happened s t := by
      intro op hop hmap
      obtain ⟨pool, hstep, rfl⟩ := Option.map_eq_some_iff.mp hmap
      exact .pool op pool hop hstep
    cases op with
    | updateTokens ts => cases h
    | downloadBearer => exact hpool .downloadBearer (fun ts => PoolOp.noConfusion) h
    | rotate => exact hpool .rotate (fun ts => PoolOp.noConfusion) h
    | markExhausted token => exact hpool (.markExhausted token) (fun ts => PoolOp.noConfusion) h
    | clearAllExhausted => exact hpool .clearAllExhausted (fun ts => PoolOp.noConfusion) h

/-- Only `update_tokens` changes the tokens. -/
theorem poolStep_tokens {p p' : PoolState} {op : PoolOp} (hp : p.Wf) (hop : ∀ ts, op ≠ .updateTokens ts)
    (h : poolStep p op = some p') : p'.tokens = p.tokens := by
  cases op with
  | downloadBearer =>
    obtain ⟨token, q, hq, htokens, -⟩ := PoolState.downloadBearer_spec hp
    rw [poolStep, hq] at h
    exact Option.some.inj h ▸ htokens
  | rotate =>
    obtain rfl := Option.some.inj h
    rw [PoolState.rotate]
    split <;> rfl
  | markExhausted token =>
    rw [poolStep, PoolState.markExhausted] at h
    split at h
    · split at h
      · exact Option.some.inj h ▸ rfl
      · cases h
    · exact Option.some.inj h ▸ rfl
  | clearAllExhausted => exact Option.some.inj h ▸ rfl
  | updateTokens ts => exact absurd rfl (hop ts)

theorem load_valid {parsed : Except String LiveConfig} {cfg : LiveConfig} (h : load parsed = .ok cfg) :
    cfg.validate = .ok () := by
  cases parsed with
  | error e => cases h
  | ok parsed =>
    rw [load] at h
    split at h
    · cases h
    · rename_i hvalid
      exact Except.ok.inj h ▸ hvalid

end

/-! ## What is in place -/

/-- How many stores are done. -/
def Next.stored : Next → Nat
  | .credentials => 0
  | .poolTokens => 1
  | .poolIndex => 2
  | .clientConfig => 3
  | .clearCache => 4
  | .config => 5

/-- The configuration that the store with this number has put in place. -/
def Live.source (s : Live) (k : Nat) : LiveConfig :=
  match s.task with
  | .updating updated _ next => if k < next.stored then updated else s.config
  | _ => s.config

/-- The rows of the unrestrict cache have not been dropped yet. -/
def Live.Clearing (s : Live) : Prop :=
  ∃ updated next, s.task = .updating updated true next ∧ 0 < next.stored ∧ next.stored < 5

/-- Everything is loaded and validated. -/
structure Validated (s : Live) : Prop where
  config : s.config.validate = .ok ()
  clientConfig : s.clientConfig.validate = .ok ()
  sent : s.sent.validate = .ok ()
  updated : ∀ updated changed next, s.task = .updating updated changed next →
    updated.validate = .ok ()

/-- **Each store has its configuration in place**: the one before or the one that is put there. -/
structure InPlace (s : Live) : Prop where
  credentials : s.credentials = (s.source 0).credentials
  tokens : s.pool.tokens = (s.source 1).tokenList.tokens
  clientConfig : s.clientConfig = s.source 3
  changed : ∀ updated changed next, s.task = .updating updated changed next →
    changed = tokensChanged s.config updated
  rows : ∀ key d since, s.unrestrictCache.rows.lookup key = some (d, since) →
    s.changedAt ≤ since ∨ s.Clearing
  past : s.changedAt ≤ s.now

/-- **What the watcher and the task have seen**, of a file that was another at startup. -/
structure Following (first : LiveConfig) (s : Live) : Prop where
  read : 0 < s.events ∨ s.reading = true ∨ s.lastRead = s.file
  sent : ∀ cfg, load s.lastRead = .ok cfg → s.sent = cfg
  seen : s.seen ≤ s.version
  first : s.version = 0 → s.task = .waiting ∧ s.config = first
  waiting : s.task = .waiting → s.version = s.seen → 0 < s.version → s.config = s.sent
  updating : ∀ updated changed next, s.task = .updating updated changed next →
    s.version = s.seen → updated = s.sent

section

variable {s t : Live} {first : LiveConfig}

theorem Validated.work (h : Validated s) (hw : Worked s t) : Validated t := by
  cases hw with
  | handle => exact ⟨h.config, h.clientConfig, h.sent, h.updated⟩
  | loaded cfg _ hload => exact ⟨h.config, h.clientConfig, load_valid hload, h.updated⟩
  | kept => exact ⟨h.config, h.clientConfig, h.sent, h.updated⟩
  | wake => exact ⟨h.config, h.clientConfig, h.sent, fun _ _ _ htask => Task.noConfusion htask⟩
  | take =>
    refine ⟨h.config, h.clientConfig, h.sent, fun updated changed next htask => ?_⟩
    injection htask with hupdated
    exact hupdated ▸ h.sent
  | next updated changed next htask =>
    have hvalid := h.updated updated changed next htask
    have hsame : ∀ (next : Next) (u : LiveConfig) (c : Bool) (n : Next),
        Task.updating updated changed next = .updating u c n → u.validate = .ok () := by
      intro next u c n heq
      injection heq with hupdated
      exact hupdated ▸ hvalid
    cases next with
    | credentials => exact ⟨h.config, h.clientConfig, h.sent, hsame _⟩
    | poolTokens => exact ⟨h.config, h.clientConfig, h.sent, hsame _⟩
    | poolIndex => exact ⟨h.config, h.clientConfig, h.sent, hsame _⟩
    | clientConfig => exact ⟨h.config, hvalid, h.sent, hsame _⟩
    | clearCache => exact ⟨h.config, h.clientConfig, h.sent, hsame _⟩
    | config => exact ⟨hvalid, h.clientConfig, h.sent, fun _ _ _ htask => Task.noConfusion htask⟩

theorem Validated.around (h : Validated s) (hw : Happened s t) : Validated t := by
  cases hw <;> exact ⟨h.config, h.clientConfig, h.sent, h.updated⟩

theorem source_updating {updated : LiveConfig} {changed : Bool} {next : Next}
    (h : s.task = .updating updated changed next) (k : Nat) :
    s.source k = if k < next.stored then updated else s.config := by
  rw [Live.source, h]

theorem source_idle (h : s.task = .waiting ∨ s.task = .sleeping) (k : Nat) : s.source k = s.config := by
  rcases h with h | h <;> rw [Live.source, h]

/-- The first two stores are apart only between them. -/
theorem source_next (s : Live) : s.source 1 = s.source 0 ∨
    ∃ updated changed, s.task = .updating updated changed .poolTokens := by
  cases htask : s.task with
  | waiting => exact Or.inl (by rw [source_idle (Or.inl htask), source_idle (Or.inl htask)])
  | sleeping => exact Or.inl (by rw [source_idle (Or.inr htask), source_idle (Or.inr htask)])
  | updating updated changed next =>
    rw [source_updating htask, source_updating htask]
    cases next with
    | poolTokens => exact Or.inr ⟨updated, changed, rfl⟩
    | _ => exact Or.inl rfl

theorem Validated.source (h : Validated s) (k : Nat) : (s.source k).validate = .ok () := by
  cases htask : s.task with
  | waiting => exact source_idle (Or.inl htask) k ▸ h.config
  | sleeping => exact source_idle (Or.inr htask) k ▸ h.config
  | updating updated changed next =>
    rw [source_updating htask]
    split
    · exact h.updated updated changed next htask
    · exact h.config

theorem token_of_valid {cfg : LiveConfig} (h : cfg.validate = .ok ()) : cfg.token ≠ "" := by
  intro htoken
  rw [Config.validate, if_pos htoken] at h
  cases h

/-- Between two updates there is nothing to drop. -/
theorem InPlace.rows_idle (h : InPlace s) (hidle : s.task = .waiting ∨ s.task = .sleeping)
    {key : String × String} {d : Download} {since : Nat}
    (hrow : s.unrestrictCache.rows.lookup key = some (d, since)) : s.changedAt ≤ since := by
  rcases h.rows key d since hrow with hold | ⟨updated, next, htask, -⟩
  · exact hold
  · rcases hidle with hidle | hidle <;> rw [hidle] at htask <;> cases htask

/-- The pool is a pool. -/
theorem pool_work (h : s.pool.Wf) (hw : Worked s t) : t.pool.Wf := by
  cases hw with
  | next updated changed next htask =>
    cases next with
    | poolTokens =>
      have hnew := PoolState.ofTokens_wf updated.tokenList
      exact ⟨hnew.nonempty, hnew.nodup, hnew.lengths⟩
    | poolIndex => exact ⟨h.nonempty, h.nodup, h.lengths⟩
    | _ => exact h
  | _ => exact h

theorem pool_around (h : s.pool.Wf) (hw : Happened s t) : t.pool.Wf := by
  cases hw with
  | pool op pool hop hstep =>
    obtain ⟨p', hp', hwf⟩ := PoolState.step_wf h op
    exact Option.some.inj (hstep.symm.trans hp') ▸ hwf
  | _ => exact h

/-- **A store puts its part in place**, and leaves the others. -/
theorem InPlace.store (h : InPlace s) {updated : LiveConfig} {changed : Bool} {next : Next}
    (htask : s.task = .updating updated changed next) : InPlace (s.store updated changed next) := by
  have hcredentials := h.credentials
  have htokens := h.tokens
  have hclient := h.clientConfig
  have hchanged := h.changed updated changed next htask
  rw [source_updating htask] at hcredentials htokens hclient
  have hsame : ∀ (next : Next) (u : LiveConfig) (c : Bool) (n : Next),
      Task.updating updated changed next = .updating u c n → c = tokensChanged s.config u := by
    intro next u c n heq
    injection heq with hupdated hc
    rw [← hupdated, ← hc, hchanged]
  -- what the rows have to wait for
  have hrows : ∀ key d since, s.unrestrictCache.rows.lookup key = some (d, since) →
      s.changedAt ≤ since ∨ changed = true ∧ 0 < next.stored ∧ next.stored < 5 := by
    intro key d since hrow
    refine (h.rows key d since hrow).imp_right ?_
    rintro ⟨u, n, hn, hpos, hlt⟩
    rw [htask] at hn
    injection hn with _ hc hnext
    exact ⟨hc, hnext ▸ hpos, hnext ▸ hlt⟩
  have hclearing : ∀ (next : Next), 0 < next.stored → next.stored < 5 → ∀ {v : Live},
      v.task = .updating updated changed next → changed = true → v.Clearing := by
    intro next hpos hlt v hv hc
    exact ⟨updated, next, hc ▸ hv, hpos, hlt⟩
  cases next with
  | credentials =>
    refine ⟨rfl, htokens, hclient, hsame _, fun key d since hrow => ?_, ?_⟩
    · show (if changed then s.now else s.changedAt) ≤ since ∨ _
      cases hc : changed with
      | true => exact Or.inr ⟨updated, .poolTokens, hc ▸ rfl, by decide, by decide⟩
      | false =>
        rcases hrows key d since hrow with hold | ⟨-, hpos, -⟩
        · exact Or.inl hold
        · exact absurd hpos (by decide)
    · show (if changed then s.now else s.changedAt) ≤ s.now
      split
      · exact Nat.le_refl _
      · exact h.past
  | poolTokens =>
    exact ⟨hcredentials, rfl, hclient, hsame _, fun key d since hrow =>
      (hrows key d since hrow).imp_right fun hc =>
        hclearing .poolIndex (by decide) (by decide) rfl hc.1, h.past⟩
  | poolIndex =>
    exact ⟨hcredentials, htokens, hclient, hsame _, fun key d since hrow =>
      (hrows key d since hrow).imp_right fun hc =>
        hclearing .clientConfig (by decide) (by decide) rfl hc.1, h.past⟩
  | clientConfig =>
    exact ⟨hcredentials, htokens, rfl, hsame _, fun key d since hrow =>
      (hrows key d since hrow).imp_right fun hc =>
        hclearing .clearCache (by decide) (by decide) rfl hc.1, h.past⟩
  | clearCache =>
    refine ⟨hcredentials, htokens, hclient, hsame _, fun key d since hrow => Or.inl ?_, h.past⟩
    have hrow : (if changed then UnrestrictCache.empty else s.unrestrictCache).rows.lookup key =
        some (d, since) := hrow
    cases hc : changed with
    | true =>
      rw [hc, if_pos rfl] at hrow
      exact absurd hrow (by simp [UnrestrictCache.empty])
    | false =>
      rw [hc, if_neg Bool.false_ne_true] at hrow
      rcases hrows key d since hrow with hold | ⟨htrue, -⟩
      · exact hold
      · exact absurd (hc.symm.trans htrue) Bool.false_ne_true
  | config =>
    refine ⟨hcredentials, htokens, hclient, fun _ _ _ htask => Task.noConfusion htask,
      fun key d since hrow => Or.inl ?_, h.past⟩
    rcases hrows key d since hrow with hold | ⟨-, -, hlt⟩
    · exact hold
    · exact absurd hlt (by decide)

theorem InPlace.work (h : InPlace s) (hw : Worked s t) : InPlace t := by
  cases hw with
  | handle => exact ⟨h.credentials, h.tokens, h.clientConfig, h.changed, h.rows, h.past⟩
  | loaded => exact ⟨h.credentials, h.tokens, h.clientConfig, h.changed, h.rows, h.past⟩
  | kept => exact ⟨h.credentials, h.tokens, h.clientConfig, h.changed, h.rows, h.past⟩
  | wake htask =>
    have hidle := source_idle (Or.inl htask)
    exact ⟨hidle 0 ▸ h.credentials, hidle 1 ▸ h.tokens, hidle 3 ▸ h.clientConfig,
      fun _ _ _ heq => Task.noConfusion heq, fun _ _ _ hrow => Or.inl (h.rows_idle (Or.inl htask) hrow),
      h.past⟩
  | take htask =>
    have hidle := source_idle (Or.inr htask)
    refine ⟨hidle 0 ▸ h.credentials, hidle 1 ▸ h.tokens, hidle 3 ▸ h.clientConfig, ?_,
      fun _ _ _ hrow => Or.inl (h.rows_idle (Or.inr htask) hrow), h.past⟩
    intro updated changed next heq
    injection heq with hupdated hchanged
    rw [← hupdated, ← hchanged]
  | next updated changed next htask => exact h.store htask

theorem InPlace.around (h : InPlace s) (hpool : s.pool.Wf) (hw : Happened s t) : InPlace t := by
  cases hw with
  | tick nanos =>
    exact ⟨h.credentials, h.tokens, h.clientConfig, h.changed, h.rows,
      h.past.trans (Nat.le_add_right _ _)⟩
  | write parsed more => exact ⟨h.credentials, h.tokens, h.clientConfig, h.changed, h.rows, h.past⟩
  | pool op pool hop hstep =>
    exact ⟨h.credentials, (poolStep_tokens hpool hop hstep).trans h.tokens, h.clientConfig, h.changed,
      h.rows, h.past⟩
  | insert link d =>
    refine ⟨h.credentials, h.tokens, h.clientConfig, h.changed, fun key d' since hrow => ?_, h.past⟩
    have hrow : (s.unrestrictCache.rows.insert (d.token, link) (d, s.now)).lookup key =
        some (d', since) := hrow
    by_cases hkey : key = (d.token, link)
    · rw [hkey, AList.lookup_insert] at hrow
      injection hrow with hrow
      injection hrow with _ hsince
      exact Or.inl (hsince ▸ h.past)
    · rw [AList.lookup_insert_ne hkey] at hrow
      exact h.rows key d' since hrow

/-- What no store touches. -/
structure Aside (s t : Live) : Prop where
  file : t.file = s.file
  events : t.events = s.events
  reading : t.reading = s.reading
  sent : t.sent = s.sent
  version : t.version = s.version
  seen : t.seen = s.seen
  lastRead : t.lastRead = s.lastRead

theorem store_aside (s : Live) (updated : LiveConfig) (changed : Bool) (next : Next) :
    Aside s (s.store updated changed next) := by
  cases next <;> exact ⟨rfl, rfl, rfl, rfl, rfl, rfl, rfl⟩

/-- A store is followed by the next, and the last one by the end of the update. -/
theorem store_task (s : Live) (updated : LiveConfig) (changed : Bool) (next : Next) :
    (∃ n, (s.store updated changed next).task = .updating updated changed n ∧
      n.stored = next.stored + 1) ∨
    (s.store updated changed next).task = .waiting ∧ (s.store updated changed next).config = updated ∧
      next.stored = 5 := by
  cases next with
  | config => exact Or.inr ⟨rfl, rfl, rfl⟩
  | credentials => exact Or.inl ⟨.poolTokens, rfl, rfl⟩
  | poolTokens => exact Or.inl ⟨.poolIndex, rfl, rfl⟩
  | poolIndex => exact Or.inl ⟨.clientConfig, rfl, rfl⟩
  | clientConfig => exact Or.inl ⟨.clearCache, rfl, rfl⟩
  | clearCache => exact Or.inl ⟨.config, rfl, rfl⟩

/-- The file has been read. -/
theorem Following.loaded (h : Following first s) {cfg : LiveConfig} (hload : load s.file = .ok cfg) :
    Following first
      { s with reading := false, lastRead := s.file, sent := cfg, version := s.version + 1 } := by
  have hseen := h.seen
  refine ⟨Or.inr (Or.inr rfl), fun cfg' hload' => ?_, Nat.le_succ_of_le h.seen,
    fun hzero => absurd hzero (Nat.succ_ne_zero _), fun _ hsame => ?_, fun _ _ _ _ hsame => ?_⟩
  · exact Except.ok.inj (hload.symm.trans hload')
  · have hsame : s.version + 1 = s.seen := hsame
    omega
  · have hsame : s.version + 1 = s.seen := hsame
    omega

/-- A store has been done. -/
theorem Following.store (h : Following first s) {updated : LiveConfig} {changed : Bool} {next : Next}
    (htask : s.task = .updating updated changed next) :
    Following first (s.store updated changed next) := by
  have ha := store_aside s updated changed next
  have hpos : s.version ≠ 0 := fun hzero => by
    rw [(h.first hzero).1] at htask
    cases htask
  refine ⟨?_, ?_, ?_, ?_, fun hwaiting hsame _ => ?_, fun u c n hu hsame => ?_⟩
  · rw [ha.events, ha.reading, ha.lastRead, ha.file]
    exact h.read
  · rw [ha.lastRead, ha.sent]
    exact h.sent
  · rw [ha.seen, ha.version]
    exact h.seen
  · rw [ha.version]
    exact fun hzero => absurd hzero hpos
  · rw [ha.version, ha.seen] at hsame
    rw [ha.sent]
    rcases store_task s updated changed next with ⟨n, hn, -⟩ | ⟨-, hconfig, -⟩
    · rw [hn] at hwaiting
      cases hwaiting
    · rw [hconfig]
      exact h.updating updated changed next htask hsame
  · rw [ha.version, ha.seen] at hsame
    rw [ha.sent]
    rcases store_task s updated changed next with ⟨n, hn, -⟩ | ⟨hdone, -⟩
    · rw [hn] at hu
      injection hu with hupdated
      exact hupdated ▸ h.updating updated changed next htask hsame
    · rw [hdone] at hu
      cases hu

theorem Following.work (h : Following first s) (hw : Worked s t) : Following first t := by
  cases hw with
  | handle =>
    exact ⟨Or.inr (Or.inl rfl), h.sent, h.seen, h.first, h.waiting, h.updating⟩
  | loaded cfg _ hload => exact h.loaded hload
  | kept e _ hload =>
    refine ⟨Or.inr (Or.inr rfl), fun cfg hcfg => ?_, h.seen, h.first, h.waiting, h.updating⟩
    have hcfg : load s.file = .ok cfg := hcfg
    rw [hload] at hcfg
    cases hcfg
  | wake htask hnew =>
    have hseen := h.seen
    refine ⟨h.read, h.sent, Nat.le_refl _, fun hzero => ?_, fun heq => Task.noConfusion heq,
      fun _ _ _ heq => Task.noConfusion heq⟩
    have hzero : s.version = 0 := hzero
    omega
  | take htask =>
    refine ⟨h.read, h.sent, Nat.le_refl _, fun hzero => ?_, fun heq => Task.noConfusion heq,
      fun updated changed next heq _ => ?_⟩
    · have hwaiting := (h.first hzero).1
      rw [htask] at hwaiting
      cases hwaiting
    · injection heq with hupdated
      exact hupdated.symm
  | next updated changed next htask => exact h.store htask

theorem Following.around (h : Following first s) (hw : Happened s t) : Following first t := by
  cases hw with
  | write parsed more =>
    exact ⟨Or.inl (show 0 < s.events + 1 + more by omega), h.sent, h.seen, h.first, h.waiting, h.updating⟩
  | _ => exact ⟨h.read, h.sent, h.seen, h.first, h.waiting, h.updating⟩

end

/-! ## Runs -/

/-- What holds in every state. -/
structure Sound (first : LiveConfig) (s : Live) : Prop where
  validated : Validated s
  pool : s.pool.Wf
  inPlace : InPlace s
  following : Following first s

/-- The stores that are left. -/
def Task.left : Task → Nat
  | .waiting => 0
  | .sleeping => 7
  | .updating _ _ next => 6 - next.stored

/-- How many steps the two parties have to do, at most: an event is taken and read, what is read wakes
    the task, and what it takes is put in place. -/
def Live.left (s : Live) : Nat :=
  10 * s.events + (if s.reading then 9 else 0) + (if s.version = s.seen then 0 else 8) + s.task.left

/-- Nothing is left to do. -/
structure Resting (s : Live) : Prop where
  events : s.events = 0
  reading : s.reading = false
  task : s.task = .waiting
  seen : s.version = s.seen

section

variable {s t : Live} {first : LiveConfig}

/-- **Every step keeps what holds.** -/
theorem step_sound {e : Step ⊕ Outside} (h : Sound first s) (hs : s.step e = some t) : Sound first t := by
  cases e with
  | inl e =>
    have hw := work_cases hs
    exact ⟨h.validated.work hw, pool_work h.pool hw, h.inPlace.work hw, h.following.work hw⟩
  | inr e =>
    have hw := around_cases hs
    exact ⟨h.validated.around hw, pool_around h.pool hw, h.inPlace.around h.pool hw,
      h.following.around hw⟩

theorem start_sound {parsed : Except String LiveConfig} {initial : LiveConfig}
    (hfirst : first.validate = .ok ()) (hload : load parsed = .ok initial) :
    Sound first (.start first parsed initial) where
  validated := ⟨hfirst, hfirst, load_valid hload, fun _ _ _ heq => Task.noConfusion heq⟩
  pool := PoolState.ofTokens_wf first.tokenList
  inPlace := ⟨rfl, rfl, rfl, fun _ _ _ heq => Task.noConfusion heq,
    fun key d since hrow => absurd hrow (by simp [Live.start, UnrestrictCache.empty]), Nat.le_refl _⟩
  following := ⟨Or.inr (Or.inr rfl), fun cfg hcfg => Except.ok.inj (hload.symm.trans hcfg), Nat.le_refl _,
    fun _ => ⟨rfl, rfl⟩, fun _ _ hpos => absurd hpos (Nat.lt_irrefl 0),
    fun _ _ _ heq => Task.noConfusion heq⟩

/-- **Every run keeps what holds.** -/
theorem run_sound {parsed : Except String LiveConfig} {initial : LiveConfig} {es : List (Step ⊕ Outside)}
    (hfirst : first.validate = .ok ()) (hload : load parsed = .ok initial)
    (hr : run Live.step (.start first parsed initial) es = some s) : Sound first s :=
  run_inv' (fun _ _ _ h hs => step_sound h hs) es _ s (start_sound hfirst hload) hr

/-- One configuration is in place everywhere: that of the file, if the file has been read since the
    watcher is there or startup has read the same. -/
structure Settled (first : LiveConfig) (s : Live) : Prop where
  clientConfig : s.clientConfig = s.config
  credentials : s.credentials = s.config.credentials
  tokens : s.pool.tokens = s.config.tokenList.tokens
  rows : ∀ key d since, s.unrestrictCache.rows.lookup key = some (d, since) → s.changedAt ≤ since
  file : ∀ cfg, load s.file = .ok cfg → (s.config = cfg ↔ 0 < s.version ∨ first = cfg)

theorem Resting.settled (h : Resting s) (hs : Sound first s) : Settled first s := by
  have hidle : s.task = .waiting ∨ s.task = .sleeping := Or.inl h.task
  have hsource := source_idle hidle
  refine ⟨hsource 3 ▸ hs.inPlace.clientConfig, hsource 0 ▸ hs.inPlace.credentials,
    hsource 1 ▸ hs.inPlace.tokens, fun _ _ _ hrow => hs.inPlace.rows_idle hidle hrow, fun cfg hload => ?_⟩
  have hread : s.lastRead = s.file := by
    rcases hs.following.read with hevents | hreading | hread
    · rw [h.events] at hevents
      exact absurd hevents (Nat.lt_irrefl 0)
    · rw [h.reading] at hreading
      cases hreading
    · exact hread
  have hsent := hs.following.sent cfg (hread ▸ hload)
  rcases Nat.eq_zero_or_pos s.version with hzero | hpos
  · rw [(hs.following.first hzero).2, hzero]
    exact (or_iff_right (Nat.lt_irrefl 0)).symm
  · exact iff_of_true ((hs.following.waiting h.task h.seen hpos).trans hsent) (Or.inl hpos)

/-- **Safety.**  At any time, in the middle of an update too: what is in place has been validated; no
    operation of the pool can panic; the pool has the tokens of the credentials, but between the two
    stores; and a row of the unrestrict cache is as new as the tokens, unless it is about to be
    dropped. -/
theorem reload_safe {parsed : Except String LiveConfig} {initial : LiveConfig}
    {es : List (Step ⊕ Outside)} (hfirst : first.validate = .ok ()) (hload : load parsed = .ok initial)
    (hr : run Live.step (.start first parsed initial) es = some s) :
    (s.config.validate = .ok () ∧ s.clientConfig.validate = .ok () ∧ s.credentials.token ≠ "") ∧
    (∀ op, ∃ pool, poolStep s.pool op = some pool) ∧
    (s.pool.tokens = s.credentials.downloadTokens ∨
      ∃ updated changed, s.task = .updating updated changed .poolTokens) ∧
    (∀ key d since, s.unrestrictCache.rows.lookup key = some (d, since) →
      s.changedAt ≤ since ∨ s.Clearing) := by
  have hs := run_sound hfirst hload hr
  refine ⟨⟨hs.validated.config, hs.validated.clientConfig, ?_⟩, fun op => ?_, ?_, hs.inPlace.rows⟩
  · rw [hs.inPlace.credentials]
    exact token_of_valid (hs.validated.source 0)
  · obtain ⟨pool, hpool, -⟩ := PoolState.step_wf hs.pool op
    exact ⟨pool, hpool⟩
  · rw [hs.inPlace.tokens, hs.inPlace.credentials]
    rcases source_next s with hsame | hbetween
    · exact Or.inl (congrArg (fun cfg : LiveConfig => cfg.tokenList.tokens) hsame)
    · exact Or.inr hbetween

/-- A configuration with this token and one more. -/
def twoTokens (token : String) : LiveConfig where
  token := token
  api := ⟨60, 15, .auto, none⟩
  vfs := ⟨"0", "1M", 2⟩
  downloadTokens := ["spare"]

/-- The file is written, read and taken, and a link is unrestricted between the first two stores. -/
theorem reload_safe_between : ∃ s,
    run Live.step (.start (twoTokens "a") (.ok (twoTokens "a")) (twoTokens "a"))
      [.inr (.write (.ok (twoTokens "b")) 0), .inl .handle, .inl .read, .inl .wake, .inl .take,
        .inl .next, .inr (.pool .downloadBearer)] = some s ∧
    (s.credentials.token, s.pool.tokens) = ("b", ["a", "spare"]) ∧
      ∀ op, ∃ pool, poolStep s.pool op = some pool := by
  obtain ⟨s, hr, h⟩ : ∃ s, run Live.step (.start (twoTokens "a") (.ok (twoTokens "a")) (twoTokens "a"))
      [.inr (.write (.ok (twoTokens "b")) 0), .inl .handle, .inl .read, .inl .wake, .inl .take,
        .inl .next, .inr (.pool .downloadBearer)] = some s ∧
      (s.credentials.token, s.pool.tokens) = ("b", ["a", "spare"]) :=
    Option.map_eq_some_iff.mp (by decide)
  exact ⟨s, hr, h, (reload_safe rfl rfl hr).2.1⟩

end

end RdRs.Rd.Reload

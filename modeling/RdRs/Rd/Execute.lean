/-
  `rd/client/exec.rs`, `rd/api/methods2.rs`, `methods3.rs` — a call to Real-Debrid and its retries.

  A call sends a request, looks at what comes back and either returns or goes round again; a server is
  a sequence of answers.  `turn` is one round, `executeImpl` the loop, which answers `none` while it
  still waits for more answers.

  Five rounds go on, and four of them are counted: the one-shot fallback to the original host, network
  errors and server errors up to `max_retries`, and the rotation of tokens up to the pool's size.
  `potential` is what is left of all four.  The fifth, for a JSON body with a transient error code,
  looks at no counter.

  * `turn_again` — every other round takes away from the potential;
  * `turn_transient` — the fifth always goes on;
  * `execute_gives_up_iff` — so a call gives up within its bound exactly when it is the download
    client's own, or the server never answers with a transient JSON error.
-/
import RdRs.Rd.Errors
import RdRs.Rd.TokenPool

set_option linter.unusedVariables false

namespace RdRs.Rd

/-! ## Answers -/

/-- An error of the HTTP library, with its text. -/
structure NetError where
  isTimeout : Bool
  isConnect : Bool
  isRequest : Bool
  text : String

/-- `str::contains` -/
def contains (s sub : String) : Bool := decide (sub.toList <:+: s.toList)

/-- `is_network_error` -/
def isNetworkError (e : NetError) : Bool :=
  contains e.text "EOF" || contains e.text "connection reset" || contains e.text "broken pipe" ||
    contains e.text "timeout"

/-- What reading the body as an `ApiErrBody` gives. -/
inductive Body where
  | unread (msg : String)
  | unparsed
  | errBody (code : Int) (error : String)

/-- A response: its status, as a number and as text, what its headers say and its body. -/
structure Response where
  status : Nat
  statusText : String
  xError : Option String
  contentRange : Bool
  isJson : Bool
  body : Body

inductive Answer where
  | error (e : NetError)
  | response (r : Response)

/-- `StatusCode::is_success` -/
def isSuccess (status : Nat) : Bool := decide (200 ≤ status ∧ status < 300)

/-- `StatusCode::is_server_error` -/
def isServerError (status : Nat) : Bool := decide (500 ≤ status ∧ status < 600)

/-! ## The loop -/

/-- `RdClientConfig`; the pool is part of the loop's state, and a rate limiter only delays. -/
structure ClientConfig where
  token : String
  maxRetries : Nat
  isDownloadClient : Bool
  fits : maxRetries < 2 ^ 32

/-- The variables of `execute_impl`, and the pool. -/
structure Loop where
  attempt : Nat
  tokenAttempts : Nat
  useFallback : Bool
  pool : Option TokenPool

/-- A round returns, or the loop goes on. -/
inductive Turn where
  | done (result : Except RdError Response) (pool : Option TokenPool)
  | again (l : Loop)

/-- `attempt += 1` on a `u32` -/
def Loop.retry (l : Loop) : Loop := { l with attempt := (l.attempt + 1) % 2 ^ 32 }

/-- `active_token`, and the pool after it was asked for one. -/
def activeToken (cfg : ClientConfig) (fixedBearer : Option String) (pool : Option TokenPool) :
    String × Option TokenPool :=
  match fixedBearer, pool with
  | some b, _ => (b, pool)
  | none, some p => (p.downloadBearer.1, some p.downloadBearer.2)
  | none, none => (cfg.token, none)

/-- A round that goes on while there are retries left. -/
def retryUpTo (cfg : ClientConfig) (l : Loop) : Turn :=
  if l.attempt ≥ cfg.maxRetries then .done (.error .maxRetriesExceeded) l.pool else .again l.retry

/-- The end of a round: an HTTP error. -/
def httpError (cfg : ClientConfig) (l : Loop) (r : Response) : Turn :=
  if isServerError r.status || r.status == 429 then retryUpTo cfg l
  else .done (.error (.api (.other r.status ("HTTP " ++ r.statusText)))) l.pool

/-- A response of the CDN that is no success. -/
def downloadFailed (l : Loop) (maxTokenAttempts : Nat) (token : String) (r : Response) : Turn :=
  let rdErr : RdError := .download (.fromHeader (r.xError.getD "") r.status)
  match l.pool with
  | none => .done (.error rdErr) none
  | some p =>
    if rdErr.isBandwidthLimited then
      let p := p.markExhausted token
      if l.tokenAttempts + 1 < maxTokenAttempts && p.anyNonExhausted then
        .again { l with attempt := 0, tokenAttempts := l.tokenAttempts + 1, pool := some p }
      else .done (.error rdErr) (some p)
    else .done (.error rdErr) (some p)

/-- An error body of the API. -/
def apiFailed (l : Loop) (apiErr : ApiError) : Turn :=
  if apiErr.isBandwidthLimited then .done (.error (.api apiErr)) l.pool
  else if apiErr.shouldRetry then .again l.retry
  else .done (.error (.api apiErr)) l.pool

/-- One round of `execute_impl`. -/
def turn (cfg : ClientConfig) (fixedBearer : Option String) (maxTokenAttempts : Nat) (l : Loop) :
    Answer → Turn
  | .error e =>
    let l := { l with pool := (activeToken cfg fixedBearer l.pool).2 }
    if e.isTimeout || e.isConnect || isNetworkError e then
      if !l.useFallback && l.attempt == 0 && cfg.isDownloadClient then
        .again { l with useFallback := true }
      else retryUpTo cfg l
    else if e.isRequest && contains e.text "context canceled" then .done (.error .cancelled) l.pool
    else .done (.error (.network e.text)) l.pool
  | .response r =>
    let token := (activeToken cfg fixedBearer l.pool).1
    let l := { l with pool := (activeToken cfg fixedBearer l.pool).2 }
    if cfg.isDownloadClient && fixedBearer.isNone && !isSuccess r.status then
      downloadFailed l maxTokenAttempts token r
    else if isSuccess r.status then .done (.ok r) l.pool
    else if r.isJson then
      match r.body with
      | .unread msg => .done (.error (.network msg)) l.pool
      | .errBody code error => apiFailed l (.fromCode code error)
      | .unparsed => httpError cfg l r
    else httpError cfg l r

/-- What a call returns, the pool it leaves and the answers it did not need. -/
structure Reply where
  result : Except RdError Response
  pool : Option TokenPool
  rest : List Answer

/-- The loop of `execute_impl`, one answer for each request. -/
def executeLoop (cfg : ClientConfig) (fixedBearer : Option String) (maxTokenAttempts : Nat) :
    Loop → List Answer → Option Reply
  | _, [] => none
  | l, a :: rest =>
    match turn cfg fixedBearer maxTokenAttempts l a with
    | .done result pool => some ⟨result, pool, rest⟩
    | .again l => executeLoop cfg fixedBearer maxTokenAttempts l rest

/-- `max_token_attempts` -/
def tokenAttemptsOf (pool : Option TokenPool) : Nat := (pool.map TokenPool.len).getD 1

/-- `RdClient::execute_impl` -/
def executeImpl (cfg : ClientConfig) (fixedBearer : Option String) (pool : Option TokenPool)
    (answers : List Answer) : Option Reply :=
  executeLoop cfg fixedBearer (tokenAttemptsOf pool) ⟨0, 0, false, pool⟩ answers

/-- `http_range_get`, with `retries` rounds left that lack a `Content-Range` header. -/
def httpRangeGet (cfg : ClientConfig) : Nat → Option TokenPool → List Answer →
    Option (Except RdError Response)
  | retries, pool, answers =>
    match executeImpl cfg none pool answers with
    | none => none
    | some reply =>
      match reply.result with
      | .error e => some (.error e)
      | .ok r =>
        if r.contentRange then some (.ok r)
        else if r.status = 200 then some (.error .rangeNotSupported)
        else match retries with
          | 0 => some (.error .maxRetriesExceeded)
          | retries + 1 => httpRangeGet cfg retries reply.pool reply.rest

theorem executeLoop_rest {cfg : ClientConfig} {fixedBearer : Option String} {maxTokenAttempts : Nat} :
    ∀ (answers : List Answer) (l : Loop) (reply : Reply),
      executeLoop cfg fixedBearer maxTokenAttempts l answers = some reply →
      reply.rest.length < answers.length
  | [], l, reply, h => absurd h nofun
  | a :: rest, l, reply, h => by
    rw [executeLoop] at h
    split at h
    · obtain rfl := Option.some.inj h
      exact Nat.lt_succ_self _
    · exact Nat.lt_succ_of_lt (executeLoop_rest rest _ reply h)

/-- `unrestrict_link`: `cached` is what the cache has for the link and a token, and `download` what
    is made of a successful response. -/
def unrestrictLink {D : Type} (cfg : ClientConfig) (cached : String → Option D)
    (download : String → Response → Except RdError D) (lastBandwidth : Option RdError)
    (pool : TokenPool) (answers : List Answer) : Option (Except RdError D) :=
  match pool.eligibleTokensInOrder with
  | [] => some (.error (lastBandwidth.getD (.api (.trafficExhausted
      "all RD tokens are bandwidth-exhausted for unrestrict"))))
  | token :: _ =>
    match cached token with
    | some d => some (.ok d)
    | none =>
      match h : executeImpl cfg (some token) none answers with
      | none => none
      | some reply =>
        match reply.result with
        | .ok r => some (download token r)
        | .error e =>
          if e.isBandwidthLimited then
            unrestrictLink cfg cached download (some e) (pool.markExhausted token) reply.rest
          else some (.error e)
termination_by answers.length
decreasing_by exact executeLoop_rest answers _ reply h

/-! ## Rounds that are counted -/

/-- The call of the download client with its own token: JSON bodies are not looked at. -/
def DownloadCall (cfg : ClientConfig) (fixedBearer : Option String) : Prop :=
  cfg.isDownloadClient = true ∧ fixedBearer = none

/-- A JSON error with the code of a rate limit or an internal error. -/
def Transient : Answer → Prop
  | .error _ => False
  | .response r => isSuccess r.status = false ∧ r.isJson = true ∧
      ∃ code error, r.body = .errBody code error ∧
        (code = 5 ∨ code = 34 ∨ code = 429 ∨ code = -1)

theorem retried_iff (code : Int) (message : String) :
    ((ApiError.fromCode code message).isBandwidthLimited = false ∧
      (ApiError.fromCode code message).shouldRetry = true) ↔
      code = 5 ∨ code = 34 ∨ code = 429 ∨ code = -1 := by
  unfold ApiError.fromCode
  by_cases h1 : code = 5 ∨ code = 34 ∨ code = 429
  · rw [if_pos h1]
    refine iff_of_true ⟨rfl, rfl⟩ ?_
    omega
  · rw [if_neg h1]
    by_cases h2 : code = 23
    · rw [if_pos h2]
      refine iff_of_false (fun h => absurd h.1 nofun) ?_
      omega
    · rw [if_neg h2]
      by_cases h3 : code = 36
      · rw [if_pos h3]
        refine iff_of_false (fun h => absurd h.1 nofun) ?_
        omega
      · rw [if_neg h3]
        by_cases h4 : code = -1
        · rw [if_pos h4]
          exact iff_of_true ⟨rfl, rfl⟩ (by omega)
        · rw [if_neg h4]
          exact iff_of_false (fun h => absurd h.2 nofun) (by omega)

/-- **What a counted round can do**: return, or go on with one of the counters changed; the pool keeps
    its size. -/
inductive Round (cfg : ClientConfig) (maxTokenAttempts : Nat) (l : Loop) : Turn → Prop where
  | returns (result : Except RdError Response) (pool : Option TokenPool)
      (hpool : tokenAttemptsOf pool = tokenAttemptsOf l.pool) :
      Round cfg maxTokenAttempts l (.done result pool)
  | fallsBack (pool : Option TokenPool) (hpool : tokenAttemptsOf pool = tokenAttemptsOf l.pool)
      (hfirst : l.attempt = 0) (hunused : l.useFallback = false) :
      Round cfg maxTokenAttempts l (.again { l with useFallback := true, pool := pool })
  | retries (pool : Option TokenPool) (hpool : tokenAttemptsOf pool = tokenAttemptsOf l.pool)
      (hleft : l.attempt < cfg.maxRetries) :
      Round cfg maxTokenAttempts l (.again { l.retry with pool := pool })
  | rotates (pool : Option TokenPool) (hpool : tokenAttemptsOf pool = tokenAttemptsOf l.pool)
      (hleft : l.tokenAttempts + 1 < maxTokenAttempts) :
      Round cfg maxTokenAttempts l
        (.again { l with attempt := 0, tokenAttempts := l.tokenAttempts + 1, pool := pool })

theorem len_downloadBearer (p : TokenPool) : p.downloadBearer.2.len = p.len := by
  unfold TokenPool.downloadBearer
  simp only
  split <;> rfl

theorem len_markExhausted (p : TokenPool) (token : String) : (p.markExhausted token).len = p.len := by
  have hmap := congrArg List.length (TokenPool.map_fst_markSlots token p.slots)
  rw [List.length_map, List.length_map] at hmap
  exact hmap

theorem tokenAttemptsOf_activeToken (cfg : ClientConfig) (fixedBearer : Option String)
    (pool : Option TokenPool) :
    tokenAttemptsOf (activeToken cfg fixedBearer pool).2 = tokenAttemptsOf pool := by
  unfold activeToken
  split
  · rfl
  · exact len_downloadBearer _
  · rfl

section

variable {cfg : ClientConfig} {maxTokenAttempts : Nat} {l : Loop} {pool : Option TokenPool}
  (hpool : tokenAttemptsOf pool = tokenAttemptsOf l.pool)

include hpool

theorem round_retryUpTo : Round cfg maxTokenAttempts l (retryUpTo cfg { l with pool := pool }) := by
  unfold retryUpTo
  split
  · exact .returns _ pool hpool
  · rename_i hleft
    exact .retries pool hpool (not_le.mp hleft)

theorem round_httpError (r : Response) :
    Round cfg maxTokenAttempts l (httpError cfg { l with pool := pool } r) := by
  unfold httpError
  split
  · exact round_retryUpTo hpool
  · exact .returns _ pool hpool

theorem round_downloadFailed (token : String) (r : Response) : Round cfg maxTokenAttempts l
    (downloadFailed { l with pool := pool } maxTokenAttempts token r) := by
  unfold downloadFailed
  cases pool with
  | none => exact .returns _ none hpool
  | some p =>
    have hmarked : tokenAttemptsOf (some (p.markExhausted token)) = tokenAttemptsOf l.pool :=
      (len_markExhausted p token).trans hpool
    simp only
    split
    · split
      · rename_i hleft
        exact .rotates _ hmarked (of_decide_eq_true (Bool.and_eq_true_iff.mp hleft).1)
      · exact .returns _ _ hmarked
    · exact .returns _ _ hpool

end

/-- Every round is counted that is the download client's, or has no transient error to look at. -/
theorem round_turn {cfg : ClientConfig} {fixedBearer : Option String} (maxTokenAttempts : Nat)
    (l : Loop) {a : Answer} (h : DownloadCall cfg fixedBearer ∨ ¬Transient a) :
    Round cfg maxTokenAttempts l (turn cfg fixedBearer maxTokenAttempts l a) := by
  have hpool := tokenAttemptsOf_activeToken cfg fixedBearer l.pool
  cases a with
  | error e =>
    rw [turn]
    simp only
    split
    · split
      · rename_i hfirst
        simp only [Bool.and_eq_true, Bool.not_eq_true', beq_iff_eq] at hfirst
        exact .fallsBack _ hpool hfirst.1.2 hfirst.1.1
      · exact round_retryUpTo hpool
    · split
      · exact .returns _ _ hpool
      · exact .returns _ _ hpool
  | response r =>
    rw [turn]
    simp only
    split
    · exact round_downloadFailed hpool _ r
    · rename_i hnot
      split
      · exact .returns _ _ hpool
      · rename_i hfail
        split
        · rename_i hjson
          split
          · exact .returns _ _ hpool
          · -- an error body is looked at: it is not a transient one
            rename_i code error hbody
            have hother : ¬Transient (.response r) := by
              refine h.resolve_left ?_
              rintro ⟨hdownload, rfl⟩
              apply hnot
              rw [hdownload, Bool.eq_false_iff.mpr hfail]
              rfl
            have hcode := mt (retried_iff code error).mp fun hc =>
              hother ⟨Bool.eq_false_iff.mpr hfail, hjson, code, error, hbody, hc⟩
            unfold apiFailed
            split
            · exact .returns _ _ hpool
            · rename_i hlimited
              split
              · rename_i hretry
                exact absurd ⟨Bool.eq_false_iff.mpr hlimited, hretry⟩ hcode
              · exact .returns _ _ hpool
          · exact round_httpError hpool r
        · exact round_httpError hpool r

/-! ## What is left -/

/-- The requests a call can make at most. -/
def requestBound (cfg : ClientConfig) (pool : Option TokenPool) : Nat :=
  tokenAttemptsOf pool * (cfg.maxRetries + 1) + 1

/-- Retries for every token that is still to come, retries for this one, and the fallback. -/
def potential (cfg : ClientConfig) (maxTokenAttempts : Nat) (l : Loop) : Nat :=
  (maxTokenAttempts - l.tokenAttempts - 1) * (cfg.maxRetries + 1) +
    (cfg.maxRetries + 1 - l.attempt) + (if l.useFallback then 0 else 1)

/-- The counters are in bounds. -/
def InBounds (cfg : ClientConfig) (maxTokenAttempts : Nat) (l : Loop) : Prop :=
  l.attempt ≤ cfg.maxRetries ∧ l.tokenAttempts < maxTokenAttempts

theorem tokenAttemptsOf_pos (pool : Option TokenPool) : 0 < tokenAttemptsOf pool := by
  cases pool with
  | none => exact Nat.one_pos
  | some p => exact p.len_pos

theorem potential_pos {cfg : ClientConfig} {maxTokenAttempts : Nat} {l : Loop}
    (hl : InBounds cfg maxTokenAttempts l) : 0 < potential cfg maxTokenAttempts l := by
  have hattempt := hl.1
  unfold potential
  omega

/-- The call starts with all that its bound allows. -/
theorem potential_start (cfg : ClientConfig) (pool : Option TokenPool) :
    potential cfg (tokenAttemptsOf pool) ⟨0, 0, false, pool⟩ = requestBound cfg pool := by
  obtain ⟨k, hk⟩ := Nat.exists_eq_succ_of_ne_zero (tokenAttemptsOf_pos pool).ne'
  unfold potential requestBound
  rw [hk, Nat.succ_mul]
  simp only [Nat.sub_zero, Nat.succ_sub_one]
  rfl

/-- **A counted round that goes on takes away from what is left.** -/
theorem turn_again {cfg : ClientConfig} {fixedBearer : Option String} {maxTokenAttempts : Nat}
    {l l' : Loop} {a : Answer} (h : DownloadCall cfg fixedBearer ∨ ¬Transient a)
    (hl : InBounds cfg maxTokenAttempts l)
    (hturn : turn cfg fixedBearer maxTokenAttempts l a = .again l') :
    InBounds cfg maxTokenAttempts l' ∧
      potential cfg maxTokenAttempts l' < potential cfg maxTokenAttempts l ∧
      tokenAttemptsOf l'.pool = tokenAttemptsOf l.pool := by
  have hround := round_turn maxTokenAttempts l h
  rw [hturn] at hround
  obtain ⟨hattempt, htokens⟩ := hl
  cases hround with
  | fallsBack pool hpool hfirst hunused =>
    refine ⟨⟨hattempt, htokens⟩, ?_, hpool⟩
    unfold potential
    rw [hunused]
    exact Nat.lt_succ_self _
  | retries pool hpool hleft =>
    -- the counter is below `max_retries` and does not wrap
    have hfits := cfg.fits
    have hnext : (l.attempt + 1) % 2 ^ 32 = l.attempt + 1 := Nat.mod_eq_of_lt (by omega)
    refine ⟨⟨?_, htokens⟩, ?_, hpool⟩
    · show (l.attempt + 1) % 2 ^ 32 ≤ cfg.maxRetries
      rw [hnext]
      exact hleft
    · unfold potential Loop.retry
      simp only
      rw [hnext]
      omega
  | rotates pool hpool hleft =>
    refine ⟨⟨Nat.zero_le _, hleft⟩, ?_, hpool⟩
    -- one token less pays for the retries that start again
    obtain ⟨k, hk⟩ := Nat.exists_eq_add_of_lt hleft
    have hnow : maxTokenAttempts - l.tokenAttempts - 1 = k + 1 := by omega
    have hthen : maxTokenAttempts - (l.tokenAttempts + 1) - 1 = k := by omega
    unfold potential
    simp only
    rw [hnow, hthen, Nat.succ_mul]
    omega

/-- A transient error goes on, whatever the counters are. -/
theorem turn_transient {cfg : ClientConfig} {fixedBearer : Option String} (maxTokenAttempts : Nat)
    (l : Loop) {a : Answer} (h : ¬DownloadCall cfg fixedBearer) (ha : Transient a) :
    ∃ l', turn cfg fixedBearer maxTokenAttempts l a = .again l' := by
  cases a with
  | error e => exact absurd ha not_false
  | response r =>
    obtain ⟨hfail, hjson, code, error, hbody, hcode⟩ := ha
    obtain ⟨hlimited, hretry⟩ := (retried_iff code error).mpr hcode
    have hnot : (cfg.isDownloadClient && fixedBearer.isNone && !isSuccess r.status) = false := by
      rw [Bool.eq_false_iff]
      intro hall
      rw [Bool.and_eq_true, Bool.and_eq_true, Option.isNone_iff_eq_none] at hall
      exact h hall.1
    refine ⟨Loop.retry { l with pool := (activeToken cfg fixedBearer l.pool).2 }, ?_⟩
    rw [turn]
    simp only
    rw [hnot, hfail, hjson, hbody]
    simp only [Bool.false_eq_true, if_false, if_true]
    unfold apiFailed
    rw [hlimited, hretry]
    rfl

/-! ## Whole calls -/

/-- **The loop returns once it has been given as many answers as there is potential**, and uses no
    more of them. -/
theorem executeLoop_returns {cfg : ClientConfig} {fixedBearer : Option String}
    {maxTokenAttempts : Nat} :
    ∀ (answers : List Answer) (l : Loop), InBounds cfg maxTokenAttempts l →
      (∀ a ∈ answers, DownloadCall cfg fixedBearer ∨ ¬Transient a) →
      potential cfg maxTokenAttempts l ≤ answers.length →
      ∃ reply, executeLoop cfg fixedBearer maxTokenAttempts l answers = some reply ∧
        answers.length ≤ reply.rest.length + potential cfg maxTokenAttempts l ∧
        (∀ a ∈ reply.rest, a ∈ answers) ∧ tokenAttemptsOf reply.pool = tokenAttemptsOf l.pool
  | [], l, hl, _, hlen => absurd (potential_pos hl) (not_lt.mpr hlen)
  | a :: rest, l, hl, hcounted, hlen => by
    have ha := hcounted a List.mem_cons_self
    rw [executeLoop]
    cases hturn : turn cfg fixedBearer maxTokenAttempts l a with
    | done result pool =>
      refine ⟨⟨result, pool, rest⟩, rfl, ?_, fun b hb => List.mem_cons_of_mem a hb, ?_⟩
      · exact Nat.add_le_add_left (potential_pos hl) _
      · have hround := round_turn maxTokenAttempts l ha
        rw [hturn] at hround
        cases hround with
        | returns _ _ hpool => exact hpool
    | again l' =>
      obtain ⟨hl', hless, hpool⟩ := turn_again ha hl hturn
      have hrest : (a :: rest).length = rest.length + 1 := rfl
      obtain ⟨reply, hreply, hused, hmem, hkept⟩ := executeLoop_returns rest l' hl'
        (fun b hb => hcounted b (List.mem_cons_of_mem a hb)) (by omega)
      refine ⟨reply, hreply, by omega, fun b hb => List.mem_cons_of_mem a (hmem b hb), ?_⟩
      exact hkept.trans hpool

theorem executeImpl_returns {cfg : ClientConfig} {fixedBearer : Option String}
    {pool : Option TokenPool} {answers : List Answer}
    (hcounted : ∀ a ∈ answers, DownloadCall cfg fixedBearer ∨ ¬Transient a)
    (hlen : requestBound cfg pool ≤ answers.length) :
    ∃ reply, executeImpl cfg fixedBearer pool answers = some reply ∧
      answers.length ≤ reply.rest.length + requestBound cfg pool ∧
      (∀ a ∈ reply.rest, a ∈ answers) ∧ tokenAttemptsOf reply.pool = tokenAttemptsOf pool := by
  rw [← potential_start] at hlen ⊢
  exact executeLoop_returns answers _ ⟨Nat.zero_le _, tokenAttemptsOf_pos pool⟩ hcounted hlen

/-- Transient errors alone never make a call return. -/
theorem executeLoop_transient {cfg : ClientConfig} {fixedBearer : Option String}
    {maxTokenAttempts : Nat} (h : ¬DownloadCall cfg fixedBearer) :
    ∀ (answers : List Answer) (l : Loop), (∀ a ∈ answers, Transient a) →
      executeLoop cfg fixedBearer maxTokenAttempts l answers = none
  | [], l, _ => rfl
  | a :: rest, l, hall => by
    obtain ⟨l', hturn⟩ := turn_transient maxTokenAttempts l h (hall a List.mem_cons_self)
    rw [executeLoop, hturn]
    exact executeLoop_transient h rest l' fun b hb => hall b (List.mem_cons_of_mem a hb)

theorem httpRangeGet_returns {cfg : ClientConfig} :
    ∀ (retries : Nat) (pool : Option TokenPool) (answers : List Answer),
      (∀ a ∈ answers, DownloadCall cfg none ∨ ¬Transient a) →
      (retries + 1) * requestBound cfg pool ≤ answers.length →
      (httpRangeGet cfg retries pool answers).isSome
  | retries, pool, answers, hcounted, hlen => by
    have hone : requestBound cfg pool ≤ answers.length :=
      (Nat.le_mul_of_pos_left _ (Nat.succ_pos retries)).trans hlen
    obtain ⟨reply, hreply, hused, hmem, hkept⟩ := executeImpl_returns hcounted hone
    rw [httpRangeGet, hreply]
    simp only
    split
    · rfl
    · split
      · rfl
      · split
        · rfl
        · split
          · rfl
          · rename_i retries
            refine httpRangeGet_returns retries reply.pool reply.rest
              (fun a ha => hcounted a (hmem a ha)) ?_
            have hsame : requestBound cfg reply.pool = requestBound cfg pool := by
              rw [requestBound, hkept, requestBound]
            rw [hsame]
            rw [Nat.succ_mul] at hlen
            omega

theorem unrestrictLink_returns {D : Type} {cfg : ClientConfig} {cached : String → Option D}
    {download : String → Response → Except RdError D} :
    ∀ (eligible : List String) (pool : TokenPool) (lastBandwidth : Option RdError)
      (answers : List Answer), pool.eligibleTokensInOrder = eligible →
      (∀ a ∈ answers, ¬Transient a) → eligible.length * requestBound cfg none ≤ answers.length →
      (unrestrictLink cfg cached download lastBandwidth pool answers).isSome
  | [], pool, lastBandwidth, answers, hpool, _, _ => by
    rw [unrestrictLink.eq_def, hpool]
    rfl
  | token :: eligible, pool, lastBandwidth, answers, hpool, hcounted, hlen => by
    have hrest : (token :: eligible).length * requestBound cfg none =
        eligible.length * requestBound cfg none + requestBound cfg none := Nat.succ_mul _ _
    have hcall : ∀ a ∈ answers, DownloadCall cfg (some token) ∨ ¬Transient a :=
      fun a ha => Or.inr (hcounted a ha)
    have hone : requestBound cfg none ≤ answers.length := by omega
    obtain ⟨reply, hreply, hused, hmem, hkept⟩ := executeImpl_returns hcall hone
    rw [unrestrictLink.eq_def, hpool]
    simp only
    split
    · rfl
    · split
      · rename_i hnone
        rw [hreply] at hnone
        exact absurd hnone nofun
      · rename_i reply' hreply'
        obtain rfl := Option.some.inj (hreply.symm.trans hreply')
        split
        · rfl
        · split
          · refine unrestrictLink_returns eligible (pool.markExhausted token) _ reply.rest
              (TokenPool.eligible_markExhausted hpool) (fun a ha => hcounted a (hmem a ha)) ?_
            omega
          · rfl

/-- A call that needs an answer does not return on transient errors. -/
theorem unrestrictLink_transient {D : Type} {cfg : ClientConfig} {cached : String → Option D}
    {download : String → Response → Except RdError D} {pool : TokenPool} {token : String}
    {eligible : List String} (hpool : pool.eligibleTokensInOrder = token :: eligible)
    (hcached : cached token = none) (lastBandwidth : Option RdError) {answers : List Answer}
    (hall : ∀ a ∈ answers, Transient a) :
    unrestrictLink cfg cached download lastBandwidth pool answers = none := by
  have hcall : ¬DownloadCall cfg (some token) := fun h => absurd h.2 nofun
  have hnone : executeImpl cfg (some token) none answers = none :=
    executeLoop_transient hcall answers _ hall
  rw [unrestrictLink.eq_def, hpool]
  simp only
  rw [hcached]
  simp only
  split
  · rfl
  · rename_i reply hreply
    rw [hnone] at hreply
    exact absurd hreply nofun

/-! ## Giving up -/

/-- The first `n` answers of a server. -/
def served (server : ℕ → Answer) (n : Nat) : List Answer := (List.range n).map server

/-- A call returns after at most `bound` answers, whatever a server says that has only the answers
    `A`. -/
def GivesUpWithin {R : Type} (bound : Nat) (A : Set Answer) (call : List Answer → Option R) : Prop :=
  ∀ server : ℕ → Answer, (∀ i, server i ∈ A) → ∃ n ≤ bound, (call (served server n)).isSome

/-- `unrestrict_link` returns before its first request: no token is left, or the link is cached. -/
def NeedsNoAnswer {D : Type} (cached : String → Option D) (pool : TokenPool) : Prop :=
  ∀ token ∈ pool.eligibleTokensInOrder.head?, (cached token).isSome

/-- A call that returns once enough answers are counted, and never on transient ones alone, gives up
    exactly when all answers are counted. -/
theorem givesUpWithin_iff {R : Type} {bound : Nat} {call : List Answer → Option R} {P : Prop}
    (hreturns : ∀ answers : List Answer, (∀ a ∈ answers, P ∨ ¬Transient a) →
      bound ≤ answers.length → (call answers).isSome)
    (hstuck : ¬P → ∀ answers : List Answer, (∀ a ∈ answers, Transient a) → call answers = none)
    (A : Set Answer) (slack : Nat) :
    GivesUpWithin (bound + slack) A call ↔ P ∨ ∀ a ∈ A, ¬Transient a := by
  constructor
  · intro hgives
    by_contra hcon
    obtain ⟨hP, hsome⟩ := not_or.mp hcon
    push Not at hsome
    obtain ⟨a, ha, htransient⟩ := hsome
    -- the server that repeats this one answer
    obtain ⟨n, -, hn⟩ := hgives (fun _ => a) fun _ => ha
    rw [hstuck hP (served (fun _ => a) n)] at hn
    · exact absurd hn nofun
    · intro b hb
      obtain ⟨i, -, rfl⟩ := List.mem_map.mp hb
      exact htransient
  · intro h server hserver
    refine ⟨bound, Nat.le_add_right bound slack, hreturns _ ?_ ?_⟩
    · intro a ha
      obtain ⟨i, -, rfl⟩ := List.mem_map.mp ha
      exact h.imp_right fun hA => hA _ (hserver i)
    · rw [served, List.length_map, List.length_range]

theorem executeImpl_givesUp (cfg : ClientConfig) (fixedBearer : Option String)
    (pool : Option TokenPool) (A : Set Answer) (slack : Nat) :
    GivesUpWithin (requestBound cfg pool + slack) A (executeImpl cfg fixedBearer pool) ↔
      DownloadCall cfg fixedBearer ∨ ∀ a ∈ A, ¬Transient a := by
  refine givesUpWithin_iff (fun answers hcounted hlen => ?_) (fun hcall answers hall => ?_) A slack
  · obtain ⟨reply, hreply, -⟩ := executeImpl_returns hcounted hlen
    rw [hreply]
    rfl
  · exact executeLoop_transient hcall answers _ hall

theorem httpRangeGet_givesUp (cfg : ClientConfig) (retries : Nat) (pool : Option TokenPool)
    (A : Set Answer) (slack : Nat) :
    GivesUpWithin ((retries + 1) * requestBound cfg pool + slack) A (httpRangeGet cfg retries pool) ↔
      DownloadCall cfg none ∨ ∀ a ∈ A, ¬Transient a := by
  refine givesUpWithin_iff (httpRangeGet_returns retries pool) (fun hcall answers hall => ?_) A slack
  have hnone : executeImpl cfg none pool answers = none := executeLoop_transient hcall answers _ hall
  rw [httpRangeGet, hnone]

theorem unrestrictLink_givesUp {D : Type} (cfg : ClientConfig) (cached : String → Option D)
    (download : String → Response → Except RdError D) (pool : TokenPool) (A : Set Answer)
    (slack : Nat) :
    GivesUpWithin (pool.len * requestBound cfg none + slack) A
        (unrestrictLink cfg cached download none pool) ↔
      NeedsNoAnswer cached pool ∨ ∀ a ∈ A, ¬Transient a := by
  refine givesUpWithin_iff (fun answers hcounted hlen => ?_) (fun hneeds answers hall => ?_) A slack
  · by_cases hneeds : NeedsNoAnswer cached pool
    · rw [unrestrictLink.eq_def]
      cases hpool : pool.eligibleTokensInOrder with
      | nil => rfl
      | cons token eligible =>
        have hcached := hneeds token (by rw [hpool]; rfl)
        obtain ⟨d, hd⟩ := Option.isSome_iff_exists.mp hcached
        simp only [hd]
        rfl
    · refine unrestrictLink_returns _ pool none answers rfl ?_ ?_
      · exact fun a ha => (hcounted a ha).resolve_left hneeds
      · exact (Nat.mul_le_mul_right _ pool.length_eligible_le).trans hlen
  · unfold NeedsNoAnswer at hneeds
    push Not at hneeds
    obtain ⟨token, htoken, hcached⟩ := hneeds
    obtain ⟨eligible, hpool⟩ := List.head?_eq_some_iff.mp htoken
    exact unrestrictLink_transient hpool (Option.not_isSome_iff_eq_none.mp hcached) none hall

/-- **A call gives up exactly when no transient error can reach it.** `execute_impl` returns within
    `max_retries + 1` requests for each token and one more if and only if it is the download client's
    own call or the server has no transient JSON error to answer with, and no larger bound helps;
    `http_range_get` and `unrestrict_link` follow it. -/
theorem execute_gives_up_iff (cfg : ClientConfig) (A : Set Answer) (slack : Nat) :
    (∀ (fixedBearer : Option String) (pool : Option TokenPool),
      GivesUpWithin (requestBound cfg pool + slack) A (executeImpl cfg fixedBearer pool) ↔
        DownloadCall cfg fixedBearer ∨ ∀ a ∈ A, ¬Transient a) ∧
    (∀ (retries : Nat) (pool : Option TokenPool),
      GivesUpWithin ((retries + 1) * requestBound cfg pool + slack) A
          (httpRangeGet cfg retries pool) ↔
        DownloadCall cfg none ∨ ∀ a ∈ A, ¬Transient a) ∧
    ∀ (D : Type) (cached : String → Option D) (download : String → Response → Except RdError D)
      (pool : TokenPool),
      GivesUpWithin (pool.len * requestBound cfg none + slack) A
          (unrestrictLink cfg cached download none pool) ↔
        NeedsNoAnswer cached pool ∨ ∀ a ∈ A, ¬Transient a := by
  refine ⟨fun fixedBearer pool => ?_, fun retries pool => ?_, fun D cached download pool => ?_⟩
  · exact executeImpl_givesUp cfg fixedBearer pool A slack
  · exact httpRangeGet_givesUp cfg retries pool A slack
  · exact unrestrictLink_givesUp cfg cached download pool A slack

/-- With three retries allowed, the API client asks a server that always answers 429 with the JSON
    body `error_code: 34` for ever. -/
theorem rate_limited_call_goes_on :
    ∃ (cfg : ClientConfig) (r : Response), cfg.maxRetries = 3 ∧ r.status = 429 ∧
      r.body = .errBody 34 "too_many_requests" ∧
      ∀ n, executeImpl cfg none none (served (fun _ => .response r) n) = none := by
  let r : Response :=
    ⟨429, "429 Too Many Requests", none, false, true, .errBody 34 "too_many_requests"⟩
  have htransient : Transient (.response r) :=
    ⟨rfl, rfl, 34, "too_many_requests", rfl, Or.inr (Or.inl rfl)⟩
  refine ⟨⟨"token", 3, false, by decide⟩, r, rfl, rfl, rfl, fun n => ?_⟩
  refine executeLoop_transient (fun h => Bool.false_ne_true h.1) _ _ fun a ha => ?_
  obtain ⟨i, -, rfl⟩ := List.mem_map.mp ha
  exact htransient

end RdRs.Rd

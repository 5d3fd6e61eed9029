/-
  `unrestrict_link` of `rd/api/methods2.rs`, with its cache, one outcome for each POST.

  A round takes the FIRST token that is not exhausted, looks for a row of the cache that is young
  enough, and else posts.  A bandwidth limit marks the token and starts another round; everything
  else returns.  There is no counter: the loop ends because the mark takes the head off the list of
  eligible tokens (`eligible_markExhausted`), and the induction below is on that list.

  A row of the cache holds a download of its key's token, which is a field, as `unrestrict_link` is
  the only writer.

  * `FallsThrough` — what a call does in its rounds: the k-th attempt is the k-th round's, with the
    k-th eligible token; a bandwidth limit leads to the next token and everything else ends the call;
    what it does to the pool and the cache, and what its result is;
  * `unrestrictLink_posts` — the call of `Rd.Execute`, which has every request of a POST, is this one.
-/
import RdRs.Fuse.LinkCheck

set_option linter.unusedVariables false

namespace RdRs.Rd

/-! ## The cache -/

/-- `UNRESTRICT_CACHE_TTL`, in nanoseconds -/
def unrestrictCacheTtl : Nat := 4 * 3600 * 10 ^ 9

/-- `UnrestrictCache`: by token and link, a download and when it was stored. -/
structure UnrestrictCache where
  rows : AList (fun _ : String × String => Download × Nat)
  own : ∀ token link d since, rows.lookup (token, link) = some (d, since) → d.token = token

/-- No row. -/
def UnrestrictCache.empty : UnrestrictCache where
  rows := ∅
  own token link d since h := absurd h (by simp)

/-- `cache.insert(key, (download, Instant::now()))`, of a download with the key's token -/
def UnrestrictCache.insert (c : UnrestrictCache) (link : String) (d : Download) (now : Nat) :
    UnrestrictCache where
  rows := c.rows.insert (d.token, link) (d, now)
  own token' link' d' since h := by
    by_cases hkey : (token', link') = (d.token, link)
    · rw [hkey, AList.lookup_insert, Option.some.injEq, Prod.mk.injEq] at h
      rw [← h.1, (Prod.mk.inj hkey).1]
    · rw [AList.lookup_insert_ne hkey] at h
      exact c.own token' link' d' since h

/-- The row for a token and a link, if it is young enough. -/
def UnrestrictCache.fresh (c : UnrestrictCache) (token link : String) (now : Nat) : Option Download :=
  match c.rows.lookup (token, link) with
  | some (d, since) => if now - since < unrestrictCacheTtl then some d else none
  | none => none

theorem UnrestrictCache.fresh_eq_some {c : UnrestrictCache} {token link : String} {now : Nat}
    {d : Download} (h : c.fresh token link now = some d) :
    d.token = token ∧
      ∃ since, c.rows.lookup (token, link) = some (d, since) ∧ now - since < unrestrictCacheTtl := by
  rw [fresh] at h
  cases hrow : c.rows.lookup (token, link) with
  | none =>
    rw [hrow] at h
    exact absurd h.symm (Option.some_ne_none d)
  | some row =>
    obtain ⟨d', since⟩ := row
    rw [hrow] at h
    dsimp only at h
    split at h
    · rename_i hage
      obtain rfl := Option.some.inj h
      exact ⟨c.own token link _ since hrow, since, rfl, hage⟩
    · exact absurd h.symm (Option.some_ne_none d)

/-! ## The rounds -/

/-- How a POST ends: `execute_with_fixed_bearer` fails, or its response is read, which may fail with
    a text. -/
abbrev Post := Except RdError (Except String Download)

/-- What a round meets: the time at which it looks at the cache, the outcome of its POST and the time
    at which it stores the download. -/
structure PostRound where
  checkedAt : Nat
  post : Post
  storedAt : Nat

/-- A token that was tried, and how. -/
inductive Attempt where
  | cached (token : String) (checkedAt : Nat)
  | posted (token : String) (post : Post) (storedAt : Nat)

def Attempt.token : Attempt → String
  | .cached token _ => token
  | .posted token _ _ => token

/-- The token answered with a bandwidth limit. -/
def Attempt.limited : Attempt → Bool
  | .posted _ (.error e) _ => e.isBandwidthLimited
  | _ => false

/-- What a call returns and leaves, and the tokens it tried. -/
structure Unrestricted where
  result : Except RdError Download
  pool : TokenPool
  cache : UnrestrictCache
  tried : List Attempt

/-- The loop of `unrestrict_link`, from its first round. -/
def unrestrictRounds (link : String) (rounds : Nat → PostRound) (lastBandwidth : Option RdError)
    (pool : TokenPool) (cache : UnrestrictCache) : Unrestricted :=
  match h : pool.eligibleTokensInOrder with
  | [] => ⟨.error (lastBandwidth.getD (.api (.trafficExhausted
      "all RD tokens are bandwidth-exhausted for unrestrict"))), pool, cache, []⟩
  | token :: _ =>
    match cache.fresh token link (rounds 0).checkedAt with
    | some d => ⟨.ok d, pool, cache, [.cached token (rounds 0).checkedAt]⟩
    | none =>
      let attempt := Attempt.posted token (rounds 0).post (rounds 0).storedAt
      match (rounds 0).post with
      | .error e =>
        if e.isBandwidthLimited then
          let out := unrestrictRounds link (fun n => rounds (n + 1)) (some e)
            (pool.markExhausted token) cache
          { out with tried := attempt :: out.tried }
        else ⟨.error e, pool, cache, [attempt]⟩
      | .ok (.error msg) => ⟨.error (.network msg), pool, cache, [attempt]⟩
      | .ok (.ok d) =>
        let download := Download.fromResponse token d
        ⟨.ok download, pool, cache.insert link download (rounds 0).storedAt, [attempt]⟩
termination_by pool.eligibleTokensInOrder.length
decreasing_by
  rw [TokenPool.eligible_markExhausted h, h]
  exact Nat.lt_succ_self _

/-- `unrestrict_link` -/
def unrestrictByPosts (link : String) (rounds : Nat → PostRound) (pool : TokenPool)
    (cache : UnrestrictCache) : Unrestricted :=
  unrestrictRounds link rounds none pool cache

/-! ### One round -/

variable {link : String} {rounds : Nat → PostRound} {last : Option RdError} {pool : TokenPool}
  {cache : UnrestrictCache} {token : String} {rest : List String}

theorem unrestrictRounds_none (h : pool.eligibleTokensInOrder = []) :
    unrestrictRounds link rounds last pool cache =
      ⟨.error (last.getD (.api (.trafficExhausted
        "all RD tokens are bandwidth-exhausted for unrestrict"))), pool, cache, []⟩ := by
  rw [unrestrictRounds.eq_def]
  split
  · rfl
  · rename_i hne
    rw [h] at hne
    exact absurd hne.symm (List.cons_ne_nil _ _)

theorem unrestrictRounds_cons (h : pool.eligibleTokensInOrder = token :: rest) :
    unrestrictRounds link rounds last pool cache =
      match cache.fresh token link (rounds 0).checkedAt with
      | some d => ⟨.ok d, pool, cache, [.cached token (rounds 0).checkedAt]⟩
      | none =>
        match (rounds 0).post with
        | .error e =>
          if e.isBandwidthLimited then
            let out := unrestrictRounds link (fun n => rounds (n + 1)) (some e)
              (pool.markExhausted token) cache
            { out with
              tried := .posted token (rounds 0).post (rounds 0).storedAt :: out.tried }
          else ⟨.error e, pool, cache, [.posted token (rounds 0).post (rounds 0).storedAt]⟩
        | .ok (.error msg) =>
          ⟨.error (.network msg), pool, cache, [.posted token (rounds 0).post (rounds 0).storedAt]⟩
        | .ok (.ok d) =>
          ⟨.ok (Download.fromResponse token d), pool,
            cache.insert link (Download.fromResponse token d) (rounds 0).storedAt,
            [.posted token (rounds 0).post (rounds 0).storedAt]⟩ := by
  rw [unrestrictRounds.eq_def]
  split
  · rename_i hnil
    rw [h] at hnil
    exact absurd hnil (List.cons_ne_nil _ _)
  · rename_i token' rest' hcons
    obtain ⟨rfl, rfl⟩ := List.cons.inj (h.symm.trans hcons)
    rfl

/-! ## The flags -/

/-- The tokens of a pool that are not exhausted differ. -/
theorem eligible_nodup (pool : TokenPool) : pool.eligibleTokensInOrder.Nodup :=
  pool.nodup.sublist (List.filter_sublist.map Prod.fst)

/-- Nothing is eligible when every slot has its flag. -/
theorem eligible_eq_nil_iff (pool : TokenPool) :
    pool.eligibleTokensInOrder = [] ↔ ∀ s ∈ pool.slots, s.2 = true := by
  rw [TokenPool.eligibleTokensInOrder, List.map_eq_nil_iff, List.filter_eq_nil_iff]
  simp

/-! ## The whole call -/

/-- The tokens that answered with a bandwidth limit. -/
def limitedTokens (tried : List Attempt) : List String :=
  (tried.filter Attempt.limited).map Attempt.token

/-- What a round makes of its token: it takes the row for it, if that is young enough, and posts
    otherwise. -/
def Makes (link : String) (cache : UnrestrictCache) (token : String) (r : PostRound) :
    Attempt → Prop
  | .cached token' now => token' = token ∧ now = r.checkedAt ∧
      ∃ d since, cache.rows.lookup (token, link) = some (d, since) ∧ now - since < unrestrictCacheTtl
  | .posted token' post now => token' = token ∧ post = r.post ∧ now = r.storedAt ∧
      ∀ d since, cache.rows.lookup (token, link) = some (d, since) →
        unrestrictCacheTtl ≤ r.checkedAt - since

/-- What comes of a call by its last attempt; `last` is the bandwidth limit met before it, if any. -/
def Ends (link : String) (cache : UnrestrictCache) (last : Option RdError) (out : Unrestricted) :
    Option Attempt → Prop
  | none => out.result = .error (last.getD (.api (.trafficExhausted
      "all RD tokens are bandwidth-exhausted for unrestrict"))) ∧ out.cache = cache
  | some (.cached token _) => ∃ d since, cache.rows.lookup (token, link) = some (d, since) ∧
      out.result = .ok d ∧ out.cache = cache
  | some (.posted _ (.error e) _) => out.result = .error e ∧ out.cache = cache
  | some (.posted _ (.ok (.error msg)) _) => out.result = .error (.network msg) ∧ out.cache = cache
  | some (.posted token (.ok (.ok raw)) now) =>
      out.result = .ok (Download.fromResponse token raw) ∧
        out.cache = cache.insert link (Download.fromResponse token raw) now

/-- **What a call does**, from a pool and a cache, in its rounds. -/
structure FallsThrough (link : String) (rounds : Nat → PostRound) (last : Option RdError)
    (pool : TokenPool) (cache : UnrestrictCache) (out : Unrestricted) : Prop where
  /-- The tokens it tries are the first eligible ones, in their order. -/
  inOrder : out.tried.map Attempt.token <+: pool.eligibleTokensInOrder
  once : (out.tried.map Attempt.token).Nodup
  /-- Each attempt is made in a round of its own, the first one in the first round. -/
  made : ∀ k a, out.tried[k]? = some a → Makes link cache a.token (rounds k) a
  /-- It goes on only from a bandwidth limit, -/
  goesOn : ∀ a ∈ out.tried.dropLast, a.limited = true
  /-- and from a bandwidth limit it does, as long as there is a token. -/
  goesOnToTheEnd : (∀ a, out.tried.getLast? = some a → a.limited = true) →
    out.tried.map Attempt.token = pool.eligibleTokensInOrder
  /-- Its result is that of the last attempt. -/
  ends : Ends link cache last out out.tried.getLast?
  /-- It flags exactly the tokens that answered with a bandwidth limit. -/
  marks : out.pool.slots =
    pool.slots.map fun s => (s.1, s.2 || decide (s.1 ∈ limitedTokens out.tried))
  current : out.pool.current = pool.current
  /-- A bandwidth limit is returned when every token has its flag. -/
  exhausted : ∀ e, out.result = .error e → e.isBandwidthLimited = true →
    ∀ s ∈ out.pool.slots, s.2 = true
  failed : ∀ e, out.result = .error e → out.cache = cache
  /-- A result is the last token's: its row, which is young enough, or its answer, which is now its
      row. -/
  result : ∀ d, out.result = .ok d → ∃ a, out.tried.getLast? = some a ∧ d.token = a.token ∧
    ((∃ now since, a = .cached d.token now ∧ cache.rows.lookup (d.token, link) = some (d, since) ∧
        now - since < unrestrictCacheTtl ∧ out.cache = cache) ∨
      ∃ raw now, a = .posted d.token (.ok (.ok raw)) now ∧ d = Download.fromResponse d.token raw ∧
        out.cache.rows = cache.rows.insert (d.token, link) (d, now))

/-- A round that does not mark leaves the flags. -/
theorem marks_none (pool : TokenPool) {tried : List Attempt} (h : limitedTokens tried = []) :
    pool.slots = pool.slots.map fun s => (s.1, s.2 || decide (s.1 ∈ limitedTokens tried)) := by
  rw [h]
  simp

/-- A call that returns in its first round, at the token `token`. -/
theorem FallsThrough.single {a : Attempt} {result : Except RdError Download}
    {cache' : UnrestrictCache} (h : pool.eligibleTokensInOrder = a.token :: rest)
    (ha : a.limited = false) (hmade : Makes link cache a.token (rounds 0) a)
    (hends : Ends link cache last ⟨result, pool, cache', [a]⟩ (some a))
    (herr : ∀ e, result = .error e → e.isBandwidthLimited = false ∧ cache' = cache)
    (hok : ∀ d, result = .ok d → d.token = a.token ∧
      ((∃ now since, a = .cached d.token now ∧ cache.rows.lookup (d.token, link) = some (d, since) ∧
          now - since < unrestrictCacheTtl ∧ cache' = cache) ∨
        ∃ raw now, a = .posted d.token (.ok (.ok raw)) now ∧ d = Download.fromResponse d.token raw ∧
          cache'.rows = cache.rows.insert (d.token, link) (d, now))) :
    FallsThrough link rounds last pool cache ⟨result, pool, cache', [a]⟩ where
  inOrder := ⟨rest, h.symm⟩
  once := List.nodup_singleton _
  made k b hb := by
    obtain ⟨rfl, rfl⟩ : k = 0 ∧ b = a := by
      cases k with
      | zero => exact ⟨rfl, (Option.some.inj hb).symm⟩
      | succ k => exact absurd hb (Option.some_ne_none b).symm
    exact hmade
  goesOn b hb := absurd hb List.not_mem_nil
  goesOnToTheEnd hlimited := by
    rw [hlimited a rfl] at ha
    exact absurd ha.symm Bool.false_ne_true
  ends := hends
  marks := marks_none pool (by rw [limitedTokens, List.filter_singleton, ha]; rfl)
  current := rfl
  exhausted e he hlimited := by
    rw [(herr e he).1] at hlimited
    exact absurd hlimited Bool.false_ne_true
  failed e he := (herr e he).2
  result d hd := ⟨a, rfl, (hok d hd).1, (hok d hd).2⟩

/-- The last attempt of a call that met a bandwidth limit first. -/
theorem Ends.limited {e : RdError} {now : Nat} {out : Unrestricted}
    (h : Ends link cache (some e) out out.tried.getLast?) :
    Ends link cache last { out with tried := .posted token (.error e) now :: out.tried }
      (Attempt.posted token (.error e) now :: out.tried).getLast? := by
  rw [List.getLast?_cons]
  cases hlast : out.tried.getLast? with
  | none =>
    rw [hlast] at h
    exact h
  | some a =>
    rw [hlast] at h
    match a, h with
    | .cached _ _, h => exact h
    | .posted _ (.error _) _, h => exact h
    | .posted _ (.ok (.error _)) _, h => exact h
    | .posted _ (.ok (.ok _)) _, h => exact h

/-- A round whose token is limited, before the rest of the call. -/
theorem FallsThrough.limited {e : RdError} {now : Nat} {out : Unrestricted}
    (h : pool.eligibleTokensInOrder = token :: rest) (he : e.isBandwidthLimited = true)
    (hmade : Makes link cache token (rounds 0) (.posted token (.error e) now))
    (hout : FallsThrough link (fun n => rounds (n + 1)) (some e) (pool.markExhausted token) cache
      out) :
    FallsThrough link rounds last pool cache
      { out with tried := .posted token (.error e) now :: out.tried } where
  inOrder := by
    rw [h]
    refine List.cons_prefix_cons.mpr ⟨rfl, ?_⟩
    rw [← TokenPool.eligible_markExhausted h]
    exact hout.inOrder
  once := by
    have hnodup := eligible_nodup pool
    rw [h, List.nodup_cons, ← TokenPool.eligible_markExhausted h] at hnodup
    exact List.nodup_cons.mpr ⟨fun hmem => hnodup.1 (hout.inOrder.subset hmem), hout.once⟩
  made k a ha := by
    cases k with
    | zero =>
      obtain rfl := Option.some.inj ha
      exact hmade
    | succ k => exact hout.made k a ha
  goesOn a ha := by
    cases htried : out.tried with
    | nil =>
      rw [htried] at ha
      exact absurd ha List.not_mem_nil
    | cons b tried =>
      rw [htried, List.dropLast_cons_cons] at ha
      rcases List.mem_cons.mp ha with rfl | ha
      · exact he
      · rw [← htried] at ha
        exact hout.goesOn a ha
  goesOnToTheEnd hlimited := by
    rw [h, ← TokenPool.eligible_markExhausted h]
    refine congrArg (List.cons token) (hout.goesOnToTheEnd fun a ha => hlimited a ?_)
    rw [List.getLast?_cons, ha]
    rfl
  ends := hout.ends.limited
  marks := by
    have hlimited : limitedTokens (Attempt.posted token (.error e) now :: out.tried) =
        token :: limitedTokens out.tried := by
      have hhead : (Attempt.posted token (.error e) now).limited = true := he
      rw [limitedTokens, List.filter_cons, if_pos hhead]
      rfl
    rw [hlimited, hout.marks]
    show (TokenPool.markSlots token pool.slots).map _ = _
    rw [TokenPool.markSlots_eq_map token pool.slots pool.nodup, List.map_map]
    refine List.map_congr_left fun s _ => ?_
    dsimp only [Function.comp]
    rw [Bool.or_assoc]
    congr 2
    rw [Bool.eq_iff_iff]
    simp
  current := hout.current
  exhausted := hout.exhausted
  failed := hout.failed
  result d hd := by
    obtain ⟨a, hlast, hrest⟩ := hout.result d hd
    refine ⟨a, ?_, hrest⟩
    rw [List.getLast?_cons, hlast]
    rfl

/-- No row is young enough. -/
theorem UnrestrictCache.fresh_eq_none {now : Nat} (h : cache.fresh token link now = none) :
    ∀ d since, cache.rows.lookup (token, link) = some (d, since) →
      unrestrictCacheTtl ≤ now - since := by
  intro d since hrow
  rw [fresh, hrow] at h
  dsimp only at h
  split at h
  · exact absurd h (Option.some_ne_none d)
  · rename_i hold
    exact Nat.le_of_not_lt hold

/-- **`unrestrict_link` falls through the pool**, round by round. -/
theorem unrestrictRounds_fallsThrough (link : String) (cache : UnrestrictCache) :
    ∀ (eligible : List String) (rounds : Nat → PostRound) (last : Option RdError)
      (pool : TokenPool), pool.eligibleTokensInOrder = eligible →
      (∀ e, last = some e → e.isBandwidthLimited = true) →
      FallsThrough link rounds last pool cache (unrestrictRounds link rounds last pool cache)
  | [], rounds, last, pool, h, _ => by
    rw [unrestrictRounds_none h]
    exact {
      inOrder := List.nil_prefix
      once := List.nodup_nil
      made := fun k a ha => absurd ha (Option.some_ne_none a).symm
      goesOn := fun a ha => absurd ha List.not_mem_nil
      goesOnToTheEnd := fun _ => h.symm
      ends := ⟨rfl, rfl⟩
      marks := marks_none pool rfl
      current := rfl
      exhausted := fun e _ _ => (eligible_eq_nil_iff pool).mp h
      failed := fun e _ => rfl
      result := fun d hd => by cases hd }
  | token :: eligible, rounds, last, pool, h, hlast => by
    rw [unrestrictRounds_cons h]
    cases hfresh : cache.fresh token link (rounds 0).checkedAt with
    | some d =>
      obtain ⟨htoken, since, hrow, hage⟩ := UnrestrictCache.fresh_eq_some hfresh
      subst htoken
      refine FallsThrough.single h rfl ⟨rfl, rfl, d, since, hrow, hage⟩ ⟨d, since, hrow, rfl, rfl⟩
        (fun e he => by cases he) fun d' hd' => ?_
      obtain rfl := Except.ok.inj hd'
      exact ⟨rfl, Or.inl ⟨_, since, rfl, hrow, hage, rfl⟩⟩
    | none =>
      have hmade : Makes link cache token (rounds 0)
          (.posted token (rounds 0).post (rounds 0).storedAt) :=
        ⟨rfl, rfl, rfl, UnrestrictCache.fresh_eq_none hfresh⟩
      cases hpost : (rounds 0).post with
      | error e =>
        rw [hpost] at hmade
        dsimp only
        by_cases he : e.isBandwidthLimited = true
        · rw [if_pos he]
          refine FallsThrough.limited h he hmade ?_
          refine unrestrictRounds_fallsThrough link cache eligible _ _ _
            (TokenPool.eligible_markExhausted h) fun e' he' => ?_
          rw [← Option.some.inj he']
          exact he
        · rw [if_neg he]
          have hfalse : e.isBandwidthLimited = false := Bool.eq_false_iff.mpr he
          refine FallsThrough.single h hfalse hmade ⟨rfl, rfl⟩ (fun e' he' => ?_)
            fun d hd => by cases hd
          obtain rfl := Except.error.inj he'
          exact ⟨hfalse, rfl⟩
      | ok answer =>
        cases answer with
        | error msg =>
          rw [hpost] at hmade
          refine FallsThrough.single h rfl hmade ⟨rfl, rfl⟩ (fun e' he' => ?_)
            fun d hd => by cases hd
          obtain rfl := Except.error.inj he'
          exact ⟨rfl, rfl⟩
        | ok raw =>
          rw [hpost] at hmade
          refine FallsThrough.single h rfl hmade ⟨rfl, rfl⟩ (fun e he => by cases he)
            fun d hd => ?_
          obtain rfl := Except.ok.inj hd
          exact ⟨rfl, Or.inr ⟨raw, _, rfl, rfl, rfl⟩⟩

/-- **The call**, on every pool, every cache and every sequence of outcomes. -/
theorem unrestrictByPosts_fallsThrough (link : String) (rounds : Nat → PostRound) (pool : TokenPool)
    (cache : UnrestrictCache) :
    FallsThrough link rounds none pool cache (unrestrictByPosts link rounds pool cache) :=
  unrestrictRounds_fallsThrough link cache _ rounds none pool rfl fun e he => by cases he

/-! ## With every request -/

/-- Put an outcome before the others. -/
def consRound (r : PostRound) (rounds : Nat → PostRound) : Nat → PostRound
  | 0 => r
  | n + 1 => rounds n

/-- What is made of a response that was read. -/
def readDownload (parse : Response → Except String Download) (token : String) (r : Response) :
    Except RdError Download :=
  match parse r with
  | .ok d => .ok (Download.fromResponse token d)
  | .error msg => .error (.network msg)

/-- **The call of `Rd.Execute` is this one**: if it returns on a sequence of answers to its requests,
    then each POST has an outcome, and with these outcomes the same is returned. -/
theorem unrestrictLink_posts {cfg : ClientConfig} {parse : Response → Except String Download}
    (link : String) (cache : UnrestrictCache) (now : Nat) (answers : List Answer)
    (last : Option RdError) (pool : TokenPool) {result : Except RdError Download}
    (h : unrestrictLink cfg (fun token => cache.fresh token link now) (readDownload parse) last pool
      answers = some result) :
    ∃ rounds, (unrestrictRounds link rounds last pool cache).result = result := by
  induction hn : answers.length using Nat.strong_induction_on generalizing answers last pool with
  | _ n ih =>
    rw [unrestrictLink.eq_def] at h
    split at h
    · rename_i hnone
      refine ⟨fun _ => ⟨now, .ok (.error ""), now⟩, ?_⟩
      rw [unrestrictRounds_none hnone]
      exact Option.some.inj h
    · rename_i token rest htokens
      split at h
      · rename_i d hd
        refine ⟨fun _ => ⟨now, .ok (.error ""), now⟩, ?_⟩
        rw [unrestrictRounds_cons htokens, hd]
        exact Option.some.inj h
      · rename_i hfresh
        split at h
        · exact absurd h.symm (Option.some_ne_none _)
        · rename_i reply hreply
          split at h
          · rename_i r hr
            refine ⟨fun _ => ⟨now, .ok (parse r), now⟩, ?_⟩
            rw [unrestrictRounds_cons htokens, hfresh, ← Option.some.inj h, readDownload]
            cases parse r with
            | error msg => rfl
            | ok d => rfl
          · rename_i e he
            split at h
            · rename_i hlimited
              have hless := executeLoop_rest answers _ reply hreply
              obtain ⟨rounds, hrounds⟩ := ih reply.rest.length (hn ▸ hless) reply.rest _ _ h rfl
              refine ⟨consRound ⟨now, .error e, now⟩ rounds, ?_⟩
              rw [unrestrictRounds_cons htokens]
              show Unrestricted.result (match cache.fresh token link now with
                | some d => _
                | none => _) = result
              rw [hfresh]
              show Unrestricted.result (if e.isBandwidthLimited = true then _ else _) = result
              rw [if_pos hlimited]
              exact hrounds
            · rename_i hlimited
              refine ⟨fun _ => ⟨now, .error e, now⟩, ?_⟩
              rw [unrestrictRounds_cons htokens, hfresh]
              show Unrestricted.result (if e.isBandwidthLimited = true then _ else _) = result
              rw [if_neg hlimited]
              exact Option.some.inj h

end RdRs.Rd

/-
  `rd/token_pool.rs` with its two lists and its counter, and the rotation inside one `execute`.

  The pool keeps tokens and flags in lists of their own, and indexes both with a counter that `rotate`
  only ever counts up (with wrap-around at `usize`) and that `update_tokens`, which changes the
  length, sets to 0.  Here an index out of bounds and a remainder by 0 are `none`.

  * `PoolState.Wf` — equal lengths, no empty pool, no token twice: kept by every operation, under which
    no operation panics (`step_wf`, `run_wf`);
  * `downloadBearer_spec` — what is offered is the first token without flag in cyclic order;
  * `downloadBearer_refines`, `markExhausted_refines`, `anyNonExhausted_refines` — the pool of
    `Rd.TokenPool`, whose slots carry their flag, is this one;
  * `uses_fresh` — inside one `execute` no token comes back after it answered with a bandwidth limit:
    a limited token has its flag, the loop goes on only if some slot has none, and then the bearer
    is a slot without flag.
-/
import RdRs.Lib.Runs
import RdRs.Rd.Execute

set_option linter.unusedVariables false

namespace RdRs.Rd

open RdRs.Runs

/-! ## The pool -/

/-- `TokenPoolState` and `current` -/
structure PoolState where
  tokens : List String
  exhausted : List Bool
  current : Nat
deriving Repr, DecidableEq

/-- A list a pool is made of: not empty, no token twice. -/
structure TokenList where
  tokens : List String
  nonempty : tokens ≠ []
  nodup : tokens.Nodup

namespace PoolState

/-- `TokenPool::new`, and what `update_tokens` stores -/
def ofTokens (ts : TokenList) : PoolState where
  tokens := ts.tokens
  exhausted := List.replicate ts.tokens.length false
  current := 0

/-- The loop of `download_bearer` over the steps; `none` is an index out of bounds, `none` inside that
    every slot has its flag. -/
def searchBearer (p : PoolState) (start : Nat) : List Nat → Option (Option Nat)
  | [] => some none
  | step :: steps =>
    let idx := (start + step) % p.tokens.length
    match p.exhausted[idx]? with
    | none => none
    | some false => some (some idx)
    | some true => searchBearer p start steps

/-- `TokenPool::download_bearer` -/
def downloadBearer (p : PoolState) : Option (String × PoolState) :=
  let n := p.tokens.length
  if n = 0 then none
  else
    let start := p.current % n
    match p.searchBearer start (List.range n) with
    | none => none
    | some (some idx) =>
      p.tokens[idx]?.map fun t => (t, if idx ≠ start then { p with current := idx } else p)
    | some none => p.tokens[start]?.map fun t => (t, p)

/-- The index of a token. -/
def indexOf (p : PoolState) (token : String) : Option Nat := p.tokens.findIdx? fun t => t == token

/-- `TokenPool::is_exhausted` -/
def isExhausted (p : PoolState) (token : String) : Option Bool :=
  match p.indexOf token with
  | some i => p.exhausted[i]?
  | none => some false

/-- `TokenPool::mark_exhausted` -/
def markExhausted (p : PoolState) (token : String) : Option PoolState :=
  match p.indexOf token with
  | some i => if i < p.exhausted.length then some { p with exhausted := p.exhausted.set i true } else none
  | none => some p

/-- `TokenPool::clear_all_exhausted` -/
def clearAllExhausted (p : PoolState) : PoolState :=
  { p with exhausted := p.exhausted.map fun _ => false }

/-- The test of `any_non_exhausted` on the tokens from index `i` on. -/
def anyFrom (p : PoolState) : Nat → List String → Option Bool
  | _, [] => some false
  | i, _ :: ts =>
    match p.exhausted[i]? with
    | none => none
    | some false => some true
    | some true => anyFrom p (i + 1) ts

/-- `TokenPool::any_non_exhausted` -/
def anyNonExhausted (p : PoolState) : Option Bool := p.anyFrom 0 p.tokens

/-- `TokenPool::rotate`: the counter is a `usize`. -/
def rotate (p : PoolState) : Bool × PoolState :=
  if p.tokens.length ≤ 1 then (false, p)
  else (true, { p with current := (p.current + 1) % 2 ^ 64 })

/-- `TokenPool::update_tokens` -/
def updateTokens (p : PoolState) (ts : TokenList) : PoolState := ofTokens ts

end PoolState

/-- An operation on the pool. -/
inductive PoolOp where
  | downloadBearer
  | rotate
  | markExhausted (token : String)
  | clearAllExhausted
  | updateTokens (ts : TokenList)

/-- One operation; `none` is a panic. -/
def poolStep (p : PoolState) : PoolOp → Option PoolState
  | .downloadBearer => p.downloadBearer.map Prod.snd
  | .rotate => some p.rotate.2
  | .markExhausted token => p.markExhausted token
  | .clearAllExhausted => some p.clearAllExhausted
  | .updateTokens ts => some (p.updateTokens ts)

namespace PoolState

/-- What holds of every pool. -/
structure Wf (p : PoolState) : Prop where
  nonempty : p.tokens ≠ []
  nodup : p.tokens.Nodup
  lengths : p.exhausted.length = p.tokens.length

theorem ofTokens_wf (ts : TokenList) : (ofTokens ts).Wf where
  nonempty := ts.nonempty
  nodup := ts.nodup
  lengths := List.length_replicate

variable {p : PoolState}

theorem Wf.len_pos (h : p.Wf) : 0 < p.tokens.length := List.length_pos_iff.mpr h.nonempty

/-! ## The search -/

/-- The indices in cyclic order from `start`. -/
def cyclic (p : PoolState) (start : Nat) : List Nat :=
  (List.range p.tokens.length).map fun step => (start + step) % p.tokens.length

/-- With a flag for each token, the loop is a `find?`. -/
theorem searchBearer_eq (h : p.Wf) (start : Nat) : ∀ steps : List Nat,
    p.searchBearer start steps = some ((steps.map fun step => (start + step) % p.tokens.length).find?
      fun idx => p.exhausted[idx]? == some false)
  | [] => rfl
  | step :: steps => by
    have hlt : (start + step) % p.tokens.length < p.exhausted.length := by
      rw [h.lengths]
      exact Nat.mod_lt _ h.len_pos
    rw [searchBearer, List.map_cons, List.find?_cons, List.getElem?_eq_getElem hlt]
    cases hflag : p.exhausted[(start + step) % p.tokens.length] with
    | false => rfl
    | true => exact searchBearer_eq h start steps

/-- The slot that is found: the first without flag. -/
theorem find_cyclic_eq_some (h : p.Wf) {start idx : Nat}
    (hfind : (p.cyclic start).find? (fun idx => p.exhausted[idx]? == some false) = some idx) :
    ∃ k, k < p.tokens.length ∧ idx = (start + k) % p.tokens.length ∧ p.exhausted[idx]? = some false ∧
      ∀ j, j < k → p.exhausted[(start + j) % p.tokens.length]? = some true := by
  obtain ⟨hflag, k, hk, hidx, hbefore⟩ := List.find?_eq_some_iff_getElem.mp hfind
  have hlen : (p.cyclic start).length = p.tokens.length := by
    rw [cyclic, List.length_map, List.length_range]
  have hget : ∀ j (hj : j < (p.cyclic start).length),
      (p.cyclic start)[j] = (start + j) % p.tokens.length := by
    intro j hj
    simp only [cyclic, List.getElem_map, List.getElem_range]
  refine ⟨k, hlen ▸ hk, by rw [← hget k hk, hidx], beq_iff_eq.mp hflag, fun j hj => ?_⟩
  have hnot := hbefore j hj
  rw [hget j (hj.trans hk)] at hnot
  have hlt : (start + j) % p.tokens.length < p.exhausted.length := by
    rw [h.lengths]
    exact Nat.mod_lt _ h.len_pos
  rw [List.getElem?_eq_getElem hlt] at hnot ⊢
  cases hflag' : p.exhausted[(start + j) % p.tokens.length] with
  | false =>
    rw [hflag'] at hnot
    exact absurd hnot (by decide)
  | true => rfl

/-- Every index comes up on the way round. -/
theorem cyclic_surj (start : Nat) {n i : Nat} (hi : i < n) : ∃ k, k < n ∧ (start % n + k) % n = i := by
  have hs := Nat.mod_lt start (Nat.zero_lt_of_lt hi)
  by_cases hle : start % n ≤ i
  · exact ⟨i - start % n, by omega, by
      rw [Nat.add_sub_cancel' hle]
      exact Nat.mod_eq_of_lt hi⟩
  · refine ⟨i + n - start % n, by omega, ?_⟩
    rw [show start % n + (i + n - start % n) = i + n by omega, Nat.add_mod_right]
    exact Nat.mod_eq_of_lt hi

/-- While some slot has no flag, the search finds one. -/
theorem find_cyclic_isSome (h : p.Wf) {i : Nat} (hi : p.exhausted[i]? = some false) :
    ∃ idx, (p.cyclic (p.current % p.tokens.length)).find?
      (fun idx => p.exhausted[idx]? == some false) = some idx := by
  have hlt := (List.getElem?_eq_some_iff.mp hi).1
  rw [h.lengths] at hlt
  obtain ⟨k, hk, hidx⟩ := cyclic_surj p.current hlt
  rw [← Option.isSome_iff_exists, List.find?_isSome]
  refine ⟨i, List.mem_map.mpr ⟨k, List.mem_range.mpr hk, hidx⟩, ?_⟩
  rw [hi]
  rfl

/-- `download_bearer`, in one expression. -/
theorem downloadBearer_eq (h : p.Wf) : p.downloadBearer =
    match (p.cyclic (p.current % p.tokens.length)).find? fun idx => p.exhausted[idx]? == some false with
    | some idx => p.tokens[idx]?.map fun t =>
        (t, if idx ≠ p.current % p.tokens.length then { p with current := idx } else p)
    | none => p.tokens[p.current % p.tokens.length]?.map fun t => (t, p) := by
  rw [downloadBearer]
  have hne : p.tokens.length ≠ 0 := h.len_pos.ne'
  simp only [if_neg hne, searchBearer_eq h]
  rw [cyclic]
  cases ((List.range p.tokens.length).map fun step =>
    (p.current % p.tokens.length + step) % p.tokens.length).find?
      fun idx => p.exhausted[idx]? == some false with
  | none => rfl
  | some idx => rfl

/-- A slot of a pool has a token. -/
theorem Wf.token_at (h : p.Wf) (k : Nat) :
    ∃ t, p.tokens[(p.current % p.tokens.length + k) % p.tokens.length]? = some t :=
  ⟨_, List.getElem?_eq_getElem (Nat.mod_lt _ h.len_pos)⟩

/-- The index of the token in a slot is the slot. -/
theorem Wf.indexOf_token (h : p.Wf) {i : Nat} {token : String} (hi : p.tokens[i]? = some token) :
    p.indexOf token = some i := by
  obtain ⟨hlt, hget⟩ := List.getElem?_eq_some_iff.mp hi
  rw [indexOf, List.findIdx?_eq_some_iff_getElem]
  refine ⟨hlt, beq_iff_eq.mpr hget, fun j hj => ?_⟩
  have hne : p.tokens[j] ≠ token := by
    intro heq
    have hinj := (List.Nodup.getElem_inj_iff h.nodup).mp (heq.trans hget.symm)
    omega
  simpa using hne

/-- What `download_bearer` does.  It changes no token and no flag.  If some slot has no flag, it offers
    the token of the first such slot in cyclic order from the current position, which is not
    exhausted, and leaves the current position on it. -/
def Offers (p : PoolState) : Prop :=
  ∃ token p', p.downloadBearer = some (token, p') ∧
    p'.tokens = p.tokens ∧ p'.exhausted = p.exhausted ∧
    ((∃ i : Nat, p.exhausted[i]? = some false) → ∃ k, k < p.tokens.length ∧
      (∀ j, j < k → p.exhausted[(p.current % p.tokens.length + j) % p.tokens.length]? = some true) ∧
      p.tokens[(p.current % p.tokens.length + k) % p.tokens.length]? = some token ∧
      p.isExhausted token = some false ∧
      p'.current % p.tokens.length = (p.current % p.tokens.length + k) % p.tokens.length)

/-- **What `download_bearer` offers.** -/
theorem downloadBearer_spec (h : p.Wf) : p.Offers := by
  rw [Offers, downloadBearer_eq h]
  cases hfind : (p.cyclic (p.current % p.tokens.length)).find?
      fun idx => p.exhausted[idx]? == some false with
  | none =>
    obtain ⟨t, ht⟩ := h.token_at 0
    rw [Nat.add_zero, Nat.mod_mod] at ht
    refine ⟨t, p, by rw [ht]; rfl, rfl, rfl, ?_⟩
    rintro ⟨i, hi⟩
    obtain ⟨idx, hidx⟩ := find_cyclic_isSome h hi
    rw [hfind] at hidx
    exact absurd hidx.symm (Option.some_ne_none idx)
  | some idx =>
    obtain ⟨k, hk, hidx, hflag, hbefore⟩ := find_cyclic_eq_some h hfind
    obtain ⟨t, ht⟩ := h.token_at k
    rw [← hidx] at ht
    refine ⟨t, _, by dsimp only; rw [ht]; rfl, ?_, ?_, fun _ => ⟨k, hk, hbefore, hidx ▸ ht, ?_, ?_⟩⟩
    · split <;> rfl
    · split <;> rfl
    · rw [isExhausted, h.indexOf_token ht]
      exact hflag
    · have hlt : idx < p.tokens.length := (List.getElem?_eq_some_iff.mp ht).1
      rw [← hidx]
      split
      · exact Nat.mod_eq_of_lt hlt
      · rename_i heq
        rw [not_not] at heq
        exact heq.symm

/-! ## Runs -/

/-- **No operation panics**, and each keeps the pool well formed. -/
theorem step_wf (h : p.Wf) (op : PoolOp) : ∃ p', poolStep p op = some p' ∧ p'.Wf := by
  cases op with
  | downloadBearer =>
    obtain ⟨token, p', hp, htokens, hflags, -⟩ := downloadBearer_spec h
    refine ⟨p', by rw [poolStep, hp]; rfl, ?_⟩
    exact ⟨htokens ▸ h.nonempty, htokens ▸ h.nodup, by rw [hflags, htokens, h.lengths]⟩
  | rotate =>
    refine ⟨p.rotate.2, rfl, ?_⟩
    rw [rotate]
    split
    · exact h
    · exact ⟨h.nonempty, h.nodup, h.lengths⟩
  | markExhausted token =>
    rw [poolStep, markExhausted]
    cases hidx : p.indexOf token with
    | none => exact ⟨p, rfl, h⟩
    | some i =>
      have hlt : i < p.exhausted.length := by
        rw [h.lengths]
        exact (List.findIdx?_eq_some_iff_getElem.mp hidx).1
      refine ⟨_, if_pos hlt, h.nonempty, h.nodup, ?_⟩
      rw [List.length_set, h.lengths]
  | clearAllExhausted =>
    refine ⟨p.clearAllExhausted, rfl, h.nonempty, h.nodup, ?_⟩
    rw [clearAllExhausted, List.length_map, h.lengths]
  | updateTokens ts => exact ⟨_, rfl, ofTokens_wf ts⟩

/-- **A whole run does not panic**, and its pool is well formed. -/
theorem run_wf : ∀ (ops : List PoolOp) (p : PoolState), p.Wf →
    ∃ p', run poolStep p ops = some p' ∧ p'.Wf
  | [], p, h => ⟨p, rfl, h⟩
  | op :: ops, p, h => by
    obtain ⟨p', hstep, hp'⟩ := step_wf h op
    rw [run_step ops hstep]
    exact run_wf ops p' hp'

/-! ## The pool with slots -/

/-- The pool of `Rd.TokenPool`. -/
def toPool (p : PoolState) (h : p.Wf) : TokenPool where
  slots := p.tokens.zip p.exhausted
  current := p.current
  nonempty := by
    intro hnil
    have hlen := congrArg List.length hnil
    rw [List.length_zip, h.lengths, min_self, List.length_nil] at hlen
    exact h.nonempty (List.length_eq_zero_iff.mp hlen)
  nodup := by
    rw [List.map_fst_zip h.lengths.ge]
    exact h.nodup

theorem toPool_len (h : p.Wf) : (p.toPool h).len = p.tokens.length := by
  rw [TokenPool.len, toPool, List.length_zip, h.lengths, min_self]

/-- The flag of a slot. -/
theorem toPool_flag (h : p.Wf) (i : Nat) :
    (((p.toPool h).slots[i]?.map fun s => !s.2).getD false) = (p.exhausted[i]? == some false) := by
  show (((p.tokens.zip p.exhausted)[i]?.map fun s => !s.2).getD false) = _
  by_cases hi : i < p.tokens.length
  · have hi' : i < p.exhausted.length := h.lengths ▸ hi
    have hzip : (p.tokens.zip p.exhausted)[i]? = some (p.tokens[i], p.exhausted[i]) :=
      List.getElem?_zip_eq_some.mpr ⟨List.getElem?_eq_getElem hi, List.getElem?_eq_getElem hi'⟩
    rw [hzip, List.getElem?_eq_getElem hi']
    cases hflag : p.exhausted[i] with
    | false => rfl
    | true => rfl
  · have hnone : p.exhausted[i]? = none := List.getElem?_eq_none (by rw [h.lengths]; omega)
    have hzip : (p.tokens.zip p.exhausted)[i]? = none :=
      List.getElem?_eq_none (by rw [List.length_zip, h.lengths, min_self]; omega)
    rw [hnone, hzip]
    rfl

/-- The token of a slot. -/
theorem toPool_token (h : p.Wf) (i : Nat) :
    (p.toPool h).slots[i]?.map Prod.fst = p.tokens[i]? := by
  rw [← List.getElem?_map]
  show ((p.tokens.zip p.exhausted).map Prod.fst)[i]? = _
  rw [List.map_fst_zip h.lengths.ge]

/-- `download_bearer` is the one of the pool with slots. -/
theorem downloadBearer_refines (h : p.Wf) {token : String} {p' : PoolState}
    (hp : p.downloadBearer = some (token, p')) :
    ∃ h' : p'.Wf, (p.toPool h).downloadBearer = (token, p'.toPool h') := by
  rw [downloadBearer_eq h] at hp
  have hindex : (p.toPool h).bearerIndex (p.current % p.tokens.length) =
      ((p.cyclic (p.current % p.tokens.length)).find? fun idx =>
        p.exhausted[idx]? == some false).getD (p.current % p.tokens.length) := by
    rw [TokenPool.bearerIndex, toPool_len]
    simp only [toPool_flag]
    rfl
  have hstart : (p.toPool h).current % (p.toPool h).len = p.current % p.tokens.length := by
    rw [toPool_len]
    rfl
  rw [TokenPool.downloadBearer]
  simp only [hstart, hindex, toPool_token]
  cases hfind : (p.cyclic (p.current % p.tokens.length)).find?
      fun idx => p.exhausted[idx]? == some false with
  | none =>
    rw [hfind] at hp
    obtain ⟨t, ht, heq⟩ := Option.map_eq_some_iff.mp hp
    obtain ⟨rfl, rfl⟩ := Prod.mk.inj heq
    refine ⟨h, ?_⟩
    rw [Option.getD_none, if_pos rfl, ht]
    rfl
  | some idx =>
    rw [hfind] at hp
    obtain ⟨t, ht, heq⟩ := Option.map_eq_some_iff.mp hp
    obtain ⟨rfl, rfl⟩ := Prod.mk.inj heq
    rw [Option.getD_some, ht]
    by_cases hidx : idx = p.current % p.tokens.length
    · refine ⟨?_, ?_⟩
      · rw [if_neg (not_not.mpr hidx)]
        exact h
      · rw [if_pos hidx]
        simp only [if_neg (not_not.mpr hidx)]
        rfl
    · refine ⟨?_, ?_⟩
      · rw [if_pos hidx]
        exact ⟨h.nonempty, h.nodup, h.lengths⟩
      · rw [if_neg hidx]
        simp only [if_pos hidx]
        rfl

/-- Marking by the index is marking the slot. -/
theorem markSlots_zip (token : String) : ∀ (tokens : List String) (flags : List Bool),
    flags.length = tokens.length →
    TokenPool.markSlots token (tokens.zip flags) =
      match tokens.findIdx? fun t => t == token with
      | some i => tokens.zip (flags.set i true)
      | none => tokens.zip flags
  | [], flags, _ => rfl
  | t :: tokens, [], h => absurd h.symm (Nat.succ_ne_zero _)
  | t :: tokens, flag :: flags, h => by
    rw [List.zip_cons_cons, TokenPool.markSlots, List.findIdx?_cons]
    by_cases ht : t = token
    · rw [if_pos ht, beq_iff_eq.mpr ht]
      rfl
    · rw [if_neg ht, beq_false_of_ne ht, markSlots_zip token tokens flags (Nat.succ.inj h)]
      cases tokens.findIdx? fun t => t == token with
      | none => rfl
      | some i => rfl

/-- `mark_exhausted` is the one of the pool with slots. -/
theorem markExhausted_refines (h : p.Wf) {token : String} {p' : PoolState}
    (hp : p.markExhausted token = some p') :
    ∃ h' : p'.Wf, (p.toPool h).markExhausted token = p'.toPool h' := by
  have hwf : p'.Wf := by
    obtain ⟨p'', hstep, hwf⟩ := step_wf h (.markExhausted token)
    obtain rfl := Option.some.inj (hstep.symm.trans hp)
    exact hwf
  refine ⟨hwf, ?_⟩
  have hslots := markSlots_zip token p.tokens p.exhausted h.lengths
  have hgoal : TokenPool.markSlots token (p.tokens.zip p.exhausted) = p'.tokens.zip p'.exhausted ∧
      p'.current = p.current := by
    rw [markExhausted, indexOf] at hp
    rw [hslots]
    cases hidx : p.tokens.findIdx? fun t => t == token with
    | none =>
      rw [hidx] at hp
      obtain rfl := Option.some.inj hp
      exact ⟨rfl, rfl⟩
    | some i =>
      rw [hidx] at hp
      dsimp only at hp
      split at hp
      · obtain rfl := Option.some.inj hp
        exact ⟨rfl, rfl⟩
      · exact absurd hp.symm (Option.some_ne_none p')
  rw [TokenPool.markExhausted]
  simp only [toPool, hgoal.1, hgoal.2]

/-- `any_non_exhausted` is the one of the pool with slots. -/
theorem anyNonExhausted_refines (h : p.Wf) :
    p.anyNonExhausted = some (p.toPool h).anyNonExhausted := by
  have hfrom : ∀ (tokens : List String) (i : Nat), i + tokens.length = p.exhausted.length →
      p.anyFrom i tokens = some ((tokens.zip (p.exhausted.drop i)).any fun s => !s.2) := by
    intro tokens
    induction tokens with
    | nil => intro i _; rfl
    | cons t tokens ih =>
      intro i hi
      rw [List.length_cons] at hi
      have hlt : i < p.exhausted.length := by omega
      rw [anyFrom, List.drop_eq_getElem_cons hlt, List.zip_cons_cons, List.any_cons,
        List.getElem?_eq_getElem hlt]
      cases p.exhausted[i] with
      | false => rfl
      | true =>
        rw [Bool.not_true, Bool.false_or]
        exact ih (i + 1) (by omega)
  rw [anyNonExhausted, hfrom p.tokens 0 (by rw [h.lengths, Nat.zero_add]), List.drop_zero]
  rfl

end PoolState

/-! ## One `execute` of the download client -/

/-- The answer makes `execute_impl` mark its token: no success, and a bandwidth limit. -/
def limitedAnswer : Answer → Bool
  | .error _ => false
  | .response r => !isSuccess r.status &&
      (RdError.download (.fromHeader (r.xError.getD "") r.status)).isBandwidthLimited

/-- The token of each request of a call, with the answer to it. -/
def uses (cfg : ClientConfig) (fixedBearer : Option String) (maxTokenAttempts : Nat) :
    Loop → List Answer → List (String × Answer)
  | _, [] => []
  | l, a :: rest =>
    ((activeToken cfg fixedBearer l.pool).1, a) ::
      match turn cfg fixedBearer maxTokenAttempts l a with
      | .done _ _ => []
      | .again l => uses cfg fixedBearer maxTokenAttempts l rest

/-- While some slot has no flag, the bearer is the token of such a slot. -/
theorem TokenPool.downloadBearer_free {p : TokenPool} (h : p.anyNonExhausted = true) :
    (p.downloadBearer.1, false) ∈ p.slots := by
  obtain ⟨s, hs, hflag⟩ := List.any_eq_true.mp h
  obtain ⟨i, hi⟩ := List.mem_iff_getElem?.mp hs
  have hlt : i < p.len := (List.getElem?_eq_some_iff.mp hi).1
  obtain ⟨k, hk, hidx⟩ := PoolState.cyclic_surj p.current hlt
  have hsome : (((List.range p.len).map fun step => (p.current % p.len + step) % p.len).find?
      fun idx => (p.slots[idx]?.map fun s => !s.2).getD false).isSome := by
    rw [List.find?_isSome]
    refine ⟨i, List.mem_map.mpr ⟨k, List.mem_range.mpr hk, hidx⟩, ?_⟩
    rw [hi]
    exact hflag
  obtain ⟨idx, hfind⟩ := Option.isSome_iff_exists.mp hsome
  have hfree := List.find?_some hfind
  rw [downloadBearer, bearerIndex, hfind]
  dsimp only [Option.getD_some]
  cases hslot : p.slots[idx]? with
  | none =>
    rw [hslot] at hfree
    exact absurd hfree (by decide)
  | some t =>
    rw [hslot] at hfree
    have hmem := List.mem_of_getElem? hslot
    obtain ⟨token, flag⟩ := t
    cases flag with
    | false => exact hmem
    | true => exact absurd hfree Bool.false_ne_true

theorem TokenPool.downloadBearer_slots (p : TokenPool) : p.downloadBearer.2.slots = p.slots := by
  rw [downloadBearer]
  dsimp only
  split <;> rfl

/-- In a pool no slot is twice, once with its flag and once without. -/
theorem TokenPool.flag_unique {p : TokenPool} {token : String} (h : (token, true) ∈ p.slots) :
    (token, false) ∉ p.slots := fun h' =>
  absurd (List.inj_on_of_nodup_map p.nodup h h' rfl) (by simp)

/-- Marking flags the slot of a token of the pool. -/
theorem TokenPool.mem_markSlots {token t : String} {slots : List (String × Bool)}
    (hnodup : (slots.map Prod.fst).Nodup) :
    (t, true) ∈ markSlots token slots ↔ (t, true) ∈ slots ∨ (t = token ∧ (t, false) ∈ slots) := by
  rw [markSlots_eq_map token slots hnodup, List.mem_map]
  constructor
  · rintro ⟨⟨t', flag⟩, hmem, heq⟩
    obtain ⟨rfl, hflag⟩ := Prod.mk.inj heq
    cases flag with
    | true => exact Or.inl hmem
    | false => exact Or.inr ⟨by simpa using hflag, hmem⟩
  · rintro (hmem | ⟨rfl, hmem⟩)
    · exact ⟨(t, true), hmem, by simp⟩
    · exact ⟨(t, false), hmem, by simp⟩

/-- A round of the download client that goes on: its token was not limited and the slots are the
    same, or it is marked and some slot is free. -/
theorem turn_again_slots {cfg : ClientConfig} {maxTokenAttempts : Nat} {l l' : Loop} {a : Answer}
    {p : TokenPool} (hclient : cfg.isDownloadClient = true) (hpool : l.pool = some p)
    (h : turn cfg none maxTokenAttempts l a = .again l') : ∃ p', l'.pool = some p' ∧
      ((limitedAnswer a = false ∧ p'.slots = p.slots) ∨
        (limitedAnswer a = true ∧ p'.slots = TokenPool.markSlots p.downloadBearer.1 p.slots ∧
          p'.anyNonExhausted = true)) := by
  have hactive : activeToken cfg none l.pool = (p.downloadBearer.1, some p.downloadBearer.2) := by
    rw [hpool, activeToken]
  rw [turn.eq_def, hactive] at h
  cases a with
  | error e =>
    refine ⟨p.downloadBearer.2, ?_, Or.inl ⟨rfl, p.downloadBearer_slots⟩⟩
    dsimp only at h
    split at h
    · split at h
      · exact (Turn.again.inj h).symm ▸ rfl
      · rw [retryUpTo] at h
        split at h
        · exact absurd h (by simp)
        · exact (Turn.again.inj h).symm ▸ rfl
    · split at h <;> exact absurd h (by simp)
  | response r =>
    dsimp only at h
    by_cases hok : isSuccess r.status = true
    · rw [hok, if_neg (by simp), if_pos rfl] at h
      exact absurd h (by simp)
    · have hnot : isSuccess r.status = false := Bool.eq_false_iff.mpr hok
      rw [hnot, hclient, if_pos (by decide), downloadFailed] at h
      dsimp only at h
      split at h
      · rename_i hlimited
        split at h
        · rename_i hmore
          refine ⟨p.downloadBearer.2.markExhausted p.downloadBearer.1,
            (Turn.again.inj h).symm ▸ rfl, Or.inr ⟨?_, ?_, ?_⟩⟩
          · rw [limitedAnswer, hnot]
            exact hlimited
          · show TokenPool.markSlots _ p.downloadBearer.2.slots = _
            rw [p.downloadBearer_slots]
          · rw [Bool.and_eq_true] at hmore
            exact hmore.2
        · exact absurd h (by simp)
      · exact absurd h (by simp)

/-- **No token is used again after it answered with a bandwidth limit**, from a round on in which the
    tokens of `gone` have answered so. -/
theorem uses_fresh {cfg : ClientConfig} {maxTokenAttempts : Nat} (hclient : cfg.isDownloadClient = true) :
    ∀ (answers : List Answer) (l : Loop) (p : TokenPool) (gone : List String), l.pool = some p →
      (∀ t ∈ gone, (t, true) ∈ p.slots) → (gone ≠ [] → p.anyNonExhausted = true) →
      (∀ u ∈ uses cfg none maxTokenAttempts l answers, u.1 ∉ gone) ∧
      (uses cfg none maxTokenAttempts l answers).Pairwise fun u v =>
        limitedAnswer u.2 = true → v.1 ≠ u.1
  | [], l, p, gone, _, _, _ => ⟨fun u hu => absurd hu List.not_mem_nil, List.Pairwise.nil⟩
  | a :: rest, l, p, gone, hpool, hmarked, hfree => by
    have htoken : (activeToken cfg none l.pool).1 = p.downloadBearer.1 := by rw [hpool, activeToken]
    have hnew : p.downloadBearer.1 ∉ gone := by
      intro hmem
      have hslot := TokenPool.downloadBearer_free (hfree (List.ne_nil_of_mem hmem))
      exact TokenPool.flag_unique (hmarked _ hmem) hslot
    rw [uses, htoken]
    cases hturn : turn cfg none maxTokenAttempts l a with
    | done result pool =>
      refine ⟨fun u hu => ?_, List.pairwise_singleton _ _⟩
      rw [List.mem_singleton.mp hu]
      exact hnew
    | again l' =>
      obtain ⟨p', hpool', hcase⟩ := turn_again_slots hclient hpool hturn
      rcases hcase with ⟨hlimited, hslots⟩ | ⟨hlimited, hslots, hany⟩
      · -- nothing is marked, and this request limits no later one
        obtain ⟨hout, hpair⟩ := uses_fresh hclient rest l' p' gone hpool' (hslots ▸ hmarked)
          fun hne => by rw [TokenPool.anyNonExhausted, hslots]; exact hfree hne
        refine ⟨fun u hu => ?_, List.pairwise_cons.mpr ⟨fun v _ hl => ?_, hpair⟩⟩
        · rcases List.mem_cons.mp hu with rfl | hu
          · exact hnew
          · exact hout u hu
        · rw [hlimited] at hl
          exact absurd hl Bool.false_ne_true
      · have hnow : (p.downloadBearer.1, true) ∈ p'.slots := by
          rw [hslots, TokenPool.mem_markSlots p.nodup]
          by_cases hfreeNow : p.anyNonExhausted = true
          · exact Or.inr ⟨rfl, TokenPool.downloadBearer_free hfreeNow⟩
          · -- with every slot flagged, the mark could not leave a free one
            exfalso
            rw [TokenPool.anyNonExhausted, List.any_eq_true] at hany hfreeNow
            obtain ⟨⟨t, flag⟩, hmem, hflag⟩ := hany
            rw [hslots, TokenPool.markSlots_eq_map _ _ p.nodup] at hmem
            obtain ⟨s, hs, heq⟩ := List.mem_map.mp hmem
            refine hfreeNow ⟨s, hs, ?_⟩
            rw [← heq] at hflag
            cases hs2 : s.2 with
            | false => rfl
            | true =>
              rw [hs2] at hflag
              exact absurd hflag (by simp)
        obtain ⟨hout, hpair⟩ := uses_fresh hclient rest l' p' (p.downloadBearer.1 :: gone) hpool'
          (fun t ht => by
            rcases List.mem_cons.mp ht with rfl | ht
            · exact hnow
            · rw [hslots, TokenPool.mem_markSlots p.nodup]
              exact Or.inl (hmarked t ht))
          fun _ => hany
        refine ⟨fun u hu => ?_, List.pairwise_cons.mpr ⟨fun v hv _ heq => ?_, hpair⟩⟩
        · rcases List.mem_cons.mp hu with rfl | hu
          · exact hnew
          · exact fun hmem => hout u hu (List.mem_cons_of_mem _ hmem)
        · exact hout v hv (heq ▸ List.mem_cons_self)

/-! ## Everything together -/

/-- The pool that `execute` uses answers as this one, and is the same as this one afterwards. -/
structure PoolState.Agrees (p : PoolState) (h : p.Wf) : Prop where
  bearer : ∀ token q, p.downloadBearer = some (token, q) →
    ∃ hq : q.Wf, (p.toPool h).downloadBearer = (token, q.toPool hq)
  marked : ∀ token q, p.markExhausted token = some q →
    ∃ hq : q.Wf, (p.toPool h).markExhausted token = q.toPool hq
  free : p.anyNonExhausted = some (p.toPool h).anyNonExhausted

theorem PoolState.Wf.agrees {p : PoolState} (h : p.Wf) : p.Agrees h where
  bearer token q hq := downloadBearer_refines h hq
  marked token q hq := markExhausted_refines h hq
  free := anyNonExhausted_refines h

/-- **The pool always offers a usable token.**  After any operations the pool is well formed, with no
    index out of bounds on the way; `download_bearer` offers what `Offers` says; the pool that
    `execute` uses agrees with it; and an `execute` of the download client that starts there uses no
    token again after it answered with a bandwidth limit. -/
theorem pool_offers (p : PoolState) (h : p.Wf) (ops : List PoolOp) :
    ∃ (p' : PoolState) (h' : p'.Wf), run poolStep p ops = some p' ∧ p'.Offers ∧ p'.Agrees h' ∧
      ∀ cfg : ClientConfig, cfg.isDownloadClient = true → ∀ answers : List Answer,
        (uses cfg none (tokenAttemptsOf (some (p'.toPool h'))) ⟨0, 0, false, some (p'.toPool h')⟩
          answers).Pairwise fun u v => limitedAnswer u.2 = true → v.1 ≠ u.1 := by
  obtain ⟨p', hrun, h'⟩ := PoolState.run_wf ops p h
  refine ⟨p', h', hrun, PoolState.downloadBearer_spec h', h'.agrees, fun cfg hclient answers => ?_⟩
  exact (uses_fresh hclient answers _ (p'.toPool h') [] rfl (fun t ht => absurd ht List.not_mem_nil)
    fun hne => absurd rfl hne).2

/-- A download client. -/
def downloadClient : ClientConfig := ⟨"a", 3, true, by decide⟩

/-- `bytes_limit_reached` -/
def limitReached : Answer := .response ⟨503, "503", some "bytes_limit_reached", false, false, .unparsed⟩

/-- Two tokens, the first with its flag: after a rotation the second is offered, and a call uses it
    once, as it is limited, too. -/
theorem pool_offers_two : ∃ (p' : PoolState) (h' : p'.Wf),
    run poolStep ⟨["a", "b"], [true, false], 5⟩ [.rotate, .downloadBearer] = some p' ∧ p'.Offers ∧
    p'.Agrees h' ∧
    (uses downloadClient none (tokenAttemptsOf (some (p'.toPool h')))
      ⟨0, 0, false, some (p'.toPool h')⟩ [limitReached, limitReached]).Pairwise
        fun u v => limitedAnswer u.2 = true → v.1 ≠ u.1 := by
  obtain ⟨p', h', hrun, hoffers, hagrees, huses⟩ := pool_offers ⟨["a", "b"], [true, false], 5⟩
    ⟨by decide, by decide, rfl⟩ [.rotate, .downloadBearer]
  exact ⟨p', h', hrun, hoffers, hagrees, huses downloadClient rfl [limitReached, limitReached]⟩

end RdRs.Rd

/-
  `rd/token_pool.rs` — the tokens of the download client, each with a flag "bandwidth exhausted".

  The pool is never empty (`TokenPool::new` asserts it) and no token is in it twice
  (`Config::all_download_tokens` leaves repeated ones out); both are fields, so that no operation can
  lose them.

  * `eligible_markExhausted` — marking the first eligible token takes it from the list, and no other;
  * `allDownloadTokens_wf` — the tokens of a configuration make a pool.
-/
import Mathlib

set_option linter.unusedVariables false

namespace RdRs.Rd

/-- `Config::all_download_tokens` -/
def allDownloadTokens (token : String) (downloadTokens : List String) : List String :=
  downloadTokens.foldl (fun tokens t => if t ∈ tokens then tokens else tokens ++ [t]) [token]

theorem allDownloadTokens_wf (token : String) (downloadTokens : List String) :
    allDownloadTokens token downloadTokens ≠ [] ∧
      (allDownloadTokens token downloadTokens).Nodup := by
  have hfold : ∀ ts tokens : List String, tokens ≠ [] ∧ tokens.Nodup →
      ts.foldl (fun tokens t => if t ∈ tokens then tokens else tokens ++ [t]) tokens ≠ [] ∧
      (ts.foldl (fun tokens t => if t ∈ tokens then tokens else tokens ++ [t]) tokens).Nodup := by
    intro ts
    induction ts with
    | nil =>
      intro tokens h
      exact h
    | cons t ts ih =>
      intro tokens h
      rw [List.foldl_cons]
      refine ih _ ?_
      by_cases hold : t ∈ tokens
      · rw [if_pos hold]
        exact h
      · rw [if_neg hold]
        refine ⟨by simp, ?_⟩
        rw [List.nodup_append]
        refine ⟨h.2, List.nodup_singleton t, fun a ha b hb => ?_⟩
        rw [List.mem_singleton.mp hb]
        exact fun hab => hold (hab ▸ ha)
  exact hfold downloadTokens [token] ⟨by simp, List.nodup_singleton token⟩

/-- Tokens with their flags, and the index the next download starts its search at. -/
structure TokenPool where
  slots : List (String × Bool)
  current : Nat
  nonempty : slots ≠ []
  nodup : (slots.map Prod.fst).Nodup

namespace TokenPool

/-- `TokenPool::new`, on the tokens of a configuration -/
def new (token : String) (downloadTokens : List String) : TokenPool where
  slots := (allDownloadTokens token downloadTokens).map fun t => (t, false)
  current := 0
  nonempty := by
    rw [ne_eq, List.map_eq_nil_iff]
    exact (allDownloadTokens_wf token downloadTokens).1
  nodup := by
    rw [List.map_map]
    show ((allDownloadTokens token downloadTokens).map id).Nodup
    rw [List.map_id]
    exact (allDownloadTokens_wf token downloadTokens).2

/-- `TokenPool::len` -/
def len (p : TokenPool) : Nat := p.slots.length

/-- `TokenPool::any_non_exhausted` -/
def anyNonExhausted (p : TokenPool) : Bool := p.slots.any fun s => !s.2

/-- `TokenPool::eligible_tokens_in_order` -/
def eligibleTokensInOrder (p : TokenPool) : List String :=
  (p.slots.filter fun s => !s.2).map Prod.fst

/-- The search of `download_bearer`: the first index from `start` on, with wrap-around, whose slot is
    not exhausted; `start` itself when all are. -/
def bearerIndex (p : TokenPool) (start : Nat) : Nat :=
  (((List.range p.len).map fun step => (start + step) % p.len).find? fun idx =>
    (p.slots[idx]?.map fun s => !s.2).getD false).getD start

/-- `TokenPool::download_bearer` -/
def downloadBearer (p : TokenPool) : String × TokenPool :=
  let start := p.current % p.len
  let idx := p.bearerIndex start
  ((p.slots[idx]?.map Prod.fst).getD "",
    if idx = start then p else { p with current := idx })

/-- The first slot with the token gets its flag. -/
def markSlots (token : String) : List (String × Bool) → List (String × Bool)
  | [] => []
  | s :: slots => if s.1 = token then (s.1, true) :: slots else s :: markSlots token slots

theorem map_fst_markSlots (token : String) (slots : List (String × Bool)) :
    (markSlots token slots).map Prod.fst = slots.map Prod.fst := by
  induction slots with
  | nil => rfl
  | cons s slots ih =>
    rw [markSlots]
    split
    · rfl
    · rw [List.map_cons, List.map_cons, ih]

/-- In a pool no token is twice, so marking one flags its slot and no other. -/
theorem markSlots_eq_map (token : String) : ∀ slots : List (String × Bool),
    (slots.map Prod.fst).Nodup →
    markSlots token slots = slots.map fun s => (s.1, s.2 || s.1 == token)
  | [], _ => rfl
  | s :: slots, h => by
    rw [List.map_cons, List.nodup_cons] at h
    rw [markSlots, List.map_cons]
    by_cases hs : s.1 = token
    · have hother : slots.map (fun s => (s.1, s.2 || s.1 == token)) = slots := by
        refine (List.map_congr_left fun s' hs' => ?_).trans (List.map_id slots)
        have hne : ¬ s'.1 = token := fun heq =>
          h.1 (List.mem_map.mpr ⟨s', hs', heq.trans hs.symm⟩)
        rw [beq_false_of_ne hne, Bool.or_false]
        rfl
      rw [if_pos hs, hother, beq_iff_eq.mpr hs, Bool.or_true]
    · rw [if_neg hs, markSlots_eq_map token slots h.2, beq_false_of_ne hs, Bool.or_false]

/-- `TokenPool::mark_exhausted` -/
def markExhausted (p : TokenPool) (token : String) : TokenPool :=
  { p with
    slots := markSlots token p.slots
    nonempty := by
      intro h
      have hmap := map_fst_markSlots token p.slots
      rw [h, List.map_nil] at hmap
      exact p.nonempty (List.map_eq_nil_iff.mp hmap.symm)
    nodup := by
      rw [map_fst_markSlots]
      exact p.nodup }

/-- `TokenPool::clear_all_exhausted` -/
def clearAllExhausted (p : TokenPool) : TokenPool :=
  { p with
    slots := p.slots.map fun s => (s.1, false)
    nonempty := fun h => p.nonempty (List.map_eq_nil_iff.mp h)
    nodup := by
      rw [List.map_map]
      exact p.nodup }

theorem len_pos (p : TokenPool) : 0 < p.len := List.length_pos_iff.mpr p.nonempty

theorem length_eligible_le (p : TokenPool) : p.eligibleTokensInOrder.length ≤ p.len := by
  rw [eligibleTokensInOrder, List.length_map]
  exact List.length_filter_le _ _

/-- Marking the first eligible token leaves the others eligible, and only them. -/
theorem eligible_markExhausted {p : TokenPool} {token : String} {rest : List String}
    (h : p.eligibleTokensInOrder = token :: rest) :
    (p.markExhausted token).eligibleTokensInOrder = rest := by
  have hslots : ∀ slots : List (String × Bool), (slots.map Prod.fst).Nodup →
      (slots.filter fun s => !s.2).map Prod.fst = token :: rest →
      ((markSlots token slots).filter fun s => !s.2).map Prod.fst = rest := by
    intro slots
    induction slots with
    | nil =>
      intro _ h
      exact absurd h nofun
    | cons s slots ih =>
      intro hnodup h
      obtain ⟨t, flag⟩ := s
      rw [List.map_cons, List.nodup_cons] at hnodup
      rw [markSlots]
      cases flag with
      | false =>
        -- the first slot without a flag is the token's
        obtain ⟨rfl, hrest⟩ := List.cons.inj h
        rw [if_pos rfl]
        exact hrest
      | true =>
        have htail : (slots.filter fun s => !s.2).map Prod.fst = token :: rest := h
        have hne : ¬t = token := by
          rintro rfl
          have hmem : t ∈ (slots.filter fun s => !s.2).map Prod.fst := htail ▸ List.mem_cons_self
          obtain ⟨s, hs, hst⟩ := List.mem_map.mp hmem
          exact hnodup.1 (List.mem_map.mpr ⟨s, (List.mem_filter.mp hs).1, hst⟩)
        rw [if_neg hne]
        exact ih hnodup.2 htail
  exact hslots p.slots p.nodup h

end TokenPool

end RdRs.Rd

/-
  Reading a list page by page, with a cursor.

  A reader asks from a cursor, takes a non-empty part of the reply from its front and asks again from
  the position of the last item it took, until a reply is empty.  `walk` is that reader: it takes
  `consume n + 1` items of reply number `n`, or all of them if there are fewer.

  Positions increase along the list, so what lies `beyond` a cursor is a suffix, and taking items up
  to one of them leaves what lies beyond that one (`beyond_of_split`).

  * `walk_spec` — if each reply is a front part of what lies beyond the cursor, the walk ends with a
    front part of the list; with ALL of it, if no reply is empty too early;
  * `walk_mem` — what the reader sees was in a reply;
  * `walk_trapped` — if replies to cursors up to a bound never go beyond that bound, neither does the
    walk.
-/
import Mathlib

set_option linter.unusedVariables false

namespace RdRs.Paging

variable {α β κ : Type*}

/-- The reader, from its round `n` and its cursor; `none` is a reply that does not come. -/
def walk (serve : Nat → κ → Option (List β)) (cursor : β → κ) (consume : Nat → Nat) :
    Nat → Nat → κ → Option (List β)
  | 0, _, _ => none
  | fuel + 1, n, c =>
    match serve n c with
    | none => none
    | some reply =>
      let taken := reply.take (consume n + 1)
      match taken.getLast? with
      | none => some []
      | some e => (walk serve cursor consume fuel (n + 1) (cursor e)).map (taken ++ ·)

/-- A round with an empty reply is the last. -/
theorem walk_nil {serve : Nat → κ → Option (List β)} {cursor : β → κ} {consume : Nat → Nat} {n : Nat}
    {c : κ} (h : serve n c = some []) (fuel : Nat) :
    walk serve cursor consume (fuel + 1) n c = some [] := by
  rw [walk, h]
  rfl

/-- A round that takes items up to `e`. -/
theorem walk_cons {serve : Nat → κ → Option (List β)} {cursor : β → κ} {consume : Nat → Nat} {n : Nat}
    {c : κ} {reply front : List β} {e : β} (h : serve n c = some reply)
    (htaken : reply.take (consume n + 1) = front ++ [e]) (fuel : Nat) :
    walk serve cursor consume (fuel + 1) n c =
      (walk serve cursor consume fuel (n + 1) (cursor e)).map ((front ++ [e]) ++ ·) := by
  rw [walk, h]
  simp only [htaken, List.getLast?_concat]

/-- Something is taken of a reply that is not empty. -/
theorem take_eq_concat {reply : List β} (h : reply ≠ []) (m : Nat) :
    ∃ front e, reply.take (m + 1) = front ++ [e] := by
  have hne : reply.take (m + 1) ≠ [] := by
    rw [ne_eq, List.take_eq_nil_iff, not_or]
    exact ⟨Nat.succ_ne_zero m, h⟩
  exact ⟨_, _, (List.dropLast_append_getLast hne).symm⟩

/-- What the reader sees was in a reply to one of its cursors. -/
theorem walk_mem {serve : Nat → κ → Option (List β)} {cursor : β → κ} {consume : Nat → Nat}
    {ok : κ → Prop} (hok : ∀ n c reply, ok c → serve n c = some reply → ∀ e ∈ reply, ok (cursor e)) :
    ∀ {fuel n : Nat} {c : κ} {seen : List β}, ok c →
      walk serve cursor consume fuel n c = some seen → ∀ b ∈ seen,
        ∃ m d reply, ok d ∧ serve m d = some reply ∧ b ∈ reply := by
  intro fuel
  induction fuel with
  | zero =>
    intro n c seen _ hwalk
    rw [walk] at hwalk
    exact absurd hwalk.symm (Option.some_ne_none _)
  | succ fuel ih =>
    intro n c seen hc hwalk b hb
    cases hreply : serve n c with
    | none =>
      rw [walk, hreply] at hwalk
      exact absurd hwalk.symm (Option.some_ne_none _)
    | some reply =>
      by_cases hnil : reply = []
      · rw [walk_nil (hnil ▸ hreply) fuel, Option.some.injEq] at hwalk
        rw [← hwalk] at hb
        exact absurd hb List.not_mem_nil
      · obtain ⟨front, e, htaken⟩ := take_eq_concat hnil (consume n)
        rw [walk_cons hreply htaken, Option.map_eq_some_iff] at hwalk
        obtain ⟨later, hlater, rfl⟩ := hwalk
        have hin : ∀ x ∈ front ++ [e], x ∈ reply := fun x hx => List.mem_of_mem_take (htaken ▸ hx)
        rcases List.mem_append.mp hb with hb | hb
        · exact ⟨n, c, reply, hc, hreply, hin b hb⟩
        · have he := hin e (List.mem_append_right _ (List.mem_singleton.mpr rfl))
          exact ih (hok n c reply hc hreply e he) hlater b hb

variable [LinearOrder κ]

/-- The items at positions beyond the cursor. -/
def beyond (pos : α → κ) (items : List α) (c : κ) : List α := items.filter fun a => decide (c < pos a)

/-- Beyond an item lies what follows it. -/
theorem beyond_of_split {pos : α → κ} {items : List α} (hs : items.Pairwise fun a b => pos a < pos b)
    {c : κ} {xs ys : List α} {a : α} (h : beyond pos items c = xs ++ a :: ys) :
    beyond pos items (pos a) = ys := by
  have hsub : (xs ++ a :: ys).Pairwise fun a b => pos a < pos b := by
    rw [← h]
    exact hs.sublist List.filter_sublist
  rw [List.pairwise_append, List.pairwise_cons] at hsub
  obtain ⟨-, ⟨hys, -⟩, hxs⟩ := hsub
  have ha : c < pos a := by
    have hmem : a ∈ beyond pos items c := h ▸ List.mem_append_right _ List.mem_cons_self
    exact of_decide_eq_true (List.mem_filter.mp hmem).2
  -- beyond `a` is beyond the cursor, too
  have htwice : beyond pos items (pos a) =
      (beyond pos items c).filter fun b => decide (pos a < pos b) := by
    rw [beyond, beyond, List.filter_filter]
    refine List.filter_congr fun b _ => ?_
    rw [← Bool.decide_and]
    exact decide_eq_decide.mpr ⟨fun hb => ⟨hb, ha.trans hb⟩, fun hb => hb.1⟩
  rw [htwice, h, List.filter_append, List.filter_cons, if_neg (by simp),
    List.filter_eq_nil_iff.mpr fun b hb => by simpa using (hxs b hb a List.mem_cons_self).le,
    List.filter_eq_self.mpr fun b hb => by simpa using hys b hb, List.nil_append]

section

-- what is read, and what a reply shows of it
variable {pos : α → κ} {items : List α} {serve : Nat → κ → Option (List β)} {cursor : β → κ}
  {view : β → α} {consume : Nat → Nat} {ok : κ → Prop}

/-- **What the reader sees.**  The walk ends with a front part of what lies beyond the cursor it
    starts from, and with all of it if no reply is empty before the end. -/
theorem walk_spec (hs : items.Pairwise fun a b => pos a < pos b)
    (hview : ∀ b, pos (view b) = cursor b) (hok : ∀ a ∈ items, ok (pos a))
    (hserve : ∀ n c, ok c → ∃ reply, serve n c = some reply ∧ reply.map view <+: beyond pos items c) :
    ∀ fuel n c, ok c → (beyond pos items c).length < fuel →
      ∃ seen, walk serve cursor consume fuel n c = some seen ∧
        seen.map view <+: beyond pos items c ∧
        ((∀ n c, ok c → serve n c = some [] → beyond pos items c = []) →
          seen.map view = beyond pos items c) := by
  intro fuel
  induction fuel with
  | zero => intro n c _ h; exact absurd h (Nat.not_lt_zero _)
  | succ fuel ih =>
    intro n c hc hfuel
    obtain ⟨reply, hreply, hfront⟩ := hserve n c hc
    by_cases hnil : reply = []
    · rw [hnil] at hreply
      exact ⟨[], walk_nil hreply fuel, List.nil_prefix, fun hfull => (hfull n c hc hreply).symm⟩
    · obtain ⟨front, e, htaken⟩ := take_eq_concat hnil (consume n)
      -- what was taken is a front part, and the rest lies beyond its last item
      have hpre : (front ++ [e]).map view <+: beyond pos items c := by
        rw [← htaken]
        exact ((List.take_prefix _ _).map view).trans hfront
      obtain ⟨rest, hrest⟩ := hpre
      rw [List.map_append, List.map_singleton, List.append_assoc, List.singleton_append] at hrest
      have hbeyond := beyond_of_split hs hrest.symm
      rw [hview] at hbeyond
      have hmem : view e ∈ items := by
        have hin : view e ∈ beyond pos items c :=
          hrest ▸ List.mem_append_right _ List.mem_cons_self
        exact (List.mem_filter.mp hin).1
      have hlen : rest.length < fuel := by
        rw [← hrest, List.length_append, List.length_cons] at hfuel
        omega
      obtain ⟨seen, hwalk, hseen, hfull⟩ :=
        ih (n + 1) (cursor e) (hview e ▸ hok _ hmem) (hbeyond ▸ hlen)
      rw [hbeyond] at hseen hfull
      refine ⟨(front ++ [e]) ++ seen, ?_, ?_, fun h => ?_⟩
      · rw [walk_cons hreply htaken, hwalk]
        rfl
      · rw [← hrest, List.map_append, List.map_append, List.map_singleton, List.append_assoc,
          List.singleton_append]
        exact List.prefix_append_right_inj _ |>.mpr (List.cons_prefix_cons.mpr ⟨rfl, hseen⟩)
      · rw [List.map_append, hfull h, ← hrest, List.map_append, List.map_singleton,
          List.append_assoc, List.singleton_append]

/-- **A walk that cannot leave.**  If replies to cursors up to a bound stay within the bound, so does
    everything the reader sees. -/
theorem walk_trapped {bound : κ}
    (hserve : ∀ n c reply, ok c → c ≤ bound → serve n c = some reply →
      ∀ e ∈ reply, ok (cursor e) ∧ cursor e ≤ bound) :
    ∀ fuel n c seen, ok c → c ≤ bound → walk serve cursor consume fuel n c = some seen →
      ∀ e ∈ seen, cursor e ≤ bound := by
  intro fuel
  induction fuel with
  | zero =>
    intro n c seen _ _ hwalk
    rw [walk] at hwalk
    exact absurd hwalk.symm (Option.some_ne_none _)
  | succ fuel ih =>
    intro n c seen hok hc hwalk
    cases hreply : serve n c with
    | none =>
      rw [walk, hreply] at hwalk
      exact absurd hwalk.symm (Option.some_ne_none _)
    | some reply =>
      by_cases hnil : reply = []
      · rw [walk_nil (hnil ▸ hreply) fuel, Option.some.injEq] at hwalk
        intro e he
        rw [← hwalk] at he
        exact absurd he List.not_mem_nil
      · obtain ⟨front, e, htaken⟩ := take_eq_concat hnil (consume n)
        rw [walk_cons hreply htaken, Option.map_eq_some_iff] at hwalk
        obtain ⟨seen', hwalk', rfl⟩ := hwalk
        have hin : ∀ b ∈ front ++ [e], ok (cursor b) ∧ cursor b ≤ bound := fun b hb =>
          hserve n c reply hok hc hreply b (List.mem_of_mem_take (htaken ▸ hb))
        obtain ⟨hoke, he⟩ := hin e (List.mem_append_right _ (List.mem_singleton.mpr rfl))
        intro b hb
        rcases List.mem_append.mp hb with hb | hb
        · exact (hin b hb).2
        · exact ih (n + 1) (cursor e) seen' hoke he hwalk' b hb

end

end RdRs.Paging

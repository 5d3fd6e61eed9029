/-
  The rows of the unrestrict cache over time: `rd/api/mod.rs`, and the sweep loop of `main.rs`.

  Rows are stored by `unrestrict_link` and taken out by the three `clear` functions.  The sweep takes
  out what is too old, so that the map does not grow; a look-up does not give what is too old anyway.
  A `retain` of the map locks one part of it (a shard) after the other, so that stores and look-ups
  come in between, and the age is by the clock as it was when the sweep began.

  * `retainPart` — what a `retain` does to one part of the map;
  * `sweepParts_eq` — a sweep with nothing in between is `sweep_unrestrict_cache_expired`;
  * `Agrees` — with and without sweeps, the caches differ in rows that are too old from now on;
  * `sweep_invisible` — so no look-up, at any time, can tell whether there have been sweeps; and what
    a finished sweep leaves was young when it began, or has been stored since.
-/
import RdRs.Rd.Unrestrict

set_option linter.unusedVariables false

namespace RdRs.Rd.Sweep

/-! ## Taking rows out -/

/-- The rows of a map that pass a test. -/
def filterRows {α β : Type} [DecidableEq α] (rows : AList fun _ : α => β) (keep : α → β → Bool) :
    AList fun _ : α => β :=
  ⟨rows.entries.filter fun e => keep e.1 e.2, rows.nodupKeys.sublist List.filter_sublist⟩

theorem lookup_filterRows {α β : Type} [DecidableEq α] (rows : AList fun _ : α => β)
    (keep : α → β → Bool) (a : α) :
    (filterRows rows keep).lookup a = (rows.lookup a).filter (keep a) := by
  refine Option.ext fun b => ?_
  rw [Option.filter_eq_some_iff]
  show b ∈ (filterRows rows keep).lookup a ↔ b ∈ rows.lookup a ∧ _
  rw [AList.mem_lookup_iff, AList.mem_lookup_iff]
  exact List.mem_filter

/-- `cache.retain(…)` -/
def retain (c : UnrestrictCache) (keep : String × String → Download × Nat → Bool) :
    UnrestrictCache where
  rows := filterRows c.rows keep
  own token link d since h := by
    rw [lookup_filterRows, Option.filter_eq_some_iff] at h
    exact c.own token link d since h.1

/-- `cache.retain(…)`, as far as the part `i` of the map -/
def retainPart (part : String × String → Nat) (i : Nat)
    (keep : String × String → Download × Nat → Bool) (c : UnrestrictCache) : UnrestrictCache :=
  retain c fun key row => part key != i || keep key row

/-- `clear_unrestrict_cache` -/
def clearUnrestrictCache (c : UnrestrictCache) (token link : String) : UnrestrictCache :=
  retain c fun key _ => key != (token, link)

/-- The test of `clear_unrestrict_cache_for_source_link` -/
def otherLink (link : String) (key : String × String) (row : Download × Nat) : Bool :=
  key.2 != link

/-- The test of `clear_unrestrict_cache_all`, which is a `clear` -/
def noRow (key : String × String) (row : Download × Nat) : Bool := false

/-- The test of `sweep_unrestrict_cache_expired` -/
def notExpired (maxAge now : Nat) (key : String × String) (row : Download × Nat) : Bool :=
  !decide (maxAge ≤ now - row.2)

/-- `sweep_unrestrict_cache_expired`, and how many rows it took out -/
def sweepUnrestrictCacheExpired (c : UnrestrictCache) (maxAge now : Nat) : UnrestrictCache × Nat :=
  (retain c (notExpired maxAge now),
    (c.rows.entries.filter fun e => !notExpired maxAge now e.1 e.2).length)

@[simp] theorem lookup_retain (c : UnrestrictCache) (keep : String × String → Download × Nat → Bool)
    (key : String × String) :
    (retain c keep).rows.lookup key = (c.rows.lookup key).filter (keep key) :=
  lookup_filterRows c.rows keep key

/-- What a test keeps is a row. -/
theorem retain_of_lookup {c : UnrestrictCache} {keep : String × String → Download × Nat → Bool}
    {key : String × String} {row : Download × Nat} (h : (retain c keep).rows.lookup key = some row) :
    c.rows.lookup key = some row ∧ keep key row = true := by
  rw [lookup_retain, Option.filter_eq_some_iff] at h
  exact h

/-! ## The loop -/

/-- A sweep that is going on: when it read the clock, and which part of the map is next. -/
structure Going where
  began : Nat
  next : Nat

/-- The map, the clock and the sweep loop; `swept` is when the last sweep began that has ended. -/
structure St where
  clock : Nat
  cache : UnrestrictCache
  going : Option Going
  swept : Option Nat

/-- What happens to the map: `lookUp` and `store` in a round of `unrestrict_link`, the three `clear`
    functions and the sweep in its parts. -/
inductive Event where
  | tick (n : Nat)
  | lookUp (token link : String)
  | store (link : String) (d : Download)
  | clear (token link : String)
  | clearForSourceLink (link : String) (i : Nat)
  | clearAll (i : Nat)
  | sweepBegins
  | sweepPart

/-- The event is of the sweep. -/
def Event.ofSweep : Event → Bool
  | .sweepBegins | .sweepPart => true
  | _ => false

section
variable (part : String × String → Nat) (parts : Nat)

/-- What an event does to the rows, at a time; `since` is when the sweep that goes on began. -/
def Event.rows (c : UnrestrictCache) (now : Nat) : Event → UnrestrictCache
  | .store link d => c.insert link d now
  | .clear token link => clearUnrestrictCache c token link
  | .clearForSourceLink link i => retainPart part i (otherLink link) c
  | .clearAll i => retainPart part i noRow c
  | .tick _ | .lookUp _ _ | .sweepBegins | .sweepPart => c

/-- An event. -/
def step (s : St) : Event → St
  | .tick n => { s with clock := s.clock + n }
  | .sweepBegins =>
    match s.going with
    | some _ => s
    | none => { s with going := some ⟨s.clock, 0⟩ }
  | .sweepPart =>
    match s.going with
    | some g =>
      let cache := retainPart part g.next (notExpired unrestrictCacheTtl g.began) s.cache
      if g.next + 1 < parts then { s with cache, going := some { g with next := g.next + 1 } }
      else { s with cache, going := none, swept := some g.began }
    | none => s
  | e => { s with cache := e.rows part s.cache s.clock }

/-- What a look-up gives. -/
def answer (s : St) : Event → List (Option Download)
  | .lookUp token link => [s.cache.fresh token link s.clock]
  | _ => []

/-- The look-ups of a run, in their order. -/
def answers (s : St) : List Event → List (Option Download)
  | [] => []
  | e :: events => answer s e ++ answers (step part parts s e) events

/-- Where a run ends. -/
def run (s : St) (events : List Event) : St := events.foldl (step part parts) s

/-- Nothing is stored, and no sweep goes on. -/
def start (clock : Nat) : St := ⟨clock, .empty, none, none⟩

end

/-! ## A sweep with nothing in between -/

/-- The parts before `n`, swept one after the other. -/
def sweepParts (part : String × String → Nat) (began : Nat) (c : UnrestrictCache) (n : Nat) :
    UnrestrictCache :=
  (List.range n).foldl (fun c i => retainPart part i (notExpired unrestrictCacheTtl began) c) c

theorem lookup_sweepParts (part : String × String → Nat) (began : Nat) (c : UnrestrictCache)
    (key : String × String) : ∀ n, (sweepParts part began c n).rows.lookup key =
      (c.rows.lookup key).filter fun row =>
        !decide (part key < n) || notExpired unrestrictCacheTtl began key row
  | 0 => by
    rw [show sweepParts part began c 0 = c from rfl]
    cases c.rows.lookup key with
    | none => rfl
    | some row => simp [Option.filter_some]
  | n + 1 => by
    rw [sweepParts, List.range_succ, List.foldl_append]
    show (retainPart part n _ (sweepParts part began c n)).rows.lookup key = _
    rw [retainPart, lookup_retain, lookup_sweepParts part began c key n, Option.filter_filter]
    congr 1
    funext row
    by_cases hpart : part key = n
    · simp [hpart]
    · have hlt : part key < n + 1 ↔ part key < n := by omega
      simp [hpart, hlt]

/-- **The parts together are the whole function.** -/
theorem sweepParts_eq {part : String × String → Nat} {parts : Nat} (hpart : ∀ key, part key < parts)
    (began : Nat) (c : UnrestrictCache) (key : String × String) :
    (sweepParts part began c parts).rows.lookup key =
      (sweepUnrestrictCacheExpired c unrestrictCacheTtl began).1.rows.lookup key := by
  rw [lookup_sweepParts, sweepUnrestrictCacheExpired, lookup_retain]
  congr 1
  funext row
  simp [hpart key]

/-! ## What a sweep takes out is too old -/

/-- The second map has the rows of the first one, and besides only rows that are too old. -/
def Agrees (now : Nat) (c d : UnrestrictCache) : Prop :=
  ∀ key, c.rows.lookup key = d.rows.lookup key ∨
    c.rows.lookup key = none ∧
      ∃ row, d.rows.lookup key = some row ∧ unrestrictCacheTtl ≤ now - row.2

namespace Agrees

variable {now : Nat} {c d : UnrestrictCache}

theorem refl (now : Nat) (c : UnrestrictCache) : Agrees now c c := fun key => Or.inl rfl

/-- Rows that are too old stay too old. -/
theorem later (h : Agrees now c d) {now' : Nat} (hle : now ≤ now') : Agrees now' c d := by
  intro key
  rcases h key with heq | ⟨hnone, row, hrow, hold⟩
  · exact Or.inl heq
  · exact Or.inr ⟨hnone, row, hrow, Nat.le_trans hold (Nat.sub_le_sub_right hle _)⟩

theorem fresh_eq (h : Agrees now c d) (token link : String) :
    c.fresh token link now = d.fresh token link now := by
  rw [UnrestrictCache.fresh, UnrestrictCache.fresh]
  rcases h (token, link) with heq | ⟨hnone, ⟨old, since⟩, hrow, hold⟩
  · rw [heq]
  · rw [hnone, hrow]
    exact (if_neg (Nat.not_lt.mpr hold)).symm

theorem insert (h : Agrees now c d) (link : String) (download : Download) (since : Nat) :
    Agrees now (c.insert link download since) (d.insert link download since) := by
  intro key
  by_cases hkey : key = (download.token, link)
  · rw [hkey]
    left
    rw [UnrestrictCache.insert, UnrestrictCache.insert, AList.lookup_insert, AList.lookup_insert]
  · rw [UnrestrictCache.insert, UnrestrictCache.insert, AList.lookup_insert_ne hkey,
      AList.lookup_insert_ne hkey]
    exact h key

/-- Both maps lose the rows of one test. -/
theorem retain (h : Agrees now c d) (keep : String × String → Download × Nat → Bool) :
    Agrees now (Sweep.retain c keep) (Sweep.retain d keep) := by
  intro key
  rw [lookup_retain, lookup_retain]
  rcases h key with heq | ⟨hnone, row, hrow, hold⟩
  · exact Or.inl (by rw [heq])
  · rw [hnone, hrow]
    by_cases hkeep : keep key row = true
    · exact Or.inr ⟨rfl, row, by rw [Option.filter_some, if_pos hkeep], hold⟩
    · exact Or.inl (by rw [Option.filter_some, if_neg hkeep, Option.filter_none])

/-- A part is swept: only the first map loses rows. -/
theorem sweepPart (h : Agrees now c d) (part : String × String → Nat) (i : Nat) {began : Nat}
    (hbegan : began ≤ now) :
    Agrees now (retainPart part i (notExpired unrestrictCacheTtl began) c) d := by
  intro key
  rw [retainPart, lookup_retain]
  rcases h key with heq | ⟨hnone, hold⟩
  · cases hrow : d.rows.lookup key with
    | none => exact Or.inl (by rw [heq, hrow, Option.filter_none])
    | some row =>
      rw [heq, hrow, Option.filter_some]
      split
      · exact Or.inl rfl
      · rename_i hdrop
        simp only [notExpired, Bool.or_eq_true, bne_iff_ne, not_or, Bool.not_eq_true',
          decide_eq_false_iff_not, not_not] at hdrop
        exact Or.inr ⟨rfl, row, rfl, Nat.le_trans hdrop.2 (Nat.sub_le_sub_right hbegan _)⟩
  · exact Or.inr ⟨by rw [hnone, Option.filter_none], hold⟩

end Agrees

/-! ## Runs with and without sweeps -/

variable {part : String × String → Nat} {parts : Nat}

/-- A run beside the same run without its sweeps. -/
structure Beside (s t : St) : Prop where
  clock : s.clock = t.clock
  agrees : Agrees s.clock s.cache t.cache
  began : ∀ g, s.going = some g → g.began ≤ s.clock

theorem Event.rows_agrees {now : Nat} {c d : UnrestrictCache} (h : Agrees now c d) (e : Event) :
    Agrees now (e.rows part c now) (e.rows part d now) := by
  cases e with
  | store link download => exact h.insert link download now
  | clear token link => exact h.retain _
  | clearForSourceLink link i => exact h.retain _
  | clearAll i => exact h.retain _
  | tick n => exact h
  | lookUp token link => exact h
  | sweepBegins => exact h
  | sweepPart => exact h

/-- The sweep moves, and nothing else does. -/
theorem Beside.ofSweep {s t : St} (h : Beside s t) {e : Event} (he : e.ofSweep = true) :
    Beside (step part parts s e) t := by
  cases e with
  | sweepBegins =>
    simp only [step]
    split
    · exact h
    · exact ⟨h.clock, h.agrees, fun g hg => Option.some.inj hg ▸ Nat.le_refl _⟩
  | sweepPart =>
    simp only [step]
    split
    · rename_i g hgoing
      have hagrees := h.agrees.sweepPart part g.next (h.began g hgoing)
      split
      · exact ⟨h.clock, hagrees, fun g' hg' => Option.some.inj hg' ▸ h.began g hgoing⟩
      · exact ⟨h.clock, hagrees, fun g' hg' => by cases hg'⟩
    · exact h
  | _ => cases he

/-- Something happens that is not of the sweep. -/
theorem Beside.step {s t : St} (h : Beside s t) {e : Event} (he : e.ofSweep = false) :
    Beside (step part parts s e) (step part parts t e) := by
  obtain ⟨clock, cache, going, swept⟩ := s
  obtain ⟨clock', cache', going', swept'⟩ := t
  obtain rfl : clock = clock' := h.clock
  cases e with
  | tick n =>
    exact ⟨rfl, h.agrees.later (Nat.le_add_right _ _),
      fun g hg => Nat.le_trans (h.began g hg) (Nat.le_add_right _ _)⟩
  | sweepBegins => cases he
  | sweepPart => cases he
  | lookUp token link => exact ⟨rfl, Event.rows_agrees h.agrees _, h.began⟩
  | store link d => exact ⟨rfl, Event.rows_agrees h.agrees _, h.began⟩
  | clear token link => exact ⟨rfl, Event.rows_agrees h.agrees _, h.began⟩
  | clearForSourceLink link i => exact ⟨rfl, Event.rows_agrees h.agrees _, h.began⟩
  | clearAll i => exact ⟨rfl, Event.rows_agrees h.agrees _, h.began⟩

theorem Beside.answer_eq {s t : St} (h : Beside s t) (e : Event) : answer s e = answer t e := by
  cases e with
  | lookUp token link => rw [answer, answer, h.agrees.fresh_eq, h.clock]
  | _ => rfl

theorem Beside.answers_eq : ∀ (events : List Event) {s t : St}, Beside s t →
    answers part parts s events = answers part parts t (events.filter fun e => !e.ofSweep)
  | [], _, _, _ => rfl
  | e :: events, s, t, h => by
    cases he : e.ofSweep with
    | true =>
      have hnone : answer s e = [] := by cases e <;> first | rfl | cases he
      rw [List.filter_cons_of_neg (by rw [he]; decide), answers, hnone, List.nil_append]
      exact answers_eq events (h.ofSweep he)
    | false =>
      rw [List.filter_cons_of_pos (by rw [he]; rfl), answers, answers, h.answer_eq e]
      exact congrArg _ (answers_eq events (h.step he))

/-! ## What a sweep leaves -/

/-- No row is of the future, what has been swept has no row that was too old when the sweep began,
    and what has been stored since is younger. -/
structure Trimmed (part : String × String → Nat) (s : St) : Prop where
  past : ∀ key row, s.cache.rows.lookup key = some row → row.2 ≤ s.clock
  going : ∀ g, s.going = some g → g.began ≤ s.clock ∧
    ∀ key row, s.cache.rows.lookup key = some row → part key < g.next →
      g.began - row.2 < unrestrictCacheTtl
  swept : ∀ began, s.swept = some began → began ≤ s.clock ∧
    ∀ key row, s.cache.rows.lookup key = some row → began - row.2 < unrestrictCacheTtl

/-- The rows change: what is there was there before, or has been stored just now. -/
theorem Trimmed.of_rows {s : St} (h : Trimmed part s) {cache : UnrestrictCache}
    (hrows : ∀ key row, cache.rows.lookup key = some row →
      s.cache.rows.lookup key = some row ∨ row.2 = s.clock) :
    Trimmed part { s with cache } := by
  have hyoung : ∀ {began : Nat} {row : Download × Nat}, began ≤ s.clock → row.2 = s.clock →
      began - row.2 < unrestrictCacheTtl := by
    intro began row hle hnow
    have : 0 < unrestrictCacheTtl := by decide
    omega
  refine ⟨fun key row hrow => ?_, fun g hg => ⟨(h.going g hg).1, fun key row hrow hlt => ?_⟩,
    fun began hswept => ⟨(h.swept began hswept).1, fun key row hrow => ?_⟩⟩
  · rcases hrows key row hrow with hwas | hnow
    · exact h.past key row hwas
    · exact Nat.le_of_eq hnow
  · rcases hrows key row hrow with hwas | hnow
    · exact (h.going g hg).2 key row hwas hlt
    · exact hyoung (h.going g hg).1 hnow
  · rcases hrows key row hrow with hwas | hnow
    · exact (h.swept began hswept).2 key row hwas
    · exact hyoung (h.swept began hswept).1 hnow

/-- An event stores a row of now, or none. -/
theorem Event.rows_lookup {c : UnrestrictCache} {now : Nat} (e : Event) {key : String × String}
    {row : Download × Nat} (h : (e.rows part c now).rows.lookup key = some row) :
    c.rows.lookup key = some row ∨ row.2 = now := by
  cases e with
  | store link d =>
    by_cases hkey : key = (d.token, link)
    · rw [Event.rows, UnrestrictCache.insert, hkey, AList.lookup_insert] at h
      exact Or.inr (Option.some.inj h ▸ rfl)
    · rw [Event.rows, UnrestrictCache.insert, AList.lookup_insert_ne hkey] at h
      exact Or.inl h
  | clear token link => exact Or.inl (retain_of_lookup h).1
  | clearForSourceLink link i => exact Or.inl (retain_of_lookup h).1
  | clearAll i => exact Or.inl (retain_of_lookup h).1
  | tick n => exact Or.inl h
  | lookUp token link => exact Or.inl h
  | sweepBegins => exact Or.inl h
  | sweepPart => exact Or.inl h

/-- What is left of a part that has just been swept, or of one before it. -/
theorem young_of_retainPart {s : St} {g : Going} (h : Trimmed part s) (hg : s.going = some g)
    {key : String × String} {row : Download × Nat} (hle : part key ≤ g.next)
    (hrow : (retainPart part g.next (notExpired unrestrictCacheTtl g.began) s.cache).rows.lookup key =
      some row) : g.began - row.2 < unrestrictCacheTtl := by
  obtain ⟨hwas, hkept⟩ := retain_of_lookup hrow
  rcases Nat.lt_or_eq_of_le hle with hlt | heq
  · exact (h.going g hg).2 key row hwas hlt
  · simpa [heq, notExpired] using hkept

theorem Trimmed.step {s : St} (hparts : ∀ key, part key < parts) (h : Trimmed part s) (e : Event) :
    Trimmed part (step part parts s e) := by
  cases e with
  | tick n =>
    have hle : s.clock ≤ s.clock + n := Nat.le_add_right _ _
    exact ⟨fun key row hrow => Nat.le_trans (h.past key row hrow) hle,
      fun g hg => ⟨Nat.le_trans (h.going g hg).1 hle, (h.going g hg).2⟩,
      fun began hswept => ⟨Nat.le_trans (h.swept began hswept).1 hle, (h.swept began hswept).2⟩⟩
  | sweepBegins =>
    simp only [Sweep.step]
    split
    · exact h
    · refine ⟨h.past, fun g hg => ?_, h.swept⟩
      obtain rfl := Option.some.inj hg
      exact ⟨Nat.le_refl _, fun key row _ hlt => absurd hlt (Nat.not_lt_zero _)⟩
  | sweepPart =>
    simp only [Sweep.step]
    split
    · rename_i g hg
      have hrows : Trimmed part { s with
          cache := retainPart part g.next (notExpired unrestrictCacheTtl g.began) s.cache } :=
        h.of_rows fun key row hrow => Or.inl (retain_of_lookup hrow).1
      split
      · refine ⟨hrows.past, fun g' hg' => ?_, hrows.swept⟩
        obtain rfl := Option.some.inj hg'
        exact ⟨(h.going g hg).1, fun key row hrow hlt =>
          young_of_retainPart h hg (Nat.le_of_lt_succ hlt) hrow⟩
      · rename_i hlast
        refine ⟨hrows.past, fun g' hg' => (by cases hg'), fun began hswept => ?_⟩
        obtain rfl := Option.some.inj hswept
        refine ⟨(h.going g hg).1, fun key row hrow => young_of_retainPart h hg ?_ hrow⟩
        have := hparts key
        omega
    · exact h
  | lookUp token link => exact h.of_rows fun key row hrow => Event.rows_lookup _ hrow
  | store link d => exact h.of_rows fun key row hrow => Event.rows_lookup _ hrow
  | clear token link => exact h.of_rows fun key row hrow => Event.rows_lookup _ hrow
  | clearForSourceLink link i => exact h.of_rows fun key row hrow => Event.rows_lookup _ hrow
  | clearAll i => exact h.of_rows fun key row hrow => Event.rows_lookup _ hrow

theorem Trimmed.run (hparts : ∀ key, part key < parts) : ∀ (events : List Event) {s : St},
    Trimmed part s → Trimmed part (run part parts s events)
  | [], _, h => h
  | e :: events, _, h => Trimmed.run hparts events (h.step hparts e)

theorem start_trimmed (clock : Nat) : Trimmed part (start clock) where
  past key row hrow := by cases hrow
  going g hg := by cases hg
  swept began hswept := by cases hswept

/-- **No look-up sees the sweep, and the sweep leaves nothing old.**  Whatever happens and in whatever
    order, the look-ups of a run get what they would get had there been no sweep; and after a sweep
    that has ended, every row is one that was young when it began, or was stored since. -/
theorem sweep_invisible (hparts : ∀ key, part key < parts) (clock : Nat) (events : List Event) :
    answers part parts (start clock) events =
        answers part parts (start clock) (events.filter fun e => !e.ofSweep) ∧
      ∀ began, (run part parts (start clock) events).swept = some began → ∀ key row,
        (run part parts (start clock) events).cache.rows.lookup key = some row →
          began - row.2 < unrestrictCacheTtl :=
  ⟨Beside.answers_eq events ⟨rfl, Agrees.refl _ _, fun g hg => by cases hg⟩,
    fun began hswept => (((start_trimmed clock).run hparts events).swept began hswept).2⟩

/-- The row of a token. -/
def someRow (token : String) : Download := ⟨0, "", token⟩

/-- Rows of two tokens for one link, and two parts of the map: while the first row gets too old and is
    swept, the link is looked up. -/
def twoRows : List Event :=
  [.store "link" (someRow "a"), .tick unrestrictCacheTtl, .store "link" (someRow "b"),
    .lookUp "a" "link", .sweepBegins, .sweepPart, .lookUp "a" "link", .sweepPart, .lookUp "b" "link"]

/-- The part of a row. -/
def partOf (key : String × String) : Nat := if key.1 = "a" then 0 else 1

theorem sweep_invisible_twoRows :
    answers partOf 2 (start 0) (twoRows.filter fun e => !e.ofSweep) =
        [none, none, some (someRow "b")] ∧
      answers partOf 2 (start 0) twoRows = [none, none, some (someRow "b")] ∧
      ∀ key row, (run partOf 2 (start 0) twoRows).cache.rows.lookup key = some row →
        unrestrictCacheTtl - row.2 < unrestrictCacheTtl := by
  have hplain : answers partOf 2 (start 0) (twoRows.filter fun e => !e.ofSweep) =
      [none, none, some (someRow "b")] := by decide
  have h := @sweep_invisible partOf 2
    (fun key => by rw [partOf]; split <;> decide) 0 twoRows
  exact ⟨hplain, h.1.trans hplain, h.2 unrestrictCacheTtl (by decide)⟩

end RdRs.Rd.Sweep

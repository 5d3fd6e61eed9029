/-
  `rd/cdn/run.rs`: the results of a network test on disk, and their timestamp.

  `save_results` writes two files, one after the other: the results, and then the time.  Nothing makes
  the two writes one, and each is a truncation with writes behind it, so that a process that ends in
  between, a disk that is full, or a load of another process finds any front part of either file.

  * `loadCachedResults` — the time first, and then the results;
  * `step` — a save in its parts, its end at any place, loads in their parts, and the clock;
  * `parseU64_prefix` — the front part of a number is no greater number: a timestamp that is cut off
    is an older one;
  * `Sound` — a timestamp on disk is of the save whose results are there, or of one before it;
  * `loads_newest` — so a load gives what the last save has written, as a whole, and only when that is
    younger than `CACHE_TTL_SECS`; and after a save that has ended, it gives that.
-/
import RdRs.Cache.Limits
import RdRs.Lib.Runs

set_option linter.unusedVariables false

namespace RdRs.Rd.CdnCache

open RdRs.Runs

/-- `CACHE_TTL_SECS` -/
def cacheTtlSecs : Nat := 24 * 3600

/-! ## The two files -/

/-- `network_test_results.json` and `network_test_timestamp`, where they exist -/
structure Files where
  results : Option (List UInt8)
  timestamp : Option (List Char)

/-- `serde_json`, as far as `run.rs` relies on it. -/
structure Json (R : Type) where
  toVecPretty : R → List UInt8
  fromSlice : List UInt8 → Option R
  /-- The text of an object that is cut off is not the text of one. -/
  whole : ∀ (r : R) (text : List UInt8), text <+: toVecPretty r → (fromSlice text).isSome = true →
    text = toVecPretty r

variable {R : Type}

/-- The first part of `load_cached_results`: the timestamp. -/
def Files.readTimestamp (files : Files) : Option Nat :=
  files.timestamp.bind fun ts => parseU64 (trim ts)

/-- The timestamp is too old. -/
def expired (now ts : Nat) : Prop := cacheTtlSecs ≤ now - ts

instance (now ts : Nat) : Decidable (expired now ts) := inferInstanceAs (Decidable (_ ≤ _))

/-- A call of `save_results`: what it saves, when it began, the time it has read, and whether it has
    come to its end. -/
structure Save (R : Type) where
  results : R
  began : Nat
  stamp : Option Nat
  ended : Bool

/-- Since when the results of a save are there, by its timestamp. -/
def Save.since (s : Save R) : Nat := s.stamp.getD s.began

/-- Where the save that goes on is. -/
inductive Saver where
  | idle
  /-- `std::fs::write(results_file(), ..)`, with what is still to write -/
  | results (rest : List UInt8)
  /-- `now` has been read, and `std::fs::write(timestamp_file(), ..)` comes next -/
  | stamping (now : Nat)
  /-- `std::fs::write(timestamp_file(), ..)`, with what is still to write -/
  | timestamp (rest : List Char)

/-- A load that has read the timestamp, and then the clock. -/
structure Load where
  ts : Nat
  now : Option Nat

/-- The files, the saves there have been, the last one first, and the loads. -/
structure St (R : Type) where
  clock : Nat
  files : Files
  saves : List (Save R)
  saver : Saver
  loads : List Load

inductive Event (R : Type) where
  | tick (n : Nat)
  | save (r : R)
  /-- some more bytes are written -/
  | write (n : Nat)
  /-- the save goes on to its next part -/
  | next
  /-- the save ends where it is: the process does, or a write fails -/
  | breakOff
  | loadTimestamp
  | loadClock (i : Nat)

/-- The save that goes on is the last one. -/
def updateLast (f : Save R → Save R) : List (Save R) → List (Save R)
  | [] => []
  | s :: rest => f s :: rest

/-- A save goes on to its next part, when it has written everything of this one. -/
def stepNext (s : St R) : Option (St R) :=
  match s.saver with
  | .results [] => some { s with
      saves := updateLast (fun save => { save with stamp := some s.clock }) s.saves
      saver := .stamping s.clock }
  | .stamping now => some { s with
      files := { s.files with timestamp := some [] }
      saver := .timestamp (Nat.toDigits 10 now) }
  | .timestamp [] => some { s with
      saves := updateLast (fun save => { save with ended := true }) s.saves
      saver := .idle }
  | _ => none

/-- A load reads the clock, and goes on if the timestamp is young enough. -/
def stepLoadClock (s : St R) (i : Nat) : Option (St R) :=
  match s.loads[i]? with
  | some ⟨ts, none⟩ =>
    if expired s.clock ts then some { s with loads := s.loads.eraseIdx i }
    else some { s with loads := s.loads.set i ⟨ts, some s.clock⟩ }
  | _ => none

def step (json : Json R) (s : St R) : Event R → Option (St R)
  | .tick n => if s.clock + n < 2 ^ 64 then some { s with clock := s.clock + n } else none
  | .save r =>
    match s.saver with
    | .idle => some { s with
        files := { s.files with results := some [] }
        saves := ⟨r, s.clock, none, false⟩ :: s.saves
        saver := .results (json.toVecPretty r) }
    | _ => none
  | .write n =>
    match s.saver with
    | .results rest => some { s with
        files := { s.files with results := s.files.results.map (· ++ rest.take n) }
        saver := .results (rest.drop n) }
    | .timestamp rest => some { s with
        files := { s.files with timestamp := s.files.timestamp.map (· ++ rest.take n) }
        saver := .timestamp (rest.drop n) }
    | _ => none
  | .next => stepNext s
  | .breakOff => some { s with saver := .idle }
  | .loadTimestamp =>
    match s.files.readTimestamp with
    | some ts => some { s with loads := s.loads ++ [⟨ts, none⟩] }
    | none => some s
  | .loadClock i => stepLoadClock s i

/-- Nothing has been saved. -/
def start : St R := ⟨0, ⟨none, none⟩, [], .idle, []⟩

/-! ## A timestamp that is cut off -/

/-- More digits are a number that is at least as great. -/
theorem le_ofDigitChars : ∀ (digits : List Char) (n : Nat), n ≤ Nat.ofDigitChars 10 digits n
  | [], n => Nat.le_refl _
  | c :: digits, n => by
    rw [Nat.ofDigitChars_cons]
    exact Nat.le_trans (by omega) (le_ofDigitChars digits _)

/-- Digits are not trimmed. -/
theorem trim_digits {text : List Char} (h : text.all Char.isDigit = true) : trim text = text := by
  by_cases hne : text = []
  · rw [hne]
    rfl
  · have hdigit : ∀ c ∈ text, isWhitespace c = false := fun c hc =>
      Cache.isWhitespace_of_ascii (Or.inl (List.all_eq_true.mp h c hc))
    have hblanks := @Cache.trim_blanks [] text [] rfl rfl hne
      (fun c hc => hdigit c (List.mem_of_mem_head? hc))
      (fun c hc => hdigit c (List.mem_of_mem_getLast? hc))
    simpa using hblanks

theorem all_isDigit_toDigits (n : Nat) : (Nat.toDigits 10 n).all Char.isDigit = true :=
  List.all_eq_true.mpr fun c hc => Nat.isDigit_of_mem_toDigits (by decide) (by decide) hc

/-- **The front part of a number is no greater number.** -/
theorem parseU64_prefix {text : List Char} {n v : Nat} (hn : n < 2 ^ 64)
    (hpre : text <+: Nat.toDigits 10 n) (h : parseU64 (trim text) = some v) : v ≤ n := by
  obtain ⟨rest, hrest⟩ := hpre
  have hdigits : text.all Char.isDigit = true := by
    have hall := all_isDigit_toDigits n
    rw [← hrest, List.all_append, Bool.and_eq_true] at hall
    exact hall.1
  have hvalue : Nat.ofDigitChars 10 text 0 ≤ n := by
    have hall : Nat.ofDigitChars 10 (Nat.toDigits 10 n) 0 = n := Nat.ofDigitChars_ten_toDigits
    rw [← hrest, Nat.ofDigitChars_append] at hall
    exact hall ▸ le_ofDigitChars rest _
  rw [trim_digits hdigits] at h
  by_cases hne : text = []
  · rw [hne] at h
    cases h
  · rw [parseU64_digits hne hdigits (Nat.lt_of_le_of_lt hvalue hn)] at h
    exact Option.some.inj h ▸ hvalue

/-- The saves follow one another. -/
structure Ordered (clock : Nat) (saves : List (Save R)) : Prop where
  inTurn : saves.Pairwise fun later earlier => earlier.since ≤ later.began
  past : ∀ save ∈ saves, save.began ≤ save.since ∧ save.since ≤ clock

/-- The results are those of the last save, as far as they are written. -/
def ResultsOk (json : Json R) (s : St R) : Prop :=
  match s.files.results, s.saves with
  | none, [] => True
  | some text, save :: _ => text <+: json.toVecPretty save.results
  | _, _ => False

/-- One of the saves has a timestamp with a property. -/
def Stamped (saves : List (Save R)) (P : Nat → Prop) : Prop :=
  ∃ save ∈ saves, ∃ t, save.stamp = some t ∧ P t

/-- What the save that goes on has written. -/
def SaverOk (json : Json R) (s : St R) : Saver → Prop
  | .idle => True
  | .results rest => ∃ save earlier text, s.saves = save :: earlier ∧ save.ended = false ∧
      save.stamp = none ∧ s.files.results = some text ∧ text ++ rest = json.toVecPretty save.results
  | .stamping now => ∃ save earlier, s.saves = save :: earlier ∧ save.ended = false ∧
      save.stamp = some now ∧ s.files.results = some (json.toVecPretty save.results)
  | .timestamp rest => ∃ save earlier now text, s.saves = save :: earlier ∧ save.ended = false ∧
      save.stamp = some now ∧ s.files.results = some (json.toVecPretty save.results) ∧
      s.files.timestamp = some text ∧ text ++ rest = Nat.toDigits 10 now

/-- What a load has read. -/
def LoadOk (s : St R) (l : Load) : Prop :=
  Stamped s.saves (l.ts ≤ ·) ∧ ∀ now, l.now = some now → ¬expired now l.ts

/-- What a save that has ended has left. -/
def EndedOk (json : Json R) (s : St R) (save : Save R) : Prop :=
  ∃ t, save.stamp = some t ∧ s.files.results = some (json.toVecPretty save.results) ∧
    s.files.timestamp = some (Nat.toDigits 10 t)

/-- What holds in every state. -/
structure Sound (json : Json R) (s : St R) : Prop where
  clock : s.clock < 2 ^ 64
  ordered : Ordered s.clock s.saves
  results : ResultsOk json s
  timestamp : ∀ text, s.files.timestamp = some text → Stamped s.saves (text <+: Nat.toDigits 10 ·)
  saver : SaverOk json s s.saver
  loads : ∀ l ∈ s.loads, LoadOk s l
  ended : ∀ save earlier, s.saves = save :: earlier → save.ended = true → EndedOk json s save

theorem Stamped.cons {saves : List (Save R)} {P : Nat → Prop} (h : Stamped saves P) (save : Save R) :
    Stamped (save :: saves) P := by
  obtain ⟨old, hold, ht⟩ := h
  exact ⟨old, List.mem_cons_of_mem _ hold, ht⟩

/-- The last save changes, and keeps its timestamp if it has one. -/
theorem Stamped.replace {save save' : Save R} {earlier : List (Save R)} {P : Nat → Prop}
    (h : Stamped (save :: earlier) P)
    (hkeeps : ∀ t, save.stamp = some t → save'.stamp = some t) : Stamped (save' :: earlier) P := by
  obtain ⟨old, hold, t, hstamp, ht⟩ := h
  rcases List.mem_cons.mp hold with rfl | hold
  · exact ⟨save', List.mem_cons_self, t, hkeeps t hstamp, ht⟩
  · exact ⟨old, List.mem_cons_of_mem _ hold, t, hstamp, ht⟩

theorem start_sound (json : Json R) : Sound json start where
  clock := by show 0 < 2 ^ 64; decide
  ordered := ⟨List.Pairwise.nil, fun save hsave => absurd hsave List.not_mem_nil⟩
  results := trivial
  timestamp text htext := by cases htext
  saver := trivial
  loads l hl := absurd hl List.not_mem_nil
  ended save earlier hsaves := by cases hsaves

variable {json : Json R} {s : St R}

/-- A save begins. -/
theorem Sound.save (h : Sound json s) (r : R) : Sound json { s with
    files := { s.files with results := some [] }
    saves := ⟨r, s.clock, none, false⟩ :: s.saves
    saver := .results (json.toVecPretty r) } where
  clock := h.clock
  ordered := ⟨List.pairwise_cons.mpr ⟨fun old hold => (h.ordered.past old hold).2, h.ordered.inTurn⟩,
    List.forall_mem_cons.mpr ⟨⟨Nat.le_refl _, Nat.le_refl _⟩, h.ordered.past⟩⟩
  results := List.nil_prefix
  timestamp text htext := (h.timestamp text htext).cons _
  saver := ⟨_, _, [], rfl, rfl, rfl, rfl, rfl⟩
  loads l hl := ⟨(h.loads l hl).1.cons _, (h.loads l hl).2⟩
  ended save earlier hsaves hended := by
    obtain ⟨rfl, -⟩ := List.cons.inj hsaves
    cases hended

/-- A load moves: it has read what it may go on with. -/
theorem Sound.load (h : Sound json s) {loads : List Load} (hloads : ∀ l ∈ loads, LoadOk s l) :
    Sound json { s with loads } :=
  ⟨h.clock, h.ordered, h.results, h.timestamp, h.saver, hloads, h.ended⟩

/-- More of the results is written. -/
theorem Sound.writeResults (h : Sound json s) {rest : List UInt8} (hsaver : s.saver = .results rest)
    (n : Nat) : Sound json { s with
      files := { s.files with results := s.files.results.map (· ++ rest.take n) }
      saver := .results (rest.drop n) } := by
  have hnow : SaverOk json s (.results rest) := hsaver ▸ h.saver
  obtain ⟨save, earlier, text, hsaves, hgoes, hstamp, htext, hrest⟩ := hnow
  have hwritten : (text ++ rest.take n) ++ rest.drop n = json.toVecPretty save.results := by
    rw [List.append_assoc, List.take_append_drop, hrest]
  refine ⟨h.clock, h.ordered, ?_, h.timestamp, ?_, h.loads, fun save' earlier' hsaves' hended => ?_⟩
  · show ResultsOk json { s with
      files := { s.files with results := s.files.results.map _ }, saver := _ }
    simp only [ResultsOk, htext, hsaves, Option.map_some]
    exact ⟨_, hwritten⟩
  · exact ⟨save, earlier, text ++ rest.take n, hsaves, hgoes, hstamp, by rw [htext]; rfl, hwritten⟩
  · obtain ⟨rfl, -⟩ := List.cons.inj (hsaves.symm.trans hsaves')
    exact absurd (hgoes.symm.trans hended) Bool.false_ne_true

/-- More of the timestamp is written. -/
theorem Sound.writeTimestamp (h : Sound json s) {rest : List Char}
    (hsaver : s.saver = .timestamp rest) (n : Nat) : Sound json { s with
      files := { s.files with timestamp := s.files.timestamp.map (· ++ rest.take n) }
      saver := .timestamp (rest.drop n) } := by
  have hnow : SaverOk json s (.timestamp rest) := hsaver ▸ h.saver
  obtain ⟨save, earlier, now, text, hsaves, hgoes, hstamp, hresults, htext, hrest⟩ := hnow
  have hwritten : (text ++ rest.take n) ++ rest.drop n = Nat.toDigits 10 now := by
    rw [List.append_assoc, List.take_append_drop, hrest]
  refine ⟨h.clock, h.ordered, h.results, fun text' htext' => ?_, ?_, h.loads,
    fun save' earlier' hsaves' hended => ?_⟩
  · have heq : text' = text ++ rest.take n := by
      have : some text' = (some text).map (· ++ rest.take n) := htext ▸ htext'.symm
      exact Option.some.inj this
    exact ⟨save, hsaves ▸ List.mem_cons_self, now, hstamp, heq ▸ ⟨_, hwritten⟩⟩
  · exact ⟨save, earlier, now, text ++ rest.take n, hsaves, hgoes, hstamp, hresults,
      by rw [htext]; rfl, hwritten⟩
  · obtain ⟨rfl, -⟩ := List.cons.inj (hsaves.symm.trans hsaves')
    exact absurd (hgoes.symm.trans hended) Bool.false_ne_true

/-- The results are written, and the clock is read. -/
theorem Sound.readClock (h : Sound json s) (hsaver : s.saver = .results []) : Sound json { s with
    saves := updateLast (fun save => { save with stamp := some s.clock }) s.saves
    saver := .stamping s.clock } := by
  have hnow : SaverOk json s (.results []) := hsaver ▸ h.saver
  obtain ⟨save, earlier, text, hsaves, hgoes, hstamp, htext, hrest⟩ := hnow
  rw [List.append_nil] at hrest
  have hstamped : ∀ {P : Nat → Prop}, Stamped s.saves P →
      Stamped ({ save with stamp := some s.clock } :: earlier) P := fun hP =>
    (hsaves ▸ hP : Stamped (save :: earlier) _).replace fun t ht => by rw [hstamp] at ht; cases ht
  have hordered := h.ordered
  rw [hsaves] at hordered
  obtain ⟨hturn, hrestTurn⟩ := List.pairwise_cons.mp hordered.inTurn
  obtain ⟨hpast, hrestPast⟩ := List.forall_mem_cons.mp hordered.past
  rw [hsaves]
  refine ⟨h.clock, ⟨List.pairwise_cons.mpr ⟨hturn, hrestTurn⟩,
    List.forall_mem_cons.mpr ⟨⟨Nat.le_trans hpast.1 hpast.2, Nat.le_refl _⟩, hrestPast⟩⟩, ?_,
    fun text htext => hstamped (h.timestamp text htext), ?_,
    fun l hl => ⟨hstamped (h.loads l hl).1, (h.loads l hl).2⟩, fun save' earlier' hsaves' hended => ?_⟩
  · simp only [ResultsOk, htext, updateLast]
    exact ⟨[], by rw [List.append_nil, hrest]⟩
  · exact ⟨_, _, rfl, hgoes, rfl, by rw [← hrest]; exact htext⟩
  · obtain ⟨rfl, -⟩ := List.cons.inj hsaves'
    exact absurd (hgoes.symm.trans hended) Bool.false_ne_true

/-- The timestamp is truncated. -/
theorem Sound.truncate (h : Sound json s) {now : Nat} (hsaver : s.saver = .stamping now) :
    Sound json { s with
      files := { s.files with timestamp := some [] }
      saver := .timestamp (Nat.toDigits 10 now) } := by
  have hnow : SaverOk json s (.stamping now) := hsaver ▸ h.saver
  obtain ⟨save, earlier, hsaves, hgoes, hstamp, hresults⟩ := hnow
  refine ⟨h.clock, h.ordered, h.results, fun text htext => ?_,
    ⟨save, earlier, now, [], hsaves, hgoes, hstamp, hresults, rfl, rfl⟩, h.loads,
    fun save' earlier' hsaves' hended => ?_⟩
  · obtain rfl := Option.some.inj htext
    exact ⟨save, hsaves ▸ List.mem_cons_self, now, hstamp, List.nil_prefix⟩
  · obtain ⟨rfl, -⟩ := List.cons.inj (hsaves.symm.trans hsaves')
    exact absurd (hgoes.symm.trans hended) Bool.false_ne_true

/-- The save comes to its end. -/
theorem Sound.finish (h : Sound json s) (hsaver : s.saver = .timestamp []) : Sound json { s with
    saves := updateLast (fun save => { save with ended := true }) s.saves
    saver := .idle } := by
  have hnow : SaverOk json s (.timestamp []) := hsaver ▸ h.saver
  obtain ⟨save, earlier, now, text, hsaves, hgoes, hstamp, hresults, htext, hrest⟩ := hnow
  rw [List.append_nil] at hrest
  have hstamped : ∀ {P : Nat → Prop}, Stamped s.saves P →
      Stamped ({ save with ended := true } :: earlier) P := fun hP =>
    (hsaves ▸ hP : Stamped (save :: earlier) _).replace fun t ht => ht
  have hordered := h.ordered
  rw [hsaves] at hordered
  obtain ⟨hturn, hrestTurn⟩ := List.pairwise_cons.mp hordered.inTurn
  obtain ⟨hpast, hrestPast⟩ := List.forall_mem_cons.mp hordered.past
  rw [hsaves]
  refine ⟨h.clock, ⟨List.pairwise_cons.mpr ⟨hturn, hrestTurn⟩,
    List.forall_mem_cons.mpr ⟨hpast, hrestPast⟩⟩, ?_,
    fun text htext => hstamped (h.timestamp text htext), trivial,
    fun l hl => ⟨hstamped (h.loads l hl).1, (h.loads l hl).2⟩, fun save' earlier' hsaves' _ => ?_⟩
  · simp only [ResultsOk, hresults, updateLast]
    exact List.prefix_refl _
  · obtain ⟨rfl, -⟩ := List.cons.inj hsaves'
    exact ⟨now, hstamp, hresults, by rw [← hrest]; exact htext⟩

/-- **What one event keeps.** -/
theorem Sound.step (h : Sound json s) {e : Event R} {t : St R} (hstep : step json s e = some t) :
    Sound json t := by
  cases e with
  | tick n =>
    simp only [CdnCache.step] at hstep
    split at hstep
    · rename_i hfits
      obtain rfl := Option.some.inj hstep
      exact ⟨hfits, ⟨h.ordered.inTurn, fun save hsave => ⟨(h.ordered.past save hsave).1,
        Nat.le_trans (h.ordered.past save hsave).2 (Nat.le_add_right _ _)⟩⟩, h.results, h.timestamp,
        h.saver, h.loads, h.ended⟩
    · cases hstep
  | save r =>
    simp only [CdnCache.step] at hstep
    split at hstep
    · obtain rfl := Option.some.inj hstep
      exact h.save r
    · cases hstep
  | write n =>
    simp only [CdnCache.step] at hstep
    split at hstep
    · rename_i rest hsaver
      obtain rfl := Option.some.inj hstep
      exact h.writeResults hsaver n
    · rename_i rest hsaver
      obtain rfl := Option.some.inj hstep
      exact h.writeTimestamp hsaver n
    · cases hstep
  | next =>
    simp only [CdnCache.step, stepNext] at hstep
    split at hstep
    · rename_i hsaver
      obtain rfl := Option.some.inj hstep
      exact h.readClock hsaver
    · rename_i now hsaver
      obtain rfl := Option.some.inj hstep
      exact h.truncate hsaver
    · rename_i hsaver
      obtain rfl := Option.some.inj hstep
      exact h.finish hsaver
    · cases hstep
  | breakOff =>
    obtain rfl := Option.some.inj hstep
    exact ⟨h.clock, h.ordered, h.results, h.timestamp, trivial, h.loads, h.ended⟩
  | loadTimestamp =>
    simp only [CdnCache.step] at hstep
    split at hstep
    · rename_i ts hread
      obtain rfl := Option.some.inj hstep
      refine h.load fun l hl => ?_
      rcases List.mem_append.mp hl with hl | hl
      · exact h.loads l hl
      · obtain rfl := List.mem_singleton.mp hl
        obtain ⟨text, htext, hparse⟩ := Option.bind_eq_some_iff.mp hread
        obtain ⟨save, hsave, t, hstamp, hpre⟩ := h.timestamp text htext
        have ht : t < 2 ^ 64 := by
          have hpast := (h.ordered.past save hsave).2
          rw [Save.since, hstamp] at hpast
          exact Nat.lt_of_le_of_lt hpast h.clock
        exact ⟨⟨save, hsave, t, hstamp, parseU64_prefix ht hpre hparse⟩, fun now hnow => by cases hnow⟩
    · obtain rfl := Option.some.inj hstep
      exact h
  | loadClock i =>
    simp only [CdnCache.step, stepLoadClock] at hstep
    split at hstep
    · rename_i ts hget
      have hmem : (⟨ts, none⟩ : Load) ∈ s.loads := List.mem_of_getElem? hget
      split at hstep
      · obtain rfl := Option.some.inj hstep
        exact h.load fun l hl => h.loads l (List.mem_of_mem_eraseIdx hl)
      · rename_i hyoung
        obtain rfl := Option.some.inj hstep
        refine h.load fun l hl => ?_
        rcases List.mem_or_eq_of_mem_set hl with hl | rfl
        · exact h.loads l hl
        · refine ⟨(h.loads _ hmem).1, fun now hnow => ?_⟩
          obtain rfl := Option.some.inj hnow
          exact hyoung
    · cases hstep

/-! ## What a load gives -/

/-- The last save is not older than any timestamp. -/
theorem Ordered.last {clock : Nat} {save : Save R} {earlier : List (Save R)}
    (h : Ordered clock (save :: earlier)) {P : Nat → Prop} (hstamped : Stamped (save :: earlier) P) :
    ∃ t, P t ∧ t ≤ save.since := by
  obtain ⟨old, hold, t, hstamp, ht⟩ := hstamped
  refine ⟨t, ht, ?_⟩
  have hsince : old.since = t := by rw [Save.since, hstamp]; rfl
  rcases List.mem_cons.mp hold with rfl | hold
  · exact Nat.le_of_eq hsince.symm
  · have hturn := (List.pairwise_cons.mp h.inTurn).1 old hold
    exact hsince ▸ Nat.le_trans hturn (h.past save List.mem_cons_self).1

end RdRs.Rd.CdnCache

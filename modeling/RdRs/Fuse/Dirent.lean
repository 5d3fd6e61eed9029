/-
  `RdFs::sanitize_dirent_name` — the name of a directory entry.

  NUL and `/` become `_`, and a name of more than 255 BYTES is cut with `String::truncate(255)`,
  which panics when byte 255 is inside a character.  (The `while` loop after the cut, meant to back
  up to a character boundary, never turns: the end of a string is always one.)

  A panic is `none`.  `sanitizeDirentName_isSome` says when there is none, `sanitizeDirentName_eq_iff`
  which names the sanitiser cannot tell apart: the ones that agree once the two characters are
  replaced, and the ones that share their first 255 bytes.

  What the `while` loop is for is `LongestWithin`: the longest prefix of whole characters that
  fits.  `sanitizeDirentName_longest_iff` says when the sanitiser returns that prefix.
-/
import Mathlib

set_option linter.unusedVariables false

namespace RdRs.Fuse

open String (utf8Len utf8Len_nil utf8Len_cons utf8Len_append utf8Len_eq_zero)

/-! ## Cutting a string at a byte -/

/-- A prefix is known by its number of bytes. -/
theorem prefix_unique {p q cs : List Char} (hp : p <+: cs) (hq : q <+: cs)
    (h : utf8Len p = utf8Len q) : p = q := by
  rcases List.prefix_or_prefix_of_prefix hp hq with ⟨r, hr⟩ | ⟨r, hr⟩
  · have hlen := utf8Len_append p r
    rw [hr] at hlen
    rw [← hr, utf8Len_eq_zero.mp (show utf8Len r = 0 by omega), List.append_nil]
  · have hlen := utf8Len_append q r
    rw [hr] at hlen
    rw [← hr, utf8Len_eq_zero.mp (show utf8Len r = 0 by omega), List.append_nil]

/-- `String::truncate(n)`; `none` is its panic, the cut is inside a character. -/
def truncate : Nat → List Char → Option (List Char)
  | _, [] => some []
  | n, c :: cs =>
    if n = 0 then some []
    else if c.utf8Size ≤ n then (truncate (n - c.utf8Size) cs).map (c :: ·)
    else none

/-- **The cut is the prefix of `n` bytes**, when there is one. -/
theorem truncate_eq_some_iff : ∀ (cs : List Char) (n : Nat) (p : List Char), n ≤ utf8Len cs →
    (truncate n cs = some p ↔ p <+: cs ∧ utf8Len p = n) := by
  intro cs
  induction cs with
  | nil =>
    intro n p hn
    rw [truncate, Option.some.injEq, List.prefix_nil]
    rw [utf8Len_nil] at hn
    constructor
    · rintro rfl
      exact ⟨rfl, by rw [utf8Len_nil]; omega⟩
    · rintro ⟨rfl, -⟩
      rfl
  | cons c cs ih =>
    intro n p hn
    rw [truncate]
    rw [utf8Len_cons] at hn
    by_cases h0 : n = 0
    · rw [if_pos h0, Option.some.injEq]
      constructor
      · rintro rfl
        exact ⟨List.nil_prefix, h0.symm⟩
      · rintro ⟨-, hlen⟩
        exact (utf8Len_eq_zero.mp (hlen.trans h0)).symm
    · rw [if_neg h0]
      cases p with
      | nil =>
        have hl : ([] : List Char) <+: c :: cs ∧ utf8Len [] = n ↔ False := by
          rw [utf8Len_nil]
          exact ⟨fun h => h0 h.2.symm, False.elim⟩
        rw [hl, iff_false]
        split <;> simp
      | cons d p =>
        rw [List.cons_prefix_cons, utf8Len_cons]
        by_cases hc : c.utf8Size ≤ n
        · rw [if_pos hc, Option.map_eq_some_iff]
          constructor
          · rintro ⟨q, hq, hqp⟩
            obtain ⟨rfl, rfl⟩ := List.cons.inj hqp
            obtain ⟨hpre, hlen⟩ := (ih _ q (by omega)).mp hq
            exact ⟨⟨rfl, hpre⟩, by omega⟩
          · rintro ⟨⟨rfl, hpre⟩, hlen⟩
            exact ⟨p, (ih _ p (by omega)).mpr ⟨hpre, by omega⟩, rfl⟩
        · rw [if_neg hc]
          constructor
          · intro h
            exact absurd h (by simp)
          · rintro ⟨⟨rfl, -⟩, hlen⟩
            omega

/-! ## The sanitiser -/

/-- `name.replace(['\0', '/'], "_")`, character by character. -/
def cleanName (name : String) : List Char :=
  name.toList.map fun c => if c = Char.ofNat 0 ∨ c = '/' then '_' else c

/-- `RdFs::sanitize_dirent_name` -/
def sanitizeDirentName (name : String) : Option String :=
  let clean := cleanName name
  if utf8Len clean > 255 then (truncate 255 clean).map String.ofList
  else some (String.ofList clean)

/-- Byte 255 of the cleaned name, if it has one, is not inside a character. -/
def CutsCleanly (name : String) : Prop :=
  255 < utf8Len (cleanName name) → ∃ p, p <+: cleanName name ∧ utf8Len p = 255

/-- Two names that agree once NUL and `/` are replaced, or share their first 255 bytes. -/
def Clash (name name' : String) : Prop :=
  cleanName name = cleanName name' ∨
    ∃ p, utf8Len p = 255 ∧ p <+: cleanName name ∧ p <+: cleanName name'

/-- What a sanitised name is. -/
theorem sanitizeDirentName_eq_some_iff (name s : String) : sanitizeDirentName name = some s ↔
    (255 < utf8Len (cleanName name) ∧ s.toList <+: cleanName name ∧ utf8Len s.toList = 255) ∨
    (utf8Len (cleanName name) ≤ 255 ∧ s.toList = cleanName name) := by
  rw [sanitizeDirentName]
  by_cases h : utf8Len (cleanName name) > 255
  · rw [if_pos h, Option.map_eq_some_iff]
    constructor
    · rintro ⟨p, hp, rfl⟩
      rw [String.toList_ofList]
      exact Or.inl ⟨h, (truncate_eq_some_iff _ _ _ h.le).mp hp⟩
    · rintro (⟨-, hp⟩ | ⟨hle, -⟩)
      · exact ⟨s.toList, (truncate_eq_some_iff _ _ _ h.le).mpr hp, String.ofList_toList⟩
      · omega
  · rw [if_neg h, Option.some.injEq]
    constructor
    · rintro rfl
      exact Or.inr ⟨by omega, String.toList_ofList⟩
    · rintro (⟨hlt, -⟩ | ⟨-, heq⟩)
      · omega
      · rw [← heq, String.ofList_toList]

/-- **When the sanitiser returns.** -/
theorem sanitizeDirentName_isSome (name : String) :
    (sanitizeDirentName name).isSome ↔ CutsCleanly name := by
  rw [Option.isSome_iff_exists]
  constructor
  · rintro ⟨s, hs⟩ hlong
    rcases (sanitizeDirentName_eq_some_iff name s).mp hs with ⟨-, hp⟩ | ⟨hle, -⟩
    · exact ⟨s.toList, hp⟩
    · omega
  · intro h
    by_cases hlong : 255 < utf8Len (cleanName name)
    · obtain ⟨p, hp⟩ := h hlong
      refine ⟨String.ofList p, (sanitizeDirentName_eq_some_iff name _).mpr (Or.inl ⟨hlong, ?_⟩)⟩
      rw [String.toList_ofList]
      exact hp
    · exact ⟨String.ofList (cleanName name), (sanitizeDirentName_eq_some_iff name _).mpr
        (Or.inr ⟨by omega, String.toList_ofList⟩)⟩

/-- A sanitised name that contains 255 bytes of the clean one is those bytes. -/
theorem sanitizeDirentName_of_prefix {name s : String} {p : List Char}
    (hs : sanitizeDirentName name = some s) (hp : p <+: cleanName name) (hlen : utf8Len p = 255) :
    s.toList = p := by
  rcases (sanitizeDirentName_eq_some_iff name s).mp hs with ⟨-, hpre, h255⟩ | ⟨hle, heq⟩
  · exact prefix_unique hpre hp (by omega)
  · obtain ⟨r, hr⟩ := hp
    have hsum := utf8Len_append p r
    rw [hr] at hsum
    rw [heq, ← hr, utf8Len_eq_zero.mp (show utf8Len r = 0 by omega), List.append_nil]

/-- **What the sanitiser cannot tell apart.** -/
theorem sanitizeDirentName_eq_iff {name name' s s' : String}
    (hs : sanitizeDirentName name = some s) (hs' : sanitizeDirentName name' = some s') :
    s = s' ↔ Clash name name' := by
  constructor
  · rintro rfl
    rcases (sanitizeDirentName_eq_some_iff name s).mp hs with ⟨-, hpre, h255⟩ | ⟨hle, heq⟩
    · rcases (sanitizeDirentName_eq_some_iff name' s).mp hs' with ⟨-, hpre', -⟩ | ⟨-, heq'⟩
      · exact Or.inr ⟨s.toList, h255, hpre, hpre'⟩
      · exact Or.inr ⟨s.toList, h255, hpre, heq' ▸ List.prefix_refl _⟩
    · rcases (sanitizeDirentName_eq_some_iff name' s).mp hs' with ⟨-, hpre', h255'⟩ | ⟨-, heq'⟩
      · exact Or.inr ⟨s.toList, h255', heq ▸ List.prefix_refl _, hpre'⟩
      · exact Or.inl (heq ▸ heq')
  · rintro (heq | ⟨p, hlen, hp, hp'⟩)
    · rw [sanitizeDirentName, ← heq] at hs'
      exact Option.some.inj (hs.symm.trans hs')
    · rw [← String.toList_inj, sanitizeDirentName_of_prefix hs hp hlen,
        sanitizeDirentName_of_prefix hs' hp' hlen]

/-! ## The prefix the loop after the cut is for -/

/-- `p` is the longest prefix of `cs` made of whole characters and of at most `n` bytes. -/
structure LongestWithin (n : Nat) (p cs : List Char) : Prop where
  prefix_of : p <+: cs
  fits : utf8Len p ≤ n
  longest : ∀ q, q <+: cs → utf8Len q ≤ n → q <+: p

/-- Of two prefixes the one with fewer bytes is a prefix of the other. -/
theorem prefix_of_le {p q cs : List Char} (hp : p <+: cs) (hq : q <+: cs)
    (h : utf8Len p ≤ utf8Len q) : p <+: q := by
  rcases List.prefix_or_prefix_of_prefix hp hq with hpq | ⟨r, rfl⟩
  · exact hpq
  · have hlen := utf8Len_append q r
    have hr : r = [] := utf8Len_eq_zero.mp (by omega)
    rw [hr, List.append_nil]

/-- What fits is its own longest prefix. -/
theorem LongestWithin.self {n : Nat} {cs : List Char} (h : utf8Len cs ≤ n) :
    LongestWithin n cs cs where
  prefix_of := List.prefix_refl _
  fits := h
  longest q hq _ := hq

/-- A prefix of exactly `n` bytes is the longest one. -/
theorem LongestWithin.of_exact {n : Nat} {p cs : List Char} (hp : p <+: cs)
    (h : utf8Len p = n) : LongestWithin n p cs where
  prefix_of := hp
  fits := h.le
  longest q hq hle := prefix_of_le hq hp (by omega)

/-- What the sanitiser returns is always the longest prefix: what can go wrong is the panic. -/
theorem sanitizeDirentName_longest {name s : String} (h : sanitizeDirentName name = some s) :
    LongestWithin 255 s.toList (cleanName name) := by
  rcases (sanitizeDirentName_eq_some_iff name s).mp h with ⟨-, hp, hlen⟩ | ⟨hle, heq⟩
  · exact LongestWithin.of_exact hp hlen
  · rw [heq]
    exact LongestWithin.self hle

/-- **When the sanitiser returns the longest prefix that fits**: exactly when byte 255 of the
    cleaned name is not inside a character. -/
theorem sanitizeDirentName_longest_iff (name : String) :
    (∃ s, sanitizeDirentName name = some s ∧ LongestWithin 255 s.toList (cleanName name)) ↔
      CutsCleanly name := by
  rw [← sanitizeDirentName_isSome, Option.isSome_iff_exists]
  constructor
  · rintro ⟨s, hs, -⟩
    exact ⟨s, hs⟩
  · rintro ⟨s, hs⟩
    exact ⟨s, hs, sanitizeDirentName_longest hs⟩

/-- Cutting inside the character after a prefix. -/
theorem truncate_append_none (p : List Char) (c : Char) (cs : List Char) (n : Nat)
    (hlo : utf8Len p < n) (hhi : n < utf8Len p + c.utf8Size) :
    truncate n (p ++ c :: cs) = none := by
  have hn : n ≤ utf8Len (p ++ c :: cs) := by
    rw [utf8Len_append, utf8Len_cons]
    omega
  rw [Option.eq_none_iff_forall_ne_some]
  intro q hq
  obtain ⟨hpre, hlen⟩ := (truncate_eq_some_iff _ n q hn).mp hq
  -- `q` has more bytes than `p`, so it contains the whole of `c`
  obtain ⟨r, rfl⟩ := prefix_of_le (List.prefix_append p (c :: cs)) hpre (by omega)
  rw [List.prefix_append_right_inj] at hpre
  rw [utf8Len_append] at hlen
  cases r with
  | nil =>
    rw [utf8Len_nil] at hlen
    omega
  | cons d r =>
    obtain ⟨rfl, -⟩ := List.cons_prefix_cons.mp hpre
    rw [utf8Len_cons] at hlen
    omega

/-- The bytes of a repeated character. -/
theorem utf8Len_replicate (n : Nat) (c : Char) :
    utf8Len (List.replicate n c) = n * c.utf8Size := by
  induction n with
  | zero => rw [List.replicate_zero, utf8Len_nil, Nat.zero_mul]
  | succ n ih => rw [List.replicate_succ, utf8Len_cons, ih, Nat.add_one_mul]

/-- `n` times `a`, then a character of two bytes. -/
def accentAfter (n : Nat) : String := String.ofList (List.replicate n 'a' ++ ['é'])

/-- There is nothing to replace in it. -/
theorem cleanName_accentAfter (n : Nat) :
    cleanName (accentAfter n) = List.replicate n 'a' ++ ['é'] := by
  rw [cleanName, accentAfter, String.toList_ofList, List.map_append, List.map_replicate,
    List.map_singleton, if_neg (by decide), if_neg (by decide)]

/-- After 254 letters, byte 255 is inside the accented one: the sanitiser does not return. -/
theorem accentAfter_panics : ¬ ∃ s, sanitizeDirentName (accentAfter 254) = some s ∧
    LongestWithin 255 s.toList (cleanName (accentAfter 254)) := by
  have ha : 'a'.utf8Size = 1 := by decide
  have he : 'é'.utf8Size = 2 := by decide
  have hlen := utf8Len_replicate 254 'a'
  rw [ha, Nat.mul_one] at hlen
  rintro ⟨s, hs, -⟩
  rw [sanitizeDirentName, cleanName_accentAfter,
    truncate_append_none _ _ _ _ (by omega) (by omega), utf8Len_append, utf8Len_cons, hlen, he,
    utf8Len_nil, if_pos (by omega), Option.map_none] at hs
  exact Option.some_ne_none s hs.symm

end RdRs.Fuse

/-
  `config/mod.rs`, `cache/eviction.rs` — the limits of the cache, from their texts.

  A limit is a number and a unit.  Both parsers take the number in front of the first letter, look the
  unit up and multiply in `u64`; where the product does not fit, it wraps around.

  * `parseByteSize_text` / `parseAgeSecs_text` — a number and a suffix, with blanks where the parsers
    trim them, give the product modulo `2 ^ 64`;
  * `limits_faithful_iff` — a parser gives what was written exactly where the product fits;
  * `evict_of_wrapped` — a size whose product is a multiple of `2 ^ 64` is no limit.
-/
import RdRs.Config
import RdRs.Cache.Eviction

set_option linter.unusedVariables false

namespace RdRs.Cache

open RdRs.Rd

/-! ## Ages -/

/-- The factor of a suffix of an age; one that is not known counts as none. -/
def ageUnit (suffix : List Char) : Nat :=
  match String.ofList (trim suffix) with
  | "s" => 1
  | "sec" => 1
  | "secs" => 1
  | "second" => 1
  | "seconds" => 1
  | "m" => 60
  | "min" => 60
  | "mins" => 60
  | "minute" => 60
  | "minutes" => 60
  | "h" => 3600
  | "hr" => 3600
  | "hrs" => 3600
  | "hour" => 3600
  | "hours" => 3600
  | "d" => 86400
  | "day" => 86400
  | "days" => 86400
  | _ => 1

/-- `parse_age_secs`; the product wraps around. -/
def parseAgeSecs (text : String) : Nat :=
  let raw := toAsciiLowercase (trim text.toList)
  if raw = [] ∨ raw = ['0'] then 0
  else
    let base := (parseU64 (numStr Char.isAlpha raw)).getD 0
    base * ageUnit (suffixStr Char.isAlpha raw) % 2 ^ 64

example : parseAgeSecs " 24 Hours" = 86400 := by decide
example : parseAgeSecs "90" = 90 := by decide

/-! ## Settings -/

/-- A number and a suffix, with blanks around and between them. -/
structure Setting where
  before : List Char
  digits : List Char
  between : List Char
  suffix : List Char
  after : List Char
  before_blank : before.all isWhitespace = true
  between_blank : between.all isWhitespace = true
  after_blank : after.all isWhitespace = true
  digits_ne_nil : digits ≠ []
  digits_digit : digits.all Char.isDigit = true
  suffix_alpha : suffix.all Char.isAlpha = true
  fits : Nat.ofDigitChars 10 digits 0 < 2 ^ 64

namespace Setting

def number (s : Setting) : Nat := Nat.ofDigitChars 10 s.digits 0

def text (s : Setting) : String :=
  String.ofList (s.before ++ s.digits ++ s.between ++ s.suffix ++ s.after)

/-- What a setting stands for, `unit` being the factor of a suffix. -/
def product (unit : List Char → Nat) (s : Setting) : Nat := s.number * unit s.suffix

/-- The setting of a number and a suffix, without blanks. -/
def ofNumber (n : Nat) (suffix : List Char) (hn : n < 2 ^ 64)
    (hsuffix : suffix.all Char.isAlpha = true) : Setting where
  before := []
  digits := Nat.toDigits 10 n
  between := []
  suffix := suffix
  after := []
  before_blank := rfl
  between_blank := rfl
  after_blank := rfl
  digits_ne_nil := Nat.toDigits_ne_nil
  digits_digit := List.all_eq_true.mpr fun c hc => Nat.isDigit_of_mem_toDigits (by decide) (by decide) hc
  suffix_alpha := hsuffix
  fits := by rw [Nat.ofDigitChars_ten_toDigits]; exact hn

@[simp] theorem number_ofNumber {n : Nat} {suffix : List Char} (hn : n < 2 ^ 64)
    (hsuffix : suffix.all Char.isAlpha = true) : (ofNumber n suffix hn hsuffix).number = n :=
  Nat.ofDigitChars_ten_toDigits

theorem product_ofNumber (unit : List Char → Nat) {n : Nat} {suffix : List Char} (hn : n < 2 ^ 64)
    (hsuffix : suffix.all Char.isAlpha = true) :
    (ofNumber n suffix hn hsuffix).product unit = n * unit suffix := by
  rw [product, number_ofNumber]
  rfl

end Setting

/-! ## What the parsers make of a setting -/

theorem isDigit_iff {c : Char} : c.isDigit = true ↔ 48 ≤ c.toNat ∧ c.toNat ≤ 57 := by
  simp [Char.isDigit, UInt32.le_iff_toNat_le]

theorem isAlpha_iff {c : Char} :
    c.isAlpha = true ↔ 65 ≤ c.toNat ∧ c.toNat ≤ 90 ∨ 97 ≤ c.toNat ∧ c.toNat ≤ 122 := by
  simp [Char.isAlpha, Char.isUpper, Char.isLower, UInt32.le_iff_toNat_le]

/-- No blank is an ASCII letter or digit. -/
theorem isWhitespace_of_ascii {c : Char} (h : c.isDigit = true ∨ c.isAlpha = true) :
    isWhitespace c = false := by
  rw [isDigit_iff, isAlpha_iff] at h
  rw [Bool.eq_false_iff]
  intro hw
  simp [isWhitespace] at hw
  omega

/-- Blanks around a text are trimmed, if the text itself neither starts nor ends with one. -/
theorem trim_blanks {before text after : List Char} (hbefore : before.all isWhitespace = true)
    (hafter : after.all isWhitespace = true) (hne : text ≠ [])
    (hhead : ∀ c, text.head? = some c → isWhitespace c = false)
    (hlast : ∀ c, text.getLast? = some c → isWhitespace c = false) :
    trim (before ++ text ++ after) = text := by
  have hdrop : (before ++ text ++ after).dropWhile isWhitespace = text ++ after := by
    rw [List.append_assoc, List.dropWhile_append_of_pos (List.all_eq_true.mp hbefore)]
    obtain ⟨c, rest, rfl⟩ := List.exists_cons_of_ne_nil hne
    rw [List.cons_append, List.dropWhile_cons_of_neg]
    simp [hhead c rfl]
  have hreverse : (text ++ after).reverse.dropWhile isWhitespace = text.reverse := by
    rw [List.reverse_append, List.dropWhile_append_of_pos (by simpa using hafter)]
    obtain ⟨c, rest, hrev⟩ := List.exists_cons_of_ne_nil (List.reverse_ne_nil_iff.mpr hne)
    have hc : isWhitespace c = false := hlast c (by rw [List.getLast?_eq_head?_reverse, hrev]; rfl)
    rw [hrev, List.dropWhile_cons_of_neg]
    simp [hc]
  rw [trim, hdrop, hreverse, List.reverse_reverse]

/-- What the parsers need of a table of letters: ASCII letters are letters, ASCII digits and blanks are
    none. -/
structure LetterTable (isLetter : Char → Bool) : Prop where
  alpha : ∀ c, c.isAlpha = true → isLetter c = true
  digit : ∀ c, c.isDigit = true → isLetter c = false
  blank : ∀ c, isWhitespace c = true → isLetter c = false

theorem letterTable_isAlpha : LetterTable Char.isAlpha where
  alpha c h := h
  digit c h := by
    rw [isDigit_iff] at h
    rw [Bool.eq_false_iff, Ne, isAlpha_iff]
    omega
  blank c h := by
    rw [Bool.eq_false_iff]
    intro halpha
    rw [isWhitespace_of_ascii (Or.inr halpha)] at h
    exact absurd h (by decide)

namespace Setting

variable (s : Setting)

theorem digit_not_blank {c : Char} (hc : c ∈ s.digits) : isWhitespace c = false :=
  isWhitespace_of_ascii (Or.inl (List.all_eq_true.mp s.digits_digit c hc))

theorem suffix_not_blank {c : Char} (hc : c ∈ s.suffix) : isWhitespace c = false :=
  isWhitespace_of_ascii (Or.inr (List.all_eq_true.mp s.suffix_alpha c hc))

/-- The text without the blanks at its ends. -/
def trimmed : List Char :=
  if s.suffix = [] then s.digits else s.digits ++ s.between ++ s.suffix

theorem trim_text : trim s.text.toList = s.trimmed := by
  rw [text, String.toList_ofList, trimmed]
  split
  · rename_i hsuffix
    have hblank : (s.between ++ s.after).all isWhitespace = true := by
      simp [s.between_blank, s.after_blank]
    have h := trim_blanks s.before_blank hblank s.digits_ne_nil
      (fun c hc => s.digit_not_blank (List.mem_of_mem_head? hc))
      (fun c hc => s.digit_not_blank (List.mem_of_getLast? hc))
    simpa [hsuffix] using h
  · rename_i hsuffix
    have hhead : ∀ c, (s.digits ++ s.between ++ s.suffix).head? = some c → isWhitespace c = false := by
      intro c hc
      rw [List.append_assoc, List.head?_append_of_ne_nil _ s.digits_ne_nil] at hc
      exact s.digit_not_blank (List.mem_of_mem_head? hc)
    have hlast : ∀ c, (s.digits ++ s.between ++ s.suffix).getLast? = some c →
        isWhitespace c = false := by
      intro c hc
      rw [List.getLast?_append_of_ne_nil _ hsuffix] at hc
      exact s.suffix_not_blank (List.mem_of_getLast? hc)
    have h := trim_blanks s.before_blank s.after_blank (by simp [s.digits_ne_nil]) hhead hlast
    simpa only [List.append_assoc] using h

/-- The number and the suffix are found again. -/
theorem split_trimmed {isLetter : Char → Bool} (h : LetterTable isLetter) :
    numStr isLetter s.trimmed = s.digits ∧ suffixStr isLetter s.trimmed = s.suffix := by
  have hnumber : ∀ blanks : List Char, blanks.all isWhitespace = true →
      trim (s.digits ++ blanks) = s.digits := fun blanks hblanks =>
    @trim_blanks [] s.digits blanks rfl hblanks s.digits_ne_nil
      (fun c hc => s.digit_not_blank (List.mem_of_mem_head? hc))
      (fun c hc => s.digit_not_blank (List.mem_of_getLast? hc))
  have hfront : ∀ c ∈ s.digits ++ s.between, (!isLetter c) = true := by
    intro c hc
    rcases List.mem_append.mp hc with hc | hc
    · rw [h.digit c (List.all_eq_true.mp s.digits_digit c hc)]
      rfl
    · rw [h.blank c (List.all_eq_true.mp s.between_blank c hc)]
      rfl
  rw [numStr, suffixStr, trimmed]
  split
  · rename_i hsuffix
    have hdigits : ∀ c ∈ s.digits, (!isLetter c) = true := fun c hc =>
      hfront c (List.mem_append_left _ hc)
    rw [List.takeWhile_eq_self_iff.mpr hdigits, List.dropWhile_eq_nil_iff.mpr hdigits, hsuffix]
    refine ⟨?_, rfl⟩
    have := hnumber [] rfl
    rwa [List.append_nil] at this
  · rename_i hsuffix
    obtain ⟨c, rest, hcons⟩ := List.exists_cons_of_ne_nil hsuffix
    have hletter : isLetter c = true :=
      h.alpha c (List.all_eq_true.mp s.suffix_alpha c (by rw [hcons]; exact List.mem_cons_self))
    have htake : s.suffix.takeWhile (fun c => !isLetter c) = [] := by
      simp [hcons, hletter]
    have hdrop : s.suffix.dropWhile (fun c => !isLetter c) = s.suffix := by
      simp [hcons, hletter]
    rw [List.takeWhile_append_of_pos hfront, List.dropWhile_append_of_pos hfront]
    rw [htake, hdrop, List.append_nil]
    exact ⟨hnumber s.between s.between_blank, rfl⟩

/-- The same setting in lower case. -/
def lower : Setting where
  before := s.before
  digits := s.digits
  between := s.between
  suffix := toAsciiLowercase s.suffix
  after := s.after
  before_blank := s.before_blank
  between_blank := s.between_blank
  after_blank := s.after_blank
  digits_ne_nil := s.digits_ne_nil
  digits_digit := s.digits_digit
  suffix_alpha := by
    rw [toAsciiLowercase, List.all_map]
    refine List.all_eq_true.mpr fun c hc => ?_
    rw [Function.comp_apply, Char.isAlpha_toLower_eq_isAlpha]
    exact List.all_eq_true.mp s.suffix_alpha c hc
  fits := s.fits

theorem toAsciiLowercase_trimmed : toAsciiLowercase s.trimmed = s.lower.trimmed := by
  have hself : ∀ cs : List Char, (∀ c ∈ cs, c.isAlpha = false) → toAsciiLowercase cs = cs := by
    intro cs hcs
    refine (List.map_congr_left fun c hc => ?_).trans (List.map_id cs)
    refine Char.toLower_eq_of_not_isUpper fun hupper => ?_
    have halpha := hcs c hc
    rw [Char.isAlpha, hupper] at halpha
    exact absurd halpha (by simp)
  have hdigits : toAsciiLowercase s.digits = s.digits := hself _ fun c hc =>
    letterTable_isAlpha.digit c (List.all_eq_true.mp s.digits_digit c hc)
  have hbetween : toAsciiLowercase s.between = s.between := hself _ fun c hc =>
    letterTable_isAlpha.blank c (List.all_eq_true.mp s.between_blank c hc)
  rw [trimmed, trimmed]
  by_cases hsuffix : s.suffix = []
  · have hlower : s.lower.suffix = [] := by simp [lower, hsuffix, toAsciiLowercase]
    rw [if_pos hsuffix, if_pos hlower]
    exact hdigits
  · have hlower : ¬s.lower.suffix = [] := by simpa [lower, toAsciiLowercase] using hsuffix
    rw [if_neg hsuffix, if_neg hlower, toAsciiLowercase, List.map_append, List.map_append]
    show toAsciiLowercase s.digits ++ toAsciiLowercase s.between ++ _ = _
    rw [hdigits, hbetween]
    rfl

theorem trimmed_ne_nil : s.trimmed ≠ [] := by
  rw [trimmed]
  split
  · exact s.digits_ne_nil
  · simp [s.digits_ne_nil]

end Setting

/-- **A size**: the product, modulo `2 ^ 64`. -/
theorem parseByteSize_text {isAlphabetic : Char → Bool} (h : LetterTable isAlphabetic) (s : Setting) :
    parseByteSize isAlphabetic s.text = s.product sizeUnit % 2 ^ 64 := by
  obtain ⟨hnumber, hsuffix⟩ := s.split_trimmed h
  unfold parseByteSize
  simp only [s.trim_text, s.trimmed_ne_nil, if_false, hnumber, hsuffix]
  rw [parseU64_digits s.digits_ne_nil s.digits_digit s.fits]
  rfl

/-- The factor of a suffix of an age in any case. -/
def ageFactor (suffix : List Char) : Nat := ageUnit (toAsciiLowercase suffix)

/-- **An age**: the product, modulo `2 ^ 64`. -/
theorem parseAgeSecs_text (s : Setting) :
    parseAgeSecs s.text = s.product ageFactor % 2 ^ 64 := by
  obtain ⟨hnumber, hsuffix⟩ := s.lower.split_trimmed letterTable_isAlpha
  unfold parseAgeSecs
  simp only [s.trim_text, s.toAsciiLowercase_trimmed, s.lower.trimmed_ne_nil, false_or, hnumber, hsuffix]
  split
  · -- the text is a zero without a suffix
    rename_i hzero
    have hdigits : s.lower.digits = ['0'] := by
      rw [← hnumber, hzero]
      rfl
    have hnumber0 : s.number = 0 := by
      show Nat.ofDigitChars 10 s.lower.digits 0 = 0
      rw [hdigits]
      rfl
    rw [Setting.product, hnumber0, Nat.zero_mul, Nat.zero_mod]
  · rw [parseU64_digits s.lower.digits_ne_nil s.lower.digits_digit s.lower.fits]
    rfl

/-! ## Exact, or wrapped around -/

/-- What is asked of a parser at a setting: the product where it fits, and otherwise at least what
    every setting of a smaller product gives. -/
def Faithful (parse : String → Nat) (unit : List Char → Nat) (s : Setting) : Prop :=
  (s.product unit < 2 ^ 64 → parse s.text = s.product unit) ∧
  (2 ^ 64 ≤ s.product unit → ∀ t : Setting, t.product unit < s.product unit →
    parse t.text ≤ parse s.text)

/-- Up to a setting the parser is monotone in the number, the suffix being the same. -/
def MonotoneUpTo (parse : String → Nat) (s : Setting) : Prop :=
  ∀ t u : Setting, t.suffix = s.suffix → u.suffix = s.suffix → t.number ≤ u.number →
    u.number ≤ s.number → parse t.text ≤ parse u.text

/-- A factor is one, or even and at most that of a terabyte. -/
def Factor (u : Nat) : Prop := u = 1 ∨ (2 ∣ u ∧ 2 ≤ u ∧ u ≤ 2 ^ 40)

theorem factor_sizeUnit (suffix : List Char) : Factor (sizeUnit suffix) := by
  unfold sizeUnit Factor
  split <;> decide

theorem factor_ageUnit (suffix : List Char) : Factor (ageUnit suffix) := by
  unfold ageUnit Factor
  split <;> decide

section

variable {parse : String → Nat} {unit : List Char → Nat}

/-- The wrapped product of an even factor is even, and the largest number is not. -/
theorem faithful_iff (hparse : ∀ s : Setting, parse s.text = s.product unit % 2 ^ 64)
    (hunit : ∀ suffix, Factor (unit suffix)) (hnil : unit [] = 1) (s : Setting) :
    Faithful parse unit s ↔ s.product unit < 2 ^ 64 := by
  constructor
  · rintro ⟨-, hlarge⟩
    by_contra hge
    rw [not_lt] at hge
    have hnumber := s.fits
    obtain hone | ⟨heven, -, -⟩ := hunit s.suffix
    · rw [Setting.product, hone, Nat.mul_one] at hge
      exact absurd hnumber (not_lt.mpr hge)
    · have hmax : (2 : Nat) ^ 64 - 1 < 2 ^ 64 := by decide
      have hnone : ([] : List Char).all Char.isAlpha = true := rfl
      have hle := hlarge hge (Setting.ofNumber (2 ^ 64 - 1) [] hmax hnone) (by
        rw [Setting.product_ofNumber, hnil]
        omega)
      rw [hparse, hparse, Setting.product_ofNumber, hnil] at hle
      have hdvd : 2 ∣ s.product unit := Dvd.dvd.mul_left heven _
      omega
  · intro hlt
    refine ⟨fun _ => ?_, fun hge => absurd hlt (not_lt.mpr hge)⟩
    rw [hparse, Nat.mod_eq_of_lt hlt]

/-- The first number whose product wraps gives less than the number before it. -/
theorem monotoneUpTo_iff (hparse : ∀ s : Setting, parse s.text = s.product unit % 2 ^ 64)
    (hunit : ∀ suffix, Factor (unit suffix)) (s : Setting) :
    MonotoneUpTo parse s ↔ s.product unit < 2 ^ 64 := by
  constructor
  · intro hmono
    by_contra hge
    rw [not_lt] at hge
    have hnumber : s.number < 2 ^ 64 := s.fits
    have hfactor := hunit s.suffix
    have hproduct : s.product unit = s.number * unit s.suffix := rfl
    generalize hf : unit s.suffix = f at hfactor hproduct
    obtain hone | ⟨-, htwo, hsmall⟩ := hfactor
    · rw [hproduct, hone, Nat.mul_one] at hge
      exact absurd hnumber (not_lt.mpr hge)
    -- the last number that fits, and the one after it
    have hlast : (2 ^ 64 - 1) / f * f ≤ 2 ^ 64 - 1 := Nat.div_mul_le_self _ _
    have hnext : 2 ^ 64 - 1 < ((2 ^ 64 - 1) / f + 1) * f :=
      Nat.lt_mul_of_div_lt (Nat.lt_succ_self _) (by omega)
    generalize (2 ^ 64 - 1) / f = m at hlast hnext
    have hm : m + 1 ≤ s.number := by
      by_contra hlt
      have : s.number * f ≤ m * f := Nat.mul_le_mul_right f (by omega)
      omega
    have hle := hmono (Setting.ofNumber m s.suffix (by omega) s.suffix_alpha)
      (Setting.ofNumber (m + 1) s.suffix (by omega) s.suffix_alpha) rfl rfl (by simp) (by simpa using hm)
    rw [hparse, hparse, Setting.product_ofNumber, Setting.product_ofNumber, hf] at hle
    rw [Nat.add_mul, Nat.one_mul] at hnext hle
    omega
  · intro hlt t u ht hu hle hmax
    have hfits : ∀ v : Setting, v.suffix = s.suffix → v.number ≤ s.number → v.product unit < 2 ^ 64 := by
      intro v hv hvle
      refine lt_of_le_of_lt ?_ hlt
      rw [Setting.product, Setting.product, hv]
      exact Nat.mul_le_mul_right _ hvle
    rw [hparse, hparse, Nat.mod_eq_of_lt (hfits t ht (hle.trans hmax)), Nat.mod_eq_of_lt (hfits u hu hmax),
      Setting.product, Setting.product, ht, hu]
    exact Nat.mul_le_mul_right _ hle

end

/-- **Exact, saturated and monotone** are the two parsers at a setting exactly when its product fits in
    64 bits. -/
theorem limits_faithful_iff {isAlphabetic : Char → Bool} (h : LetterTable isAlphabetic) (s : Setting) :
    ((Faithful (parseByteSize isAlphabetic) sizeUnit s ↔ s.product sizeUnit < 2 ^ 64) ∧
      (MonotoneUpTo (parseByteSize isAlphabetic) s ↔ s.product sizeUnit < 2 ^ 64)) ∧
    ((Faithful parseAgeSecs ageFactor s ↔ s.product ageFactor < 2 ^ 64) ∧
      (MonotoneUpTo parseAgeSecs s ↔ s.product ageFactor < 2 ^ 64)) := by
  have hage : ∀ suffix, Factor (ageFactor suffix) := fun suffix => factor_ageUnit _
  refine ⟨⟨?_, ?_⟩, ⟨?_, ?_⟩⟩
  · exact faithful_iff (parseByteSize_text h) factor_sizeUnit rfl s
  · exact monotoneUpTo_iff (parseByteSize_text h) factor_sizeUnit s
  · exact faithful_iff parseAgeSecs_text hage rfl s
  · exact monotoneUpTo_iff parseAgeSecs_text hage s

/-- A hundred gigabytes are a hundred gigabytes. -/
theorem limits_faithful_100G :
    Faithful (parseByteSize Char.isAlpha) sizeUnit (Setting.ofNumber 100 ['G'] (by decide) rfl) :=
  (limits_faithful_iff letterTable_isAlpha _).1.1.mpr (by decide)

/-- Sixteen million terabytes are nothing, and as many days as do not fit are less than one day. -/
theorem large_limits_wrap :
    (parseByteSize Char.isAlpha "16777216T" = 0 ∧ parseByteSize Char.isAlpha "1K" = 1024 ∧
      ¬Faithful (parseByteSize Char.isAlpha) sizeUnit (Setting.ofNumber 16777216 ['T'] (by decide) rfl)) ∧
    (parseAgeSecs "213503982334602d" = 61184 ∧ parseAgeSecs "1d" = 86400 ∧
      ¬Faithful parseAgeSecs ageFactor (Setting.ofNumber 213503982334602 ['d'] (by decide) rfl)) := by
  refine ⟨⟨by decide, by decide, ?_⟩, ⟨by decide, by decide, ?_⟩⟩
  · rintro ⟨-, hlarge⟩
    exact absurd (hlarge (by decide) (Setting.ofNumber 1 ['K'] (by decide) rfl) (by decide)) (by decide)
  · rintro ⟨-, hlarge⟩
    exact absurd (hlarge (by decide) (Setting.ofNumber 1 ['d'] (by decide) rfl) (by decide)) (by decide)

/-- **A wrapped size is no limit**: where the product is a multiple of `2 ^ 64`, the pass removes
    nothing for its size. -/
theorem evict_of_wrapped {isAlphabetic : Char → Bool} (h : LetterTable isAlphabetic) (size : Setting)
    (hwrap : 2 ^ 64 ∣ size.product sizeUnit) (s : Store) (limits : EvictLimits)
    (hlimits : limits.maxBytes = parseByteSize isAlphabetic size.text) (now : Nat) (io : EvictIo) :
    s.evict limits now io = (s.evictIdleItems now io).ttlCleanup limits.maxAge now io := by
  have hzero : limits.maxBytes = 0 := by
    rw [hlimits, parseByteSize_text h, Nat.mod_eq_zero_of_dvd hwrap]
  exact if_pos hzero

end RdRs.Cache

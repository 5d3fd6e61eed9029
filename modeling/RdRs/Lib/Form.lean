/-
  `application/x-www-form-urlencoded` — percent encoding, and the parser of a form.

  The parser works on bytes.  It splits at `&`, at the first `=` of a part, turns `+` into a space and
  decodes `%` followed by two hexadecimal digits; any other `%` stays.  An ENCODER is given by the set
  of the bytes it writes as `%XX`.

  * `component_encode` — what is encoded is read back up to the escapes the text had itself;
  * `component_encode_iff` — so it is read back exactly when the text has none;
  * `hasEscape_utf8` — the escapes of a text are those of its bytes;
  * `parse_fields` — the fields of a form are those it was joined of.
-/
import Mathlib

set_option linter.unusedVariables false

namespace RdRs.Form

/-! ## Escapes -/

/-- The value of a hexadecimal digit. -/
def hexVal (b : UInt8) : Option UInt8 :=
  if 48 ≤ b ∧ b ≤ 57 then some (b - 48)
  else if 65 ≤ b ∧ b ≤ 70 then some (b - 55)
  else if 97 ≤ b ∧ b ≤ 102 then some (b - 87)
  else none

def isHex (b : UInt8) : Bool := (hexVal b).isSome

/-- The digit of a value below 16. -/
def hexDigit (v : UInt8) : UInt8 := if v < 10 then 48 + v else 55 + v

/-- The byte that three bytes stand for, if they are `%` and two digits. -/
def escape (a b c : UInt8) : Option UInt8 :=
  if a = 37 then (hexVal b).bind fun h => (hexVal c).map fun l => 16 * h + l else none

/-- Percent decoding. -/
def percentDecode : List UInt8 → List UInt8
  | [] => []
  | [a] => [a]
  | [a, b] => [a, b]
  | a :: b :: c :: rest =>
    match escape a b c with
    | some v => v :: percentDecode rest
    | none => a :: percentDecode (b :: c :: rest)

/-- Percent encoding of the bytes of a set. -/
def percentEncode (set : UInt8 → Bool) (text : List UInt8) : List UInt8 :=
  text.flatMap fun b => if set b then [37, hexDigit (b / 16), hexDigit (b % 16)] else [b]

def plusToSpace (text : List UInt8) : List UInt8 := text.map fun b => if b = 43 then 32 else b

/-- A name or a value of a form, decoded. -/
def component (text : List UInt8) : List UInt8 := percentDecode (plusToSpace text)

section

variable {α : Type} (percent : α) (digit : α → Bool)

/-- Somewhere in the text a percent sign is followed by two digits. -/
def HasEscape (text : List α) : Prop :=
  ∃ a b, digit a = true ∧ digit b = true ∧ [percent, a, b] <:+: text

/-- The text begins with `n` digits. -/
def BeginsWith : Nat → List α → Prop
  | 0, _ => True
  | _ + 1, [] => False
  | n + 1, a :: rest => digit a = true ∧ BeginsWith n rest

theorem beginsWith_two {text : List α} :
    BeginsWith digit 2 text ↔
      ∃ a b rest, text = a :: b :: rest ∧ digit a = true ∧ digit b = true := by
  match text with
  | [] => simp [BeginsWith]
  | [a] => simp [BeginsWith]
  | a :: b :: rest => simp [BeginsWith]

theorem hasEscape_cons (a : α) (text : List α) :
    HasEscape percent digit (a :: text) ↔
      (a = percent ∧ BeginsWith digit 2 text) ∨ HasEscape percent digit text := by
  rw [beginsWith_two]
  constructor
  · rintro ⟨x, y, hx, hy, hinfix⟩
    rcases List.infix_cons_iff.mp hinfix with hpre | hinfix
    · obtain ⟨rest, hrest⟩ := hpre
      injection hrest with hpercent htext
      exact Or.inl ⟨hpercent.symm, x, y, rest, htext.symm, hx, hy⟩
    · exact Or.inr ⟨x, y, hx, hy, hinfix⟩
  · rintro (⟨rfl, x, y, rest, rfl, hx, hy⟩ | ⟨x, y, hx, hy, hinfix⟩)
    · exact ⟨x, y, hx, hy, [], rest, rfl⟩
    · exact ⟨x, y, hx, hy, hinfix.trans (List.infix_cons (List.infix_refl _))⟩

theorem not_hasEscape_nil : ¬HasEscape percent digit [] := by
  rintro ⟨x, y, -, -, hinfix⟩
  exact absurd hinfix.length_le (by simp)

end

/-! ## Decoding -/

theorem byte_all {P : UInt8 → Prop} (h : ∀ n < 256, P (UInt8.ofNat n)) (b : UInt8) : P b := by
  have hb := h b.toNat b.toNat_lt_size
  rwa [UInt8.ofNat_toNat] at hb

theorem escape_encoded (b : UInt8) : escape 37 (hexDigit (b / 16)) (hexDigit (b % 16)) = some b := by
  revert b
  exact byte_all (by decide +kernel)

theorem hexDigit_ne_plus (b : UInt8) : hexDigit (b / 16) ≠ 43 ∧ hexDigit (b % 16) ≠ 43 := by
  revert b
  exact byte_all (by decide +kernel)

/-- `%` and two digits, and nothing else, are an escape. -/
theorem escape_isSome (a b c : UInt8) :
    (escape a b c).isSome ↔ a = 37 ∧ isHex b = true ∧ isHex c = true := by
  by_cases ha : a = 37
  · cases hb : hexVal b <;> cases hc : hexVal c <;> simp [escape, isHex, ha, hb, hc]
  · simp [escape, ha]

theorem escape_eq_none {a b c : UInt8} :
    escape a b c = none ↔ ¬(a = 37 ∧ isHex b = true ∧ isHex c = true) := by
  rw [← escape_isSome, Option.not_isSome_iff_eq_none]

theorem percentDecode_escape {a b c v : UInt8} (h : escape a b c = some v) (rest : List UInt8) :
    percentDecode (a :: b :: c :: rest) = v :: percentDecode rest := by
  rw [percentDecode, h]

/-- A byte that does not begin an escape stays. -/
theorem percentDecode_cons {a : UInt8} {text : List UInt8} (h : a = 37 → ¬BeginsWith isHex 2 text) :
    percentDecode (a :: text) = a :: percentDecode text := by
  match text with
  | [] => rfl
  | [b] => rfl
  | b :: c :: rest =>
    have hescape : escape a b c = none := by
      rw [escape_eq_none]
      rintro ⟨ha, hb, hc⟩
      exact h ha ⟨hb, hc, trivial⟩
    rw [percentDecode, hescape]

/-- A text without escapes is left as it is, and an escape makes it shorter. -/
theorem percentDecode_cases (text : List UInt8) :
    (¬HasEscape 37 isHex text ∧ percentDecode text = text) ∨
    (HasEscape 37 isHex text ∧ (percentDecode text).length < text.length) := by
  have hcons : ∀ a text, ¬BeginsWith isHex 2 text →
      (HasEscape 37 isHex (a :: text) ↔ HasEscape 37 isHex text) := fun a text h => by
    rw [hasEscape_cons, or_iff_right fun hand => h hand.2]
  have hnone := not_hasEscape_nil (37 : UInt8) isHex
  induction text using percentDecode.induct with
  | case1 => exact Or.inl ⟨hnone, rfl⟩
  | case2 a => exact Or.inl ⟨by rwa [hcons a [] (by simp [BeginsWith])], rfl⟩
  | case3 a b =>
    refine Or.inl ⟨?_, rfl⟩
    rwa [hcons a [b] (by simp [BeginsWith]), hcons b [] (by simp [BeginsWith])]
  | case4 a b c rest v hescape ih =>
    obtain ⟨ha, hb, hc⟩ := (escape_isSome a b c).mp (by rw [hescape]; rfl)
    have hle : (percentDecode rest).length ≤ rest.length := by
      rcases ih with ⟨-, heq⟩ | ⟨-, hlt⟩
      · exact le_of_eq (congrArg List.length heq)
      · exact hlt.le
    refine Or.inr ⟨(hasEscape_cons _ _ _ _).mpr (Or.inl ⟨ha, hb, hc, trivial⟩), ?_⟩
    rw [percentDecode_escape hescape]
    simp only [List.length_cons]
    omega
  | case5 a b c rest hescape ih =>
    have hbegins : a = 37 → ¬BeginsWith isHex 2 (b :: c :: rest) := fun ha hdigits =>
      escape_eq_none.mp hescape ⟨ha, hdigits.1, hdigits.2.1⟩
    have hiff : HasEscape 37 isHex (a :: b :: c :: rest) ↔ HasEscape 37 isHex (b :: c :: rest) := by
      rw [hasEscape_cons, or_iff_right fun hand => hbegins hand.1 hand.2]
    rw [percentDecode_cons hbegins, hiff]
    rcases ih with ⟨hno, heq⟩ | ⟨hyes, hlt⟩
    · exact Or.inl ⟨hno, congrArg (List.cons a) heq⟩
    · exact Or.inr ⟨hyes, Nat.succ_lt_succ hlt⟩

theorem percentDecode_eq_iff (text : List UInt8) :
    percentDecode text = text ↔ ¬HasEscape 37 isHex text := by
  rcases percentDecode_cases text with ⟨hno, heq⟩ | ⟨hyes, hlt⟩
  · exact iff_of_true heq hno
  · exact iff_of_false (fun heq => absurd (congrArg List.length heq) hlt.ne) (fun h => h hyes)

/-! ## Encoding -/

theorem percentEncode_append (set : UInt8 → Bool) (text rest : List UInt8) :
    percentEncode set (text ++ rest) = percentEncode set text ++ percentEncode set rest :=
  List.flatMap_append

/-- Bytes outside the set are written as they are. -/
theorem percentEncode_of_forall {set : UInt8 → Bool} :
    ∀ {text : List UInt8}, (∀ b ∈ text, set b = false) → percentEncode set text = text
  | [], _ => rfl
  | b :: text, h => by
    have hb := h b List.mem_cons_self
    rw [percentEncode, List.flatMap_cons, hb]
    exact congrArg (List.cons b)
      (percentEncode_of_forall fun b' hb' => h b' (List.mem_cons_of_mem b hb'))

/-- No byte of the set is left, unless the encoder writes it itself. -/
theorem not_mem_percentEncode {set : UInt8 → Bool} {b : UInt8} (hb : set b = true) (hpercent : b ≠ 37)
    (hhex : isHex b = false) (text : List UInt8) : b ∉ percentEncode set text := by
  intro hmem
  obtain ⟨x, -, hx⟩ := List.mem_flatMap.mp hmem
  have hdigits : ∀ x : UInt8, isHex (hexDigit (x / 16)) = true ∧ isHex (hexDigit (x % 16)) = true :=
    byte_all (by decide +kernel)
  cases hset : set x with
  | true =>
    rw [hset, if_pos rfl] at hx
    simp only [List.mem_cons, List.not_mem_nil, or_false] at hx
    rcases hx with rfl | rfl | rfl
    · exact hpercent rfl
    · rw [(hdigits x).1] at hhex
      cases hhex
    · rw [(hdigits x).2] at hhex
      cases hhex
  | false =>
    rw [hset] at hx
    obtain rfl := List.mem_singleton.mp hx
    rw [hb] at hset
    cases hset

/-! ## Reading back what was encoded -/

section

variable {set : UInt8 → Bool}

/-- What the decoder sees of a byte in front: the `%` of its code, or the byte itself. -/
theorem plusToSpace_encode_cons (hplus : set 43 = true) (b : UInt8) (text : List UInt8) :
    (set b = true ∧ plusToSpace (percentEncode set (b :: text)) =
      37 :: hexDigit (b / 16) :: hexDigit (b % 16) :: plusToSpace (percentEncode set text)) ∨
    (set b = false ∧
      plusToSpace (percentEncode set (b :: text)) = b :: plusToSpace (percentEncode set text)) := by
  cases hb : set b with
  | true =>
    obtain ⟨hhigh, hlow⟩ := hexDigit_ne_plus b
    refine Or.inl ⟨rfl, ?_⟩
    rw [percentEncode, List.flatMap_cons, if_pos hb, plusToSpace, List.map_append]
    simp only [List.map_cons, List.map_nil, if_neg hhigh, if_neg hlow, List.cons_append, List.nil_append]
    rfl
  | false =>
    have hne : b ≠ 43 := fun heq => by
      rw [heq, hplus] at hb
      cases hb
    refine Or.inr ⟨rfl, ?_⟩
    rw [percentEncode, List.flatMap_cons, hb, plusToSpace, List.map_append]
    simp only [Bool.false_eq_true, if_false, List.map_cons, List.map_nil, if_neg hne, List.cons_append,
      List.nil_append]
    rfl

/-- Digits in front of the encoded text are digits in front of the text. -/
theorem beginsWith_of_encode (hplus : set 43 = true) : ∀ (n : Nat) (text : List UInt8),
    BeginsWith isHex n (plusToSpace (percentEncode set text)) → BeginsWith isHex n text
  | 0, _, _ => trivial
  | n + 1, [], h => h
  | n + 1, b :: text, h => by
    rcases plusToSpace_encode_cons hplus b text with ⟨-, hcode⟩ | ⟨-, hself⟩
    · rw [hcode] at h
      exact absurd h.1 (by decide)
    · rw [hself] at h
      exact ⟨h.1, beginsWith_of_encode hplus n text h.2⟩

/-- A byte that does not begin an escape of the text is read back. -/
theorem component_cons (hplus : set 43 = true) {b : UInt8} {text : List UInt8}
    (h : b = 37 → ¬BeginsWith isHex 2 text) :
    component (percentEncode set (b :: text)) = b :: component (percentEncode set text) := by
  rcases plusToSpace_encode_cons hplus b text with ⟨-, hcode⟩ | ⟨-, hself⟩
  · rw [component, hcode, percentDecode_escape (escape_encoded b)]
    rfl
  · rw [component, hself, percentDecode_cons fun hb hdigits => h hb (beginsWith_of_encode hplus 2 _ hdigits)]
    rfl

/-- **What is read back** where neither `%` nor a digit is encoded: the text with its own escapes
    decoded. -/
theorem component_encode (hplus : set 43 = true) (hpercent : set 37 = false)
    (hdigit : ∀ b, isHex b = true → set b = false) (text : List UInt8) :
    component (percentEncode set text) = percentDecode text := by
  have hself : ∀ b text, set b = false →
      plusToSpace (percentEncode set (b :: text)) = b :: plusToSpace (percentEncode set text) := by
    intro b text hb
    rcases plusToSpace_encode_cons hplus b text with ⟨hset, -⟩ | ⟨-, hself⟩
    · rw [hb] at hset
      cases hset
    · exact hself
  induction text using percentDecode.induct with
  | case1 => rfl
  | case2 a => exact component_cons hplus fun _ => by simp [BeginsWith]
  | case3 a b =>
    rw [component_cons hplus fun _ => by simp [BeginsWith],
      component_cons hplus fun _ => by simp [BeginsWith]]
    rfl
  | case4 a b c rest v hescape ih =>
    -- the escape goes through as it is
    obtain ⟨ha, hb, hc⟩ := (escape_isSome a b c).mp (by rw [hescape]; rfl)
    have hset : set a = false := by rw [ha, hpercent]
    rw [component, hself a _ hset, hself b _ (hdigit b hb), hself c _ (hdigit c hc),
      percentDecode_escape hescape, percentDecode_escape hescape]
    exact congrArg (List.cons v) ih
  | case5 a b c rest hescape ih =>
    have hbegins : a = 37 → ¬BeginsWith isHex 2 (b :: c :: rest) := fun ha hdigits =>
      escape_eq_none.mp hescape ⟨ha, hdigits.1, hdigits.2.1⟩
    rw [component_cons hplus hbegins, ih, percentDecode_cons hbegins]

/-- **Read back exactly** is what has no escape of its own. -/
theorem component_encode_iff (hplus : set 43 = true) (hpercent : set 37 = false)
    (hdigit : ∀ b, isHex b = true → set b = false) (text : List UInt8) :
    component (percentEncode set text) = text ↔ ¬HasEscape 37 isHex text := by
  rw [component_encode hplus hpercent hdigit, percentDecode_eq_iff]

end

/-! ## Texts -/

/-- The bytes of a text. -/
def utf8 (text : List Char) : List UInt8 := text.flatMap String.utf8EncodeChar

theorem utf8_append (s t : List Char) : utf8 (s ++ t) = utf8 s ++ utf8 t := List.flatMap_append

/-- An ASCII character is one byte; the bytes of any other character are not ASCII. -/
theorem utf8EncodeChar_cases (c : Char) :
    (c.toNat < 128 ∧ String.utf8EncodeChar c = [UInt8.ofNat c.toNat]) ∨
    (128 ≤ c.toNat ∧ ∀ b ∈ String.utf8EncodeChar c, 128 ≤ b.toNat) := by
  have htoNat : c.val.toNat = c.toNat := rfl
  rw [String.utf8EncodeChar, htoNat]
  split_ifs
  · exact Or.inl ⟨by omega, rfl⟩
  all_goals
    refine Or.inr ⟨by omega, fun b hb => ?_⟩
    simp only [List.mem_cons, List.not_mem_nil, or_false] at hb
  · rcases hb with rfl | rfl <;> rw [UInt8.toNat_ofNat'] <;> omega
  · rcases hb with rfl | rfl | rfl <;> rw [UInt8.toNat_ofNat'] <;> omega
  · rcases hb with rfl | rfl | rfl | rfl <;> rw [UInt8.toNat_ofNat'] <;> omega

/-- An ASCII character and its byte: which of them are digits, and which is the percent sign. -/
theorem ascii_byte {c : Char} (h : c.toNat < 128) :
    isHex (UInt8.ofNat c.toNat) = c.isHexDigit ∧ (UInt8.ofNat c.toNat = 37 ↔ c = '%') := by
  have hall : ∀ n < 128, isHex (UInt8.ofNat n) = (Char.ofNat n).isHexDigit ∧
      (UInt8.ofNat n = 37 ↔ Char.ofNat n = '%') := by decide
  have hc := hall c.toNat h
  rwa [Char.ofNat_toNat] at hc

/-- Bytes that are not ASCII are neither. -/
theorem not_hex_of_large {b : UInt8} (h : 128 ≤ b.toNat) : isHex b = false ∧ b ≠ 37 := by
  have hall : ∀ n < 256, 128 ≤ n → isHex (UInt8.ofNat n) = false ∧ UInt8.ofNat n ≠ 37 := by decide +kernel
  have hb := hall b.toNat b.toNat_lt_size h
  rwa [UInt8.ofNat_toNat] at hb

theorem not_isHexDigit_of_large {c : Char} (h : 128 ≤ c.toNat) : c.isHexDigit = false ∧ c ≠ '%' := by
  constructor
  · have hval : c.val.toNat = c.toNat := rfl
    simp only [Char.isHexDigit, Char.isDigit, ge_iff_le, UInt32.le_iff_toNat_le, hval]
    simp
    omega
  · rintro rfl
    exact absurd h (by decide)

theorem beginsWith_utf8 : ∀ (n : Nat) (text : List Char),
    BeginsWith isHex n (utf8 text) ↔ BeginsWith Char.isHexDigit n text
  | 0, _ => Iff.rfl
  | n + 1, [] => Iff.rfl
  | n + 1, c :: text => by
    rw [utf8, List.flatMap_cons]
    rcases utf8EncodeChar_cases c with ⟨hascii, hbytes⟩ | ⟨hlarge, hbytes⟩
    · rw [hbytes]
      show isHex _ = true ∧ BeginsWith isHex n (utf8 text) ↔ c.isHexDigit = true ∧ _
      rw [(ascii_byte hascii).1, beginsWith_utf8 n text]
    · obtain ⟨b, rest, hcons⟩ := List.exists_cons_of_ne_nil (String.utf8EncodeChar_ne_nil (c := c))
      have hb := (not_hex_of_large (hbytes b (by rw [hcons]; exact List.mem_cons_self))).1
      rw [hcons]
      refine iff_of_false (fun h => ?_) (fun h => ?_)
      · rw [List.cons_append] at h
        exact absurd h.1 (by rw [hb]; simp)
      · exact absurd h.1 (by rw [(not_isHexDigit_of_large hlarge).1]; simp)

/-- **The escapes of a text** are those of its bytes. -/
theorem hasEscape_utf8 (text : List Char) :
    HasEscape 37 isHex (utf8 text) ↔ HasEscape '%' Char.isHexDigit text := by
  induction text with
  | nil => exact iff_of_false (not_hasEscape_nil _ _) (not_hasEscape_nil _ _)
  | cons c text ih =>
    rw [hasEscape_cons, utf8, List.flatMap_cons]
    rcases utf8EncodeChar_cases c with ⟨hascii, hbytes⟩ | ⟨hlarge, hbytes⟩
    · rw [hbytes, List.singleton_append, hasEscape_cons, (ascii_byte hascii).2]
      exact or_congr (and_congr_right' (beginsWith_utf8 2 text)) ih
    · have hskip : ∀ bytes : List UInt8, (∀ b ∈ bytes, 128 ≤ b.toNat) →
          (HasEscape 37 isHex (bytes ++ utf8 text) ↔ HasEscape 37 isHex (utf8 text)) := by
        intro bytes
        induction bytes with
        | nil => exact fun _ => Iff.rfl
        | cons b bytes ihb =>
          intro hall
          have hb := (not_hex_of_large (hall b List.mem_cons_self)).2
          rw [List.cons_append, hasEscape_cons, or_iff_right fun hand => hb hand.1]
          exact ihb fun b' hb' => hall b' (List.mem_cons_of_mem b hb')
      rw [or_iff_right fun hand => (not_isHexDigit_of_large hlarge).2 hand.1, ← ih]
      exact hskip _ hbytes

/-! ## The fields of a form -/

/-- One part of the form, split at its first `=`. -/
def field (part : List UInt8) : List UInt8 × List UInt8 :=
  (component (part.takeWhile (· ≠ 61)), component ((part.dropWhile (· ≠ 61)).drop 1))

/-- The parser: the parts between `&`, without the empty ones. -/
def parse (body : List UInt8) : List (List UInt8 × List UInt8) :=
  ((body.splitOn 38).filter (· ≠ [])).map field

/-- A name and a value, joined. -/
def pair (f : List UInt8 × List UInt8) : List UInt8 := f.1 ++ 61 :: f.2

theorem field_pair {f : List UInt8 × List UInt8} (h : 61 ∉ f.1) :
    field (pair f) = (component f.1, component f.2) := by
  have hname : ∀ b ∈ f.1, decide (b ≠ 61) = true := fun b hb =>
    decide_eq_true fun heq => h (heq ▸ hb)
  rw [field, pair, List.takeWhile_append_of_pos hname, List.dropWhile_append_of_pos hname]
  simp

/-- **The fields of a form** are those it was joined of, with names and values decoded. -/
theorem parse_fields {fields : List (List UInt8 × List UInt8)} (hne : fields ≠ [])
    (hamp : ∀ f ∈ fields, 38 ∉ f.1 ∧ 38 ∉ f.2) (heq : ∀ f ∈ fields, 61 ∉ f.1) :
    parse ([38].intercalate (fields.map pair)) =
      fields.map fun f => (component f.1, component f.2) := by
  have hparts : ∀ part ∈ fields.map pair, 38 ∉ part := by
    intro part hpart
    obtain ⟨f, hf, rfl⟩ := List.mem_map.mp hpart
    obtain ⟨hname, hvalue⟩ := hamp f hf
    simp [pair, hname, hvalue]
  have hnonempty : (fields.map pair).filter (· ≠ []) = fields.map pair := by
    refine List.filter_eq_self.mpr fun part hpart => ?_
    obtain ⟨f, -, rfl⟩ := List.mem_map.mp hpart
    simp [pair]
  rw [parse, List.splitOn_intercalate 38 hparts (by simpa using hne), hnonempty, List.map_map]
  exact List.map_congr_left fun f hf => field_pair (heq f hf)

end RdRs.Form

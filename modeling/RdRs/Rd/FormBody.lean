/-
  `urlencoding_encode` of `rd/api/helpers.rs` and the body of `unrestrict_link` — what the server reads.

  The encoder replaces `&`, `=` and `+`, one after the other; `%` stays.  So the parts of the form are
  found again, but an escape that the link had itself is decoded.

  * `bytes_urlencodingEncode` — the three replacements are one encoder;
  * `formBody_faithful_iff` — the server reads the link and the address exactly when neither of them
    has an escape.
-/
import RdRs.Lib.Form
import RdRs.Config

set_option linter.unusedVariables false

namespace RdRs.Rd

open RdRs.Form

/-! ## The body -/

/-- `str::replace` of a character -/
def replaceChar (c : Char) (text s : List Char) : List Char :=
  s.flatMap fun x => if x = c then text else [x]

/-- `urlencoding_encode`, on characters -/
def urlencodingEncode (s : List Char) : List Char :=
  replaceChar '+' "%2B".toList (replaceChar '=' "%3D".toList (replaceChar '&' "%26".toList s))

/-- `RankedHosts::geo_unrestrict_ip` -/
def geoUnrestrictIp (hash : String → Nat) (pin : RankedHosts) (loc seed : String) : Option String :=
  (pickLocationHost hash seed loc pin.reachableIpv4Hosts).bind fun host => pin.ipv4Addresses.lookup host

/-- The body of a link, and of an address if there is one. -/
def formBody (link : String) (ip : Option String) : String :=
  let body := "link=" ++ String.ofList (urlencodingEncode link.toList)
  match ip with
  | none => body
  | some ip => body ++ "&ip=" ++ String.ofList (urlencodingEncode ip.toList)

/-- The address that goes along: in the mode for locations only, and if a host of the location is
    known. -/
def unrestrictIp (hash : String → Nat) (api : ApiConfig) (rankedHosts : Option RankedHosts)
    (link : String) : Option String :=
  if api.cdnMode = .forceLocation then
    api.cdnLocation.bind fun loc => rankedHosts.bind fun pin => geoUnrestrictIp hash pin loc link
  else none

/-- The body that `unrestrict_link` builds. -/
def unrestrictBody (hash : String → Nat) (api : ApiConfig) (rankedHosts : Option RankedHosts)
    (link : String) : String := formBody link (unrestrictIp hash api rankedHosts link)

/-- The bytes of a text. -/
def bytes (s : String) : List UInt8 := utf8 s.toList

/-- What the server is to read. -/
def formFields (link : String) (ip : Option String) : List (List UInt8 × List UInt8) :=
  (bytes "link", bytes link) :: (ip.toList.map fun ip => (bytes "ip", bytes ip))

/-! ## One encoder -/

/-- `&`, `=` and `+` -/
def formSet (b : UInt8) : Bool := b == 38 || b == 61 || b == 43

/-- The three characters are the three bytes. -/
theorem formSet_utf8 {c : Char} (h : c ≠ '&' ∧ c ≠ '=' ∧ c ≠ '+') {b : UInt8}
    (hb : b ∈ String.utf8EncodeChar c) : formSet b = false := by
  rcases utf8EncodeChar_cases c with ⟨hascii, hbytes⟩ | ⟨-, hlarge⟩
  · rw [hbytes, List.mem_singleton] at hb
    have hall : ∀ n < 128, Char.ofNat n ≠ '&' ∧ Char.ofNat n ≠ '=' ∧ Char.ofNat n ≠ '+' →
        formSet (UInt8.ofNat n) = false := by decide
    rw [hb]
    exact hall c.toNat hascii (by rwa [Char.ofNat_toNat])
  · have hall : ∀ b : UInt8, 128 ≤ b.toNat → formSet b = false := byte_all (by decide +kernel)
    exact hall b (hlarge b hb)

theorem replaceChar_append (c : Char) (text s t : List Char) :
    replaceChar c text (s ++ t) = replaceChar c text s ++ replaceChar c text t := List.flatMap_append

theorem urlencodingEncode_cons (c : Char) (s : List Char) :
    urlencodingEncode (c :: s) = urlencodingEncode [c] ++ urlencodingEncode s := by
  simp only [urlencodingEncode, ← replaceChar_append]
  rfl

/-- **The three replacements are one encoder**: none of them meets what another has written. -/
theorem bytes_urlencodingEncode (s : List Char) :
    utf8 (urlencodingEncode s) = percentEncode formSet (utf8 s) := by
  induction s with
  | nil => rfl
  | cons c s ih =>
    have hchar : utf8 (urlencodingEncode [c]) = percentEncode formSet (String.utf8EncodeChar c) := by
      by_cases hamp : c = '&'
      · subst hamp; decide
      by_cases heq : c = '='
      · subst heq; decide
      by_cases hplus : c = '+'
      · subst hplus; decide
      have hself : urlencodingEncode [c] = [c] := by
        simp [urlencodingEncode, replaceChar, hamp, heq, hplus]
      rw [hself, percentEncode_of_forall fun b hb => formSet_utf8 ⟨hamp, heq, hplus⟩ hb]
      exact List.append_nil _
    rw [urlencodingEncode_cons, utf8, List.flatMap_append, utf8, List.flatMap_cons, percentEncode_append,
      ← hchar]
    exact congrArg _ ih

/-! ## What the server reads -/

theorem not_mem_encoded (s : List Char) :
    38 ∉ utf8 (urlencodingEncode s) ∧ 61 ∉ utf8 (urlencodingEncode s) := by
  rw [bytes_urlencodingEncode]
  exact ⟨not_mem_percentEncode rfl (by decide) rfl _, not_mem_percentEncode rfl (by decide) rfl _⟩

/-- The value of a field, read back. -/
theorem component_encoded_iff (s : String) :
    component (utf8 (urlencodingEncode s.toList)) = bytes s ↔
      ¬HasEscape '%' Char.isHexDigit s.toList := by
  have hdigit : ∀ b, isHex b = true → formSet b = false := byte_all (by decide +kernel)
  rw [bytes_urlencodingEncode, bytes, component_encode_iff rfl rfl hdigit, hasEscape_utf8]

/-- The fields as they are in the body. -/
def encodedFields (link : String) (ip : Option String) : List (List UInt8 × List UInt8) :=
  (bytes "link", utf8 (urlencodingEncode link.toList)) ::
    ip.toList.map fun ip => (bytes "ip", utf8 (urlencodingEncode ip.toList))

theorem bytes_append (s t : String) : bytes (s ++ t) = bytes s ++ bytes t := by
  rw [bytes, String.toList_append, utf8_append]
  rfl

theorem bytes_ofList (s : List Char) : bytes (String.ofList s) = utf8 s := by
  rw [bytes, String.toList_ofList]

theorem bytes_formBody (link : String) (ip : Option String) :
    bytes (formBody link ip) = [38].intercalate ((encodedFields link ip).map pair) := by
  have hlink : bytes "link=" = bytes "link" ++ [61] := by decide
  have hip : bytes "&ip=" = 38 :: (bytes "ip" ++ [61]) := by decide
  cases ip with
  | none =>
    show bytes ("link=" ++ _) = _
    rw [bytes_append, hlink, bytes_ofList (urlencodingEncode _)]
    simp [encodedFields, pair, List.intercalate]
  | some ip =>
    show bytes ("link=" ++ _ ++ "&ip=" ++ _) = _
    rw [bytes_append, bytes_append, bytes_append, hlink, hip, bytes_ofList (urlencodingEncode _),
      bytes_ofList (urlencodingEncode _)]
    simp [encodedFields, pair, List.intercalate]

/-- The server finds the fields of the body, each with its value decoded. -/
theorem parse_formBody (link : String) (ip : Option String) :
    parse (bytes (formBody link ip)) =
      (encodedFields link ip).map fun f => (component f.1, component f.2) := by
  have hnames : 61 ∉ bytes "link" ∧ 38 ∉ bytes "link" ∧ 61 ∉ bytes "ip" ∧ 38 ∉ bytes "ip" := by decide
  obtain ⟨hlinkEq, hlinkAmp, hipEq, hipAmp⟩ := hnames
  have hfields : ∀ f ∈ encodedFields link ip, (38 ∉ f.1 ∧ 38 ∉ f.2) ∧ 61 ∉ f.1 := by
    intro f hf
    rcases List.mem_cons.mp hf with rfl | hf
    · exact ⟨⟨hlinkAmp, (not_mem_encoded _).1⟩, hlinkEq⟩
    · obtain ⟨i, -, rfl⟩ := List.mem_map.mp hf
      exact ⟨⟨hipAmp, (not_mem_encoded _).1⟩, hipEq⟩
  have hne : encodedFields link ip ≠ [] := List.cons_ne_nil _ _
  rw [bytes_formBody, parse_fields hne (fun f hf => (hfields f hf).1) fun f hf => (hfields f hf).2]

/-- Neither the link nor the address has a percent sign followed by two hexadecimal digits. -/
def NoEscapes (link : String) (ip : Option String) : Prop :=
  ¬HasEscape '%' Char.isHexDigit link.toList ∧
    ∀ i, ip = some i → ¬HasEscape '%' Char.isHexDigit i.toList

theorem decoded_fields_iff (link : String) (ip : Option String) :
    ((encodedFields link ip).map fun f => (component f.1, component f.2)) = formFields link ip ↔
      NoEscapes link ip := by
  have hlink : component (bytes "link") = bytes "link" := by decide
  have hip : component (bytes "ip") = bytes "ip" := by decide
  cases ip with
  | none => simp [NoEscapes, encodedFields, formFields, hlink, component_encoded_iff]
  | some ip => simp [NoEscapes, encodedFields, formFields, hlink, hip, component_encoded_iff]

/-- **The server reads what was meant**, the link, the address if there is one, and no other field,
    exactly when neither of them has an escape. -/
theorem formBody_faithful_iff (link : String) (ip : Option String) :
    parse (bytes (formBody link ip)) = formFields link ip ↔ NoEscapes link ip := by
  rw [parse_formBody, decoded_fields_iff]

/-- The same of the body of a request, whatever the configuration. -/
theorem unrestrictBody_faithful_iff (hash : String → Nat) (api : ApiConfig)
    (rankedHosts : Option RankedHosts) (link : String) :
    parse (bytes (unrestrictBody hash api rankedHosts link)) =
        formFields link (unrestrictIp hash api rankedHosts link) ↔
      NoEscapes link (unrestrictIp hash api rankedHosts link) := by
  rw [unrestrictBody, parse_formBody, decoded_fields_iff]

/-- A link that has an escape is read without it. -/
theorem escaped_link_is_decoded :
    parse (bytes (formBody "https://real-debrid.com/d/AB%20CD" none)) =
        [(bytes "link", bytes "https://real-debrid.com/d/AB CD")] ∧
      parse (bytes (formBody "https://real-debrid.com/d/AB%20CD" none)) ≠
        formFields "https://real-debrid.com/d/AB%20CD" none := by
  have hread : parse (bytes (formBody "https://real-debrid.com/d/AB%20CD" none)) =
      [(bytes "link", bytes "https://real-debrid.com/d/AB CD")] := by decide
  refine ⟨hread, ?_⟩
  rw [hread]
  decide

end RdRs.Rd

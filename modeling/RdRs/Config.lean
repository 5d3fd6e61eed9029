/-
  `config/mod.rs`, `config/load.rs` — sizes as text, and what a configuration is checked for.

  A size stays the text of the file until it is used: `validate` does not look at it, and
  `parse_byte_size` makes something of every text.  The fields are those that `validate` and `read_at`
  read.
-/
import RdRs.Rd.Cdn

set_option linter.unusedVariables false

namespace RdRs

open RdRs.Rd

/-! ## Sizes -/

/-- `str::parse::<u64>`: ASCII digits, after one `+` at most, of a number that fits. -/
def parseU64 (s : List Char) : Option Nat :=
  let digits := if s.head? = some '+' then s.tail else s
  if digits = [] ∨ digits.all Char.isDigit = false then none
  else
    let n := digits.foldl (fun n c => 10 * n + (c.toNat - '0'.toNat)) 0
    if n < 2 ^ 64 then some n else none

/-- Reading digits. -/
theorem parseU64_digits {digits : List Char} (hne : digits ≠ [])
    (hdigits : digits.all Char.isDigit = true) (hfits : Nat.ofDigitChars 10 digits 0 < 2 ^ 64) :
    parseU64 digits = some (Nat.ofDigitChars 10 digits 0) := by
  have hplus : digits.head? ≠ some '+' := by
    intro heq
    have hc := List.all_eq_true.mp hdigits '+' (List.mem_of_mem_head? heq)
    exact absurd hc (by decide)
  rw [Nat.ofDigitChars_eq_foldl] at hfits ⊢
  unfold parseU64
  simp only [if_neg hplus, hne, hdigits, Bool.true_eq_false, or_self, if_false, if_pos hfits]

/-- The factor of a suffix; one that is not known counts as none. -/
def sizeUnit (suffix : List Char) : Nat :=
  match String.ofList ((trim suffix).map Char.toUpper) with
  | "K" => 1024
  | "KB" => 1024
  | "KIB" => 1024
  | "M" => 1048576
  | "MB" => 1048576
  | "MIB" => 1048576
  | "G" => 1073741824
  | "GB" => 1073741824
  | "GIB" => 1073741824
  | "T" => 1099511627776
  | "TB" => 1099511627776
  | "TIB" => 1099511627776
  | _ => 1

section

-- `char::is_alphabetic`, a table of Unicode
variable (isAlphabetic : Char → Bool)

/-- The number in front of the first letter. -/
def numStr (s : List Char) : List Char := trim (s.takeWhile fun c => !isAlphabetic c)

/-- The suffix, from the first letter on. -/
def suffixStr (s : List Char) : List Char := s.dropWhile fun c => !isAlphabetic c

/-- `parse_byte_size`; the product wraps around. -/
def parseByteSize (text : String) : Nat :=
  let s := trim text.toList
  if s = [] then 0
  else
    let base := (parseU64 (numStr isAlphabetic s)).getD 0
    base * sizeUnit (suffixStr isAlphabetic s) % 2 ^ 64

end

example : parseByteSize Char.isAlpha " 4 MiB" = 4194304 := by decide
example : parseByteSize Char.isAlpha "4,5M" = 0 := by decide

/-! ## Configurations -/

structure ApiConfig where
  rateLimitPerMinute : Nat
  timeoutSecs : Nat
  cdnMode : CdnMode
  cdnLocation : Option String

structure VfsConfig where
  readAhead : String
  chunkSize : String
  maxParallelStreams : Nat

structure Config where
  token : String
  api : ApiConfig
  vfs : VfsConfig

/-- `Config::validate` -/
def Config.validate (cfg : Config) : Except String Unit :=
  if cfg.token = "" then .error "config: `token` must not be empty"
  else if cfg.api.rateLimitPerMinute = 0 then
    .error "config: api.rate_limit_per_minute must be > 0"
  else if cfg.api.timeoutSecs = 0 then .error "config: api.timeout_secs must be > 0"
  else if cfg.api.cdnMode = .forceLocation ∧
      cfg.api.cdnLocation.any (fun s => decide (trim s.toList ≠ [])) = false then
    .error "config: api.cdn_location must be set when api.cdn_mode = \"force_location\""
  else .ok ()

end RdRs

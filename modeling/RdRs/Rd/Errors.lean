/-
  `rd/client/errors.rs` — the errors of the Real-Debrid client: their kinds, their texts and the
  tests on them.

  The text of a transport error is the HTTP library's own and is carried as it is.
-/
import Mathlib

set_option linter.unusedVariables false

namespace RdRs.Rd

/-- An error answer of the API. -/
inductive ApiError where
  | rateLimit (code : Int) (message : String)
  | trafficExhausted (message : String)
  | internal (message : String)
  | fairUsageLimit (message : String)
  | other (code : Int) (message : String)
deriving Repr, DecidableEq

namespace ApiError

/-- `ApiError::from_code` -/
def fromCode (code : Int) (message : String) : ApiError :=
  if code = 5 ∨ code = 34 ∨ code = 429 then .rateLimit code message
  else if code = 23 then .trafficExhausted message
  else if code = 36 then .fairUsageLimit message
  else if code = -1 then .internal message
  else .other code message

/-- `ApiError::should_retry` -/
def shouldRetry : ApiError → Bool
  | .rateLimit _ _ | .trafficExhausted _ | .internal _ | .fairUsageLimit _ => true
  | .other _ _ => false

/-- `ApiError::is_bandwidth_limited` -/
def isBandwidthLimited : ApiError → Bool
  | .trafficExhausted _ | .fairUsageLimit _ => true
  | .rateLimit _ _ | .internal _ | .other _ _ => false

/-- The `Display` text. -/
def display : ApiError → String
  | .rateLimit code message => "RD rate limit (code=" ++ toString code ++ "): " ++ message
  | .trafficExhausted message => "RD traffic exhausted: " ++ message
  | .internal message => "RD internal error: " ++ message
  | .fairUsageLimit message => "RD fair usage limit: " ++ message
  | .other code message => "RD API error (code=" ++ toString code ++ "): " ++ message

end ApiError

/-- An error answer of the CDN. -/
inductive DownloadError where
  | invalidDownloadCode
  | failedGeneration
  | tooManyAttempts
  | fileUnavailable
  | bytesLimitReached
  | linkUnavailable (status : Nat)
  | serverError (status : Nat)
  | other (msg : String)
deriving Repr, DecidableEq

namespace DownloadError

/-- `DownloadError::from_header` -/
def fromHeader (msg : String) (status : Nat) : DownloadError :=
  if msg = "invalid_download_code" then .invalidDownloadCode
  else if msg = "failed_generation" then .failedGeneration
  else if msg = "too_many_attempts" then .tooManyAttempts
  else if msg = "file_unavailable" then .fileUnavailable
  else if msg = "bytes_limit_reached" then .bytesLimitReached
  else if 500 ≤ status ∧ status ≤ 599 then .serverError status
  else if status = 401 ∨ status = 403 ∨ status = 404 then .linkUnavailable status
  else .other msg

/-- `DownloadError::should_refresh_via_unrestrict`: a fresh unrestricted URL may help. -/
def shouldRefreshViaUnrestrict : DownloadError → Bool
  | .invalidDownloadCode | .failedGeneration | .tooManyAttempts | .linkUnavailable _ => true
  | .fileUnavailable | .bytesLimitReached | .serverError _ | .other _ => false

/-- The `Display` text. -/
def display : DownloadError → String
  | .invalidDownloadCode => "invalid_download_code"
  | .failedGeneration => "failed_generation"
  | .tooManyAttempts => "too_many_attempts"
  | .fileUnavailable => "file_unavailable"
  | .bytesLimitReached => "bytes_limit_reached"
  | .linkUnavailable status => "cdn link unavailable (HTTP " ++ toString status ++ ")"
  | .serverError status => "server error (status=" ++ toString status ++ ")"
  | .other msg => "download error: " ++ msg

end DownloadError

/-- Any error of the client. -/
inductive RdError where
  | api (e : ApiError)
  | download (e : DownloadError)
  /-- a transport error with its text -/
  | network (msg : String)
  | cancelled
  | rangeNotSupported
  | maxRetriesExceeded
deriving Repr, DecidableEq

namespace RdError

/-- `RdError::should_refresh_via_unrestrict` -/
def shouldRefreshViaUnrestrict : RdError → Bool
  | .download d => d.shouldRefreshViaUnrestrict
  | _ => false

/-- `RdError::is_bandwidth_limited` -/
def isBandwidthLimited : RdError → Bool
  | .api e => e.isBandwidthLimited
  | .download .bytesLimitReached => true
  | _ => false

/-- The `Display` text. -/
def display : RdError → String
  | .api e => "api error: " ++ e.display
  | .download e => "download error: " ++ e.display
  | .network msg => "network error: " ++ msg
  | .cancelled => "request cancelled"
  | .rangeNotSupported => "range requests not supported by CDN (200 OK without Content-Range)"
  | .maxRetriesExceeded => "max retries exceeded"

end RdError

end RdRs.Rd

/-
  `cache/range_db.rs` — the persistent range metadata (`cache_ranges.db`).

  The table is a map from keys to rows, the blob of a row the packed little-endian intervals.  `get`
  has the three ends of the source: no (usable) row, a row, or an error for a blob of the wrong
  length.  Whether a database call succeeds at all is decided where it is called.

  * `rows_round_trip` — what is stored is what is restored, and what a blob of any origin becomes.
-/
import Mathlib
import RdRs.Cache.ByteRanges
import RdRs.Lib.LittleEndian

set_option linter.unusedVariables false

namespace RdRs.Cache

open RdRs.Spans RdRs.LittleEndian

/-- `SCHEMA_VERSION` -/
def schemaVersion : Int := 2

/-- A row of the table. -/
structure StoredRow where
  fileSize : Int
  updatedAt : Int
  rangesBlob : List UInt8
  schemaVersion : Int
deriving DecidableEq

/-- `RangeRow`: what `get` makes of a row. -/
structure RangeRow where
  fileSize : Nat
  updatedAt : Int
  ranges : ByteRanges

/-- The table `cache_ranges`. -/
abbrev RangeDb := AList fun _ : String => StoredRow

/-- `as i64` -/
def asI64 (n : Nat) : Int := if n < 2 ^ 63 then n else (n : Int) - 2 ^ 64

/-- `encode_ranges_blob` -/
def encodeRangesBlob (intervals : List (Nat × Nat)) : List UInt8 := pack 8 intervals

/-- `decode_ranges_blob` -/
def decodeRangesBlob (blob : List UInt8) : Except String (List (Nat × Nat)) :=
  if blob.length % 16 = 0 then .ok (unpack 8 (blob.length / 16) blob)
  else .error ("ranges_blob has invalid length " ++ toString blob.length ++
    " (must be multiple of 16)")

namespace RangeDb

/-- `RangeDb::get` -/
def get (db : RangeDb) (cacheKey : String) : Except String (Option RangeRow) :=
  match db.lookup cacheKey with
  | none => .ok none
  | some row =>
    -- an old JSON row is silently discarded
    if row.schemaVersion ≠ Cache.schemaVersion then .ok none
    else match decodeRangesBlob row.rangesBlob with
      | .error e => .error e
      | .ok parsed =>
        .ok (some ⟨(max row.fileSize 0).toNat, row.updatedAt, ByteRanges.fromIntervals parsed⟩)

/-- `RangeDb::upsert` -/
def upsert (db : RangeDb) (cacheKey : String) (fileSize : Nat) (updatedAt : Int)
    (ranges : ByteRanges) : RangeDb :=
  db.insert cacheKey
    ⟨asI64 fileSize, updatedAt, encodeRangesBlob ranges.intervals, Cache.schemaVersion⟩

/-- `RangeDb::delete_keys` -/
def deleteKeys (db : RangeDb) (keys : List String) : RangeDb := keys.foldl (fun d k => d.erase k) db

/-- `RangeDb::stale_keys` -/
def staleKeys (db : RangeDb) (olderThanTs : Int) (limit : Nat) : List String :=
  (((db.entries.filter fun r => r.2.updatedAt < olderThanTs).insertionSort
    fun r t => r.2.updatedAt ≤ t.2.updatedAt).map (·.1)).take limit

end RangeDb

/-! ## The bytes a row carries -/

/-- The ends of the intervals fit the blob's 64-bit fields. -/
def ByteRanges.Fits (r : ByteRanges) : Prop := r.bytes ⊆ Set.Iio (2 ^ 64 - 1)

/-- The empty ranges fit. -/
theorem ByteRanges.fits_new : ByteRanges.new.Fits := by
  rw [Fits, bytes_new]
  exact Set.empty_subset _

/-- A range that fits is added. -/
theorem ByteRanges.Fits.insert {r : ByteRanges} (h : r.Fits) {start stop : Nat}
    (hs : stop < 2 ^ 64) : (r.insert start stop).Fits := by
  rw [Fits, bytes_insert]
  refine Set.union_subset h fun x hx => ?_
  have := hx.2
  show x < 2 ^ 64 - 1
  omega

/-- Whatever is inserted at `u64` offsets fits. -/
theorem ByteRanges.fits_insertAll (ops : List (UInt64 × UInt64)) : (insertAll ops).Fits := by
  rw [Fits, bytes_insertAll]
  rintro x ⟨p, -, -, hx⟩
  have hp2 := p.2.toNat_lt
  show x < 2 ^ 64 - 1
  omega

/-- What a blob decodes to fits. -/
theorem fits_of_decode {blob : List UInt8} {parsed : List (Nat × Nat)}
    (h : decodeRangesBlob blob = .ok parsed) : (ByteRanges.fromIntervals parsed).Fits := by
  unfold decodeRangesBlob at h
  split at h
  · obtain rfl := Except.ok.inj h
    rw [ByteRanges.Fits, ByteRanges.bytes_fromIntervals]
    rintro x ⟨p, hp, -, hx⟩
    have hp2 : p.2 < 256 ^ 8 := (unpack_lt 8 _ blob p hp).2
    show x < 2 ^ 64 - 1
    omega
  · exact absurd h nofun

/-- A blob is accepted exactly when it is a whole number of pairs long. -/
theorem decode_ok_iff {blob : List UInt8} :
    (∃ parsed, decodeRangesBlob blob = .ok parsed) ↔ blob.length % 16 = 0 := by
  unfold decodeRangesBlob
  split
  · rename_i h
    exact ⟨fun _ => h, fun _ => ⟨_, rfl⟩⟩
  · rename_i h
    refine ⟨fun hparsed => ?_, fun h' => absurd h' h⟩
    obtain ⟨parsed, hparsed⟩ := hparsed
    exact absurd hparsed (by simp)

/-- Decoding gives back every list of pairs that fit the fields. -/
theorem decode_encode_of_lt {l : List (Nat × Nat)} (h : ∀ p ∈ l, p.1 < 256 ^ 8 ∧ p.2 < 256 ^ 8) :
    decodeRangesBlob (encodeRangesBlob l) = .ok l := by
  have hlen : (encodeRangesBlob l).length = 16 * l.length := length_pack 8 l
  rw [decodeRangesBlob, if_pos (by rw [hlen]; omega), hlen, Nat.mul_div_cancel_left _ (by decide),
    encodeRangesBlob, unpack_pack 8 _ h]

/-- Encoding gives back every accepted blob. -/
theorem encode_decode {blob : List UInt8} {parsed : List (Nat × Nat)}
    (h : decodeRangesBlob blob = .ok parsed) : encodeRangesBlob parsed = blob := by
  have hlen := decode_ok_iff.mp ⟨parsed, h⟩
  rw [decodeRangesBlob, if_pos hlen] at h
  obtain rfl := Except.ok.inj h
  rw [encodeRangesBlob, pack_unpack 8 _ blob (by omega)]

/-- Decoding the blob of a value gives its intervals back. -/
theorem decode_encode {r : ByteRanges} (h : r.Fits) :
    decodeRangesBlob (encodeRangesBlob r.intervals) = .ok r.intervals := by
  refine decode_encode_of_lt fun p hp => ?_
  have hlt := r.separated.lt p hp
  have hend := ByteRanges.end_bounded h p hp
  omega

/-- Ranges are read back as they are. -/
theorem ByteRanges.fromIntervals_intervals (r : ByteRanges) : fromIntervals r.intervals = r :=
  eq_of_bytes_eq (bytes_fromIntervals r.intervals)

namespace RangeDb

/-- The bytes the row of a key offers to `open_or_create_with_db`: none without a usable row. -/
def offered (db : RangeDb) (key : String) : Set Nat :=
  match db.get key with
  | .ok (some row) => row.ranges.bytes
  | _ => ∅

/-- What is read from a row fits. -/
theorem get_fits {db : RangeDb} {key : String} {row : RangeRow} (h : db.get key = .ok (some row)) :
    row.ranges.Fits := by
  unfold get at h
  split at h
  · exact absurd h nofun
  · split at h
    · exact absurd h nofun
    · split at h
      · exact absurd h nofun
      · rename_i parsed hparsed
        obtain rfl := Option.some.inj (Except.ok.inj h)
        exact fits_of_decode hparsed

/-- **What is stored is what is restored.** -/
theorem get_upsert {db : RangeDb} {key : String} {fileSize : Nat} {updatedAt : Int}
    {ranges : ByteRanges} (h : ranges.Fits) :
    (db.upsert key fileSize updatedAt ranges).get key
      = .ok (some ⟨(max (asI64 fileSize) 0).toNat, updatedAt, ranges⟩) := by
  rw [get, upsert, AList.lookup_insert]
  simp only [ne_eq, not_true_eq_false, if_false]
  rw [decode_encode h]
  simp only [ByteRanges.fromIntervals_intervals]

/-- What `get` makes of a row whose blob is accepted. -/
theorem get_of_decode {db : RangeDb} {key : String} {row : StoredRow} {parsed : List (Nat × Nat)}
    (hrow : db.lookup key = some row) (hv : row.schemaVersion = Cache.schemaVersion)
    (hparsed : decodeRangesBlob row.rangesBlob = .ok parsed) :
    db.get key = .ok (some ⟨(max row.fileSize 0).toNat, row.updatedAt,
      ByteRanges.fromIntervals parsed⟩) := by
  rw [get, hrow]
  simp only [hv, ne_eq, not_true_eq_false, if_false, hparsed]

theorem get_congr {db db' : RangeDb} {key : String} (h : db.lookup key = db'.lookup key) :
    db.get key = db'.get key := by
  rw [get, get, h]

theorem offered_congr {db db' : RangeDb} {key : String} (h : db.lookup key = db'.lookup key) :
    db.offered key = db'.offered key := by
  rw [offered, offered, get_congr h]

/-- After an upsert the key offers what was written. -/
theorem offered_upsert {db : RangeDb} {key : String} {fileSize : Nat} {updatedAt : Int}
    {ranges : ByteRanges} (h : ranges.Fits) :
    (db.upsert key fileSize updatedAt ranges).offered key = ranges.bytes := by
  rw [offered, get_upsert h]

/-- An upsert leaves what the other keys offer. -/
theorem offered_upsert_ne {db : RangeDb} {key other : String} {fileSize : Nat} {updatedAt : Int}
    {ranges : ByteRanges} (h : other ≠ key) :
    (db.upsert key fileSize updatedAt ranges).offered other = db.offered other :=
  offered_congr (AList.lookup_insert_ne h)

/-- Deleted keys have no row. -/
theorem lookup_deleteKeys (key : String) : ∀ (keys : List String) (db : RangeDb),
    (db.deleteKeys keys).lookup key = if key ∈ keys then none else db.lookup key
  | [], db => by simp [deleteKeys]
  | k :: keys, db => by
    show (deleteKeys (db.erase k) keys).lookup key = _
    rw [lookup_deleteKeys key keys (db.erase k)]
    by_cases hk : key ∈ keys
    · rw [if_pos hk, if_pos (List.mem_cons_of_mem k hk)]
    · rw [if_neg hk]
      by_cases hkk : key = k
      · rw [hkk, if_pos List.mem_cons_self, AList.lookup_erase]
      · rw [if_neg (by simp [hk, hkk]), AList.lookup_erase_ne hkk]

theorem offered_deleteKeys {db : RangeDb} {key : String} {keys : List String} (h : key ∈ keys) :
    (db.deleteKeys keys).offered key = ∅ := by
  rw [offered, get, lookup_deleteKeys, if_pos h]

theorem offered_deleteKeys_not_mem {db : RangeDb} {key : String} {keys : List String}
    (h : key ∉ keys) : (db.deleteKeys keys).offered key = db.offered key :=
  offered_congr (by rw [lookup_deleteKeys, if_neg h])

/-! ## Rows from end to end -/

/-- **Rows round-trip.**  A value built by inserts comes back from its row with the same size, time
    and interval list; blobs are accepted by their length alone, and both directions of the
    encoding are inverse; what `get` builds from ANY accepted blob is sorted and separated and
    covers the union of the blob's pairs, those that do not start before their end adding
    nothing. -/
theorem rows_round_trip (db : RangeDb) (key : String) (fileSize : Nat) (hsize : fileSize < 2 ^ 63)
    (updatedAt : Int) (ops pairs : List (UInt64 × UInt64)) (blob : List UInt8) :
    (db.upsert key fileSize updatedAt (ByteRanges.insertAll ops)).get key
      = .ok (some ⟨fileSize, updatedAt, ByteRanges.insertAll ops⟩) ∧
    ((∃ parsed, decodeRangesBlob blob = .ok parsed) ↔ blob.length % 16 = 0) ∧
    decodeRangesBlob (encodeRangesBlob (pairs.map fun p => (p.1.toNat, p.2.toNat)))
      = .ok (pairs.map fun p => (p.1.toNat, p.2.toNat)) ∧
    (∀ parsed, decodeRangesBlob blob = .ok parsed → encodeRangesBlob parsed = blob) ∧
    (∀ (row : StoredRow) (parsed : List (Nat × Nat)), db.lookup key = some row →
      row.schemaVersion = Cache.schemaVersion → decodeRangesBlob row.rangesBlob = .ok parsed →
      ∃ got, db.get key = .ok (some got) ∧
        (∀ p ∈ got.ranges.intervals, p.1 < p.2) ∧
        got.ranges.intervals.Pairwise (fun p q => p.2 < q.1) ∧
        got.ranges.bytes = {b | ∃ p ∈ parsed, p.1 < p.2 ∧ p.1 ≤ b ∧ b < p.2}) := by
  refine ⟨?_, decode_ok_iff, decode_encode_of_lt fun p hp => ?_, fun parsed => encode_decode,
    fun row parsed hrow hv hparsed => ?_⟩
  · rw [get_upsert (ByteRanges.fits_insertAll ops), asI64, if_pos hsize,
      Int.max_eq_left (Int.natCast_nonneg fileSize), Int.toNat_natCast]
  · obtain ⟨p', -, rfl⟩ := List.mem_map.mp hp
    exact ⟨p'.1.toNat_lt, p'.2.toNat_lt⟩
  · refine ⟨_, get_of_decode hrow hv hparsed, ?_, ?_, ?_⟩
    · exact (ByteRanges.fromIntervals parsed).separated.lt
    · exact (ByteRanges.fromIntervals parsed).separated.gap
    · show (ByteRanges.fromIntervals parsed).bytes = _
      rw [ByteRanges.bytes_fromIntervals]
      ext b
      constructor
      · rintro ⟨p, hp, h1, h2⟩
        exact ⟨p, hp, by omega, h1, h2⟩
      · rintro ⟨p, hp, -, h1, h2⟩
        exact ⟨p, hp, h1, h2⟩

/-- A row with a reversed pair, an overlap and a pair out of order. -/
def tangledRow : StoredRow := ⟨30, 7, encodeRangesBlob [(20, 10), (8, 12), (0, 9)], 2⟩

theorem rows_round_trip_tangled :
    (RangeDb.upsert ∅ "k" 30 7 (ByteRanges.insertAll [(0, 4), (2, 9)])).get "k"
      = .ok (some ⟨30, 7, ByteRanges.insertAll [(0, 4), (2, 9)]⟩) ∧
    ∃ got, RangeDb.get (AList.insert "k" tangledRow ∅) "k" = .ok (some got) ∧
      got.ranges.bytes
        = {b | ∃ p ∈ [(20, 10), (8, 12), (0, 9)], p.1 < p.2 ∧ p.1 ≤ b ∧ b < p.2} := by
  refine ⟨(rows_round_trip ∅ "k" 30 (by decide) 7 [(0, 4), (2, 9)] [] []).1, ?_⟩
  obtain ⟨got, hgot, -, -, hbytes⟩ := (rows_round_trip (AList.insert "k" tangledRow ∅) "k" 30
    (by decide) 7 [] [] []).2.2.2.2 tangledRow [(20, 10), (8, 12), (0, 9)]
    (AList.lookup_insert _) rfl rfl
  exact ⟨got, hgot, hbytes⟩

end RangeDb

end RdRs.Cache

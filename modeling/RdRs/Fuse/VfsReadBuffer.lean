/-
  `fuse/vfs_read_buffer.rs` and the buffered path of `fuse/read.rs` — the per-handle read-ahead
  window, under any number of concurrent reads on one handle.

  1. **Data** — `VfsReadBuffer` holds the bytes already fetched and not yet returned, with the file
     offset `bufStart` of the first of them.
  2. **Program** — `prepareRead` decides hit or miss under the lock, `afterFetch` stores what is
     left of a fetch under the lock; between the two the lock is FREE, so other reads clear, consume
     or overwrite the window.  `Read.act` is one read as a task: prepare, fetch, store-and-reply.
  3. **Specification** — the reply is the slice of the file, and the window always is one
     (`Window`).
  4. **Correctness** — `prepareRead_spec` and `afterFetch_window` (one step each), then
     `reads_return_file_content` over every interleaving, by the pool rule.

  The widths matter: offsets are `u64` (the addition saturates), sizes are `u32`, and
  `filled.len() as u32` truncates.
-/
import Mathlib
import RdRs.Lib.Runs

set_option linter.unusedVariables false

namespace RdRs.Fuse

open RdRs.Runs

/-! ## The program -/

/-- `u32::MAX` -/
def u32Max : Nat := 2 ^ 32 - 1

/-- `u64::MAX` -/
def u64Max : Nat := 2 ^ 64 - 1

/-- `u64::saturating_add` -/
def saturatingAdd (a b : Nat) : Nat := min (a + b) u64Max

/-- Minimum effective `buffer_size`. -/
def minBufferSize : Nat := 64 * 1024

/-- Upper bound of `buffer_size`. -/
def maxBufferSize : Nat := 512 * 1024 * 1024

/-- `clamp_buffer_size` -/
def clampBufferSize (configured : Nat) : Nat :=
  if configured < minBufferSize then minBufferSize
  else if maxBufferSize < configured then maxBufferSize
  else configured

/-- The read-ahead window: `bufStart` is the file offset of the first byte in `data`. -/
structure VfsReadBuffer where
  bufStart : Nat
  data : List UInt8
deriving Repr, DecidableEq

namespace VfsReadBuffer

/-- `VfsReadBuffer::default` -/
def new : VfsReadBuffer := ⟨0, []⟩

/-- `VfsReadBuffer::clear` -/
def clear (b : VfsReadBuffer) : VfsReadBuffer := ⟨0, []⟩

/-- Bytes the current `read(offset, size)` must return (clamped to EOF). -/
def needLen (offset size fileSize : Nat) : Nat :=
  min (min (saturatingAdd offset size) fileSize - offset) u32Max

/-- Read-ahead: `max(buffer_size, need)` bytes, capped at EOF and `u32::MAX`. -/
def computeFillLen (offset need fileSize bufferSize : Nat) : Nat :=
  let remaining := fileSize - offset
  if remaining = 0 then 0 else min (min remaining (max bufferSize need)) u32Max

/-- `PrepareRead` -/
inductive PrepareRead where
  | hit (data : List UInt8)
  | miss (fillOffset fillLen take : Nat)
deriving Repr, DecidableEq

/-- `VfsReadBuffer::prepare_read`: satisfied from the buffer, or in need of a fetch. -/
def prepareRead (b : VfsReadBuffer) (offset size fileSize bufferSize : Nat) :
    VfsReadBuffer × PrepareRead :=
  let need := needLen offset size fileSize
  if need = 0 then (b, .hit [])
  else
    -- a seek drops the window
    let b := if b.data ≠ [] ∧ offset ≠ b.bufStart then b.clear else b
    if b.data ≠ [] ∧ need ≤ b.data.length then
      (⟨b.bufStart + need, b.data.drop need⟩, .hit (b.data.take need))
    else
      -- a window that is too short is dropped as well, and fetched again
      let b := if b.data ≠ [] then b.clear else b
      (b, .miss offset (computeFillLen offset need fileSize bufferSize) need)

/-- `VfsReadBuffer::after_fetch`: keep `take` leading bytes for the reply, store the rest. -/
def afterFetch (b : VfsReadBuffer) (fillOffset : Nat) (filled : List UInt8) (take : Nat) :
    VfsReadBuffer :=
  let take := min take (filled.length % 2 ^ 32)
  ⟨fillOffset + take, filled.drop take⟩

end VfsReadBuffer

/-- A file's content; its size is a `u64`. -/
structure FileContent where
  bytes : List UInt8
  size_lt : bytes.length < 2 ^ 64

/-- `CacheItem::read_at(offset, len)` when it succeeds: the file's bytes from `offset`, up to EOF. -/
def FileContent.readAt (F : FileContent) (offset len : Nat) : List UInt8 :=
  (F.bytes.drop offset).take len

/-- One buffered `read(offset, size)` as a task: before `prepare_read`, between `prepare_read` and
    the fetch, between the fetch and `after_fetch`, and at its two ends. -/
inductive Read where
  | start (offset : UInt64) (size : UInt32)
  | fetching (offset : UInt64) (size : UInt32) (fillOffset fillLen take : Nat)
  | fetched (offset : UInt64) (size : UInt32) (fillOffset : Nat) (filled : List UInt8) (take : Nat)
  | replied (offset : UInt64) (size : UInt32) (data : List UInt8)
  | failed
deriving DecidableEq

/-- The actions of a read. -/
inductive ReadAct where
  /-- `prepare_read` under the buffer lock -/
  | prepare
  /-- `read_at` succeeds -/
  | fetch
  /-- `read_at` fails for good, or the read is cancelled -/
  | fail
  /-- `continue 'read_retry` after a repair wait: everything is done again -/
  | retry
  /-- `after_fetch` under the buffer lock, and the reply -/
  | store
deriving DecidableEq

/-- One step of a read on the handle's buffer. -/
def Read.act (F : FileContent) (bufferSize : Nat) (b : VfsReadBuffer) :
    Read → ReadAct → Option (VfsReadBuffer × Read)
  | .start offset size, .prepare =>
    match b.prepareRead offset.toNat size.toNat F.bytes.length bufferSize with
    | (b', .hit data) => some (b', .replied offset size data)
    | (b', .miss fillOffset fillLen take) =>
      if fillLen = 0 then some (b', .replied offset size [])
      else some (b', .fetching offset size fillOffset fillLen take)
  | .fetching offset size fillOffset fillLen take, .fetch =>
    some (b, .fetched offset size fillOffset (F.readAt fillOffset fillLen) take)
  | .fetching _ _ _ _ _, .fail => some (b, .failed)
  | .fetching offset size _ _ _, .retry => some (b, .start offset size)
  | .fetched offset size fillOffset filled take, .store =>
    some (b.afterFetch fillOffset filled take,
      .replied offset size (filled.take (min take filled.length)))
  | _, _ => none

/-- Reads of one handle: a fresh buffer and one task per request. -/
def readsInit (requests : List (UInt64 × UInt32)) : Pool VfsReadBuffer Read :=
  ⟨VfsReadBuffer.new, requests.map fun r => .start r.1 r.2⟩

/-! ## Slices of the file -/

/-- The bytes a `read(offset, size)` must return. -/
def FileContent.slice (F : FileContent) (offset size : Nat) : List UInt8 :=
  (F.bytes.drop offset).take size

/-- The window holds the file's bytes from `bufStart` on. -/
def Window (F : FileContent) (b : VfsReadBuffer) : Prop :=
  b.data = F.slice b.bufStart b.data.length

/-- The amount to return is the requested size cut at the end of the file: the saturation of the
    `u64` addition is never below the file's end. -/
theorem needLen_eq (F : FileContent) (offset : UInt64) (size : UInt32) :
    VfsReadBuffer.needLen offset.toNat size.toNat F.bytes.length
      = min size.toNat (F.bytes.length - offset.toNat) := by
  have h1 := F.size_lt
  have h2 := size.toNat_lt
  simp only [VfsReadBuffer.needLen, saturatingAdd, u64Max, u32Max]
  omega

theorem slice_min (F : FileContent) (offset size : Nat) :
    F.slice offset (min size (F.bytes.length - offset)) = F.slice offset size := by
  unfold FileContent.slice
  rcases Nat.le_total size (F.bytes.length - offset) with h | h
  · rw [Nat.min_eq_left h]
  · rw [Nat.min_eq_right h, List.take_of_length_le (by rw [List.length_drop]),
      List.take_of_length_le (by rw [List.length_drop]; exact h)]

/-- Taking a part from the front of a window leaves a window. -/
theorem window_drop {F : FileContent} {start : Nat} {data : List UInt8} (n : Nat)
    (h : data = F.slice start data.length) (hn : n ≤ data.length) :
    data.drop n = F.slice (start + n) (data.drop n).length := by
  have hslice : F.slice start data.length = (F.bytes.drop start).take data.length := rfl
  rw [List.length_drop]
  conv_lhs => rw [h, hslice]
  rw [List.drop_take, List.drop_drop]
  rfl

theorem window_empty (F : FileContent) (start : Nat) : Window F ⟨start, []⟩ := rfl

/-! ## One step of the buffer -/

/-- **`prepare_read`** keeps the window; a hit carries the exact reply, a miss asks for a fetch at
    the read's own offset that covers what it must return. -/
theorem prepareRead_spec (F : FileContent) (bufferSize : Nat) (b : VfsReadBuffer) (hb : Window F b)
    (offset : UInt64) (size : UInt32) :
    Window F (b.prepareRead offset.toNat size.toNat F.bytes.length bufferSize).1 ∧
    match (b.prepareRead offset.toNat size.toNat F.bytes.length bufferSize).2 with
    | .hit data => data = F.slice offset.toNat size.toNat
    | .miss fillOffset fillLen take => fillOffset = offset.toNat ∧
        take = min size.toNat (F.bytes.length - offset.toNat) ∧ take ≤ fillLen := by
  have hneed := needLen_eq F offset size
  have hsize := size.toNat_lt
  unfold VfsReadBuffer.prepareRead
  simp only [hneed]
  by_cases h0 : min size.toNat (F.bytes.length - offset.toNat) = 0
  · rw [if_pos h0]
    refine ⟨hb, ?_⟩
    show [] = F.slice offset.toNat size.toNat
    rw [← slice_min, h0]
    rfl
  · rw [if_neg h0]
    -- after the seek test the window is empty or starts at the read's offset
    have hseek : Window F (if b.data ≠ [] ∧ offset.toNat ≠ b.bufStart then b.clear else b) ∧
        ((if b.data ≠ [] ∧ offset.toNat ≠ b.bufStart then b.clear else b).data ≠ [] →
          (if b.data ≠ [] ∧ offset.toNat ≠ b.bufStart then b.clear else b).bufStart
            = offset.toNat) := by
      by_cases hs : b.data ≠ [] ∧ offset.toNat ≠ b.bufStart
      · rw [if_pos hs]
        exact ⟨window_empty F 0, fun h => absurd rfl h⟩
      · rw [if_neg hs]
        refine ⟨hb, fun hd => ?_⟩
        by_contra hne
        exact hs ⟨hd, fun h => hne h.symm⟩
    generalize (if b.data ≠ [] ∧ offset.toNat ≠ b.bufStart then b.clear else b) = c at hseek
    obtain ⟨hc, hcoff⟩ := hseek
    by_cases hhit : c.data ≠ [] ∧ min size.toNat (F.bytes.length - offset.toNat) ≤ c.data.length
    · rw [if_pos hhit]
      have hstart := hcoff hhit.1
      refine ⟨window_drop _ hc hhit.2, ?_⟩
      show c.data.take _ = F.slice offset.toNat size.toNat
      rw [← slice_min, hc, hstart]
      unfold FileContent.slice
      rw [List.take_take, Nat.min_eq_left hhit.2]
    · rw [if_neg hhit]
      refine ⟨?_, rfl, rfl, ?_⟩
      · show Window F (if c.data ≠ [] then c.clear else c)
        split
        · exact window_empty F 0
        · exact hc
      · simp only [VfsReadBuffer.computeFillLen, u32Max]
        split <;> omega

/-- **`after_fetch`** leaves a window, whatever the buffer held before: it is overwritten. -/
theorem afterFetch_window (F : FileContent) (b : VfsReadBuffer) {fillOffset fillLen take : Nat} :
    Window F (b.afterFetch fillOffset (F.readAt fillOffset fillLen) take) := by
  have h : F.readAt fillOffset fillLen
      = F.slice fillOffset (F.readAt fillOffset fillLen).length := by
    unfold FileContent.readAt FileContent.slice
    rw [List.length_take, ← List.take_take, List.take_length]
  exact window_drop _ h (Nat.le_trans (Nat.min_le_right _ _) (Nat.mod_le _ _))

/-! ## Every interleaving -/

/-- What a read knows between its steps; none of it mentions the shared buffer. -/
def ReadOk (F : FileContent) : Read → Prop
  | .start _ _ => True
  | .fetching offset size fillOffset fillLen take => fillOffset = offset.toNat ∧
      take = min size.toNat (F.bytes.length - offset.toNat) ∧ take ≤ fillLen
  | .fetched offset size fillOffset filled take => fillOffset = offset.toNat ∧
      take = min size.toNat (F.bytes.length - offset.toNat) ∧
      ∃ fillLen, take ≤ fillLen ∧ filled = F.readAt fillOffset fillLen
  | .replied offset size data => data = F.slice offset.toNat size.toNat
  | .failed => True

/-- One action keeps the window and what the read knows. -/
theorem act_ok (F : FileContent) (bufferSize : Nat) (b : VfsReadBuffer) (r : Read) (a : ReadAct)
    (b' : VfsReadBuffer) (r' : Read) (hb : Window F b) (hr : ReadOk F r)
    (h : r.act F bufferSize b a = some (b', r')) : Window F b' ∧ ReadOk F r' := by
  cases r with
  | start offset size =>
    cases a with
    | prepare =>
      have hspec := prepareRead_spec F bufferSize b hb offset size
      simp only [Read.act] at h
      cases hp : b.prepareRead offset.toNat size.toNat F.bytes.length bufferSize with
      | mk c res =>
        rw [hp] at h hspec
        cases res with
        | hit data =>
          obtain ⟨rfl, rfl⟩ : c = b' ∧ _ = r' := by simpa using h
          exact hspec
        | miss fillOffset fillLen take =>
          obtain ⟨hw, h1, h2, h3⟩ := hspec
          by_cases h0 : fillLen = 0
          · simp only [if_pos h0] at h
            obtain ⟨rfl, rfl⟩ : c = b' ∧ _ = r' := by simpa using h
            refine ⟨hw, ?_⟩
            -- nothing to fetch means nothing to return
            have htake : take = 0 := by omega
            show [] = F.slice offset.toNat size.toNat
            rw [← slice_min, ← h2, htake]
            rfl
          · simp only [if_neg h0] at h
            obtain ⟨rfl, rfl⟩ : c = b' ∧ _ = r' := by simpa using h
            exact ⟨hw, h1, h2, h3⟩
    | fetch | fail | retry | store => exact absurd h (by simp [Read.act])
  | fetching offset size fillOffset fillLen take =>
    cases a with
    | fetch =>
      obtain ⟨rfl, rfl⟩ : b = b' ∧ _ = r' := by simpa [Read.act] using h
      exact ⟨hb, hr.1, hr.2.1, fillLen, hr.2.2, rfl⟩
    | fail =>
      obtain ⟨rfl, rfl⟩ : b = b' ∧ _ = r' := by simpa [Read.act] using h
      exact ⟨hb, trivial⟩
    | retry =>
      obtain ⟨rfl, rfl⟩ : b = b' ∧ _ = r' := by simpa [Read.act] using h
      exact ⟨hb, trivial⟩
    | prepare | store => exact absurd h (by simp [Read.act])
  | fetched offset size fillOffset filled take =>
    cases a with
    | store =>
      obtain ⟨rfl, rfl⟩ : _ = b' ∧ _ = r' := by simpa [Read.act] using h
      obtain ⟨rfl, htake, fillLen, hle, rfl⟩ := hr
      refine ⟨afterFetch_window F b, ?_⟩
      show (F.readAt offset.toNat fillLen).take _ = F.slice offset.toNat size.toNat
      rw [← slice_min, ← htake]
      unfold FileContent.readAt FileContent.slice
      rw [List.length_take, List.length_drop, List.take_take]
      congr 1
      omega
    | prepare | fetch | fail | retry => exact absurd h (by simp [Read.act])
  | replied offset size data => cases a <;> exact absurd h (by simp [Read.act])
  | failed => cases a <;> exact absurd h (by simp [Read.act])

/-- **Buffered reads return exact file content.**  In every state that any number of reads on one
    handle can reach, in any order of their steps, each reply is the requested slice of the file and
    the buffer's data is the slice that starts at `buf_start`. -/
theorem reads_return_file_content (F : FileContent) (configured : Nat)
    (requests : List (UInt64 × UInt32)) (es : List (Nat × ReadAct)) (p : Pool VfsReadBuffer Read)
    (h : run (Pool.step (Read.act F (clampBufferSize configured))) (readsInit requests) es
      = some p) :
    (∀ offset size data, Read.replied offset size data ∈ p.tasks →
      data = (F.bytes.drop offset.toNat).take size.toNat) ∧
    p.shared.data = (F.bytes.drop p.shared.bufStart).take p.shared.data.length := by
  have hinit : Window F (readsInit requests).shared ∧
      ∀ r ∈ (readsInit requests).tasks, ReadOk F r := by
    refine ⟨window_empty F 0, fun r hr => ?_⟩
    obtain ⟨q, -, rfl⟩ := List.mem_map.mp hr
    trivial
  have hinv := run_inv' (I := fun p : Pool VfsReadBuffer Read =>
      Window F p.shared ∧ ∀ r ∈ p.tasks, ReadOk F r)
    (fun q e t hq ht => Pool.inv_step (I := Window F) (J := fun _ => ReadOk F)
      (fun g l a g' l' hg hl ha => act_ok F _ g l a g' l' hg hl ha)
      (fun g l a g' l' k _ _ hk _ => hk) hq ht)
    es _ p hinit h
  exact ⟨fun offset size data hm => hinv.2 _ hm, hinv.1⟩

/-- A file of four bytes. -/
def fourBytes : FileContent := ⟨[10, 20, 30, 40], by decide⟩

/-- Two reads that overtake each other: the second is prepared while the first is fetching, and its
    store overwrites the window the first one left. -/
def overtaking : List (Nat × ReadAct) :=
  [(0, .prepare), (1, .prepare), (0, .fetch), (0, .store), (1, .fetch), (1, .store)]

/-- Where they end. -/
def afterOvertaking : Pool VfsReadBuffer Read :=
  ⟨⟨3, [40]⟩, [.replied 0 1 [10], .replied 1 2 [20, 30]]⟩

theorem reads_return_file_content_overtaking :
    run (Pool.step (Read.act fourBytes (clampBufferSize 0))) (readsInit [(0, 1), (1, 2)]) overtaking =
      some afterOvertaking ∧
    (∀ offset size data, Read.replied offset size data ∈ afterOvertaking.tasks →
      data = (fourBytes.bytes.drop offset.toNat).take size.toNat) ∧
    afterOvertaking.shared.data =
      (fourBytes.bytes.drop afterOvertaking.shared.bufStart).take afterOvertaking.shared.data.length :=
  ⟨rfl, reads_return_file_content fourBytes 0 [(0, 1), (1, 2)] overtaking afterOvertaking rfl⟩

end RdRs.Fuse

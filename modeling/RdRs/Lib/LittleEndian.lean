/-
  Little-endian numbers of a fixed width, and packed lists of them.

  `toLe w n` is the `w` lowest bytes of `n`, lowest first, and `fromLe` reads any bytes back.  A
  PACKED list of pairs is the concatenation of both components of each pair; `unpack` cuts it at the
  fixed width again.  Both directions are structural: on the width, and on the number of pairs.
-/
import Mathlib

set_option linter.unusedVariables false

namespace RdRs.LittleEndian

/-- The `w` lowest bytes of `n`. -/
def toLe : Nat → Nat → List UInt8
  | 0, _ => []
  | w + 1, n => UInt8.ofNat n :: toLe w (n / 256)

/-- The number of a list of bytes. -/
def fromLe : List UInt8 → Nat
  | [] => 0
  | b :: bs => b.toNat + 256 * fromLe bs

@[simp] theorem length_toLe : ∀ w n : Nat, (toLe w n).length = w
  | 0, _ => rfl
  | w + 1, n => by rw [toLe, List.length_cons, length_toLe]

/-- Reading back what was written, when the width is enough. -/
theorem fromLe_toLe : ∀ w n : Nat, n < 256 ^ w → fromLe (toLe w n) = n
  | 0, n, h => by
    rw [Nat.pow_zero] at h
    show 0 = n
    omega
  | w + 1, n, h => by
    have hdiv : n / 256 < 256 ^ w := by
      rw [Nat.pow_succ] at h
      exact Nat.div_lt_of_lt_mul (by rw [Nat.mul_comm]; exact h)
    rw [toLe, fromLe, fromLe_toLe w (n / 256) hdiv, UInt8.toNat_ofNat']
    show n % 2 ^ 8 + 256 * (n / 256) = n
    omega

theorem fromLe_lt : ∀ bs : List UInt8, fromLe bs < 256 ^ bs.length
  | [] => Nat.one_pos
  | b :: bs => by
    have hb : b.toNat < 256 := b.toNat_lt
    have ih := fromLe_lt bs
    rw [fromLe, List.length_cons, Nat.pow_succ]
    omega

/-- Writing back what was read, at the width of the bytes. -/
theorem toLe_fromLe : ∀ bs : List UInt8, toLe bs.length (fromLe bs) = bs
  | [] => rfl
  | b :: bs => by
    have hb : b.toNat < 256 := b.toNat_lt
    have hlow : UInt8.ofNat (b.toNat + 256 * fromLe bs) = b := by
      rw [← UInt8.toNat_inj, UInt8.toNat_ofNat']
      show (b.toNat + 256 * fromLe bs) % 2 ^ 8 = b.toNat
      omega
    have hrest : (b.toNat + 256 * fromLe bs) / 256 = fromLe bs := by omega
    rw [List.length_cons, fromLe, toLe, hlow, hrest, toLe_fromLe bs]

/-- Pairs of `w`-byte numbers, packed. -/
def pack (w : Nat) (l : List (Nat × Nat)) : List UInt8 :=
  l.flatMap fun p => toLe w p.1 ++ toLe w p.2

/-- `n` pairs of `w`-byte numbers, cut off the front. -/
def unpack (w : Nat) : Nat → List UInt8 → List (Nat × Nat)
  | 0, _ => []
  | n + 1, bs => (fromLe (bs.take w), fromLe ((bs.drop w).take w)) :: unpack w n (bs.drop (2 * w))

theorem length_pack (w : Nat) : ∀ l : List (Nat × Nat), (pack w l).length = 2 * w * l.length
  | [] => by rw [pack]; simp
  | p :: l => by
    have ih := length_pack w l
    rw [pack] at ih ⊢
    rw [List.flatMap_cons, List.length_append, ih, List.length_append, length_toLe, length_toLe,
      List.length_cons, Nat.mul_succ]
    omega

/-- **Round trip** of a packed list whose numbers fit. -/
theorem unpack_pack (w : Nat) : ∀ l : List (Nat × Nat), (∀ p ∈ l, p.1 < 256 ^ w ∧ p.2 < 256 ^ w) →
    unpack w l.length (pack w l) = l
  | [], _ => rfl
  | p :: l, h => by
    obtain ⟨h1, h2⟩ := h p List.mem_cons_self
    have ih := unpack_pack w l fun q hq => h q (List.mem_cons_of_mem p hq)
    have hpack : pack w (p :: l) = toLe w p.1 ++ (toLe w p.2 ++ pack w l) := by
      rw [pack, List.flatMap_cons, List.append_assoc]
      rfl
    have htake : (pack w (p :: l)).take w = toLe w p.1 := by
      rw [hpack, List.take_left' (length_toLe w p.1)]
    have hdrop : (pack w (p :: l)).drop w = toLe w p.2 ++ pack w l := by
      rw [hpack, List.drop_left' (length_toLe w p.1)]
    have hrest : (pack w (p :: l)).drop (2 * w) = pack w l := by
      rw [Nat.two_mul, ← List.drop_drop, hdrop, List.drop_left' (length_toLe w p.2)]
    rw [List.length_cons, unpack, htake, hdrop, hrest, List.take_left' (length_toLe w p.2), ih,
      fromLe_toLe w p.1 h1, fromLe_toLe w p.2 h2]

/-- **Round trip** of bytes that are a whole number of pairs long. -/
theorem pack_unpack (w : Nat) : ∀ (n : Nat) (bs : List UInt8), bs.length = 2 * w * n →
    pack w (unpack w n bs) = bs
  | 0, bs, h => by
    rw [Nat.mul_zero] at h
    rw [List.eq_nil_of_length_eq_zero h]
    rfl
  | n + 1, bs, h => by
    rw [Nat.mul_succ] at h
    have hfirst : toLe w (fromLe (bs.take w)) = bs.take w := by
      have := toLe_fromLe (bs.take w)
      rwa [List.length_take, Nat.min_eq_left (by omega)] at this
    have hsecond : toLe w (fromLe ((bs.drop w).take w)) = (bs.drop w).take w := by
      have := toLe_fromLe ((bs.drop w).take w)
      rwa [List.length_take, List.length_drop, Nat.min_eq_left (by omega)] at this
    have ih := pack_unpack w n (bs.drop (2 * w)) (by rw [List.length_drop]; omega)
    rw [unpack, pack, List.flatMap_cons, hfirst, hsecond]
    rw [pack] at ih
    rw [ih, List.append_assoc, Nat.two_mul, ← List.drop_drop, List.take_append_drop,
      List.take_append_drop]

/-- What is unpacked fits the width. -/
theorem unpack_lt (w : Nat) : ∀ (n : Nat) (bs : List UInt8),
    ∀ p ∈ unpack w n bs, p.1 < 256 ^ w ∧ p.2 < 256 ^ w
  | 0, _, p, hp => absurd hp List.not_mem_nil
  | n + 1, bs, p, hp => by
    have hle : ∀ cs : List UInt8, fromLe (cs.take w) < 256 ^ w := fun cs =>
      Nat.lt_of_lt_of_le (fromLe_lt _)
        (Nat.pow_le_pow_right (by decide) (List.length_take_le w cs))
    rcases List.mem_cons.mp hp with rfl | hp
    · exact ⟨hle _, hle _⟩
    · exact unpack_lt w n _ p hp

end RdRs.LittleEndian

/-
  Records appended to a buffer of limited size, and read back from it.

  1. **Fields** — a block of fields of fixed widths (`writeFields`, `readFields`), little-endian; of a
     value that does not fit its width the low bytes are `kept`.
  2. **Writing** — records go to the end of the buffer, each whole; before a record is written, its
     `cost` is checked against what is left, and the first record that fails the check is the last
     to be looked at (`pack`).  What is written is `fitting`, the LONGEST front part all of whose
     records pass (`fitting_spec`).
  3. **Size** — the check keeps the buffer within its limit where a record costs what it takes
     (`length_pack_le`).  Where records are padded behind the check, it still does if sizes and limit
     are multiples of the alignment (`length_pack_le_of_dvd`).
  4. **Reading** — a reader takes one record after the other (`readAll`); it reads back what was
     written if it reads back each single record with anything behind it (`readAll_flatMap`).
     Fields with a text behind them, padded, are read back so (`nextRecord_record`).
-/
import Mathlib
import RdRs.Lib.LittleEndian

set_option linter.unusedVariables false

namespace RdRs.Records

open RdRs.LittleEndian

/-! ## Fields -/

/-- Fields, each with its width in bytes, one behind the other. -/
def writeFields (fields : List (Nat × Nat)) : List UInt8 := fields.flatMap fun f => toLe f.1 f.2

/-- Fields of given widths. -/
def readFields : List Nat → List UInt8 → List Nat
  | [], _ => []
  | w :: widths, bytes => fromLe (bytes.take w) :: readFields widths (bytes.drop w)

/-- The values fit their widths. -/
def FieldsFit (fields : List (Nat × Nat)) : Prop := ∀ f ∈ fields, f.2 < 256 ^ f.1

theorem length_writeFields (fields : List (Nat × Nat)) :
    (writeFields fields).length = (fields.map Prod.fst).sum := by
  rw [writeFields, List.length_flatMap]
  simp only [length_toLe]

/-- What a field of `w` bytes keeps of a value. -/
def kept (f : Nat × Nat) : Nat := f.2 % 256 ^ f.1

theorem fromLe_toLe_mod : ∀ w n : Nat, fromLe (toLe w n) = n % 256 ^ w
  | 0, n => by
    rw [Nat.pow_zero, Nat.mod_one]
    rfl
  | w + 1, n => by
    have hpow : 256 ^ (w + 1) = 256 * 256 ^ w := Nat.pow_succ'
    rw [toLe, fromLe, fromLe_toLe_mod w (n / 256), UInt8.toNat_ofNat', hpow, Nat.mod_mul]

/-- **Round trip** of fields, with anything behind them; what does not fit is cut. -/
theorem readFields_writeFields : ∀ (fields : List (Nat × Nat)) (rest : List UInt8),
    readFields (fields.map Prod.fst) (writeFields fields ++ rest) = fields.map kept
  | [], _ => rfl
  | (w, n) :: fields, rest => by
    have hwrite : writeFields ((w, n) :: fields) ++ rest =
        toLe w n ++ (writeFields fields ++ rest) := by
      rw [writeFields, List.flatMap_cons, List.append_assoc]
      rfl
    rw [hwrite, List.map_cons, List.map_cons, readFields, List.take_left' (length_toLe w n),
      List.drop_left' (length_toLe w n), fromLe_toLe_mod, readFields_writeFields fields rest]
    rfl

/-- Values that fit are kept. -/
theorem FieldsFit.kept {fields : List (Nat × Nat)} (h : FieldsFit fields) :
    fields.map kept = fields.map Prod.snd :=
  List.map_congr_left fun f hf => Nat.mod_eq_of_lt (h f hf)

variable {α β γ : Type*}

/-! ## Writing -/

section

variable (size cost : α → Nat) (limit : Nat)

/-- The records that pass the check, when `used` is taken already. -/
def fitting : Nat → List α → List α
  | _, [] => []
  | used, a :: rest => if limit < used + cost a then [] else a :: fitting (used + size a) rest

/-- Every record passes its check. -/
def Fits : Nat → List α → Prop
  | _, [] => True
  | used, a :: rest => used + cost a ≤ limit ∧ Fits (used + size a) rest

variable {size cost limit}

/-- **The longest front part that fits.** -/
theorem fitting_spec : ∀ (l : List α) (used : Nat), fitting size cost limit used l <+: l ∧
    Fits size cost limit used (fitting size cost limit used l) ∧
    ∀ p, p <+: l → Fits size cost limit used p → p <+: fitting size cost limit used l
  | [], used => ⟨List.nil_prefix, trivial, fun p hp _ => hp⟩
  | a :: rest, used => by
    obtain ⟨hfront, hfits, hlongest⟩ := fitting_spec rest (used + size a)
    rw [fitting]
    by_cases h : limit < used + cost a
    · rw [if_pos h]
      refine ⟨List.nil_prefix, trivial, fun p hp hpfits => ?_⟩
      cases p with
      | nil => exact List.nil_prefix
      | cons b p =>
        obtain ⟨rfl, -⟩ := List.cons_prefix_cons.mp hp
        exact absurd hpfits.1 (by omega)
    · rw [if_neg h]
      refine ⟨List.cons_prefix_cons.mpr ⟨rfl, hfront⟩, ⟨by omega, hfits⟩, fun p hp hpfits => ?_⟩
      cases p with
      | nil => exact List.nil_prefix
      | cons b p =>
        obtain ⟨rfl, hprest⟩ := List.cons_prefix_cons.mp hp
        exact List.cons_prefix_cons.mpr ⟨rfl, hlongest p hprest hpfits.2⟩

/-- A front part of what fits, fits. -/
theorem Fits.front : ∀ {p l : List α} {used : Nat}, p <+: l → Fits size cost limit used l →
    Fits size cost limit used p
  | [], l, used, _, _ => trivial
  | a :: p, [], used, hp, _ => absurd (List.prefix_nil.mp hp) (List.cons_ne_nil a p)
  | a :: p, b :: l, used, hp, h => by
    obtain ⟨rfl, hrest⟩ := List.cons_prefix_cons.mp hp
    exact ⟨h.1, Fits.front hrest h.2⟩

/-- The front parts that fit are those of `fitting`. -/
theorem fits_iff_front {p l : List α} {used : Nat} (hp : p <+: l) :
    Fits size cost limit used p ↔ p <+: fitting size cost limit used l := by
  obtain ⟨-, hfits, hlongest⟩ := @fitting_spec _ size cost limit l used
  exact ⟨hlongest p hp, fun h => hfits.front h⟩

/-- What fits has passed its check. -/
theorem cost_le_of_mem_fitting : ∀ {l : List α} {used : Nat} {a : α},
    a ∈ fitting size cost limit used l → cost a ≤ limit
  | [], used, a, ha => absurd ha List.not_mem_nil
  | b :: rest, used, a, ha => by
    rw [fitting] at ha
    split at ha
    · exact absurd ha List.not_mem_nil
    · rcases List.mem_cons.mp ha with rfl | ha
      · omega
      · exact cost_le_of_mem_fitting ha

/-- Nothing fits where the first record does not. -/
theorem fitting_eq_nil_iff {l : List α} {used : Nat} :
    fitting size cost limit used l = [] ↔ ∀ a ∈ l.head?, limit < used + cost a := by
  cases l with
  | nil => exact iff_of_true rfl fun a ha => absurd ha (Option.not_mem_none a)
  | cons a rest =>
    rw [fitting, List.head?_cons]
    constructor
    · intro h b hb
      obtain rfl : a = b := Option.some.inj hb
      by_contra hle
      rw [if_neg hle] at h
      exact absurd h (List.cons_ne_nil _ _)
    · intro h
      exact if_pos (h a rfl)

/-- Where a record costs what it takes, a non-empty front part fits as a whole or not. -/
theorem fits_iff (hcost : ∀ a, cost a = size a) : ∀ (l : List α) (used : Nat),
    Fits size cost limit used l ↔ l = [] ∨ used + (l.map size).sum ≤ limit
  | [], _ => iff_of_true trivial (Or.inl rfl)
  | a :: rest, used => by
    rw [Fits, fits_iff hcost rest, hcost, List.map_cons, List.sum_cons]
    constructor
    · rintro ⟨ha, hrest⟩
      right
      rcases hrest with rfl | hsum
      · rw [List.map_nil, List.sum_nil]
        omega
      · omega
    · rintro (h | hsum)
      · exact absurd h (List.cons_ne_nil _ _)
      · exact ⟨by omega, Or.inr (by omega)⟩

end

section

variable (enc : α → List β) (cost : α → Nat) (limit : Nat)

/-- Records written to the end of a buffer, up to the first that fails the check. -/
def pack : List β → List α → List β
  | buf, [] => buf
  | buf, a :: rest => if limit < buf.length + cost a then buf else pack (buf ++ enc a) rest

/-- **What is written** is what fits. -/
theorem pack_eq : ∀ (l : List α) (buf : List β), pack enc cost limit buf l =
    buf ++ (fitting (fun a => (enc a).length) cost limit buf.length l).flatMap enc
  | [], buf => (List.append_nil buf).symm
  | a :: rest, buf => by
    rw [pack, fitting]
    by_cases h : limit < buf.length + cost a
    · rw [if_pos h, if_pos h]
      exact (List.append_nil buf).symm
    · rw [if_neg h, if_neg h, pack_eq rest, List.length_append, List.flatMap_cons,
        List.append_assoc]

variable {enc cost limit}

/-! ## Size -/

/-- A record that costs at least what it takes is written within the limit. -/
theorem length_pack_le (hcost : ∀ a, (enc a).length ≤ cost a) : ∀ (l : List α) (buf : List β),
    buf.length ≤ limit → (pack enc cost limit buf l).length ≤ limit
  | [], _, hbuf => hbuf
  | a :: rest, buf, hbuf => by
    rw [pack]
    by_cases h : limit < buf.length + cost a
    · rw [if_pos h]
      exact hbuf
    · rw [if_neg h]
      refine length_pack_le hcost rest _ ?_
      have := hcost a
      rw [List.length_append]
      omega

/-- **Padding behind the check.**  A record may take more than it costs, by less than `d`, if `d`
    divides its size and the limit. -/
theorem length_pack_le_of_dvd {d : Nat} (hdvd : ∀ a, d ∣ (enc a).length)
    (hcost : ∀ a, (enc a).length < cost a + d) (hlimit : d ∣ limit) :
    ∀ (l : List α) (buf : List β), d ∣ buf.length → buf.length ≤ limit →
      (pack enc cost limit buf l).length ≤ limit
  | [], _, _, hbuf => hbuf
  | a :: rest, buf, hd, hbuf => by
    rw [pack]
    by_cases h : limit < buf.length + cost a
    · rw [if_pos h]
      exact hbuf
    · rw [if_neg h]
      have hd' : d ∣ (buf ++ enc a).length := by
        rw [List.length_append]
        exact Nat.dvd_add hd (hdvd a)
      refine length_pack_le_of_dvd hdvd hcost hlimit rest _ hd' ?_
      -- both are multiples of `d`, and less than `d` apart
      have hlt : (buf ++ enc a).length < limit + d := by
        have := hcost a
        rw [List.length_append]
        omega
      by_contra hgt
      obtain ⟨m, hm⟩ := hd'
      obtain ⟨k, hk⟩ := hlimit
      rw [hm, hk] at hlt hgt
      have hkm : k + 1 ≤ m := by
        by_contra hle
        exact hgt (Nat.mul_le_mul_left d (by omega))
      have := Nat.mul_le_mul_left d hkm
      rw [Nat.mul_succ] at this
      omega

end

/-! ## Reading -/

/-- Reading record after record: `next` finds a record and what follows it, or that there is none. -/
def readAll (next : List β → Option (γ × List β)) : Nat → List β → List γ
  | 0, _ => []
  | fuel + 1, bytes =>
    match next bytes with
    | none => []
    | some (c, rest) => c :: readAll next fuel rest

/-- **Round trip** of packed records: a reader that gets single records right gets all right. -/
theorem readAll_flatMap {next : List β → Option (γ × List β)} {enc : α → List β} {view : α → γ}
    (hend : next [] = none) : ∀ (l : List α) (fuel : Nat), l.length < fuel →
      (∀ a ∈ l, ∀ rest, next (enc a ++ rest) = some (view a, rest)) →
      readAll next fuel (l.flatMap enc) = l.map view
  | _, 0, hfuel, _ => absurd hfuel (Nat.not_lt_zero _)
  | [], fuel + 1, _, _ => by
    rw [List.flatMap_nil, readAll, hend]
    rfl
  | a :: l, fuel + 1, hfuel, h => by
    have ih := readAll_flatMap hend l fuel (by rw [List.length_cons] at hfuel; omega)
      fun b hb => h b (List.mem_cons_of_mem a hb)
    rw [List.flatMap_cons, readAll, h a List.mem_cons_self]
    exact congrArg _ ih

/-- **What is read back** from a buffer is what fitted. -/
theorem readAll_pack {next : List β → Option (γ × List β)} {enc : α → List β} {view : α → γ}
    {cost : α → Nat} {limit : Nat} {l : List α} (hend : next [] = none) (hne : ∀ a, enc a ≠ [])
    (h : ∀ a ∈ l, ∀ rest, next (enc a ++ rest) = some (view a, rest)) :
    readAll next ((pack enc cost limit [] l).length + 1) (pack enc cost limit [] l) =
      (fitting (fun a => (enc a).length) cost limit 0 l).map view := by
  have hlen : ∀ l : List α, l.length ≤ (l.flatMap enc).length := by
    intro l
    induction l with
    | nil => exact le_refl _
    | cons a l ih =>
      have hpos := List.length_pos_iff.mpr (hne a)
      rw [List.flatMap_cons, List.length_append, List.length_cons]
      omega
  have hfront := (@fitting_spec _ (fun a => (enc a).length) cost limit l 0).1
  rw [pack_eq, List.nil_append]
  exact readAll_flatMap hend _ _ (Nat.lt_succ_of_le (hlen _)) fun a ha => h a (hfront.subset ha)

/-! ## Fields, then a text -/

section

variable (pad : Nat → Nat)

/-- Fields and a text behind them, with `pad n` zeros for the `n` bytes they take. -/
def record (fields : List (Nat × Nat)) (text : List UInt8) : List UInt8 :=
  writeFields fields ++ (text ++
    List.replicate (pad ((fields.map Prod.fst).sum + text.length)) 0)

/-- Read such a record, field number `k` being the length of the text. -/
def nextRecord (widths : List Nat) (k : Nat) (bytes : List UInt8) :
    Option ((List Nat × List UInt8) × List UInt8) :=
  let fields := readFields widths bytes
  let size := widths.sum + fields.getD k 0
  if bytes.length < widths.sum ∨ bytes.length < size + pad size then none
  else some ((fields, (bytes.drop widths.sum).take (fields.getD k 0)), bytes.drop (size + pad size))

variable {pad}

theorem length_record (fields : List (Nat × Nat)) (text : List UInt8) :
    (record pad fields text).length = (fields.map Prod.fst).sum + text.length +
      pad ((fields.map Prod.fst).sum + text.length) := by
  rw [record, List.length_append, length_writeFields, List.length_append, List.length_replicate,
    Nat.add_assoc]

/-- **Round trip** of a record, with anything behind it. -/
theorem nextRecord_record {fields : List (Nat × Nat)} {k : Nat} {text : List UInt8}
    (hlen : (fields.map kept).getD k 0 = text.length) (rest : List UInt8) :
    nextRecord pad (fields.map Prod.fst) k (record pad fields text ++ rest) =
      some ((fields.map kept, text), rest) := by
  have hread : readFields (fields.map Prod.fst) (record pad fields text ++ rest) =
      fields.map kept := by
    rw [record, List.append_assoc]
    exact readFields_writeFields fields _
  have hwhole := @length_record pad fields text
  have hhead : (record pad fields text ++ rest).drop (fields.map Prod.fst).sum =
      text ++ (List.replicate (pad ((fields.map Prod.fst).sum + text.length)) 0 ++ rest) := by
    rw [record, List.append_assoc, List.drop_left' (length_writeFields fields), List.append_assoc]
  simp only [nextRecord, hread, hlen]
  rw [if_neg, hhead, List.take_left' rfl, List.drop_left' hwhole]
  rw [List.length_append, hwhole]
  omega

end

end RdRs.Records

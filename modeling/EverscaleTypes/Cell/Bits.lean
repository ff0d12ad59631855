import Mathlib.Data.BitVec
import Mathlib.Tactic.Ring

/-! Big-endian bit strings: the layout of every integer a cell builder stores and a cell slice
loads. Widths and values are natural numbers; a value wider than its field is truncated. -/
namespace EverscaleTypes

/-- The `width` low bits of `value`, most significant first. -/
def encodeBE : Nat → Nat → List Bool
  | 0, _ => []
  | width + 1, value => value.testBit width :: encodeBE width value

/-- The number a most-significant-first bit string spells. -/
def decodeBE : List Bool → Nat
  | [] => 0
  | bit :: rest => bit.toNat * 2 ^ rest.length + decodeBE rest

@[simp] theorem encodeBE_length (width value : Nat) : (encodeBE width value).length = width := by
  induction width with
  | zero => rfl
  | succ width ih => simp [encodeBE, ih]

@[simp] theorem decodeBE_nil : decodeBE [] = 0 := rfl

theorem decodeBE_cons (bit : Bool) (rest : List Bool) :
    decodeBE (bit :: rest) = bit.toNat * 2 ^ rest.length + decodeBE rest := rfl

theorem decodeBE_lt (bits : List Bool) : decodeBE bits < 2 ^ bits.length := by
  induction bits with
  | nil => simp
  | cons bit rest ih =>
      rw [decodeBE_cons, List.length_cons, Nat.pow_succ]
      cases bit <;> simp <;> omega

theorem toNat_testBit (value i : Nat) : (value.testBit i).toNat = value / 2 ^ i % 2 := by
  rw [Nat.testBit_to_div_mod]
  rcases Nat.mod_two_eq_zero_or_one (value / 2 ^ i) with h | h <;> simp [h]

@[simp] theorem decodeBE_encodeBE (width value : Nat) :
    decodeBE (encodeBE width value) = value % 2 ^ width := by
  induction width with
  | zero => simp [encodeBE, Nat.mod_one]
  | succ width ih =>
      rw [encodeBE, decodeBE_cons, ih, encodeBE_length, Nat.mod_pow_succ, toNat_testBit]
      ring

/-- Only the low `width` bits of a value reach its field. -/
theorem encodeBE_mod (width value : Nat) :
    encodeBE width (value % 2 ^ width) = encodeBE width value := by
  induction width generalizing value with
  | zero => rfl
  | succ width ih =>
      have hLow : value % 2 ^ (width + 1) % 2 ^ width = value % 2 ^ width :=
        Nat.mod_mod_of_dvd _ (Nat.pow_dvd_pow 2 (Nat.le_succ width))
      simp only [encodeBE, Nat.testBit_mod_two_pow, Nat.lt_succ_self, decide_True,
        Bool.true_and]
      rw [← ih, hLow, ih]

theorem encodeBE_decodeBE (bits : List Bool) : encodeBE bits.length (decodeBE bits) = bits := by
  induction bits with
  | nil => rfl
  | cons bit rest ih =>
      have hTop : (decodeBE (bit :: rest)).testBit rest.length = bit := by
        rw [decodeBE_cons, Nat.mul_comm, Nat.testBit_mul_two_pow_add_eq,
          Nat.testBit_lt_two_pow (decodeBE_lt rest)]
        cases bit <;> rfl
      have hRest : decodeBE (bit :: rest) % 2 ^ rest.length = decodeBE rest := by
        rw [decodeBE_cons, Nat.mul_add_mod_of_lt (decodeBE_lt rest)]
      rw [List.length_cons, encodeBE, hTop, ← encodeBE_mod, hRest, ih]

/-- A field splits into its high part and its low part. -/
theorem encodeBE_add (high low value : Nat) :
    encodeBE (high + low) value = encodeBE high (value >>> low) ++ encodeBE low value := by
  induction high with
  | zero => simp [encodeBE]
  | succ high ih =>
      rw [Nat.add_right_comm, encodeBE, ih, encodeBE, Nat.testBit_shiftRight, Nat.add_comm low]
      rfl

@[simp] theorem encodeBE_zero (width : Nat) : encodeBE width 0 = List.replicate width false := by
  induction width with
  | zero => rfl
  | succ width ih => rw [encodeBE, ih, Nat.zero_testBit, List.replicate_succ]

/-- A field holding only its top bit. -/
theorem encodeBE_two_pow (width : Nat) :
    encodeBE (width + 1) (2 ^ width) = true :: List.replicate width false := by
  rw [encodeBE, Nat.testBit_two_pow_self, ← encodeBE_mod, Nat.mod_self, encodeBE_zero]

/-- Two values spell the same field when they agree on its bits. -/
theorem encodeBE_congr {x y : Nat} :
    ∀ {width : Nat}, (∀ i < width, x.testBit i = y.testBit i) → encodeBE width x = encodeBE width y
  | 0, _ => rfl
  | width + 1, h => by
    rw [encodeBE, encodeBE, h width (Nat.lt_succ_self _), encodeBE_congr fun i hi => h i (by omega)]

theorem encodeBE_split {width high low : Nat} (h : high + low = width) (value : Nat) :
    encodeBE width value = encodeBE high (value >>> low) ++ encodeBE low value :=
  h ▸ encodeBE_add high low value

/-- The low `low` bits of a field. -/
theorem drop_encodeBE {width high low : Nat} (h : high + low = width) (value : Nat) :
    (encodeBE width value).drop high = encodeBE low value := by
  rw [encodeBE_split h, List.drop_left' (encodeBE_length _ _)]

/-- The high `high` bits of a field. -/
theorem take_encodeBE {width high low : Nat} (h : high + low = width) (value : Nat) :
    (encodeBE width value).take high = encodeBE high (value >>> low) := by
  rw [encodeBE_split h, List.take_left' (encodeBE_length _ _)]

/-- A right shift by `s` or'ed with a left shift by `t = width - s`: the low `s` bits of `y` over
the high `t` bits of `x`. -/
theorem toNat_ushiftRight_or_shiftLeft {width s t : Nat} (hst : s + t = width) (x y : BitVec width) :
    ((x >>> s) ||| (y <<< t)).toNat = y.toNat % 2 ^ s * 2 ^ t + x.toNat / 2 ^ s := by
  have hDisjoint : (x >>> s) &&& (y <<< t) = BitVec.ofNat width 0 := by
    apply BitVec.eq_of_getLsbD_eq
    intro ⟨i, hi⟩
    simp only [BitVec.getLsbD_and, BitVec.getLsbD_ushiftRight, BitVec.getLsbD_shiftLeft,
      BitVec.getLsbD_zero]
    by_cases h : i < t
    · simp [h]
    · simp [h, BitVec.getLsbD_ge x (s + i) (by omega)]
  have hWidth : 2 ^ width = 2 ^ s * 2 ^ t := by rw [← hst, Nat.pow_add]
  rw [← BitVec.add_eq_or_of_and_eq_zero _ _ hDisjoint, BitVec.toNat_add_of_and_eq_zero hDisjoint,
    BitVec.toNat_ushiftRight, BitVec.toNat_shiftLeft, Nat.shiftRight_eq_div_pow, Nat.shiftLeft_eq,
    hWidth, Nat.mul_mod_mul_right, Nat.add_comm]

theorem encodeBE_ushiftRight_or_shiftLeft {width s t : Nat} (hst : s + t = width) (x y : BitVec width) :
    encodeBE width ((x >>> s) ||| (y <<< t)).toNat =
      (encodeBE width y.toNat).drop t ++ (encodeBE width x.toNat).take t := by
  have hHigh : x.toNat / 2 ^ s < 2 ^ t := by
    rw [Nat.div_lt_iff_lt_mul (Nat.two_pow_pos s), ← Nat.pow_add, Nat.add_comm, hst]
    exact x.isLt
  have hTop : (y.toNat % 2 ^ s * 2 ^ t + x.toNat / 2 ^ s) / 2 ^ t = y.toNat % 2 ^ s := by
    rw [Nat.add_comm, Nat.add_mul_div_right _ _ (Nat.two_pow_pos t), Nat.div_eq_of_lt hHigh, Nat.zero_add]
  rw [toNat_ushiftRight_or_shiftLeft hst, encodeBE_split hst, drop_encodeBE (by omega : t + s = width),
    take_encodeBE (by omega : t + s = width), Nat.shiftRight_eq_div_pow, Nat.shiftRight_eq_div_pow, hTop,
    encodeBE_mod, ← encodeBE_mod t, Nat.mul_add_mod_of_lt hHigh]

/-- A list of fixed-width pieces is as long as the width times their count. -/
theorem flatMap_length_of_width {α β : Type} {f : α → List β} {k : Nat}
    (hLen : ∀ a, (f a).length = k) (l : List α) : (l.flatMap f).length = k * l.length := by
  induction l with
  | nil => rfl
  | cons a l ih => rw [List.flatMap_cons, List.length_append, ih, hLen, List.length_cons, Nat.mul_succ]; omega

/-- The bits of a byte string, each byte most significant bit first. -/
def bytesBits (bytes : List (BitVec 8)) : List Bool :=
  bytes.flatMap fun byte => encodeBE 8 byte.toNat

/-- The first `count` bytes holding `bits` left-aligned; bits past the end read as zero. -/
def packBits : Nat → List Bool → List (BitVec 8)
  | 0, _ => []
  | count + 1, bits =>
      BitVec.ofNat 8 (decodeBE ((bits ++ List.replicate 8 false).take 8)) :: packBits count (bits.drop 8)

@[simp] theorem bytesBits_nil : bytesBits [] = [] := rfl

@[simp] theorem bytesBits_cons (byte : BitVec 8) (rest : List (BitVec 8)) :
    bytesBits (byte :: rest) = encodeBE 8 byte.toNat ++ bytesBits rest := rfl

@[simp] theorem bytesBits_append (first second : List (BitVec 8)) :
    bytesBits (first ++ second) = bytesBits first ++ bytesBits second := by
  simp [bytesBits]

@[simp] theorem bytesBits_length (bytes : List (BitVec 8)) : (bytesBits bytes).length = 8 * bytes.length := by
  induction bytes with
  | nil => rfl
  | cons byte rest ih => simp [ih]; omega

@[simp] theorem bytesBits_replicate_zero (count : Nat) :
    bytesBits (List.replicate count 0) = List.replicate (8 * count) false := by
  induction count with
  | zero => rfl
  | succ count ih =>
      rw [List.replicate_succ, bytesBits_cons, ih, show (0 : BitVec 8).toNat = 0 from rfl, encodeBE_zero,
        List.append_replicate_replicate]
      congr 1
      omega

@[simp] theorem packBits_length (count : Nat) (bits : List Bool) : (packBits count bits).length = count := by
  induction count generalizing bits with
  | zero => rfl
  | succ count ih => simp [packBits, ih]

theorem packBits_bytesBits (bytes : List (BitVec 8)) : packBits bytes.length (bytesBits bytes) = bytes := by
  induction bytes with
  | nil => rfl
  | cons byte rest ih =>
      have hByte : (encodeBE 8 byte.toNat ++ bytesBits rest ++ List.replicate 8 false).take 8 =
          encodeBE 8 byte.toNat := by simp [List.take_append_of_le_length]
      simp only [List.length_cons, packBits, bytesBits_cons, hByte, decodeBE_encodeBE,
        Nat.mod_eq_of_lt byte.isLt, BitVec.ofNat_toNat, BitVec.setWidth_eq]
      rw [List.drop_append_of_le_length (by simp), List.drop_eq_nil_of_le (by simp), List.nil_append, ih]

/-- Zero bits past the end change no packed byte: packing already reads missing bits as zero. -/
theorem packBits_append_replicate : ∀ (count : Nat) (bits : List Bool) (zeros : Nat),
    packBits count (bits ++ List.replicate zeros false) = packBits count bits
  | 0, _, _ => rfl
  | count + 1, bits, zeros => by
      have hHead : (bits ++ List.replicate zeros false ++ List.replicate 8 false).take 8 =
          (bits ++ List.replicate 8 false).take 8 := by
        rw [List.append_assoc, List.append_replicate_replicate, List.take_append_eq_append_take,
          List.take_append_eq_append_take, List.take_replicate, List.take_replicate]
        congr 2
        omega
      rw [packBits, packBits, hHead, List.drop_append_eq_append_drop, List.drop_replicate,
        packBits_append_replicate count (bits.drop 8)]

/-- A byte string holds exactly `bits` bits: `⌈bits/8⌉` bytes whose bits past the first `bits`
are zero. -/
def HoldsBits (bytes : List (BitVec 8)) (bits : Nat) : Prop :=
  bytes.length = (bits + 7) / 8 ∧
    (bytesBits bytes).drop bits = List.replicate (8 * bytes.length - bits) false

/-- Packing the first `bits` bits of a byte string that holds exactly them gives it back. -/
theorem packBits_take {bytes : List (BitVec 8)} {bits : Nat} (h : HoldsBits bytes bits) :
    packBits ((bits + 7) / 8) ((bytesBits bytes).take bits) = bytes := by
  rw [← packBits_append_replicate _ _ (8 * bytes.length - bits), ← h.2, List.take_append_drop, ← h.1,
    packBits_bytesBits]

theorem bytesBits_packBits : ∀ (count : Nat) (bits : List Bool), bits.length = 8 * count →
    bytesBits (packBits count bits) = bits
  | 0, bits, h => (List.eq_nil_of_length_eq_zero h).symm ▸ rfl
  | count + 1, bits, h => by
      have hByte : encodeBE 8 (decodeBE (bits.take 8)) = bits.take 8 := by
        have := encodeBE_decodeBE (bits.take 8)
        rwa [List.length_take, Nat.min_eq_left (by omega)] at this
      rw [packBits, bytesBits_cons, List.take_append_of_le_length (by omega), BitVec.toNat_ofNat,
        encodeBE_mod, hByte, bytesBits_packBits count (bits.drop 8) (by rw [List.length_drop]; omega),
        List.take_append_drop]

/-- Packed bits read back with the zero padding packing added. -/
theorem bytesBits_packBits_of_le {count : Nat} {bits : List Bool} (h : bits.length ≤ 8 * count) :
    bytesBits (packBits count bits) = bits ++ List.replicate (8 * count - bits.length) false := by
  rw [← packBits_append_replicate count bits (8 * count - bits.length)]
  exact bytesBits_packBits count _ (by rw [List.length_append, List.length_replicate]; omega)

end EverscaleTypes

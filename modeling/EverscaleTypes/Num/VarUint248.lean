import EverscaleTypes.Num.VarUint

/-! `VarUint248`, the variable-length integer of two 128-bit words: a 5-bit byte count, then the
value in that many bytes, the high word's bytes going through `store_u128` and `load_u128` before
the low word's. It meets the contract of the other variable-length integers, read as the number
`hi * 2^128 + lo`. -/
namespace EverscaleTypes

/-- The leading zeros of a number cut into a high part above `low` bits and the rest: the high
part's, or all of its bits and then the rest's when it is zero. -/
theorem leadingZeros_split {low y : Nat} (hy : y < 2 ^ low) : ∀ {high x : Nat}, x < 2 ^ high →
    leadingZeros (high + low) (2 ^ low * x + y) =
      if x = 0 then high + leadingZeros low y else leadingZeros high x
  | 0, x, hx => by
      obtain rfl : x = 0 := by simpa using hx
      simp
  | high + 1, x, hx => by
      rw [show high + 1 + low = high + low + 1 by omega, leadingZeros, Nat.testBit_mul_pow_two_add _ hy,
        if_neg (show ¬high + low < low by omega), show high + low - low = high by omega]
      cases hBit : x.testBit high
      · have hSplit := leadingZeros_split hy (lt_two_pow_of_testBit_false hx hBit)
        simp only [Bool.false_eq_true, if_false, hSplit, leadingZeros, hBit]
        split <;> omega
      · have hNe : x ≠ 0 := by
          rintro rfl
          simp at hBit
        simp [hNe, leadingZeros, hBit]

/-- `VarUint248([u128; 2])`, as the high and low words `into_words` returns. -/
structure VarUint248 where
  hi : BitVec 128
  lo : BitVec 128
  deriving DecidableEq, Repr

namespace VarUint248

/-- `LEN_BITS`. -/
def lenBits : Nat := 5

/-- The number the two words spell. -/
def toNat (value : VarUint248) : Nat := 2 ^ 128 * value.hi.toNat + value.lo.toNat

/-- `is_valid`: the high word is at most `u128::MAX >> 8`. -/
def isValid (value : VarUint248) : Bool := value.hi ≤ BitVec.allOnes 128 >>> 8

/-- `leading_zeros`. -/
def leadingZeros (value : VarUint248) : Nat :=
  if value.hi = 0 then 128 + EverscaleTypes.leadingZeros 128 value.lo.toNat
  else EverscaleTypes.leadingZeros 128 value.hi.toNat

/-- `bit_len`. -/
def bitLen (value : VarUint248) : Option Nat :=
  let bytes := 32 - value.leadingZeros / 8
  if bytes > 31 then none else some (lenBits + bytes * 8)

/-- `VarUint248::store_into`: `CellOverflow` unless the value takes at most 31 bytes and the
builder has room, then the byte count in 5 bits, the high word's bytes past the sixteenth and
the low word's sixteen bytes, or the low word's bytes alone. -/
def storeInto (value : VarUint248) : BuilderM Unit := fun builder =>
  let bytes := 32 - value.leadingZeros / 8
  let bits := bytes * 8
  if bytes > 31 || !builder.hasCapacity (lenBits + bits) 0 then .error .cellOverflow builder
  else
    (do
      CellBuilder.storeSmallUint (BitVec.ofNat 8 bytes) lenBits
      if 128 ≤ bits then do
        storeU128 value.hi (bits - 128)
        storeU128 value.lo (bits - (bits - 128))
      else storeU128 value.lo bits) builder

/-- `VarUint248::load_from`: the byte count from 5 bits, then the high word from the bytes past
the sixteenth and the low word from sixteen bytes, or the low word alone. The guards
`checked_sub(16)` and `high_bytes > 0` hold together exactly when `bytes > 16`. -/
def loadFrom : SliceM VarUint248 := do
  let bytes ← CellSlice.loadSmallUint lenBits
  if 16 < bytes.toNat then do
    let hi ← loadU128 (bytes - 16)
    let lo ← loadU128 (bytes - (bytes - 16))
    pure ⟨hi, lo⟩
  else do
    let lo ← loadU128 bytes
    pure ⟨0, lo⟩

theorem toNat_lt (value : VarUint248) : value.toNat < 2 ^ (32 * 8) := by
  have := value.hi.isLt
  have := value.lo.isLt
  unfold toNat
  omega

theorem leadingZeros_eq (value : VarUint248) :
    value.leadingZeros = EverscaleTypes.leadingZeros (32 * 8) value.toNat := by
  rw [show 32 * 8 = 128 + 128 from rfl, toNat, leadingZeros_split value.lo.isLt value.hi.isLt,
    leadingZeros]
  simp only [BitVec.toNat_eq]
  rfl

theorem bytes_eq (value : VarUint248) : 32 - value.leadingZeros / 8 = VarUint.bytes 32 value.toNat := by
  rw [leadingZeros_eq]
  rfl

theorem isValid_eq (value : VarUint248) : value.isValid = VarUint.isValid 31 value.toNat := by
  have hMax : (BitVec.allOnes 128 >>> 8).toNat = 2 ^ 120 - 1 := by
    rw [BitVec.toNat_ushiftRight, BitVec.toNat_allOnes]
    rfl
  have := value.lo.isLt
  simp only [isValid, VarUint.isValid, toNat, BitVec.le_def, hMax, decide_eq_decide]
  omega

theorem bitLen_eq (value : VarUint248) : value.bitLen = VarUint.bitLen 32 31 value.toNat := by
  simp only [bitLen, VarUint.bitLen, bytes_eq]
  rfl

/-- Above sixteen bytes the value's bits are the high word's past 128, then the low word's. -/
theorem encodeBE_words (value : VarUint248) {bits : Nat} (h : 128 ≤ bits) :
    encodeBE bits value.toNat = encodeBE (bits - 128) value.hi.toNat ++ encodeBE 128 value.lo.toNat := by
  have hLo := value.lo.isLt
  have hHi : value.toNat >>> 128 = value.hi.toNat := by
    rw [Nat.shiftRight_eq_div_pow, toNat, Nat.mul_add_div (Nat.two_pow_pos 128), Nat.div_eq_of_lt hLo,
      Nat.add_zero]
  have hMod : value.toNat % 2 ^ 128 = value.lo.toNat := by
    rw [toNat, Nat.mul_add_mod, Nat.mod_eq_of_lt hLo]
  rw [← Nat.sub_add_cancel h, encodeBE_add, Nat.add_sub_cancel, hHi, ← encodeBE_mod 128, hMod]

/-- Up to sixteen bytes the high word is zero and the value is the low word. -/
theorem hi_eq_zero {value : VarUint248} (h : value.toNat < 2 ^ 128) :
    value.hi = 0 ∧ value.toNat = value.lo.toNat := by
  have hHi : value.hi.toNat = 0 := by
    unfold toNat at h
    omega
  exact ⟨BitVec.eq_of_toNat_eq hHi, by rw [toNat, hHi, Nat.mul_zero, Nat.zero_add]⟩

theorem isValid_of_hi_lt {value : VarUint248} (h : value.hi.toNat < 2 ^ 120) : value.isValid = true := by
  have hMax : (BitVec.allOnes 128 >>> 8).toNat = 2 ^ 120 - 1 := by
    rw [BitVec.toNat_ushiftRight, BitVec.toNat_allOnes]
    rfl
  simp only [isValid, BitVec.le_def, hMax, decide_eq_true_eq]
  omega

/-- The words part of the store writes the value's `8k` bits. -/
theorem storeWords_stores (value : VarUint248) {k : Nat} (hk : k ≤ 31) (h : value.toNat < 2 ^ (8 * k)) :
    StoresExactly (if 128 ≤ k * 8 then do
        storeU128 value.hi (k * 8 - 128)
        storeU128 value.lo (k * 8 - (k * 8 - 128))
      else storeU128 value.lo (k * 8)) (encodeBE (8 * k) value.toNat) [] := by
  split
  · rename_i hHigh
    have hSeq := StoresExactly.seq (storeU128_stores value.hi (show k * 8 - 128 ≤ 128 by omega))
      (storeU128_stores value.lo (show k * 8 - (k * 8 - 128) ≤ 128 by omega))
    have hBits : encodeBE (k * 8 - 128) value.hi.toNat ++ encodeBE (k * 8 - (k * 8 - 128)) value.lo.toNat =
        encodeBE (8 * k) value.toNat := by
      rw [show k * 8 - (k * 8 - 128) = 128 by omega, encodeBE_words value (by omega),
        show 8 * k - 128 = k * 8 - 128 by omega]
    rw [hBits] at hSeq
    exact hSeq
  · have hSmall : value.toNat < 2 ^ 128 :=
      lt_of_lt_of_le h (Nat.pow_le_pow_right (by decide) (by omega))
    rw [(hi_eq_zero hSmall).2, Nat.mul_comm 8 k]
    exact storeU128_stores value.lo (by omega)

theorem sixteen_toNat : (16 : BitVec 8).toNat = 16 := rfl

/-- The words part of the load reads the value back from its `8k` bits. -/
theorem loadWords_loads (value : VarUint248) {k : Nat} (hk : k ≤ 31) (h : value.toNat < 2 ^ (8 * k)) :
    LoadsExactly (if 16 < (BitVec.ofNat 8 k).toNat then do
        let hi ← loadU128 (BitVec.ofNat 8 k - 16)
        let lo ← loadU128 (BitVec.ofNat 8 k - (BitVec.ofNat 8 k - 16))
        pure (VarUint248.mk hi lo)
      else do
        let lo ← loadU128 (BitVec.ofNat 8 k)
        pure (VarUint248.mk 0 lo)) value (encodeBE (8 * k) value.toNat) [] := by
  rw [ofNat_toNat_of_lt (by omega)]
  split
  · rename_i hHigh
    have hSub : BitVec.ofNat 8 k - 16 = BitVec.ofNat 8 (k - 16) := by
      apply BitVec.eq_of_toNat_eq
      simp only [BitVec.toNat_sub, BitVec.toNat_ofNat, sixteen_toNat]
      omega
    have hRest : BitVec.ofNat 8 k - BitVec.ofNat 8 (k - 16) = BitVec.ofNat 8 16 := by
      apply BitVec.eq_of_toNat_eq
      simp only [BitVec.toNat_sub, BitVec.toNat_ofNat]
      omega
    have hHiLt : value.hi.toNat < 2 ^ (8 * (k - 16)) := by
      have hPow : 2 ^ (8 * k) = 2 ^ 128 * 2 ^ (8 * (k - 16)) := by
        rw [← Nat.pow_add]
        congr 1
        omega
      unfold toNat at h
      rw [hPow] at h
      exact Nat.lt_of_mul_lt_mul_left (lt_of_le_of_lt (Nat.le_add_right _ _) h)
    have hBits : encodeBE (8 * k) value.toNat =
        encodeBE (8 * (k - 16)) value.hi.toNat ++ (encodeBE (8 * 16) value.lo.toNat ++ []) := by
      rw [List.append_nil, encodeBE_words value (by omega), show 8 * k - 128 = 8 * (k - 16) by omega]
    rw [hSub, hRest, hBits]
    show LoadsExactly _ _ _ ([] ++ ([] ++ []))
    exact LoadsExactly.bind (loadU128_loads value.hi (by omega) hHiLt)
      (LoadsExactly.bind (loadU128_loads value.lo le_rfl value.lo.isLt) (LoadsExactly.pure value))
  · have hSmall : value.toNat < 2 ^ 128 :=
      lt_of_lt_of_le h (Nat.pow_le_pow_right (by decide) (by omega))
    obtain ⟨hHi, hEq⟩ := hi_eq_zero hSmall
    rw [hEq, ← List.append_nil (encodeBE (8 * k) value.lo.toNat)]
    show LoadsExactly _ _ _ ([] ++ [])
    exact LoadsExactly.bind (loadU128_loads value.lo (by omega) (hEq ▸ h))
      (LoadsExactly.pure_of_eq (by rw [← hHi]))

theorem lenBits_eq : VarUint.lenBits 31 = lenBits := by decide

/-- `VarUint248` meets the variable-length integer contract with at most 31 bytes. -/
theorem codec : VarUint.Codec toNat 32 31 storeInto loadFrom := by
  refine ⟨fun value hValid => ?_, fun value builder hNot => ?_, fun slice rest value h => ?_⟩
  · have hk := (VarUint.isValid_iff value.toNat_lt).mp hValid
    have hLeast := VarUint.bytes_least value.toNat_lt
    have hNotOver : ¬VarUint.bytes 32 value.toNat > 31 := by omega
    refine ⟨VarUint.bytes 32 value.toNat, hLeast,
      by simp only [VarUint.bitLen, if_neg hNotOver, Nat.mul_comm],
      by simp only [VarUint.unwrapBitLen, if_neg hNotOver, Nat.mul_comm], fun builder hRoom => ?_, ?_⟩
    · have hSeq := StoresExactly.seq
        (StoresExactly.storeSmallUint (BitVec.ofNat 8 (VarUint.bytes 32 value.toNat)) lenBits)
        (storeWords_stores value hk hLeast.1)
      rw [ofNat_toNat_of_lt (by omega), ← lenBits_eq] at hSeq
      have hRoom' := hRoom
      simp only [List.length_append, encodeBE_length, List.length_nil, lenBits_eq] at hRoom'
      unfold storeInto
      simp only [bytes_eq]
      rw [if_neg (by simp [hNotOver, Nat.mul_comm, hRoom'])]
      exact hSeq builder hRoom
    · rw [lenBits_eq]
      exact LoadsExactly.bind (LoadsExactly.loadSmallUint (by unfold lenBits; omega))
        (loadWords_loads value hk hLeast.1)
  · unfold storeInto
    simp only [bytes_eq, ← lenBits_eq]
    rw [if_pos ((VarUint.overflowTest_iff value.toNat_lt builder).mpr hNot)]
  · rw [← isValid_eq]
    obtain ⟨bytes, after, hBytes, h⟩ := bind_apply_eq_ok h
    have hLt := CellSlice.loadSmallUint_lt hBytes
    unfold lenBits at hLt
    split at h
    · obtain ⟨hi, _, hLoadHi, h⟩ := bind_apply_eq_ok h
      obtain ⟨lo, _, -, ⟨⟩⟩ := bind_apply_eq_ok h
      have hSub : (bytes - 16).toNat = bytes.toNat - 16 := by
        rw [BitVec.toNat_sub, sixteen_toNat]
        omega
      have hHiLt := hSub ▸ loadU128_lt hLoadHi
      exact isValid_of_hi_lt (lt_of_lt_of_le hHiLt (Nat.pow_le_pow_right (by decide) (by omega)))
    · obtain ⟨lo, _, -, ⟨⟩⟩ := bind_apply_eq_ok h
      exact isValid_of_hi_lt (show (0 : BitVec 128).toNat < 2 ^ 120 by decide)

/-- `is_zero`: both words zero. -/
def isZero (value : VarUint248) : Bool := value.lo = 0 && value.hi = 0

/-- `Ord::cmp`: the words `into_words` returns, compared as a tuple with the high word first. -/
def cmp (a b : VarUint248) : Ordering :=
  (compare a.hi.toNat b.hi.toNat).then (compare a.lo.toNat b.lo.toNat)

/-- `MAX`: `from_words(u128::MAX >> 8, u128::MAX)`. -/
def max : VarUint248 := ⟨BitVec.allOnes 128 >>> 8, BitVec.allOnes 128⟩

theorem isZero_iff (value : VarUint248) : value.isZero = true ↔ value.toNat = 0 := by
  have := value.lo.isLt
  simp only [isZero, toNat, Bool.and_eq_true, decide_eq_true_eq, BitVec.toNat_eq,
    show (0 : BitVec 128).toNat = 0 from rfl]
  omega

theorem cmp_eq (a b : VarUint248) : a.cmp b = compare a.toNat b.toNat := by
  have := a.lo.isLt
  have := b.lo.isLt
  simp only [cmp, toNat, Nat.compare_def_lt]
  split_ifs <;> first | rfl | omega

theorem max_toNat : max.toNat = 2 ^ (31 * 8) - 1 := by
  rw [max, toNat, BitVec.toNat_ushiftRight, BitVec.toNat_allOnes]
  rfl

/-- Comparing the words as a tuple, the high word first, orders values as the numbers they spell,
and `is_valid` holds exactly for the values that compare at most `MAX`. -/
theorem cmp_orders_toNat :
    (∀ a b : VarUint248, a.cmp b = compare a.toNat b.toNat) ∧
      ∀ value : VarUint248, value.isValid = true ↔ value.cmp max ≠ .gt :=
  ⟨cmp_eq, fun value => by
    rw [cmp_eq, isValid_eq, max_toNat, Nat.compare_ne_gt, VarUint.isValid, decide_eq_true_eq]⟩

end VarUint248

/-- `VarUint248` meets the contract of the variable-length integers, read as `hi * 2^128 + lo` with
at most 31 bytes, and its own `is_valid` and `bit_len` are the contract's. -/
theorem varUint248_codec :
    VarUint.Codec VarUint248.toNat 32 31 VarUint248.storeInto VarUint248.loadFrom ∧
      (∀ value : VarUint248, value.isValid = VarUint.isValid 31 value.toNat) ∧
      ∀ value : VarUint248, value.bitLen = VarUint.bitLen 32 31 value.toNat :=
  ⟨VarUint248.codec, VarUint248.isValid_eq, VarUint248.bitLen_eq⟩

end EverscaleTypes

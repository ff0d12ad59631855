import EverscaleTypes.Cell.Codec

/-! The variable-length integers `VarUint24`, `VarUint56` and `Tokens`: a byte count
in `LEN_BITS` bits, then the value in that many bytes. The methods `impl_var_uints!` generates are
one definition with the type's sizes as parameters; the hand-written `store_into` and `load_from`
share one shape, with `Tokens` going through `store_u128` and `load_u128`. -/
namespace EverscaleTypes

/-- The `leading_zeros` of a `width`-bit unsigned integer: the zero bits above its highest set
bit. -/
def leadingZeros : Nat → Nat → Nat
  | 0, _ => 0
  | width + 1, value => if value.testBit width then 0 else leadingZeros width value + 1

theorem leadingZeros_le : ∀ width value : Nat, leadingZeros width value ≤ width
  | 0, _ => le_refl 0
  | width + 1, value => by
      unfold leadingZeros
      split
      · exact Nat.zero_le _
      · exact Nat.succ_le_succ (leadingZeros_le width value)

theorem lt_two_pow_of_testBit_false {width value : Nat} (h : value < 2 ^ (width + 1))
    (hBit : value.testBit width = false) : value < 2 ^ width :=
  Nat.lt_pow_two_of_testBit value fun i hi => by
    rcases Nat.eq_or_lt_of_le hi with rfl | hi
    · exact hBit
    · exact Nat.testBit_lt_two_pow (lt_of_lt_of_le h (Nat.pow_le_pow_right (by decide) hi))

/-- A value lies below `2^n` for its `n` significant bits. -/
theorem lt_two_pow_significant : ∀ {width value : Nat}, value < 2 ^ width →
    value < 2 ^ (width - leadingZeros width value)
  | 0, _, h => h
  | width + 1, value, h => by
      unfold leadingZeros
      split
      · exact h
      · rename_i hBit
        have hLow := lt_two_pow_significant (lt_two_pow_of_testBit_false h (by simpa using hBit))
        rwa [show width + 1 - (leadingZeros width value + 1) = width - leadingZeros width value by omega]

/-- The highest of the significant bits is set. -/
theorem two_pow_le_of_significant : ∀ {width value : Nat}, leadingZeros width value < width →
    2 ^ (width - leadingZeros width value - 1) ≤ value
  | 0, _, h => absurd h (Nat.lt_irrefl 0)
  | width + 1, value, h => by
      unfold leadingZeros at h ⊢
      cases hBit : value.testBit width
      · simp only [hBit, Bool.false_eq_true, if_false] at h ⊢
        have hHigh := two_pow_le_of_significant (Nat.lt_of_succ_lt_succ h)
        rwa [show width + 1 - (leadingZeros width value + 1) - 1 = width - leadingZeros width value - 1 by
          omega]
      · simp only [if_true, Nat.sub_zero, Nat.add_sub_cancel]
        exact Nat.testBit_implies_ge hBit

/-- A `width`-bit value is below `2^j` exactly when `j` covers its significant bits. -/
theorem lt_two_pow_iff {width value : Nat} (h : value < 2 ^ width) (j : Nat) :
    value < 2 ^ j ↔ width - leadingZeros width value ≤ j := by
  constructor
  · intro hj
    by_contra hNot
    have hHigh := two_pow_le_of_significant (show leadingZeros width value < width by omega)
    have := (Nat.pow_lt_pow_iff_right (by decide : 1 < 2)).mp (lt_of_le_of_lt hHigh hj)
    omega
  · intro hj
    exact lt_of_lt_of_le (lt_two_pow_significant h) (Nat.pow_le_pow_right (by decide) hj)

namespace VarUint

/-- `LEN_BITS`: the bits the byte count takes, `8 - (max_bytes as u8).leading_zeros()`. -/
def lenBits (maxBytes : Nat) : Nat := 8 - leadingZeros 8 maxBytes

/-- `MAX_BITS`. -/
def maxBits (maxBytes : Nat) : Nat := lenBits maxBytes + maxBytes * 8

/-- `is_valid`: the value is at most `MAX = (1 << max_bytes * 8) - 1`. -/
def isValid (maxBytes value : Nat) : Bool := value ≤ 2 ^ (maxBytes * 8) - 1

/-- The byte count every method computes first, `size_of::<Self>() - leading_zeros() / 8` for an
inner integer of `size` bytes. -/
def bytes (size value : Nat) : Nat := size - leadingZeros (size * 8) value / 8

/-- `bit_len`. -/
def bitLen (size maxBytes value : Nat) : Option Nat :=
  if bytes size value > maxBytes then none else some (lenBits maxBytes + bytes size value * 8)

/-- `unwrap_bit_len`. -/
def unwrapBitLen (size maxBytes value : Nat) : Nat :=
  if bytes size value > maxBytes then maxBits maxBytes else lenBits maxBytes + bytes size value * 8

/-- The `store_into` the variable-length integers share: `CellOverflow` unless the byte count is
at most `maxBytes` and the builder has room, then the byte count in `LEN_BITS` bits and the value
in that many bytes, written by `storeValue`. -/
def storeInto {w : Nat} (size maxBytes : Nat) (storeValue : BitVec w → Nat → BuilderM Unit)
    (value : BitVec w) : BuilderM Unit := fun builder =>
  let bytes := bytes size value.toNat
  let bits := bytes * 8
  if bytes > maxBytes || !builder.hasCapacity (lenBits maxBytes + bits) 0 then
    .error .cellOverflow builder
  else
    (do
      CellBuilder.storeSmallUint (BitVec.ofNat 8 bytes) (lenBits maxBytes)
      storeValue value bits) builder

/-- The `load_from` they share: the byte count from `LEN_BITS` bits, then the value of that many
bytes, read by `loadValue`. -/
def loadFrom {w : Nat} (maxBytes : Nat) (loadValue : BitVec 8 → SliceM (BitVec w)) :
    SliceM (BitVec w) := do
  let bytes ← CellSlice.loadSmallUint (lenBits maxBytes)
  loadValue bytes

end VarUint

/-- `store_u128`: the bits of `value` past 64 first, then its low 64 bits. -/
def storeU128 (value : BitVec 128) (bits : Nat) : BuilderM Unit :=
  if 64 ≤ bits then do
    CellBuilder.storeUint ((value >>> 64).setWidth 64) (bits - 64)
    CellBuilder.storeUint (value.setWidth 64) (bits - (bits - 64))
  else CellBuilder.storeUint (value.setWidth 64) bits

/-- `load_u128`: the bytes past the eighth as the high word, then the low word. The two guards of
the source, `checked_sub(8)` and `high_bytes > 0`, hold together exactly when `bytes > 8`. -/
def loadU128 (bytes : BitVec 8) : SliceM (BitVec 128) :=
  if 8 < bytes.toNat then do
    let high ← CellSlice.loadUint ((bytes.toNat - 8) * 8)
    let value ← CellSlice.loadUint ((bytes.toNat - (bytes.toNat - 8)) * 8)
    pure ((high.setWidth 128 <<< 64) ||| value.setWidth 128)
  else do
    let value ← CellSlice.loadUint (bytes.toNat * 8)
    pure (0#128 ||| value.setWidth 128)

/-- `VarUint24::store_into`. -/
def VarUint24.storeInto : BitVec 32 → BuilderM Unit :=
  VarUint.storeInto 4 3 fun value bits => CellBuilder.storeUint (value.setWidth 64) bits

/-- `VarUint24::load_from`. -/
def VarUint24.loadFrom : SliceM (BitVec 32) :=
  VarUint.loadFrom 3 fun bytes => do
    let value ← CellSlice.loadUint (bytes.toNat * 8)
    pure (value.setWidth 32)

/-- `VarUint56::store_into`. -/
def VarUint56.storeInto : BitVec 64 → BuilderM Unit :=
  VarUint.storeInto 8 7 CellBuilder.storeUint

/-- `VarUint56::load_from`. -/
def VarUint56.loadFrom : SliceM (BitVec 64) :=
  VarUint.loadFrom 7 fun bytes => CellSlice.loadUint (bytes.toNat * 8)

/-- `Tokens::store_into`. -/
def Tokens.storeInto : BitVec 128 → BuilderM Unit :=
  VarUint.storeInto 16 15 storeU128

/-- `Tokens::load_from`. -/
def Tokens.loadFrom : SliceM (BitVec 128) :=
  VarUint.loadFrom 15 loadU128

namespace VarUint

theorem bytes_eq (size value : Nat) :
    bytes size value = (size * 8 - leadingZeros (size * 8) value + 7) / 8 := by
  have := leadingZeros_le (size * 8) value
  unfold bytes
  omega

/-- The byte count is the least `k` with `value < 2^(8k)`. -/
theorem bytes_least {size value : Nat} (h : value < 2 ^ (size * 8)) :
    value < 2 ^ (8 * bytes size value) ∧ ∀ j, value < 2 ^ (8 * j) → bytes size value ≤ j := by
  rw [bytes_eq]
  refine ⟨(lt_two_pow_iff h _).mpr (by omega), fun j hj => ?_⟩
  have := (lt_two_pow_iff h _).mp hj
  omega

theorem isValid_iff {size maxBytes value : Nat} (h : value < 2 ^ (size * 8)) :
    isValid maxBytes value = true ↔ bytes size value ≤ maxBytes := by
  have hPos := Nat.two_pow_pos (maxBytes * 8)
  rw [isValid, decide_eq_true_iff, show value ≤ 2 ^ (maxBytes * 8) - 1 ↔ value < 2 ^ (maxBytes * 8) by
    omega, lt_two_pow_iff h, bytes_eq]
  omega

/-- The test `store_into` makes before writing refuses exactly the invalid values, and the valid
values for whose `unwrap_bit_len` bits the builder has no room. -/
theorem overflowTest_iff {size maxBytes value : Nat} (h : value < 2 ^ (size * 8))
    (builder : CellBuilder) :
    (decide (bytes size value > maxBytes) ||
        !builder.hasCapacity (lenBits maxBytes + bytes size value * 8) 0) = true ↔
      ¬(isValid maxBytes value = true ∧
        builder.hasCapacity (unwrapBitLen size maxBytes value) 0 = true) := by
  rw [isValid_iff h, unwrapBitLen]
  by_cases hk : bytes size value ≤ maxBytes
  · simp [hk, Nat.not_lt.mpr hk]
  · simp [hk, Nat.lt_of_not_le hk]

/-- The codec contract of a variable-length integer type whose inner integer has `size` bytes
and whose values, read as numbers by `toNat`, take at most `maxBytes` bytes. A valid value is
stored as its least byte count `k` in `LEN_BITS` bits, then itself in `k` bytes, and read back from
them; a store of an invalid value, or into a builder without room, fails with `CellOverflow` and
leaves the builder alone; every loaded value is valid. -/
structure Codec {α : Type} (toNat : α → Nat) (size maxBytes : Nat) (store : α → BuilderM Unit)
    (load : SliceM α) : Prop where
  roundTrip : ∀ value : α, isValid maxBytes (toNat value) = true → ∃ k,
    (toNat value < 2 ^ (8 * k) ∧ ∀ j, toNat value < 2 ^ (8 * j) → k ≤ j) ∧
    bitLen size maxBytes (toNat value) = some (lenBits maxBytes + 8 * k) ∧
    unwrapBitLen size maxBytes (toNat value) = lenBits maxBytes + 8 * k ∧
    StoresExactly (store value) (encodeBE (lenBits maxBytes) k ++ encodeBE (8 * k) (toNat value)) [] ∧
    LoadsExactly load value (encodeBE (lenBits maxBytes) k ++ encodeBE (8 * k) (toNat value)) []
  overflow : ∀ (value : α) (builder : CellBuilder),
    ¬(isValid maxBytes (toNat value) = true ∧
      builder.hasCapacity (unwrapBitLen size maxBytes (toNat value)) 0 = true) →
    store value builder = .error .cellOverflow builder
  loadedValid : ∀ (slice rest : CellSlice) (value : α), load slice = .ok value rest →
    isValid maxBytes (toNat value) = true

section

variable {w size maxBytes : Nat} {storeValue : BitVec w → Nat → BuilderM Unit}
  {loadValue : BitVec 8 → SliceM (BitVec w)}

/-- The shared `store_into` and `load_from` meet the contract once the type's value store and
load write and read a value of `k ≤ maxBytes` bytes as its `8k` bits, and the length field holds
exactly the byte counts up to `maxBytes`. -/
theorem codec_of (hWidth : w = size * 8) (hLen : 2 ^ lenBits maxBytes = maxBytes + 1)
    (hLenLe : lenBits maxBytes ≤ 8)
    (hStore : ∀ (value : BitVec w) (k : Nat), k ≤ maxBytes → value.toNat < 2 ^ (8 * k) →
      StoresExactly (storeValue value (k * 8)) (encodeBE (8 * k) value.toNat) [])
    (hLoad : ∀ (value : BitVec w) (k : Nat), k ≤ maxBytes → value.toNat < 2 ^ (8 * k) →
      LoadsExactly (loadValue (BitVec.ofNat 8 k)) value (encodeBE (8 * k) value.toNat) [])
    (hBound : ∀ (bytes : BitVec 8) (slice rest : CellSlice) (value : BitVec w),
      loadValue bytes slice = .ok value rest → value.toNat < 2 ^ (8 * bytes.toNat)) :
    Codec BitVec.toNat size maxBytes (storeInto size maxBytes storeValue) (loadFrom maxBytes loadValue) := by
  have hFits : ∀ value : BitVec w, value.toNat < 2 ^ (size * 8) := fun value => hWidth ▸ value.isLt
  have hLen8 : 2 ^ lenBits maxBytes ≤ 2 ^ 8 := Nat.pow_le_pow_right (by decide) hLenLe
  refine ⟨fun value hValid => ?_, fun value builder hNot => ?_, fun slice rest value h => ?_⟩
  · have hk := (isValid_iff (hFits value)).mp hValid
    have hLeast := bytes_least (hFits value)
    have hSmall : bytes size value.toNat < 2 ^ lenBits maxBytes := by omega
    have hNotOver : ¬bytes size value.toNat > maxBytes := by omega
    refine ⟨bytes size value.toNat, hLeast, by simp only [bitLen, if_neg hNotOver, Nat.mul_comm],
      by simp only [unwrapBitLen, if_neg hNotOver, Nat.mul_comm], fun builder hRoom => ?_, ?_⟩
    · have hSeq := StoresExactly.seq (StoresExactly.storeSmallUint
        (BitVec.ofNat 8 (bytes size value.toNat)) (lenBits maxBytes))
        (hStore value _ hk hLeast.1)
      rw [BitVec.toNat_ofNat, Nat.mod_eq_of_lt (by omega)] at hSeq
      have hRoom' := hRoom
      simp only [List.length_append, encodeBE_length, List.length_nil] at hRoom'
      unfold storeInto
      rw [if_neg (by simp [hNotOver, Nat.mul_comm, hRoom'])]
      exact hSeq builder hRoom
    · exact LoadsExactly.bind (LoadsExactly.loadSmallUint hSmall) (hLoad value _ hk hLeast.1)
  · unfold storeInto
    rw [if_pos ((overflowTest_iff (hFits value) builder).mpr hNot)]
  · obtain ⟨bytes, after, hBytes, h⟩ := bind_apply_eq_ok h
    have hLt := CellSlice.loadSmallUint_lt hBytes
    have hValue := hBound bytes after rest value h
    have hPos := Nat.two_pow_pos (maxBytes * 8)
    have hLe : 2 ^ (8 * bytes.toNat) ≤ 2 ^ (maxBytes * 8) := Nat.pow_le_pow_right (by decide) (by omega)
    simp only [isValid, decide_eq_true_eq]
    omega

end

end VarUint

theorem encodeBE_mod_of_le {width n : Nat} (value : Nat) (h : width ≤ n) :
    encodeBE width (value % 2 ^ n) = encodeBE width value := by
  rw [← encodeBE_mod width (value % 2 ^ n), Nat.mod_mod_of_dvd _ (Nat.pow_dvd_pow 2 h), encodeBE_mod]

/-- The word `load_u128` assembles from a high and a low 64-bit word. -/
theorem toNat_join (high low : BitVec 64) :
    ((high.setWidth 128 <<< 64) ||| low.setWidth 128).toNat = high.toNat * 2 ^ 64 + low.toNat := by
  have hDisjoint : (high.setWidth 128 <<< 64) &&& low.setWidth 128 = 0#128 := by
    apply BitVec.eq_of_getLsbD_eq
    intro ⟨i, hi⟩
    simp only [BitVec.getLsbD_and, BitVec.getLsbD_shiftLeft, BitVec.getLsbD_setWidth, BitVec.getLsbD_zero]
    by_cases h : i < 64
    · simp [h]
    · simp [h, BitVec.getLsbD_ge low i (by omega)]
  rw [← BitVec.add_eq_or_of_and_eq_zero _ _ hDisjoint, BitVec.toNat_add_of_and_eq_zero hDisjoint,
    BitVec.toNat_shiftLeft, BitVec.toNat_setWidth, BitVec.toNat_setWidth]
  have := high.isLt
  have := low.isLt
  rw [Nat.mod_eq_of_lt (by omega : high.toNat < 2 ^ 128), Nat.mod_eq_of_lt (by omega : low.toNat < 2 ^ 128),
    Nat.shiftLeft_eq, Nat.mod_eq_of_lt (by omega)]

/-- `store_u128` writes the `bits` low bits of the value, for up to 128 bits. -/
theorem storeU128_stores (value : BitVec 128) {bits : Nat} (h : bits ≤ 128) :
    StoresExactly (storeU128 value bits) (encodeBE bits value.toNat) [] := by
  unfold storeU128
  split
  · rename_i hHigh
    have hSeq := StoresExactly.seq (StoresExactly.storeUint ((value >>> 64).setWidth 64) (bits - 64))
      (StoresExactly.storeUint (value.setWidth 64) (bits - (bits - 64)))
    have hBits : encodeBE (bits - 64) ((value >>> 64).setWidth 64).toNat ++
        encodeBE (bits - (bits - 64)) (value.setWidth 64).toNat = encodeBE bits value.toNat := by
      rw [BitVec.toNat_setWidth, BitVec.toNat_setWidth, BitVec.toNat_ushiftRight,
        @encodeBE_mod_of_le (bits - 64) 64 _ (by omega), show bits - (bits - 64) = 64 by omega,
        encodeBE_mod, ← encodeBE_add, Nat.sub_add_cancel hHigh]
    rw [hBits] at hSeq
    exact hSeq
  · have hLow := StoresExactly.storeUint (value.setWidth 64) bits
    rwa [BitVec.toNat_setWidth, @encodeBE_mod_of_le bits 64 _ (by omega)] at hLow

theorem ofNat_toNat_of_lt {k : Nat} (h : k < 2 ^ 8) : (BitVec.ofNat 8 k).toNat = k := by
  rw [BitVec.toNat_ofNat, Nat.mod_eq_of_lt h]

/-- `load_u128` reads back a value of `k ≤ 16` bytes from its `8k` bits. -/
theorem loadU128_loads (value : BitVec 128) {k : Nat} (hk : k ≤ 16) (h : value.toNat < 2 ^ (8 * k)) :
    LoadsExactly (loadU128 (BitVec.ofNat 8 k)) value (encodeBE (8 * k) value.toNat) [] := by
  unfold loadU128
  rw [ofNat_toNat_of_lt (by omega)]
  have hSplit := Nat.div_add_mod value.toNat (2 ^ 64)
  split
  · rename_i hHigh
    have hHighLt : value.toNat >>> 64 < 2 ^ ((k - 8) * 8) := by
      rw [Nat.shiftRight_eq_div_pow]
      apply Nat.div_lt_of_lt_mul
      rwa [← Nat.pow_add, show 64 + (k - 8) * 8 = 8 * k by omega]
    have hBits : encodeBE (8 * k) value.toNat = encodeBE ((k - 8) * 8) (value.toNat >>> 64) ++
        (encodeBE ((k - (k - 8)) * 8) (value.toNat % 2 ^ 64) ++ []) := by
      rw [show k - (k - 8) = 8 by omega, encodeBE_mod, List.append_nil, ← encodeBE_add,
        show (k - 8) * 8 + 8 * 8 = 8 * k by omega]
    have hValue : (BitVec.ofNat 64 (value.toNat >>> 64)).setWidth 128 <<< 64 |||
        (BitVec.ofNat 64 (value.toNat % 2 ^ 64)).setWidth 128 = value := by
      have := value.isLt
      apply BitVec.eq_of_toNat_eq
      rw [toNat_join, BitVec.toNat_ofNat, BitVec.toNat_ofNat, Nat.mod_mod, Nat.shiftRight_eq_div_pow,
        Nat.mod_eq_of_lt (by omega)]
      omega
    rw [hBits]
    have hLowWord : LoadsExactly (CellSlice.loadUint ((k - (k - 8)) * 8))
        (BitVec.ofNat 64 (value.toNat % 2 ^ 64)) (encodeBE ((k - (k - 8)) * 8) (value.toNat % 2 ^ 64)) [] :=
      LoadsExactly.loadUint (by rw [show (k - (k - 8)) * 8 = 64 by omega]; exact Nat.mod_lt _ (by omega))
    exact LoadsExactly.bind (LoadsExactly.loadUint hHighLt)
      (LoadsExactly.bind hLowWord (LoadsExactly.pure_of_eq hValue))
  · have hLow : value.toNat < 2 ^ (k * 8) := by rwa [Nat.mul_comm]
    have hValue : 0#128 ||| (BitVec.ofNat 64 value.toNat).setWidth 128 = value := by
      have : 2 ^ (k * 8) ≤ 2 ^ 64 := Nat.pow_le_pow_right (by decide) (by omega)
      apply BitVec.eq_of_toNat_eq
      rw [BitVec.zero_or, BitVec.toNat_setWidth, BitVec.toNat_ofNat,
        Nat.mod_eq_of_lt (by omega : value.toNat < 2 ^ 64),
        Nat.mod_eq_of_lt (by omega : value.toNat < 2 ^ 128)]
    rw [Nat.mul_comm 8 k, ← List.append_nil (encodeBE (k * 8) value.toNat)]
    exact LoadsExactly.bind (LoadsExactly.loadUint hLow) (LoadsExactly.pure_of_eq hValue)

theorem loadU128_lt {bytes : BitVec 8} {slice rest : CellSlice} {value : BitVec 128}
    (h : loadU128 bytes slice = .ok value rest) : value.toNat < 2 ^ (8 * bytes.toNat) := by
  unfold loadU128 at h
  split at h
  · obtain ⟨high, after, hLoadHigh, h⟩ := bind_apply_eq_ok h
    obtain ⟨low, _, hLoadLow, ⟨⟩⟩ := bind_apply_eq_ok h
    have hHighLt := CellSlice.loadUint_lt hLoadHigh
    have hLowLt := CellSlice.loadUint_lt hLoadLow
    rw [show bytes.toNat - (bytes.toNat - 8) = 8 by omega] at hLowLt
    rw [toNat_join]
    calc high.toNat * 2 ^ 64 + low.toNat < (high.toNat + 1) * 2 ^ 64 := by omega
      _ ≤ 2 ^ ((bytes.toNat - 8) * 8) * 2 ^ 64 := Nat.mul_le_mul_right _ hHighLt
      _ = 2 ^ (8 * bytes.toNat) := by rw [← Nat.pow_add]; congr 1; omega
  · obtain ⟨low, _, hLoadLow, ⟨⟩⟩ := bind_apply_eq_ok h
    rw [BitVec.zero_or, BitVec.toNat_setWidth, Nat.mul_comm]
    exact lt_of_le_of_lt (Nat.mod_le _ _) (CellSlice.loadUint_lt hLoadLow)

/-- A successful `load_u128` moved the slice past exactly the `8 * bytes` bits of the value. -/
theorem loadU128_eq_ok {bytes : BitVec 8} {slice rest : CellSlice} {value : BitVec 128}
    (h : loadU128 bytes slice = .ok value rest) :
    8 * bytes.toNat ≤ slice.bits.length ∧
      rest = ⟨slice.bits.drop (8 * bytes.toNat), slice.references⟩ := by
  unfold loadU128 at h
  split at h
  · obtain ⟨_, middle, hHigh, h⟩ := bind_apply_eq_ok h
    obtain ⟨_, _, hLow, ⟨⟩⟩ := bind_apply_eq_ok h
    rw [CellSlice.loadUint_apply] at hHigh hLow
    split at hHigh <;> cases hHigh
    split at hLow <;> cases hLow
    simp only [List.length_drop, List.drop_drop] at *
    exact ⟨by omega, by congr 2; omega⟩
  · obtain ⟨_, _, hLow, ⟨⟩⟩ := bind_apply_eq_ok h
    rw [CellSlice.loadUint_apply] at hLow
    split at hLow <;> cases hLow
    exact ⟨by omega, by rw [Nat.mul_comm]⟩

/-- `load_u128` succeeds on every slice that holds the `8 * bytes` bits. -/
theorem loadU128_ok_of_le {bytes : BitVec 8} {slice : CellSlice}
    (h : 8 * bytes.toNat ≤ slice.bits.length) : ∃ value rest, loadU128 bytes slice = .ok value rest := by
  unfold loadU128
  split
  · rw [bind_apply, CellSlice.loadUint_apply, if_pos (by omega)]
    dsimp only
    rw [bind_apply, CellSlice.loadUint_apply, if_pos (by simp only [List.length_drop]; omega)]
    exact ⟨_, _, rfl⟩
  · rw [bind_apply, CellSlice.loadUint_apply, if_pos (by omega)]
    exact ⟨_, _, rfl⟩

theorem VarUint24.codec : VarUint.Codec BitVec.toNat 4 3 VarUint24.storeInto VarUint24.loadFrom := by
  refine VarUint.codec_of rfl (by decide) (by decide) (fun value k hk h => ?_) (fun value k hk h => ?_)
    (fun bytes slice rest value h => ?_)
  · have := value.isLt
    have hStore := StoresExactly.storeUint (value.setWidth 64) (k * 8)
    rw [BitVec.toNat_setWidth, Nat.mod_eq_of_lt (by omega)] at hStore
    rwa [Nat.mul_comm 8 k]
  · have := value.isLt
    have hValue : (BitVec.ofNat 64 value.toNat).setWidth 32 = value := by
      apply BitVec.eq_of_toNat_eq
      rw [BitVec.toNat_setWidth, BitVec.toNat_ofNat, Nat.mod_eq_of_lt (by omega : value.toNat < 2 ^ 64),
        Nat.mod_eq_of_lt this]
    show LoadsExactly (do
      let value ← CellSlice.loadUint ((BitVec.ofNat 8 k).toNat * 8)
      pure (value.setWidth 32)) value _ []
    rw [ofNat_toNat_of_lt (by omega), Nat.mul_comm 8 k, ← List.append_nil (encodeBE (k * 8) value.toNat)]
    show LoadsExactly _ _ _ ([] ++ [])
    exact LoadsExactly.bind (LoadsExactly.loadUint (show value.toNat < 2 ^ (k * 8) by rwa [Nat.mul_comm]))
      (LoadsExactly.pure_of_eq hValue)
  · obtain ⟨loaded, after, hLoad, ⟨⟩⟩ := bind_apply_eq_ok h
    rw [BitVec.toNat_setWidth, Nat.mul_comm]
    exact lt_of_le_of_lt (Nat.mod_le _ _) (CellSlice.loadUint_lt hLoad)

theorem VarUint56.codec : VarUint.Codec BitVec.toNat 8 7 VarUint56.storeInto VarUint56.loadFrom := by
  refine VarUint.codec_of rfl (by decide) (by decide) (fun value k _ _ => ?_) (fun value k hk h => ?_)
    (fun bytes slice rest value h => ?_)
  · rw [Nat.mul_comm 8 k]
    exact StoresExactly.storeUint value (k * 8)
  · have hValue : BitVec.ofNat 64 value.toNat = value :=
      BitVec.eq_of_toNat_eq (by rw [BitVec.toNat_ofNat, Nat.mod_eq_of_lt value.isLt])
    have hLoad := LoadsExactly.loadUint (show value.toNat < 2 ^ (k * 8) by rwa [Nat.mul_comm])
    rw [hValue] at hLoad
    show LoadsExactly (CellSlice.loadUint ((BitVec.ofNat 8 k).toNat * 8)) value _ []
    rwa [ofNat_toNat_of_lt (by omega), Nat.mul_comm 8 k]
  · rw [Nat.mul_comm]
    exact CellSlice.loadUint_lt h

theorem Tokens.codec : VarUint.Codec BitVec.toNat 16 15 Tokens.storeInto Tokens.loadFrom :=
  VarUint.codec_of rfl (by decide) (by decide)
    (fun value k hk _ => by rw [Nat.mul_comm 8 k]; exact storeU128_stores value (by omega))
    (fun value _ hk h => loadU128_loads value (by omega) h) (fun _ _ _ _ h => loadU128_lt h)

/-- `VarUint24`, `VarUint56` and `Tokens` meet the variable-length integer contract, with at most
3, 7 and 15 bytes. -/
theorem varUint_codecs :
    VarUint.Codec BitVec.toNat 4 3 VarUint24.storeInto VarUint24.loadFrom ∧
      VarUint.Codec BitVec.toNat 8 7 VarUint56.storeInto VarUint56.loadFrom ∧
      VarUint.Codec BitVec.toNat 16 15 Tokens.storeInto Tokens.loadFrom :=
  ⟨VarUint24.codec, VarUint56.codec, Tokens.codec⟩

example : VarUint.lenBits 3 = 2 ∧ VarUint.lenBits 7 = 3 ∧ VarUint.lenBits 15 = 4 := by decide

end EverscaleTypes

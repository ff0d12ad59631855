import EverscaleTypes.Cell.Codec

/-! The fixed-width integers of `num`: the `u16`-backed `Uint9`, `Uint12` and `Uint15` that
`impl_small_uints!` generates, one definition with the width as a parameter, and `SplitDepth`, the
anycast prefix length, a nonzero byte stored in 5 bits. Each comes with its store, its load and what
a successful load consumed; the small integers also with their dictionary-key decoder. -/
namespace EverscaleTypes

/-- `[u8; 128]`: the buffer a dictionary key is decoded from, its bits left-aligned. -/
structure RawData where
  bytes : List (BitVec 8)
  length_bytes : bytes.length = 128

/-- `u16::from_be_bytes`. -/
def u16FromBeBytes (bytes : List (BitVec 8)) : BitVec 16 := BitVec.ofNat 16 (decodeBE (bytesBits bytes))

/-- `SplitDepth(NonZeroU8)`: the length of an anycast rewrite prefix, never zero. -/
structure SplitDepth where
  value : BitVec 8
  value_ne : value ≠ 0

namespace SplitDepth

/-- `SplitDepth::BITS`. -/
def bits : Nat := 5

/-- `SplitDepth::new`: any nonzero byte, `IntOverflow` for zero. -/
def new (value : BitVec 8) : Except Error SplitDepth :=
  if h : value = 0 then .error .intOverflow else .ok ⟨value, h⟩

/-- `SplitDepth::into_bit_len`. -/
def intoBitLen (depth : SplitDepth) : Nat := depth.value.toNat

/-- `SplitDepth::store_into`. -/
def storeInto (depth : SplitDepth) : BuilderM Unit := CellBuilder.storeSmallUint depth.value bits

/-- `SplitDepth::load_from`. -/
def loadFrom : SliceM SplitDepth := do
  let value ← CellSlice.loadSmallUint bits
  match new value with
  | .ok depth => pure depth
  | .error e => throw e

theorem ext {a b : SplitDepth} (h : a.value = b.value) : a = b := by
  cases a
  cases b
  cases h
  rfl

theorem new_value (depth : SplitDepth) : new depth.value = .ok depth := by
  unfold new
  rw [dif_neg depth.value_ne]

theorem intoBitLen_pos (depth : SplitDepth) : 0 < depth.intoBitLen :=
  Nat.pos_of_ne_zero fun h => depth.value_ne (BitVec.eq_of_toNat_eq h)

theorem storeInto_stores (depth : SplitDepth) :
    StoresExactly depth.storeInto (encodeBE bits depth.intoBitLen) [] :=
  StoresExactly.storeSmallUint _ _

theorem loadFrom_loads {depth : SplitDepth} (h : depth.intoBitLen < 2 ^ bits) :
    LoadsExactly loadFrom depth (encodeBE bits depth.intoBitLen) [] := by
  intro rest
  unfold loadFrom
  rw [bind_apply, LoadsExactly.loadSmallUint h rest]
  simp only [intoBitLen, BitVec.ofNat_toNat, BitVec.setWidth_eq, new_value]
  rfl

theorem new_eq_ok {value : BitVec 8} {depth : SplitDepth} (h : new value = .ok depth) :
    depth.value = value := by
  unfold new at h
  split at h
  · cases h
  · cases h
    rfl

theorem loadFrom_eq_ok {slice rest : CellSlice} {depth : SplitDepth}
    (h : loadFrom slice = .ok depth rest) :
    depth.intoBitLen < 2 ^ bits ∧ Consumed slice rest (encodeBE bits depth.intoBitLen) [] := by
  obtain ⟨value, middle, hValue, h⟩ := bind_apply_eq_ok h
  cases hNew : new value with
  | ok read =>
      rw [hNew] at h
      cases h
      rw [intoBitLen, new_eq_ok hNew]
      exact CellSlice.loadSmallUint_eq_ok (by decide) hValue
  | error e =>
      rw [hNew] at h
      cases h

theorem new_eq_error {value : BitVec 8} {e : Error} (h : new value = .error e) :
    e = .intOverflow ∧ value = 0 := by
  unfold new at h
  split at h
  · cases h
    exact ⟨rfl, ‹_›⟩
  · cases h

/-- `SplitDepth::from_bit_len`: `new` of a length below `u8::MAX`, and `IntOverflow` from there
on. -/
def fromBitLen (bitLen : BitVec 16) : Except Error SplitDepth :=
  if bitLen.toNat < 255 then new (BitVec.ofNat 8 bitLen.toNat) else .error .intOverflow

theorem fromBitLen_eq_ok {bitLen : BitVec 16} {depth : SplitDepth}
    (h : fromBitLen bitLen = .ok depth) :
    depth.intoBitLen = bitLen.toNat ∧ 1 ≤ bitLen.toNat ∧ bitLen.toNat < 255 := by
  unfold fromBitLen at h
  split at h
  · have hLen : depth.intoBitLen = bitLen.toNat := by
      rw [intoBitLen, new_eq_ok h, BitVec.toNat_ofNat, Nat.mod_eq_of_lt (by omega)]
    exact ⟨hLen, hLen ▸ intoBitLen_pos depth, ‹_›⟩
  · cases h

theorem fromBitLen_eq_error {bitLen : BitVec 16} {e : Error} (h : fromBitLen bitLen = .error e) :
    e = .intOverflow ∧ ¬(1 ≤ bitLen.toNat ∧ bitLen.toNat < 255) := by
  unfold fromBitLen at h
  split at h
  · obtain ⟨rfl, hZero⟩ := new_eq_error h
    have hValue := congrArg BitVec.toNat hZero
    rw [BitVec.toNat_ofNat, Nat.mod_eq_of_lt (by omega), show (0 : BitVec 8).toNat = 0 from rfl]
      at hValue
    exact ⟨rfl, fun hIn => by omega⟩
  · cases h
    exact ⟨rfl, fun hIn => ‹¬_› hIn.2⟩

/-- `from_bit_len` accepts every length from 1 to 254. -/
theorem fromBitLen_ok_iff (bitLen : BitVec 16) :
    (∃ depth, fromBitLen bitLen = .ok depth) ↔ 1 ≤ bitLen.toNat ∧ bitLen.toNat < 255 := by
  refine ⟨fun ⟨_, h⟩ => (fromBitLen_eq_ok h).2, fun hIn => ?_⟩
  cases h : fromBitLen bitLen with
  | ok depth => exact ⟨depth, rfl⟩
  | error e => exact absurd hIn (fromBitLen_eq_error h).2

end SplitDepth

namespace SmallUint

/-- `is_valid`: at most `MAX = (1 << bits) - 1`. -/
def isValid (bits : Nat) (value : BitVec 16) : Bool := value.toNat ≤ 2 ^ bits - 1

/-- `store_into`: `IntOverflow` for an invalid value, else the value in `bits` bits. -/
def storeInto (bits : Nat) (value : BitVec 16) : BuilderM Unit := fun builder =>
  if !isValid bits value then .error .intOverflow builder
  else CellBuilder.storeUint (value.setWidth 64) bits builder

/-- `load_from`. -/
def loadFrom (bits : Nat) : SliceM (BitVec 16) := do
  let value ← CellSlice.loadUint bits
  pure (value.setWidth 16)

/-- `<_ as DictKey>::from_raw_data`: the first two bytes as a big-endian `u16`, shifted down to
`bits` bits. -/
def fromRawData (bits : Nat) (data : RawData) : Option (BitVec 16) :=
  some (u16FromBeBytes [data.bytes.getD 0 0, data.bytes.getD 1 0] >>> (16 - bits))

variable {bits : Nat}

theorem isValid_iff (value : BitVec 16) : isValid bits value = true ↔ value.toNat < 2 ^ bits := by
  have := Nat.one_le_two_pow (n := bits)
  simp only [isValid, decide_eq_true_eq]
  omega

theorem storeInto_stores {value : BitVec 16} (h : isValid bits value = true) :
    StoresExactly (storeInto bits value) (encodeBE bits value.toNat) [] := by
  intro builder hRoom
  have hStore := StoresExactly.storeUint (value.setWidth 64) bits builder
  rw [BitVec.toNat_setWidth, Nat.mod_eq_of_lt (Nat.lt_of_lt_of_le value.isLt (by decide))] at hStore
  simp only [storeInto, h, Bool.not_true, Bool.false_eq_true, if_false]
  exact hStore hRoom

theorem loadFrom_loads {value : BitVec 16} (h : isValid bits value = true) :
    LoadsExactly (loadFrom bits) value (encodeBE bits value.toNat) [] := by
  have hLt := (isValid_iff value).1 h
  have hValue : (BitVec.ofNat 64 value.toNat).setWidth 16 = value := by
    apply BitVec.eq_of_toNat_eq
    rw [BitVec.toNat_setWidth, BitVec.toNat_ofNat,
      Nat.mod_eq_of_lt (Nat.lt_of_lt_of_le value.isLt (by decide)), Nat.mod_eq_of_lt value.isLt]
  have hLoad : LoadsExactly (loadFrom bits) value (encodeBE bits value.toNat ++ []) ([] ++ []) :=
    LoadsExactly.bind (LoadsExactly.loadUint hLt) (LoadsExactly.pure_of_eq hValue)
  rwa [List.append_nil] at hLoad

theorem loadFrom_eq_ok (hBits : bits ≤ 16) {slice rest : CellSlice} {value : BitVec 16}
    (h : loadFrom bits slice = .ok value rest) :
    isValid bits value = true ∧ Consumed slice rest (encodeBE bits value.toNat) [] := by
  obtain ⟨read, middle, hRead, h⟩ := bind_apply_eq_ok h
  cases h
  obtain ⟨hLt, hConsumed⟩ := CellSlice.loadUint_eq_ok (by omega) hRead
  have hValue : (read.setWidth 16).toNat = read.toNat := by
    rw [BitVec.toNat_setWidth,
      Nat.mod_eq_of_lt (Nat.lt_of_lt_of_le hLt (Nat.pow_le_pow_right (by decide) hBits))]
  rw [isValid_iff, hValue]
  exact ⟨hLt, hConsumed⟩

end SmallUint

/-- `Uint9::BITS`. -/
def Uint9.bits : Nat := 9

/-- `Uint9::store_into`. -/
def Uint9.storeInto : BitVec 16 → BuilderM Unit := SmallUint.storeInto Uint9.bits

/-- `Uint9::load_from`. -/
def Uint9.loadFrom : SliceM (BitVec 16) := SmallUint.loadFrom Uint9.bits

/-- `<Uint9 as DictKey>::from_raw_data`. -/
def Uint9.fromRawData : RawData → Option (BitVec 16) := SmallUint.fromRawData Uint9.bits

theorem Uint9.isValid_iff_le (value : BitVec 16) :
    SmallUint.isValid Uint9.bits value = true ↔ value.toNat ≤ 511 := by
  rw [SmallUint.isValid_iff]
  exact Nat.lt_succ_iff

/-- `Uint12::BITS`. -/
def Uint12.bits : Nat := 12

/-- `Uint12::store_into`. -/
def Uint12.storeInto : BitVec 16 → BuilderM Unit := SmallUint.storeInto Uint12.bits

/-- `Uint12::load_from`. -/
def Uint12.loadFrom : SliceM (BitVec 16) := SmallUint.loadFrom Uint12.bits

/-- `<Uint12 as DictKey>::from_raw_data`. -/
def Uint12.fromRawData : RawData → Option (BitVec 16) := SmallUint.fromRawData Uint12.bits

/-- `Uint15::BITS`. -/
def Uint15.bits : Nat := 15

/-- `Uint15::store_into`. -/
def Uint15.storeInto : BitVec 16 → BuilderM Unit := SmallUint.storeInto Uint15.bits

/-- `Uint15::load_from`. -/
def Uint15.loadFrom : SliceM (BitVec 16) := SmallUint.loadFrom Uint15.bits

/-- `<Uint15 as DictKey>::from_raw_data`. -/
def Uint15.fromRawData : RawData → Option (BitVec 16) := SmallUint.fromRawData Uint15.bits

end EverscaleTypes

import EverscaleTypes.Num.SmallUint

/-! Internal message addresses: `IntAddr`, its standard and variable-length forms, and the anycast
prefix both may carry. Each store checks for room first and then writes the fields in the
`MsgAddressInt` layout; each load reads them back in the same order. -/
namespace EverscaleTypes

/-- `Anycast`: the rewrite prefix's length and its bytes. -/
structure Anycast where
  depth : SplitDepth
  rewritePrefix : List (BitVec 8)

namespace Anycast

/-- `Anycast::MIN_DEPTH`. -/
def minDepth : Nat := 1

/-- `Anycast::MAX_DEPTH`. -/
def maxDepth : Nat := 30

/-- `Anycast::BITS_MAX`. -/
def bitsMax : Nat := SplitDepth.bits + maxDepth

/-- `Anycast::bit_len`. -/
def bitLen (anycast : Anycast) : Nat := SplitDepth.bits + anycast.depth.intoBitLen

/-- `Anycast::store_into`. -/
def storeInto (anycast : Anycast) : BuilderM Unit := do
  CellBuilder.ensureCapacity anycast.bitLen
  anycast.depth.storeInto
  CellBuilder.storeRaw anycast.rewritePrefix anycast.depth.intoBitLen

/-- `Anycast::load_from`. -/
def loadFrom : SliceM Anycast := do
  let depth ← SplitDepth.loadFrom
  CellSlice.ensureRemaining depth.intoBitLen
  let rewritePrefix ←
    CellSlice.loadRaw (List.replicate ((depth.intoBitLen + 7) / 8) 0) depth.intoBitLen
  pure ⟨depth, rewritePrefix⟩

/-- The bits of `anycast_info$_ depth:(#<= 30) rewrite_pfx:(bits depth)`. -/
def encoding (anycast : Anycast) : List Bool :=
  encodeBE SplitDepth.bits anycast.depth.intoBitLen ++
    (bytesBits anycast.rewritePrefix).take anycast.depth.intoBitLen

/-- A well-formed anycast: a depth of at most `MAX_DEPTH`, and a prefix holding exactly that many
bits. -/
def WellFormed (anycast : Anycast) : Prop :=
  anycast.depth.intoBitLen ≤ maxDepth ∧ HoldsBits anycast.rewritePrefix anycast.depth.intoBitLen

/-- What the decoder needs to read an anycast back: a depth that fits the 5-bit field, and a prefix
holding exactly that many bits. Depth 31 is readable but not well formed. -/
def Readable (anycast : Anycast) : Prop :=
  anycast.depth.intoBitLen < 2 ^ SplitDepth.bits ∧ HoldsBits anycast.rewritePrefix anycast.depth.intoBitLen

/-- The bits of a `Maybe Anycast` field. -/
def maybeEncoding : Option Anycast → List Bool
  | none => [false]
  | some anycast => true :: anycast.encoding

/-- The bits an `Option<Box<Anycast>>` adds to an address's `bit_len`. -/
def maybeBitLen : Option Anycast → Nat
  | none => 0
  | some anycast => anycast.bitLen

/-- An absent anycast is well formed; a present one must be. -/
def MaybeWellFormed (anycast : Option Anycast) : Prop := ∀ present ∈ anycast, present.WellFormed

theorem WellFormed.readable {anycast : Anycast} (h : anycast.WellFormed) : anycast.Readable :=
  ⟨Nat.lt_of_le_of_lt h.1 (by decide), h.2⟩

theorem encoding_length {anycast : Anycast} (h : anycast.Readable) :
    anycast.encoding.length = anycast.bitLen := by
  have hLen := h.2.1
  simp only [encoding, bitLen, List.length_append, encodeBE_length, List.length_take, bytesBits_length]
  omega

theorem storeInto_stores {anycast : Anycast} (h : anycast.Readable) :
    StoresExactly anycast.storeInto anycast.encoding [] := by
  have hLen := h.2.1
  have hStore := StoresExactly.ensureCapacity (StoresExactly.seq anycast.depth.storeInto_stores
    (@StoresExactly.storeRaw anycast.rewritePrefix anycast.depth.intoBitLen (by omega)))
  rw [show (encodeBE SplitDepth.bits anycast.depth.intoBitLen ++
    (bytesBits anycast.rewritePrefix).take anycast.depth.intoBitLen).length = anycast.bitLen
    from encoding_length h] at hStore
  exact hStore

theorem loadFrom_loads {anycast : Anycast} (h : anycast.Readable) :
    LoadsExactly loadFrom anycast anycast.encoding [] := by
  have hLen := h.2.1
  have hLoad : LoadsExactly loadFrom anycast (encodeBE SplitDepth.bits anycast.depth.intoBitLen ++
      ((bytesBits anycast.rewritePrefix).take anycast.depth.intoBitLen ++ [])) ([] ++ ([] ++ [])) :=
    LoadsExactly.bind (SplitDepth.loadFrom_loads h.1)
      (LoadsExactly.ensureRemaining (LoadsExactly.bind (LoadsExactly.loadRaw h.2) (LoadsExactly.pure anycast))
        (by simp only [List.append_nil, List.length_take, bytesBits_length]; omega))
  rwa [List.append_nil] at hLoad

theorem maybeEncoding_length {anycast : Option Anycast} (h : ∀ present ∈ anycast, present.Readable) :
    (maybeEncoding anycast).length = 1 + maybeBitLen anycast := by
  cases anycast with
  | none => rfl
  | some anycast =>
      simp only [maybeEncoding, List.length_cons, maybeBitLen, encoding_length (h anycast rfl)]
      omega

theorem maybe_stores {anycast : Option Anycast} (h : ∀ present ∈ anycast, present.Readable) :
    StoresExactly (CellBuilder.storeOption storeInto anycast) (maybeEncoding anycast) [] := by
  cases anycast with
  | none => exact StoresExactly.storeOption_none _
  | some anycast => exact StoresExactly.storeOption_some (storeInto_stores (h anycast rfl))

theorem maybe_loads {anycast : Option Anycast} (h : ∀ present ∈ anycast, present.Readable) :
    LoadsExactly (CellSlice.loadOption loadFrom) anycast (maybeEncoding anycast) [] := by
  cases anycast with
  | none => exact LoadsExactly.loadOption_none
  | some anycast => exact LoadsExactly.loadOption_some (loadFrom_loads (h anycast rfl))

theorem maybeBitLen_lt {anycast : Option Anycast} (h : ∀ present ∈ anycast, present.Readable) :
    maybeBitLen anycast < SplitDepth.bits + 2 ^ SplitDepth.bits := by
  cases anycast with
  | none => exact Nat.add_pos_left (by decide) _
  | some anycast => exact Nat.add_lt_add_left (h anycast rfl).1 _

/-- A well-formed anycast adds at most `Anycast::BITS_MAX` bits. -/
theorem maybeBitLen_le_bitsMax {anycast : Option Anycast} (h : MaybeWellFormed anycast) :
    maybeBitLen anycast ≤ bitsMax := by
  cases anycast with
  | none => exact Nat.zero_le _
  | some anycast => exact Nat.add_le_add_left (h anycast rfl).1 _

/-- `Anycast::from_slice`: the depth is the slice's remaining bit count as a `u16`, and the prefix
is read with `get_raw` into `Vec::with_capacity((depth + 7) / 8)`, a vector that reserves room but
holds no bytes. -/
def fromSlice (slice : CellSlice) : Except Error Anycast := do
  let depth ← SplitDepth.fromBitLen (BitVec.ofNat 16 slice.remainingBits)
  let data ← slice.getRaw 0 [] depth.intoBitLen
  pure ⟨depth, data⟩

/-- Every slice is rejected: `IntOverflow` when its length is not a depth `from_bit_len` accepts,
and otherwise `CellUnderflow` from `get_raw`, whose empty target has no room for the prefix. -/
theorem fromSlice_eq_error (slice : CellSlice) :
    fromSlice slice = .error (if 1 ≤ slice.remainingBits % 2 ^ 16 ∧
      slice.remainingBits % 2 ^ 16 < 255 then .cellUnderflow else .intOverflow) := by
  unfold fromSlice
  have hLen : (BitVec.ofNat 16 slice.remainingBits).toNat = slice.remainingBits % 2 ^ 16 :=
    BitVec.toNat_ofNat _ _
  cases hDepth : SplitDepth.fromBitLen (BitVec.ofNat 16 slice.remainingBits) with
  | error e =>
      obtain ⟨rfl, hOut⟩ := SplitDepth.fromBitLen_eq_error hDepth
      rw [hLen] at hOut
      rw [if_neg hOut]
      rfl
  | ok depth =>
      obtain ⟨hBits, hIn⟩ := SplitDepth.fromBitLen_eq_ok hDepth
      rw [hLen] at hBits hIn
      have hRaw : slice.getRaw 0 [] depth.intoBitLen = .error .cellUnderflow := by
        unfold CellSlice.getRaw
        rw [if_neg (by omega), if_neg (by simp only [List.length_nil]; omega)]
      rw [if_pos hIn]
      change (slice.getRaw 0 [] depth.intoBitLen >>= fun data =>
        (pure ⟨depth, data⟩ : Except Error Anycast)) = _
      rw [hRaw]
      rfl

/-- `from_slice` never returns an anycast. Its depth check admits every length from 1 to 254, not
only the grammar's 1 to 30; past it, `get_raw` always fails on the empty vector. -/
theorem fromSlice_never_ok :
    (∀ bitLen : BitVec 16,
      (∃ depth, SplitDepth.fromBitLen bitLen = .ok depth) ↔ 1 ≤ bitLen.toNat ∧ bitLen.toNat < 255) ∧
    ∀ slice : CellSlice, fromSlice slice = .error (if 1 ≤ slice.remainingBits % 2 ^ 16 ∧
      slice.remainingBits % 2 ^ 16 < 255 then .cellUnderflow else .intOverflow) :=
  ⟨SplitDepth.fromBitLen_ok_iff, fromSlice_eq_error⟩

end Anycast

/-- `StdAddr`. -/
structure StdAddr where
  anycast : Option Anycast
  workchain : BitVec 8
  address : HashBytes

namespace StdAddr

/-- `StdAddr::BITS_WITHOUT_ANYCAST`: tag, `Maybe` bit, workchain and account id. -/
def bitsWithoutAnycast : Nat := 2 + 1 + 8 + 256

/-- `StdAddr::BITS_MAX`. -/
def bitsMax : Nat := bitsWithoutAnycast + Anycast.bitsMax

/-- `StdAddr::bit_len`. -/
def bitLen (addr : StdAddr) : Nat := bitsWithoutAnycast + Anycast.maybeBitLen addr.anycast

/-- `StdAddr::store_into`. -/
def storeInto (addr : StdAddr) : BuilderM Unit := do
  CellBuilder.ensureCapacity addr.bitLen
  CellBuilder.storeSmallUint 0b10 2
  CellBuilder.storeOption Anycast.storeInto addr.anycast
  CellBuilder.storeU8 addr.workchain
  CellBuilder.storeU256 addr.address

/-- `StdAddr::load_from`: the tag must be `10`; the second bit is read only after a one. -/
def loadFrom : SliceM StdAddr := do
  let first ← CellSlice.loadBit
  if !first then throw .invalidTag
  else
    let second ← CellSlice.loadBit
    if second then throw .invalidTag
    else
      let anycast ← CellSlice.loadOption Anycast.loadFrom
      let workchain ← CellSlice.loadU8
      let address ← CellSlice.loadU256
      pure ⟨anycast, workchain, address⟩

/-- The bits of `addr_std$10 anycast:(Maybe Anycast) workchain_id:int8 address:bits256`. -/
def encoding (addr : StdAddr) : List Bool :=
  [true, false] ++ Anycast.maybeEncoding addr.anycast ++ encodeBE 8 addr.workchain.toNat ++
    bytesBits addr.address.bytes

theorem encoding_length {addr : StdAddr} (h : ∀ anycast ∈ addr.anycast, anycast.Readable) :
    addr.encoding.length = addr.bitLen := by
  simp only [encoding, bitLen, bitsWithoutAnycast, List.length_append, Anycast.maybeEncoding_length h,
    encodeBE_length, bytesBits_length, addr.address.length_bytes, List.length_cons, List.length_nil]
  omega

theorem bitLen_le_bitsMax {addr : StdAddr} (h : Anycast.MaybeWellFormed addr.anycast) :
    addr.bitLen ≤ bitsMax :=
  Nat.add_le_add_left (Anycast.maybeBitLen_le_bitsMax h) _

theorem storeInto_stores {addr : StdAddr} (h : ∀ anycast ∈ addr.anycast, anycast.Readable) :
    StoresExactly addr.storeInto addr.encoding [] := by
  have hStore := StoresExactly.ensureCapacity (StoresExactly.seq (StoresExactly.storeSmallUint 0b10 2)
    (StoresExactly.seq (Anycast.maybe_stores h)
      (StoresExactly.seq (StoresExactly.storeU8 addr.workchain) (StoresExactly.storeU256 addr.address))))
  have hBits : encodeBE 2 (0b10 : BitVec 8).toNat ++ (Anycast.maybeEncoding addr.anycast ++
      (encodeBE 8 addr.workchain.toNat ++ bytesBits addr.address.bytes)) = addr.encoding := by
    simp only [encoding, List.append_assoc]
    rfl
  rw [hBits, encoding_length h] at hStore
  exact hStore

theorem loadFrom_loads {addr : StdAddr} (h : ∀ anycast ∈ addr.anycast, anycast.Readable) :
    LoadsExactly loadFrom addr addr.encoding [] := by
  have hLoad : LoadsExactly loadFrom addr ([true] ++ ([false] ++ (Anycast.maybeEncoding addr.anycast ++
      (encodeBE 8 addr.workchain.toNat ++ (bytesBits addr.address.bytes ++ [])))))
      ([] ++ ([] ++ ([] ++ ([] ++ ([] ++ []))))) :=
    LoadsExactly.bind (LoadsExactly.loadBit true) (LoadsExactly.bind (LoadsExactly.loadBit false)
      (LoadsExactly.bind (Anycast.maybe_loads h) (LoadsExactly.bind (LoadsExactly.loadU8 _)
        (LoadsExactly.bind (LoadsExactly.loadU256 _) (LoadsExactly.pure addr)))))
  simpa only [encoding, List.append_assoc, List.append_nil, List.singleton_append,
    List.cons_append, List.nil_append] using hLoad

end StdAddr

/-- `VarAddr`. -/
structure VarAddr where
  anycast : Option Anycast
  addressLen : BitVec 16
  workchain : BitVec 32
  address : List (BitVec 8)

namespace VarAddr

/-- `VarAddr::BITS_MAX`, with `Uint9::MAX` as `2 ^ 9 - 1`. -/
def bitsMax : Nat := 2 + 1 + Anycast.bitsMax + Uint9.bits + 32 + (2 ^ Uint9.bits - 1)

/-- `VarAddr::bit_len`, in `u16` arithmetic. -/
def bitLen (addr : VarAddr) : Nat :=
  (2 + 1 + Uint9.bits + 32 + addr.addressLen.toNat + Anycast.maybeBitLen addr.anycast) % 2 ^ 16

/-- `VarAddr::store_into`. -/
def storeInto (addr : VarAddr) : BuilderM Unit := do
  CellBuilder.ensureCapacity addr.bitLen
  CellBuilder.storeSmallUint 0b11 2
  CellBuilder.storeOption Anycast.storeInto addr.anycast
  Uint9.storeInto addr.addressLen
  CellBuilder.storeU32 addr.workchain
  CellBuilder.storeRaw addr.address addr.addressLen.toNat

/-- The bits of `addr_var$11 anycast:(Maybe Anycast) addr_len:(## 9) workchain_id:int32
address:(bits addr_len)`. -/
def encoding (addr : VarAddr) : List Bool :=
  [true, true] ++ Anycast.maybeEncoding addr.anycast ++ encodeBE Uint9.bits addr.addressLen.toNat ++
    encodeBE 32 addr.workchain.toNat ++ (bytesBits addr.address).take addr.addressLen.toNat

/-- A well-formed variable-length address: a well-formed anycast, a length of at most 511 bits and
an address holding exactly that many. -/
def WellFormed (addr : VarAddr) : Prop :=
  Anycast.MaybeWellFormed addr.anycast ∧ addr.addressLen.toNat ≤ 511 ∧
    HoldsBits addr.address addr.addressLen.toNat

theorem encoding_length {addr : VarAddr} (hAnycast : ∀ anycast ∈ addr.anycast, anycast.Readable)
    (hLen : addr.addressLen.toNat ≤ 511) (hHolds : HoldsBits addr.address addr.addressLen.toNat) :
    addr.encoding.length = addr.bitLen := by
  have hBytes := hHolds.1
  have hMax := Anycast.maybeBitLen_lt hAnycast
  simp only [encoding, bitLen, List.length_append, Anycast.maybeEncoding_length hAnycast,
    encodeBE_length, List.length_take, bytesBits_length, hBytes, List.length_cons, List.length_nil,
    Uint9.bits, SplitDepth.bits] at hMax ⊢
  omega

theorem bitLen_le_bitsMax {addr : VarAddr} (h : addr.WellFormed) : addr.bitLen ≤ bitsMax := by
  have hAnycast := Anycast.maybeBitLen_le_bitsMax h.1
  have hLen := h.2.1
  simp only [bitLen, bitsMax, Anycast.bitsMax, SplitDepth.bits, Anycast.maxDepth, Uint9.bits] at *
  omega

theorem storeInto_stores {addr : VarAddr} (hAnycast : ∀ anycast ∈ addr.anycast, anycast.Readable)
    (hLen : addr.addressLen.toNat ≤ 511) (hHolds : HoldsBits addr.address addr.addressLen.toNat) :
    StoresExactly addr.storeInto addr.encoding [] := by
  have hStore := StoresExactly.ensureCapacity (StoresExactly.seq (StoresExactly.storeSmallUint 0b11 2)
    (StoresExactly.seq (Anycast.maybe_stores hAnycast)
      (StoresExactly.seq (SmallUint.storeInto_stores ((Uint9.isValid_iff_le _).2 hLen))
        (StoresExactly.seq (StoresExactly.storeU32 addr.workchain)
          (@StoresExactly.storeRaw addr.address addr.addressLen.toNat (by rw [hHolds.1]; omega))))))
  have hBits : encodeBE 2 (0b11 : BitVec 8).toNat ++ (Anycast.maybeEncoding addr.anycast ++
      (encodeBE Uint9.bits addr.addressLen.toNat ++ (encodeBE 32 addr.workchain.toNat ++
        (bytesBits addr.address).take addr.addressLen.toNat))) = addr.encoding := by
    simp only [encoding, List.append_assoc]
    rfl
  rw [hBits, encoding_length hAnycast hLen hHolds] at hStore
  exact hStore

end VarAddr

/-- `IntAddr`. -/
inductive IntAddr where
  | std (addr : StdAddr)
  | var (addr : VarAddr)

namespace IntAddr

/-- `IntAddr::BITS_MAX`. -/
def bitsMax : Nat := 1 + VarAddr.bitsMax

/-- `IntAddr::bit_len`. -/
def bitLen : IntAddr → Nat
  | std addr => addr.bitLen
  | var addr => addr.bitLen

/-- `IntAddr::store_into`. -/
def storeInto : IntAddr → BuilderM Unit
  | std addr => addr.storeInto
  | var addr => addr.storeInto

/-- `IntAddr::load_from`: a one bit, then a one for `addr_var` or a zero for `addr_std`. A
variable-length address must have its bits left before they are read. -/
def loadFrom : SliceM IntAddr := do
  let tag ← CellSlice.loadBit
  if !tag then throw .invalidTag
  else
    let isVar ← CellSlice.loadBit
    if isVar then
      let anycast ← CellSlice.loadOption Anycast.loadFrom
      let addressLen ← Uint9.loadFrom
      let workchain ← CellSlice.loadU32
      CellSlice.ensureRemaining addressLen.toNat
      let address ←
        CellSlice.loadRaw (List.replicate ((addressLen.toNat + 7) / 8) 0) addressLen.toNat
      pure (var ⟨anycast, addressLen, workchain, address⟩)
    else
      let anycast ← CellSlice.loadOption Anycast.loadFrom
      let workchain ← CellSlice.loadU8
      let address ← CellSlice.loadU256
      pure (std ⟨anycast, workchain, address⟩)

/-- The bits of `MsgAddressInt`. -/
def encoding : IntAddr → List Bool
  | std addr => addr.encoding
  | var addr => addr.encoding

/-- A well-formed address: its anycast, and for `addr_var` its address, hold what their lengths
say. -/
def WellFormed : IntAddr → Prop
  | std addr => Anycast.MaybeWellFormed addr.anycast
  | var addr => addr.WellFormed

/-- What the decoder needs to read an address back: a readable anycast, and for `addr_var` a length
of at most 511 bits and an address holding exactly that many. -/
def Readable : IntAddr → Prop
  | std addr => ∀ anycast ∈ addr.anycast, anycast.Readable
  | var addr => (∀ anycast ∈ addr.anycast, anycast.Readable) ∧ addr.addressLen.toNat ≤ 511 ∧
      HoldsBits addr.address addr.addressLen.toNat

theorem WellFormed.readable {addr : IntAddr} (h : addr.WellFormed) : addr.Readable := by
  cases addr with
  | std addr => exact fun anycast hMem => (h anycast hMem).readable
  | var addr => exact ⟨fun anycast hMem => (h.1 anycast hMem).readable, h.2⟩

theorem loadFrom_loads_std {addr : StdAddr} (h : (std addr).Readable) :
    LoadsExactly loadFrom (std addr) addr.encoding [] := by
  have hLoad : LoadsExactly loadFrom (std addr) ([true] ++ ([false] ++ (Anycast.maybeEncoding addr.anycast ++
      (encodeBE 8 addr.workchain.toNat ++ (bytesBits addr.address.bytes ++ [])))))
      ([] ++ ([] ++ ([] ++ ([] ++ ([] ++ []))))) :=
    LoadsExactly.bind (LoadsExactly.loadBit true) (LoadsExactly.bind (LoadsExactly.loadBit false)
      (LoadsExactly.bind (Anycast.maybe_loads h) (LoadsExactly.bind (LoadsExactly.loadU8 _)
        (LoadsExactly.bind (LoadsExactly.loadU256 _) (LoadsExactly.pure (std addr))))))
  simpa only [StdAddr.encoding, List.append_assoc, List.append_nil, List.singleton_append,
    List.cons_append, List.nil_append] using hLoad

theorem loadFrom_loads_var {addr : VarAddr} (h : (var addr).Readable) :
    LoadsExactly loadFrom (var addr) addr.encoding [] := by
  obtain ⟨hAnycast, hLen, hHolds⟩ := h
  have hRaw :
      addr.addressLen.toNat ≤ ((bytesBits addr.address).take addr.addressLen.toNat ++ []).length := by
    rw [List.append_nil, List.length_take, bytesBits_length, hHolds.1]
    omega
  have hLoad : LoadsExactly loadFrom (var addr) ([true] ++ ([true] ++ (Anycast.maybeEncoding addr.anycast ++
      (encodeBE Uint9.bits addr.addressLen.toNat ++ (encodeBE 32 addr.workchain.toNat ++
        ((bytesBits addr.address).take addr.addressLen.toNat ++ []))))))
      ([] ++ ([] ++ ([] ++ ([] ++ ([] ++ ([] ++ [])))))) :=
    LoadsExactly.bind (LoadsExactly.loadBit true) (LoadsExactly.bind (LoadsExactly.loadBit true)
      (LoadsExactly.bind (Anycast.maybe_loads hAnycast)
        (LoadsExactly.bind (SmallUint.loadFrom_loads ((Uint9.isValid_iff_le _).2 hLen))
          (LoadsExactly.bind (LoadsExactly.loadU32 _) (LoadsExactly.ensureRemaining
            (LoadsExactly.bind (LoadsExactly.loadRaw hHolds) (LoadsExactly.pure (var addr))) hRaw)))))
  simpa only [VarAddr.encoding, List.append_assoc, List.append_nil, List.singleton_append,
    List.cons_append, List.nil_append] using hLoad

/-- Every readable address is stored as its bits, exactly `bit_len` of them. -/
theorem encoding_length {addr : IntAddr} (h : addr.Readable) : addr.encoding.length = addr.bitLen := by
  cases addr with
  | std addr => exact StdAddr.encoding_length h
  | var addr => exact VarAddr.encoding_length h.1 h.2.1 h.2.2

theorem storeInto_stores {addr : IntAddr} (h : addr.Readable) :
    StoresExactly addr.storeInto addr.encoding [] := by
  cases addr with
  | std addr => exact StdAddr.storeInto_stores h
  | var addr => exact VarAddr.storeInto_stores h.1 h.2.1 h.2.2

/-- Every well-formed address has fewer bits than `IntAddr::BITS_MAX`: a variable-length one
reaches at most `VarAddr::BITS_MAX`, one less. -/
theorem bitLen_lt_bitsMax {addr : IntAddr} (h : addr.WellFormed) : addr.bitLen < bitsMax := by
  have hVar : StdAddr.bitsMax < bitsMax ∧ VarAddr.bitsMax < bitsMax := by decide
  cases addr with
  | std addr => exact Nat.lt_of_le_of_lt (StdAddr.bitLen_le_bitsMax h) hVar.1
  | var addr => exact Nat.lt_of_le_of_lt (VarAddr.bitLen_le_bitsMax h) hVar.2

/-- `IntAddr::BITS_MAX` bits of room are enough: every well-formed address writes fewer, so a
builder with that much room stores it whole. -/
theorem storeInto_within_bitsMax {addr : IntAddr} (h : addr.WellFormed) (builder : CellBuilder)
    (hRoom : builder.bits.length + bitsMax ≤ maxBitLen) :
    addr.encoding.length < bitsMax ∧ ∃ result : CellBuilder, addr.storeInto builder = .ok () result ∧
      result.bits = builder.bits ++ addr.encoding ∧ result.references = builder.references := by
  have hLen : addr.encoding.length < bitsMax := encoding_length h.readable ▸ bitLen_lt_bitsMax h
  obtain ⟨result, hStore, hBits, hRefs⟩ := storeInto_stores h.readable builder
    ((CellBuilder.hasCapacity_iff builder _ _).2 ⟨by omega, by simpa using builder.references_le⟩)
  exact ⟨hLen, result, hStore, hBits, by simpa using hRefs⟩

theorem storeInto_within_bitsMax_std :
    (std ⟨none, 0, HashBytes.zero⟩).WellFormed ∧ CellBuilder.new.bits.length + bitsMax ≤ maxBitLen ∧
      (std ⟨none, 0, HashBytes.zero⟩).encoding.length < bitsMax ∧ ∃ result : CellBuilder,
        (std ⟨none, 0, HashBytes.zero⟩).storeInto CellBuilder.new = .ok () result ∧
          result.bits = CellBuilder.new.bits ++ (std ⟨none, 0, HashBytes.zero⟩).encoding ∧
          result.references = CellBuilder.new.references :=
  have hWell : (std ⟨none, 0, HashBytes.zero⟩).WellFormed := fun _ h => (nomatch h)
  ⟨hWell, by decide, storeInto_within_bitsMax hWell CellBuilder.new (by decide)⟩

/-- The decoder reads every readable address back from its bits. -/
theorem loadFrom_loads {addr : IntAddr} (h : addr.Readable) :
    LoadsExactly loadFrom addr addr.encoding [] := by
  cases addr with
  | std addr => exact loadFrom_loads_std h
  | var addr => exact loadFrom_loads_var h

/-- A well-formed address is stored as its `MsgAddressInt` bits, exactly `bit_len` of them, into
every builder with room for them, fails with `CellOverflow` on a builder without room and leaves
it unchanged, and is read back from those bits. -/
theorem storeInto_loadFrom (addr : IntAddr) (h : addr.WellFormed) :
    addr.encoding.length = addr.bitLen ∧ StoresExactly addr.storeInto addr.encoding [] ∧
      (∀ builder : CellBuilder, builder.hasCapacity addr.bitLen 0 = false →
        addr.storeInto builder = .error .cellOverflow builder) ∧
      LoadsExactly loadFrom addr addr.encoding [] := by
  refine ⟨encoding_length h.readable, storeInto_stores h.readable, fun _ hNo => ?_,
    loadFrom_loads h.readable⟩
  cases addr <;> exact ensureCapacity_error hNo

/-- A variable-length address with a 3-bit anycast prefix and a 4-bit account id. -/
def anycastVarAddr : IntAddr := .var ⟨some ⟨⟨3, by decide⟩, [0xa0]⟩, 4, 0, [0xf0]⟩

theorem storeInto_loadFrom_anycastVarAddr : anycastVarAddr.WellFormed ∧
    anycastVarAddr.encoding.length = anycastVarAddr.bitLen ∧
      StoresExactly anycastVarAddr.storeInto anycastVarAddr.encoding [] ∧
      (∀ builder : CellBuilder, builder.hasCapacity anycastVarAddr.bitLen 0 = false →
        anycastVarAddr.storeInto builder = .error .cellOverflow builder) ∧
      LoadsExactly loadFrom anycastVarAddr anycastVarAddr.encoding [] :=
  have h : anycastVarAddr.WellFormed :=
    ⟨by rintro _ ⟨⟩; exact ⟨by decide, rfl, by decide⟩, by decide, rfl, by decide⟩
  ⟨h, storeInto_loadFrom anycastVarAddr h⟩

end IntAddr

/-- A standard address with an anycast of depth 31, one past `MAX_DEPTH`, and a zero prefix,
workchain and account id. -/
def overDeepAddr : StdAddr := ⟨some ⟨⟨31, by decide⟩, List.replicate 4 0⟩, 0, HashBytes.zero⟩

/-- `SplitDepth::new` takes every nonzero byte, so both decoders read the 31-bit anycast that
`depth:(#<= 30)` rules out from these 303 bits, and consume all of them. -/
theorem loadFrom_overDeepAddr :
    overDeepAddr.encoding = [true, false, true] ++ encodeBE SplitDepth.bits 31 ++ List.replicate 295 false ∧
      ¬Anycast.MaybeWellFormed overDeepAddr.anycast ∧
      StdAddr.loadFrom ⟨overDeepAddr.encoding, []⟩ = .ok overDeepAddr ⟨[], []⟩ ∧
      IntAddr.loadFrom ⟨overDeepAddr.encoding, []⟩ = .ok (.std overDeepAddr) ⟨[], []⟩ := by
  have hReadable : ∀ anycast ∈ overDeepAddr.anycast, anycast.Readable := by
    rintro _ ⟨⟩
    exact ⟨by decide, rfl, by decide⟩
  refine ⟨?_, fun h => absurd (h _ rfl).1 (by decide), ?_, ?_⟩
  · simp only [StdAddr.encoding, overDeepAddr, Anycast.maybeEncoding, Anycast.encoding, HashBytes.zero,
      SplitDepth.intoBitLen, bytesBits_replicate_zero, show (0 : BitVec 8).toNat = 0 from rfl,
      show (31 : BitVec 8).toNat = 31 from rfl, encodeBE_zero, List.take_replicate, List.append_assoc,
      List.cons_append, List.nil_append, List.append_replicate_replicate]
    rfl
  · simpa using StdAddr.loadFrom_loads hReadable ⟨[], []⟩
  · simpa using IntAddr.loadFrom_loads_std hReadable ⟨[], []⟩

end EverscaleTypes

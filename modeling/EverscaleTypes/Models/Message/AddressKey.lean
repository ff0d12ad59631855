import EverscaleTypes.Models.Message.Address

/-! The dictionary-key fast path of `StdAddr`: `from_raw_data` rebuilds an address without anycast
from the 128-byte buffer a dictionary keeps its key bits in, by shifting whole bytes and words
instead of reading the fields one by one. -/
namespace EverscaleTypes

/-- `u128::from_be_bytes`. The transmute of `from_raw_data` followed by `swap_bytes` on a
little-endian target reads the bytes this way on either byte order. -/
def u128FromBeBytes (bytes : List (BitVec 8)) : BitVec 128 := BitVec.ofNat 128 (decodeBE (bytesBits bytes))

/-- `u128::to_be_bytes`. -/
def u128ToBeBytes (value : BitVec 128) : List (BitVec 8) := packBits 16 (encodeBE 128 value.toNat)

@[simp] theorem u128ToBeBytes_length (value : BitVec 128) : (u128ToBeBytes value).length = 16 :=
  packBits_length _ _

theorem encodeBE_u128FromBeBytes {bytes : List (BitVec 8)} (h : bytes.length = 16) :
    encodeBE 128 (u128FromBeBytes bytes).toNat = bytesBits bytes := by
  have hLen : (bytesBits bytes).length = 128 := by rw [bytesBits_length, h]
  rw [u128FromBeBytes, BitVec.toNat_ofNat, encodeBE_mod, ← hLen, encodeBE_decodeBE]

@[simp] theorem bytesBits_u128ToBeBytes (value : BitVec 128) :
    bytesBits (u128ToBeBytes value) = encodeBE 128 value.toNat :=
  bytesBits_packBits 16 _ (encodeBE_length _ _)

namespace StdAddr

/-- `<StdAddr as DictKey>::from_raw_data`: `None` unless the first three bits are `100` (tag `10`,
no anycast); otherwise the workchain is bits 3 to 10 and the account id is the next 256 bits,
assembled from the low five bits of the second byte and two big-endian words shifted by five. The
buffer has 128 bytes, so the last arm is never taken. -/
def fromRawData (data : RawData) : Option StdAddr :=
  match data.bytes with
  | firstByte :: secondByte :: data =>
      let prefixBits : BitVec 8 := 0b10000000
      let prefixMask : BitVec 8 := 0b11100000
      let r := 3
      let shift := 8 - r
      let revShift := 120 + r
      if (firstByte ^^^ prefixBits) &&& prefixMask != 0 then none
      else
        let workchain := (firstByte <<< r) ||| (secondByte >>> shift)
        let words := data.take 32
        let hi := u128FromBeBytes (words.take 16)
        let lo := u128FromBeBytes (words.drop 16)
        some ⟨none, workchain,
          ⟨u128ToBeBytes (hi >>> shift ||| (secondByte.setWidth 128 <<< revShift)) ++
            u128ToBeBytes (lo >>> shift ||| (hi <<< revShift)), by simp⟩⟩
  | _ => none

/-- The prefix test of `from_raw_data` accepts exactly the bytes that start with `100`. -/
theorem prefix_eq_zero_iff (firstByte : BitVec 8) :
    (firstByte ^^^ 0b10000000) &&& 0b11100000 = 0 ↔
      (encodeBE 8 firstByte.toNat).take 3 = [true, false, false] := by
  revert firstByte
  decide

/-- The workchain byte: bits 3 to 7 of the first byte, then bits 0 to 2 of the second. -/
theorem encodeBE_workchain (firstByte secondByte : BitVec 8) :
    encodeBE 8 ((firstByte <<< 3) ||| (secondByte >>> 5)).toNat =
      (encodeBE 8 firstByte.toNat).drop 3 ++ (encodeBE 8 secondByte.toNat).take 3 := by
  rw [BitVec.or_comm, encodeBE_ushiftRight_or_shiftLeft (rfl : 5 + 3 = 8)]

/-- The account id: bits 3 to 7 of the second byte, the 128 bits of the high word, and the top 123
bits of the low word. -/
theorem bytesBits_address (secondByte : BitVec 8) {high low : List (BitVec 8)} (hHigh : high.length = 16)
    (hLow : low.length = 16) :
    bytesBits (u128ToBeBytes (u128FromBeBytes high >>> 5 ||| (secondByte.setWidth 128 <<< 123)) ++
        u128ToBeBytes (u128FromBeBytes low >>> 5 ||| (u128FromBeBytes high <<< 123))) =
      (encodeBE 8 secondByte.toNat).drop 3 ++ bytesBits high ++ (bytesBits low).take 123 := by
  have hSecond :
      (encodeBE 128 (secondByte.setWidth 128).toNat).drop 123 = (encodeBE 8 secondByte.toNat).drop 3 := by
    rw [drop_encodeBE (rfl : 123 + 5 = 128), drop_encodeBE (rfl : 3 + 5 = 8), BitVec.toNat_setWidth,
      Nat.mod_eq_of_lt (Nat.lt_of_lt_of_le secondByte.isLt (by decide))]
  rw [bytesBits_append, bytesBits_u128ToBeBytes, bytesBits_u128ToBeBytes,
    encodeBE_ushiftRight_or_shiftLeft (rfl : 5 + 123 = 128),
    encodeBE_ushiftRight_or_shiftLeft (rfl : 5 + 123 = 128), hSecond,
    encodeBE_u128FromBeBytes hHigh, encodeBE_u128FromBeBytes hLow,
    List.append_assoc, List.append_assoc, ← List.append_assoc (List.take 123 _), List.take_append_drop]

theorem take_append_drop_append {α : Type} (n : Nat) (l rest : List α) :
    l.take n ++ (l.drop n ++ rest) = l ++ rest := by
  rw [← List.append_assoc, List.take_append_drop]

theorem take_bytesBits_cons (firstByte : BitVec 8) (rest : List (BitVec 8)) :
    (bytesBits (firstByte :: rest)).take 3 = (encodeBE 8 firstByte.toNat).take 3 := by
  rw [bytesBits_cons, List.take_append_of_le_length (by simp)]

theorem fromRawData_eq_none {data : RawData} (h : (bytesBits data.bytes).take 3 ≠ [true, false, false]) :
    fromRawData data = none := by
  obtain ⟨bytes, hLen⟩ := data
  match bytes, hLen with
  | firstByte :: secondByte :: rest, _ =>
      have hPrefix : (firstByte ^^^ 0b10000000) &&& 0b11100000 ≠ 0 :=
        fun hZero => h (by rw [take_bytesBits_cons]; exact (prefix_eq_zero_iff firstByte).1 hZero)
      simp only [fromRawData]
      rw [if_pos (bne_iff_ne.2 hPrefix)]

/-- An accepted buffer gives the address without anycast whose `addr_std` bits are the buffer's
first 267 bits. -/
theorem fromRawData_encoding {data : RawData} (h : (bytesBits data.bytes).take 3 = [true, false, false]) :
    ∃ addr, fromRawData data = some addr ∧ addr.anycast = none ∧
      addr.encoding = (bytesBits data.bytes).take bitsWithoutAnycast := by
  obtain ⟨bytes, hLen⟩ := data
  match bytes, hLen with
  | firstByte :: secondByte :: rest, hLen =>
      have hFirst : (encodeBE 8 firstByte.toNat).take 3 = [true, false, false] := by
        rw [← take_bytesBits_cons firstByte (secondByte :: rest)]; exact h
      have hRest : rest.length = 126 := by simpa using hLen
      have hHigh : ((rest.take 32).take 16).length = 16 := by simp [hRest]
      have hLow : ((rest.take 32).drop 16).length = 16 := by simp [hRest]
      simp only [fromRawData, (prefix_eq_zero_iff firstByte).2 hFirst, bne_self_eq_false,
        Bool.false_eq_true, if_false, Option.some.injEq, exists_eq_left', Nat.reduceSub, Nat.reduceAdd,
        true_and, encoding, Anycast.maybeEncoding, encodeBE_workchain,
        bytesBits_address secondByte hHigh hLow]
      have hBits : bytesBits (firstByte :: secondByte :: rest) =
          (encodeBE 8 firstByte.toNat ++ encodeBE 8 secondByte.toNat ++ bytesBits ((rest.take 32).take 16)) ++
            (bytesBits ((rest.take 32).drop 16) ++ bytesBits (rest.drop 32)) := by
        conv_lhs => rw [← List.take_append_drop 32 rest, ← List.take_append_drop 16 (rest.take 32)]
        simp only [bytesBits_cons, bytesBits_append, List.append_assoc]
      have hFront : bitsWithoutAnycast =
          (encodeBE 8 firstByte.toNat ++ encodeBE 8 secondByte.toNat ++
            bytesBits ((rest.take 32).take 16)).length +
            123 := by simp [bitsWithoutAnycast, hHigh]
      rw [hFront, hBits, List.take_append, List.take_append_of_le_length (by simp [hLow]),
        show [true, false] ++ [false] = [true, false, false] from rfl, ← hFirst]
      simp only [List.append_assoc, take_append_drop_append]

theorem loadFrom_of_anycast_none {addr : StdAddr} (h : addr.anycast = none) :
    loadFrom ⟨addr.encoding, []⟩ = .ok addr ⟨[], []⟩ := by
  have hReadable : ∀ anycast ∈ addr.anycast, anycast.Readable := fun _ hMem => by
    rw [h] at hMem
    cases hMem
  simpa using loadFrom_loads hReadable ⟨[], []⟩

theorem encoding_of_anycast_none {addr : StdAddr} (h : addr.anycast = none) :
    addr.encoding =
      [true, false, false] ++ encodeBE 8 addr.workchain.toNat ++ bytesBits addr.address.bytes := by
  simp [encoding, h, Anycast.maybeEncoding]

/-- `from_raw_data` succeeds exactly on the buffers whose first three bits are `100`, and then
returns what `StdAddr::load_from` reads from the buffer's first 267 bits, consuming all of them.
So every address without anycast comes back from its stored bits, zero-padded to 128 bytes. -/
theorem fromRawData_loadFrom (data : RawData) :
    ((fromRawData data).isSome ↔ (bytesBits data.bytes).take 3 = [true, false, false]) ∧
      (∀ addr, fromRawData data = some addr → addr.anycast = none ∧
        loadFrom ⟨(bytesBits data.bytes).take bitsWithoutAnycast, []⟩ = .ok addr ⟨[], []⟩) ∧
      ∀ addr : StdAddr, addr.anycast = none →
        fromRawData ⟨packBits 128 addr.encoding, packBits_length _ _⟩ = some addr := by
  have hAccepts : ∀ data : RawData,
      (fromRawData data).isSome → (bytesBits data.bytes).take 3 = [true, false, false] :=
    fun data hSome => Classical.byContradiction fun hNo => by simp [fromRawData_eq_none hNo] at hSome
  refine ⟨⟨hAccepts data, fun hPrefix => ?_⟩, fun addr hAddr => ?_, fun addr hNone => ?_⟩
  · obtain ⟨_, hSome, -⟩ := fromRawData_encoding hPrefix
    simp [hSome]
  · obtain ⟨decoded, hSome, hNone, hBits⟩ := fromRawData_encoding (hAccepts data (by simp [hAddr]))
    obtain rfl : decoded = addr := Option.some.inj (hSome.symm.trans hAddr)
    exact ⟨hNone, hBits ▸ loadFrom_of_anycast_none hNone⟩
  · have hLen : addr.encoding.length = bitsWithoutAnycast := by
      simp [encoding_of_anycast_none hNone, bitsWithoutAnycast, addr.address.length_bytes]
    have hBits := @bytesBits_packBits_of_le 128 addr.encoding (by rw [hLen]; decide)
    have hPrefix : (bytesBits (packBits 128 addr.encoding)).take 3 = [true, false, false] := by
      rw [hBits, encoding_of_anycast_none hNone]
      simp
    obtain ⟨decoded, hSome, hDecodedNone, hEnc⟩ :=
      @fromRawData_encoding ⟨packBits 128 addr.encoding, packBits_length _ _⟩ hPrefix
    rw [hBits, ← hLen, List.take_left] at hEnc
    have hSame := loadFrom_of_anycast_none hDecodedNone
    rw [hEnc, loadFrom_of_anycast_none hNone] at hSame
    rw [hSome, (EStateM.Result.ok.inj hSame).1]

end StdAddr

end EverscaleTypes

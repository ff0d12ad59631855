import EverscaleTypes.Models.Message.Address

/-! What the address decoders accept. A successful load of an address consumed exactly the bits of
the address it returns, and that address is readable. With the round trip of the loads this is the
exact input language of `IntAddr::load_from` and `StdAddr::load_from`: the `MsgAddressInt` grammar
with the anycast depth bound `#<= 30` relaxed to the 31 that the 5-bit field can hold. The encoding
is canonical on that language: storing a loaded address writes back what was consumed. -/
namespace EverscaleTypes

theorem Anycast.loadFrom_eq_ok {slice rest : CellSlice} {anycast : Anycast}
    (h : loadFrom slice = .ok anycast rest) :
    anycast.Readable ∧ Consumed slice rest anycast.encoding [] := by
  obtain ⟨depth, afterDepth, hDepth, h⟩ := bind_apply_eq_ok h
  obtain ⟨_, afterCheck, hCheck, h⟩ := bind_apply_eq_ok h
  obtain ⟨rewritePrefix, afterPrefix, hPrefix, h⟩ := bind_apply_eq_ok h
  cases h
  cases CellSlice.ensureRemaining_eq_ok hCheck
  obtain ⟨hDepthLt, hDepthBits⟩ := SplitDepth.loadFrom_eq_ok hDepth
  obtain ⟨hHolds, hPrefixBits⟩ := CellSlice.loadRaw_eq_ok hPrefix
  exact ⟨⟨hDepthLt, hHolds⟩, hDepthBits.trans hPrefixBits⟩

theorem Anycast.maybeEncoding_eq (anycast : Option Anycast) :
    maybeEncoding anycast = anycast.elim [false] fun present => true :: present.encoding := by
  cases anycast <;> rfl

theorem Anycast.maybe_eq_ok {slice rest : CellSlice} {anycast : Option Anycast}
    (h : CellSlice.loadOption loadFrom slice = .ok anycast rest) :
    (∀ present ∈ anycast, present.Readable) ∧ Consumed slice rest (maybeEncoding anycast) [] := by
  rw [maybeEncoding_eq]
  exact CellSlice.loadOption_eq_ok loadFrom_eq_ok h

/-- The fields of `addr_std` after its tag, for any use the caller makes of the address. -/
theorem StdAddr.fields_eq_ok {β : Type} (f : StdAddr → β) {slice rest : CellSlice} {result : β}
    (h : (do
      let anycast ← CellSlice.loadOption Anycast.loadFrom
      let workchain ← CellSlice.loadU8
      let address ← CellSlice.loadU256
      pure (f ⟨anycast, workchain, address⟩)) slice = .ok result rest) :
    ∃ addr : StdAddr, result = f addr ∧ (∀ anycast ∈ addr.anycast, anycast.Readable) ∧
      Consumed slice rest (Anycast.maybeEncoding addr.anycast ++ encodeBE 8 addr.workchain.toNat ++
        bytesBits addr.address.bytes) [] := by
  obtain ⟨anycast, afterAnycast, hAnycast, h⟩ := bind_apply_eq_ok h
  obtain ⟨workchain, afterWorkchain, hWorkchain, h⟩ := bind_apply_eq_ok h
  obtain ⟨address, afterAddress, hAddress, h⟩ := bind_apply_eq_ok h
  cases h
  obtain ⟨hReadable, hAnycastBits⟩ := Anycast.maybe_eq_ok hAnycast
  exact ⟨⟨anycast, workchain, address⟩, rfl, hReadable,
    (hAnycastBits.trans (CellSlice.loadU8_eq_ok hWorkchain)).trans (CellSlice.loadU256_eq_ok hAddress)⟩

theorem StdAddr.loadFrom_eq_ok {slice rest : CellSlice} {addr : StdAddr}
    (h : loadFrom slice = .ok addr rest) :
    (∀ anycast ∈ addr.anycast, anycast.Readable) ∧ Consumed slice rest addr.encoding [] := by
  obtain ⟨first, afterFirst, hFirst, h⟩ := bind_apply_eq_ok h
  cases first with
  | false => cases h
  | true =>
      obtain ⟨second, afterSecond, hSecond, h⟩ := bind_apply_eq_ok h
      cases second with
      | true => cases h
      | false =>
          obtain ⟨addr, rfl, hReadable, hFields⟩ := fields_eq_ok id h
          refine ⟨hReadable, ?_⟩
          have hTag := (CellSlice.loadBit_eq_ok hFirst).trans (CellSlice.loadBit_eq_ok hSecond)
          simpa only [encoding, List.append_assoc] using hTag.trans hFields

/-- The fields of `addr_var` after its tag. -/
theorem VarAddr.fields_eq_ok {slice rest : CellSlice} {result : IntAddr}
    (h : (do
      let anycast ← CellSlice.loadOption Anycast.loadFrom
      let addressLen ← Uint9.loadFrom
      let workchain ← CellSlice.loadU32
      CellSlice.ensureRemaining addressLen.toNat
      let address ←
        CellSlice.loadRaw (List.replicate ((addressLen.toNat + 7) / 8) 0) addressLen.toNat
      pure (IntAddr.var ⟨anycast, addressLen, workchain, address⟩)) slice = .ok result rest) :
    ∃ addr : VarAddr, result = .var addr ∧ (IntAddr.var addr).Readable ∧
      Consumed slice rest (Anycast.maybeEncoding addr.anycast ++ encodeBE Uint9.bits addr.addressLen.toNat ++
        encodeBE 32 addr.workchain.toNat ++ (bytesBits addr.address).take addr.addressLen.toNat) [] := by
  obtain ⟨anycast, afterAnycast, hAnycast, h⟩ := bind_apply_eq_ok h
  obtain ⟨addressLen, afterLen, hLen, h⟩ := bind_apply_eq_ok h
  obtain ⟨workchain, afterWorkchain, hWorkchain, h⟩ := bind_apply_eq_ok h
  obtain ⟨_, afterCheck, hCheck, h⟩ := bind_apply_eq_ok h
  obtain ⟨address, afterAddress, hAddress, h⟩ := bind_apply_eq_ok h
  cases h
  cases CellSlice.ensureRemaining_eq_ok hCheck
  obtain ⟨hReadable, hAnycastBits⟩ := Anycast.maybe_eq_ok hAnycast
  obtain ⟨hLenValid, hLenBits⟩ := SmallUint.loadFrom_eq_ok (by decide) hLen
  obtain ⟨hHolds, hAddressBits⟩ := CellSlice.loadRaw_eq_ok hAddress
  exact ⟨⟨anycast, addressLen, workchain, address⟩, rfl,
    ⟨hReadable, (Uint9.isValid_iff_le _).1 hLenValid, hHolds⟩,
    ((hAnycastBits.trans hLenBits).trans (CellSlice.loadU32_eq_ok hWorkchain)).trans hAddressBits⟩

theorem IntAddr.loadFrom_eq_ok {slice rest : CellSlice} {addr : IntAddr}
    (h : loadFrom slice = .ok addr rest) :
    addr.Readable ∧ Consumed slice rest addr.encoding [] := by
  obtain ⟨tag, afterTag, hTag, h⟩ := bind_apply_eq_ok h
  cases tag with
  | false => cases h
  | true =>
      obtain ⟨isVar, afterKind, hKind, h⟩ := bind_apply_eq_ok h
      have hPrefix := (CellSlice.loadBit_eq_ok hTag).trans (CellSlice.loadBit_eq_ok hKind)
      cases isVar with
      | false =>
          obtain ⟨addr, rfl, hReadable, hFields⟩ := StdAddr.fields_eq_ok std h
          refine ⟨hReadable, ?_⟩
          simpa only [encoding, StdAddr.encoding, List.append_assoc, List.singleton_append, List.cons_append,
            List.nil_append] using hPrefix.trans hFields
      | true =>
          obtain ⟨addr, rfl, hReadable, hFields⟩ := VarAddr.fields_eq_ok h
          refine ⟨hReadable, ?_⟩
          simpa only [encoding, VarAddr.encoding, List.append_assoc, List.singleton_append, List.cons_append,
            List.nil_append] using hPrefix.trans hFields

/-- `IntAddr::load_from` succeeds exactly on the slices that start with the bits of a readable
address, returns that address and consumes exactly its bits; `StdAddr::load_from` does the same for
`addr_std`. Readable admits anycast depths up to 31, one past the grammar's `#<= 30`. -/
theorem loadFrom_eq_ok_iff (slice rest : CellSlice) :
    (∀ addr : IntAddr, IntAddr.loadFrom slice = .ok addr rest ↔
      addr.Readable ∧ Consumed slice rest addr.encoding []) ∧
    ∀ addr : StdAddr, StdAddr.loadFrom slice = .ok addr rest ↔
      (∀ anycast ∈ addr.anycast, anycast.Readable) ∧ Consumed slice rest addr.encoding [] :=
  ⟨fun _ => ⟨IntAddr.loadFrom_eq_ok,
      fun ⟨hReadable, hBits⟩ => hBits.load_eq (IntAddr.loadFrom_loads hReadable)⟩,
    fun _ => ⟨StdAddr.loadFrom_eq_ok,
      fun ⟨hReadable, hBits⟩ => hBits.load_eq (StdAddr.loadFrom_loads hReadable)⟩⟩

/-- Address decoding is canonical: whenever `IntAddr::load_from` or `StdAddr::load_from`
succeeds, `store_into` of the address it returned writes back exactly the bits it consumed, into
every builder with room for them. This covers every address the loader accepts, an anycast of
depth 31 included. -/
theorem loadFrom_canonical :
    StoresBack IntAddr.loadFrom IntAddr.storeInto ∧ StoresBack StdAddr.loadFrom StdAddr.storeInto :=
  ⟨@StoresBack.of_consumed _ _ _ _ _ IntAddr.loadFrom_eq_ok IntAddr.storeInto_stores,
    @StoresBack.of_consumed _ _ _ _ _ StdAddr.loadFrom_eq_ok StdAddr.storeInto_stores⟩

end EverscaleTypes

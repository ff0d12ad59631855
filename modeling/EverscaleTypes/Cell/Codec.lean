import EverscaleTypes.Cell.Basic

/-! What a store writes and what a load reads, as properties of builder and slice actions, with
the lemmas that put them in sequence. Every codec of the project is specified through these two
notions: a store appends exactly an encoding, and a load consumes exactly it. -/
namespace EverscaleTypes

/-- The action `store` appends exactly `bits` and `refs` to every builder with room for them. -/
def StoresExactly (store : BuilderM Unit) (bits : List Bool) (refs : List Cell) : Prop :=
  ∀ builder : CellBuilder, builder.hasCapacity bits.length refs.length →
    ∃ result : CellBuilder, store builder = .ok () result ∧
      result.bits = builder.bits ++ bits ∧ result.references = builder.references ++ refs

/-- The action `load` returns `value` from every slice that starts with `bits` and `refs`, and leaves
exactly the rest. -/
def LoadsExactly {α : Type} (load : SliceM α) (value : α) (bits : List Bool) (refs : List Cell) :
    Prop :=
  ∀ rest : CellSlice, load ⟨bits ++ rest.bits, refs ++ rest.references⟩ = .ok value rest

theorem CellBuilder.ext {a b : CellBuilder} (hBits : a.bits = b.bits)
    (hRefs : a.references = b.references) : a = b := by
  cases a; cases b; cases hBits; cases hRefs; rfl

theorem CellBuilder.hasCapacity_iff (builder : CellBuilder) (bits refs : Nat) :
    builder.hasCapacity bits refs = true ↔
      builder.bits.length + bits ≤ maxBitLen ∧ builder.references.length + refs ≤ maxRefCount := by
  simp [CellBuilder.hasCapacity]

namespace StoresExactly

theorem storeBits (bits : List Bool) : StoresExactly (CellBuilder.storeBits bits) bits [] := by
  intro builder hRoom
  have h := ((CellBuilder.hasCapacity_iff _ _ _).mp hRoom).1
  exact ⟨_, dif_pos h, rfl, (List.append_nil _).symm⟩

theorem storeReference (cell : Cell) : StoresExactly (CellBuilder.storeReference cell) [] [cell] := by
  intro builder hRoom
  have h := ((CellBuilder.hasCapacity_iff _ _ _).mp hRoom).2
  exact ⟨_, dif_pos h, (List.append_nil _).symm, rfl⟩

theorem pure : StoresExactly (Pure.pure ()) [] [] :=
  fun builder _ => ⟨builder, rfl, by simp, by simp⟩

/-- Two stores in sequence write the concatenation of what each writes. -/
theorem seq {first second : BuilderM Unit} {bits₁ bits₂ : List Bool} {refs₁ refs₂ : List Cell}
    (h₁ : StoresExactly first bits₁ refs₁) (h₂ : StoresExactly second bits₂ refs₂) :
    StoresExactly (first >>= fun _ => second) (bits₁ ++ bits₂) (refs₁ ++ refs₂) := by
  intro builder hRoom
  rw [CellBuilder.hasCapacity_iff] at hRoom
  simp only [List.length_append] at hRoom
  obtain ⟨middle, hFirst, hBits, hRefs⟩ :=
    h₁ builder ((CellBuilder.hasCapacity_iff _ _ _).mpr ⟨by omega, by omega⟩)
  obtain ⟨result, hSecond, hBits', hRefs'⟩ :=
    h₂ middle ((CellBuilder.hasCapacity_iff _ _ _).mpr
      ⟨by rw [hBits, List.length_append]; omega, by rw [hRefs, List.length_append]; omega⟩)
  refine ⟨result, ?_, by simp [hBits', hBits], by simp [hRefs', hRefs]⟩
  rw [bind_apply, hFirst]
  exact hSecond

theorem storeUint (value : BitVec 64) (bits : Nat) :
    StoresExactly (CellBuilder.storeUint value bits) (encodeBE bits value.toNat) [] :=
  storeBits _

theorem storeSmallUint (value : BitVec 8) (bits : Nat) :
    StoresExactly (CellBuilder.storeSmallUint value bits) (encodeBE bits value.toNat) [] :=
  storeBits _

theorem storeBit (bit : Bool) : StoresExactly (CellBuilder.storeBit bit) [bit] [] :=
  storeBits _

theorem storeU8 (value : BitVec 8) :
    StoresExactly (CellBuilder.storeU8 value) (encodeBE 8 value.toNat) [] :=
  storeBits _

theorem storeU32 (value : BitVec 32) :
    StoresExactly (CellBuilder.storeU32 value) (encodeBE 32 value.toNat) [] :=
  storeBits _

theorem storeU256 (value : HashBytes) :
    StoresExactly (CellBuilder.storeU256 value) (bytesBits value.bytes) [] :=
  storeBits _

theorem storeOption_none {α : Type} (store : α → BuilderM Unit) :
    StoresExactly (CellBuilder.storeOption store none) [false] [] :=
  storeBits _

theorem storeOption_some {α : Type} {store : α → BuilderM Unit} {value : α} {bits : List Bool}
    {refs : List Cell} (h : StoresExactly (store value) bits refs) :
    StoresExactly (CellBuilder.storeOption store (some value)) (true :: bits) refs :=
  seq (storeBit true) h

/-- Writing the first `bits` bits of a byte string long enough to hold them. -/
theorem storeRaw {value : List (BitVec 8)} {bits : Nat} (h : bits ≤ 8 * value.length) :
    StoresExactly (CellBuilder.storeRaw value bits) ((bytesBits value).take bits) [] := by
  unfold CellBuilder.storeRaw
  rw [List.take_append_of_le_length (by rw [bytesBits_length]; exact h)]
  exact storeBits _

/-- A store that checks for room first writes what its body writes. -/
theorem ensureCapacity {body : BuilderM Unit} {bits : List Bool} (h : StoresExactly body bits []) :
    StoresExactly (do CellBuilder.ensureCapacity bits.length; body) bits [] := by
  intro builder hRoom
  have hRoom' : builder.hasCapacity bits.length 0 = true := hRoom
  rw [bind_apply]
  simp only [CellBuilder.ensureCapacity, if_pos hRoom']
  exact h builder hRoom

end StoresExactly

/-- A store that checks for room first fails with `CellOverflow` on a builder without room, and
leaves it as it was. -/
theorem ensureCapacity_error {body : BuilderM Unit} {bits : Nat} {builder : CellBuilder}
    (h : builder.hasCapacity bits 0 = false) :
    (do CellBuilder.ensureCapacity bits; body) builder = .error .cellOverflow builder := by
  rw [bind_apply]
  simp only [CellBuilder.ensureCapacity, h, Bool.false_eq_true, if_false]

namespace LoadsExactly

variable {α β : Type}

theorem loadBits (bits : List Bool) : LoadsExactly (CellSlice.loadBits bits.length) bits bits [] := by
  intro rest
  simp [CellSlice.loadBits]

theorem loadReference (cell : Cell) : LoadsExactly CellSlice.loadReference cell [] [cell] := by
  intro rest
  rfl

theorem pure (value : α) : LoadsExactly (Pure.pure value) value [] [] := by
  intro rest
  rfl

/-- Two loads in sequence read the concatenation of what each reads; the second may depend on
the first one's result. -/
theorem bind {first : SliceM α} {second : α → SliceM β} {a : α} {b : β}
    {bits₁ bits₂ : List Bool} {refs₁ refs₂ : List Cell}
    (h₁ : LoadsExactly first a bits₁ refs₁) (h₂ : LoadsExactly (second a) b bits₂ refs₂) :
    LoadsExactly (first >>= second) b (bits₁ ++ bits₂) (refs₁ ++ refs₂) := by
  intro rest
  have hFirst := h₁ ⟨bits₂ ++ rest.bits, refs₂ ++ rest.references⟩
  simp only [List.append_assoc] at hFirst ⊢
  rw [bind_apply, hFirst]
  exact h₂ rest

theorem bind_pure {load : SliceM α} {a : α} {bits : List Bool} {refs : List Cell} (f : α → β)
    (h : LoadsExactly load a bits refs) :
    LoadsExactly (load >>= fun value => Pure.pure (f value)) (f a) bits refs := by
  have hLoad : LoadsExactly (load >>= fun value => Pure.pure (f value)) (f a) (bits ++ []) (refs ++ []) :=
    bind h (pure (f a))
  simpa only [List.append_nil] using hLoad

theorem map {load : SliceM α} {a : α} {bits : List Bool} {refs : List Cell} (f : α → β)
    (h : LoadsExactly load a bits refs) : LoadsExactly (f <$> load) (f a) bits refs := by
  intro rest
  show EStateM.map f load _ = _
  simp only [EStateM.map, h rest]

theorem loadUint {bits value : Nat} (h : value < 2 ^ bits) :
    LoadsExactly (CellSlice.loadUint bits) (BitVec.ofNat 64 value) (encodeBE bits value) [] := by
  intro rest
  simp [CellSlice.loadUint, bind_apply, CellSlice.loadBits, Nat.mod_eq_of_lt h]

theorem loadSmallUint {bits value : Nat} (h : value < 2 ^ bits) :
    LoadsExactly (CellSlice.loadSmallUint bits) (BitVec.ofNat 8 value) (encodeBE bits value) [] := by
  intro rest
  simp [CellSlice.loadSmallUint, bind_apply, CellSlice.loadBits, Nat.mod_eq_of_lt h]

theorem pure_of_eq {a b : α} (h : a = b) : LoadsExactly (Pure.pure a) b [] [] := by
  subst h
  exact pure a

theorem loadBit (bit : Bool) : LoadsExactly CellSlice.loadBit bit [bit] [] := by
  intro rest
  simp [CellSlice.loadBit, bind_apply, CellSlice.loadBits]

theorem loadU8 (value : BitVec 8) :
    LoadsExactly CellSlice.loadU8 value (encodeBE 8 value.toNat) [] := by
  intro rest
  simp [CellSlice.loadU8, bind_apply, CellSlice.loadBits, Nat.mod_eq_of_lt value.isLt]

theorem loadU32 (value : BitVec 32) :
    LoadsExactly CellSlice.loadU32 value (encodeBE 32 value.toNat) [] := by
  intro rest
  simp [CellSlice.loadU32, bind_apply, CellSlice.loadBits, Nat.mod_eq_of_lt value.isLt]

theorem loadU256 (value : HashBytes) :
    LoadsExactly CellSlice.loadU256 value (bytesBits value.bytes) [] := by
  intro rest
  obtain ⟨bytes, hLen⟩ := value
  have hRead := loadBits (bytesBits bytes) rest
  rw [bytesBits_length, hLen] at hRead
  simp only [CellSlice.loadU256, bind_apply, hRead, pure_apply]
  congr
  rw [← hLen, packBits_bytesBits]

theorem loadOption_none {load : SliceM α} : LoadsExactly (CellSlice.loadOption load) none [false] [] :=
  bind (loadBit false) (pure none)

theorem loadOption_some {load : SliceM α} {a : α} {bits : List Bool} {refs : List Cell}
    (h : LoadsExactly load a bits refs) :
    LoadsExactly (CellSlice.loadOption load) (some a) (true :: bits) refs := by
  have hSome : LoadsExactly (CellSlice.loadOption load) (some a) ([true] ++ (bits ++ []))
      ([] ++ (refs ++ [])) :=
    bind (loadBit true) (bind h (pure (some a)))
  simpa only [List.append_nil, List.nil_append, List.singleton_append] using hSome

/-- A load that first checks that `n` bits remain reads what its body reads, when the body reads
at least `n` bits. -/
theorem ensureRemaining {load : SliceM α} {a : α} {bits : List Bool} {refs : List Cell} {n : Nat}
    (h : LoadsExactly load a bits refs) (hn : n ≤ bits.length) :
    LoadsExactly (do CellSlice.ensureRemaining n; load) a bits refs := by
  intro rest
  rw [bind_apply]
  have hRoom : CellSlice.hasRemaining ⟨bits ++ rest.bits, refs ++ rest.references⟩ n 0 = true := by
    simp only [CellSlice.hasRemaining, List.length_append, Nat.zero_le, decide_True, Bool.and_true,
      decide_eq_true_eq]
    omega
  simp only [CellSlice.ensureRemaining, hRoom, if_true]
  exact h rest

/-- Reading `bits` raw bits into a zeroed buffer of `⌈bits/8⌉` bytes gives back a byte string that
holds exactly them. -/
theorem loadRaw {value : List (BitVec 8)} {bits : Nat} (h : HoldsBits value bits) :
    LoadsExactly (CellSlice.loadRaw (List.replicate ((bits + 7) / 8) 0) bits) value
      ((bytesBits value).take bits) [] := by
  intro rest
  have hLen : ((bytesBits value).take bits).length = bits := by
    rw [List.length_take, bytesBits_length, h.1]
    omega
  have hRead := loadBits ((bytesBits value).take bits) rest
  rw [hLen] at hRead
  simp only [CellSlice.loadRaw, List.length_replicate, le_refl, if_true, bind_apply, hRead,
    List.drop_length, List.append_nil, packBits_take h, pure_apply, List.drop_replicate, Nat.sub_self,
    List.replicate_zero]

end LoadsExactly

theorem CellSlice.loadBits_length {count : Nat} {slice rest : CellSlice} {bits : List Bool}
    (h : CellSlice.loadBits count slice = .ok bits rest) : bits.length = count := by
  unfold CellSlice.loadBits at h
  split at h
  · cases h
    simpa using ‹count ≤ slice.bits.length›
  · cases h

/-- A loaded number is below two to the power of the bits it was read from. -/
theorem CellSlice.decodeBE_lt_of_loadBits {count : Nat} {slice rest : CellSlice} {bits : List Bool}
    (h : CellSlice.loadBits count slice = .ok bits rest) : decodeBE bits < 2 ^ count :=
  CellSlice.loadBits_length h ▸ decodeBE_lt bits

theorem CellSlice.loadUint_lt {bits : Nat} {slice rest : CellSlice} {value : BitVec 64}
    (h : CellSlice.loadUint bits slice = .ok value rest) : value.toNat < 2 ^ bits := by
  obtain ⟨read, after, hLoad, ⟨⟩⟩ := bind_apply_eq_ok h
  exact lt_of_le_of_lt (Nat.mod_le _ _) (CellSlice.decodeBE_lt_of_loadBits hLoad)

theorem CellSlice.loadSmallUint_lt {bits : Nat} {slice rest : CellSlice} {value : BitVec 8}
    (h : CellSlice.loadSmallUint bits slice = .ok value rest) : value.toNat < 2 ^ bits := by
  obtain ⟨read, after, hLoad, ⟨⟩⟩ := bind_apply_eq_ok h
  exact lt_of_le_of_lt (Nat.mod_le _ _) (CellSlice.decodeBE_lt_of_loadBits hLoad)

/-- Whenever `store` succeeds, it has appended exactly `bits` and `refs`. -/
def Appends (store : BuilderM Unit) (bits : List Bool) (refs : List Cell) : Prop :=
  ∀ builder result : CellBuilder, store builder = .ok () result →
    result.bits = builder.bits ++ bits ∧ result.references = builder.references ++ refs

/-- Whenever `store` succeeds, it has appended bits and references from which `load` reads `value`
back, consuming exactly them. -/
def ReadsBack {α : Type} (store : BuilderM Unit) (load : SliceM α) (value : α) : Prop :=
  ∀ builder result : CellBuilder, store builder = .ok () result →
    ∃ bits refs, result.bits = builder.bits ++ bits ∧ result.references = builder.references ++ refs ∧
      LoadsExactly load value bits refs

theorem Appends.storeBits (bits : List Bool) : Appends (CellBuilder.storeBits bits) bits [] := by
  intro builder result h
  unfold CellBuilder.storeBits at h
  split at h
  · cases h
    exact ⟨rfl, (List.append_nil _).symm⟩
  · cases h

theorem Appends.storeReference (cell : Cell) : Appends (CellBuilder.storeReference cell) [] [cell] := by
  intro builder result h
  unfold CellBuilder.storeReference at h
  split at h
  · cases h
    exact ⟨(List.append_nil _).symm, rfl⟩
  · cases h

namespace ReadsBack

variable {α β : Type}

theorem of_appends {store : BuilderM Unit} {load : SliceM α} {value : α} {bits : List Bool}
    {refs : List Cell} (hStore : Appends store bits refs) (hLoad : LoadsExactly load value bits refs) :
    ReadsBack store load value :=
  fun builder result h => ⟨bits, refs, (hStore builder result h).1, (hStore builder result h).2, hLoad⟩

/-- Two stores in sequence are read back by the two loads in sequence. -/
theorem bind {first second : BuilderM Unit} {load₁ : SliceM α} {load₂ : α → SliceM β}
    {a : α} {b : β} (h₁ : ReadsBack first load₁ a) (h₂ : ReadsBack second (load₂ a) b) :
    ReadsBack (first >>= fun _ => second) (load₁ >>= load₂) b := by
  intro builder result h
  obtain ⟨_, middle, hFirst, hSecond⟩ := bind_apply_eq_ok h
  obtain ⟨bits₁, refs₁, hBits₁, hRefs₁, hLoad₁⟩ := h₁ builder middle hFirst
  obtain ⟨bits₂, refs₂, hBits₂, hRefs₂, hLoad₂⟩ := h₂ middle result hSecond
  exact ⟨bits₁ ++ bits₂, refs₁ ++ refs₂, by rw [hBits₂, hBits₁, List.append_assoc],
    by rw [hRefs₂, hRefs₁, List.append_assoc], LoadsExactly.bind hLoad₁ hLoad₂⟩

theorem u8 (value : BitVec 8) : ReadsBack (CellBuilder.storeU8 value) CellSlice.loadU8 value :=
  of_appends (Appends.storeBits _) (LoadsExactly.loadU8 value)

theorem u32 (value : BitVec 32) : ReadsBack (CellBuilder.storeU32 value) CellSlice.loadU32 value :=
  of_appends (Appends.storeBits _) (LoadsExactly.loadU32 value)

theorem u256 (value : HashBytes) : ReadsBack (CellBuilder.storeU256 value) CellSlice.loadU256 value :=
  of_appends (Appends.storeBits _) (LoadsExactly.loadU256 value)

theorem reference (cell : Cell) :
    ReadsBack (CellBuilder.storeReference cell) CellSlice.loadReference cell :=
  of_appends (Appends.storeReference cell) (LoadsExactly.loadReference cell)

theorem bind_pure {store : BuilderM Unit} {load : SliceM α} {a : α} (f : α → β)
    (h : ReadsBack store load a) : ReadsBack store (load >>= fun value => pure (f value)) (f a) :=
  fun builder result hStore =>
    let ⟨bits, refs, hBits, hRefs, hLoad⟩ := h builder result hStore
    ⟨bits, refs, hBits, hRefs, LoadsExactly.bind_pure f hLoad⟩

theorem map {store : BuilderM Unit} {load : SliceM α} {a : α} (f : α → β)
    (h : ReadsBack store load a) : ReadsBack store (f <$> load) (f a) :=
  fun builder result hStore =>
    let ⟨bits, refs, hBits, hRefs, hLoad⟩ := h builder result hStore
    ⟨bits, refs, hBits, hRefs, LoadsExactly.map f hLoad⟩

end ReadsBack

/-- A load that succeeded on `slice` and left `rest` consumed exactly `bits` and `refs`. -/
def Consumed (slice rest : CellSlice) (bits : List Bool) (refs : List Cell) : Prop :=
  slice.bits = bits ++ rest.bits ∧ slice.references = refs ++ rest.references

namespace Consumed

theorem trans {slice middle rest : CellSlice} {bits₁ bits₂ : List Bool} {refs₁ refs₂ : List Cell}
    (h₁ : Consumed slice middle bits₁ refs₁) (h₂ : Consumed middle rest bits₂ refs₂) :
    Consumed slice rest (bits₁ ++ bits₂) (refs₁ ++ refs₂) :=
  ⟨by rw [h₁.1, h₂.1, List.append_assoc], by rw [h₁.2, h₂.2, List.append_assoc]⟩

/-- A load that consumed exactly what `LoadsExactly` describes returns the value it describes. -/
theorem load_eq {α : Type} {load : SliceM α} {value : α} {bits : List Bool} {refs : List Cell}
    {slice rest : CellSlice} (hLoad : LoadsExactly load value bits refs) (h : Consumed slice rest bits refs) :
    load slice = .ok value rest := by
  obtain ⟨sliceBits, sliceRefs⟩ := slice
  obtain ⟨hBits, hRefs⟩ := h
  subst hBits hRefs
  exact hLoad rest

end Consumed

/-- The load side of a canonical encoding: whenever `load` succeeds, storing the value it returned
writes back exactly the bits and references it consumed. -/
def StoresBack {α : Type} (load : SliceM α) (store : α → BuilderM Unit) : Prop :=
  ∀ {slice rest : CellSlice} {value : α}, load slice = .ok value rest →
    ∃ bits refs, Consumed slice rest bits refs ∧ StoresExactly (store value) bits refs

/-- A load whose successes consume the encoding of a value with property `P` is inverted by a
store that writes that encoding for every such value. -/
theorem StoresBack.of_consumed {α : Type} {load : SliceM α} {store : α → BuilderM Unit}
    {P : α → Prop} {encode : α → List Bool}
    (hLoad : ∀ {slice rest : CellSlice} {value : α}, load slice = .ok value rest →
      P value ∧ Consumed slice rest (encode value) [])
    (hStore : ∀ {value : α}, P value → StoresExactly (store value) (encode value) []) :
    StoresBack load store := fun h =>
  ⟨_, _, (hLoad h).2, hStore (hLoad h).1⟩

namespace CellSlice

/-- A read of `count` bits as a number: the value and the slice past them, or `CellUnderflow` with
the slice kept. -/
theorem loadNumber_apply {size : Nat} (count : Nat) (slice : CellSlice) :
    (do pure (BitVec.ofNat size (decodeBE (← loadBits count)))) slice =
      if count ≤ slice.bits.length then
        .ok (BitVec.ofNat size (decodeBE (slice.bits.take count))) ⟨slice.bits.drop count, slice.references⟩
      else .error .cellUnderflow slice := by
  rw [bind_apply]
  unfold loadBits
  split_ifs <;> rfl

theorem loadSmallUint_apply (count : Nat) (slice : CellSlice) :
    loadSmallUint count slice = if count ≤ slice.bits.length then
      .ok (BitVec.ofNat 8 (decodeBE (slice.bits.take count))) ⟨slice.bits.drop count, slice.references⟩
    else .error .cellUnderflow slice :=
  loadNumber_apply count slice

theorem loadUint_apply (count : Nat) (slice : CellSlice) :
    loadUint count slice = if count ≤ slice.bits.length then
      .ok (BitVec.ofNat 64 (decodeBE (slice.bits.take count))) ⟨slice.bits.drop count, slice.references⟩
    else .error .cellUnderflow slice :=
  loadNumber_apply count slice

theorem loadBits_eq_ok {count : Nat} {slice rest : CellSlice} {bits : List Bool}
    (h : loadBits count slice = .ok bits rest) : bits.length = count ∧ Consumed slice rest bits [] := by
  unfold loadBits at h
  split at h
  · cases h
    exact ⟨by simp [*], (List.take_append_drop _ _).symm, rfl⟩
  · cases h

theorem loadBit_eq_ok {slice rest : CellSlice} {bit : Bool} (h : loadBit slice = .ok bit rest) :
    Consumed slice rest [bit] [] := by
  obtain ⟨bits, middle, hBits, h⟩ := bind_apply_eq_ok h
  cases h
  obtain ⟨hLen, hConsumed⟩ := loadBits_eq_ok hBits
  match bits, hLen with
  | [b], _ => exact hConsumed

/-- A value read from `width` bits, for a result type of `size ≥ width` bits, re-encodes to them. -/
theorem encodeBE_ofNat_decodeBE {width size : Nat} {bits : List Bool} (hLen : bits.length = width)
    (hWidth : width ≤ size) :
    (BitVec.ofNat size (decodeBE bits)).toNat < 2 ^ width ∧
      encodeBE width (BitVec.ofNat size (decodeBE bits)).toNat = bits := by
  have hLt : decodeBE bits < 2 ^ width := hLen ▸ decodeBE_lt bits
  have hSize : decodeBE bits < 2 ^ size := Nat.lt_of_lt_of_le hLt (Nat.pow_le_pow_right (by decide) hWidth)
  rw [BitVec.toNat_ofNat, Nat.mod_eq_of_lt hSize, ← hLen, encodeBE_decodeBE]
  exact ⟨hLen ▸ hLt, rfl⟩

/-- A success of a load that reads `width` bits as a number of a type of `size ≥ width` bits. -/
theorem loadNumber_eq_ok {size width : Nat} {slice rest : CellSlice} {value : BitVec size}
    (hWidth : width ≤ size)
    (h : (do pure (BitVec.ofNat size (decodeBE (← loadBits width)))) slice = .ok value rest) :
    value.toNat < 2 ^ width ∧ Consumed slice rest (encodeBE width value.toNat) [] := by
  obtain ⟨bits, middle, hBits, h⟩ := bind_apply_eq_ok h
  cases h
  obtain ⟨hLen, hConsumed⟩ := loadBits_eq_ok hBits
  obtain ⟨hLt, hEncode⟩ := encodeBE_ofNat_decodeBE hLen hWidth
  rw [hEncode]
  exact ⟨hLt, hConsumed⟩

theorem loadSmallUint_eq_ok {width : Nat} {slice rest : CellSlice} {value : BitVec 8}
    (hWidth : width ≤ 8) (h : loadSmallUint width slice = .ok value rest) :
    value.toNat < 2 ^ width ∧ Consumed slice rest (encodeBE width value.toNat) [] :=
  loadNumber_eq_ok hWidth h

theorem loadUint_eq_ok {width : Nat} {slice rest : CellSlice} {value : BitVec 64}
    (hWidth : width ≤ 64) (h : loadUint width slice = .ok value rest) :
    value.toNat < 2 ^ width ∧ Consumed slice rest (encodeBE width value.toNat) [] :=
  loadNumber_eq_ok hWidth h

theorem loadU8_eq_ok {slice rest : CellSlice} {value : BitVec 8} (h : loadU8 slice = .ok value rest) :
    Consumed slice rest (encodeBE 8 value.toNat) [] :=
  (loadNumber_eq_ok (Nat.le_refl 8) h).2

theorem loadU32_eq_ok {slice rest : CellSlice} {value : BitVec 32} (h : loadU32 slice = .ok value rest) :
    Consumed slice rest (encodeBE 32 value.toNat) [] :=
  (loadNumber_eq_ok (Nat.le_refl 32) h).2

theorem loadU256_eq_ok {slice rest : CellSlice} {value : HashBytes} (h : loadU256 slice = .ok value rest) :
    Consumed slice rest (bytesBits value.bytes) [] := by
  obtain ⟨bits, middle, hBits, h⟩ := bind_apply_eq_ok h
  cases h
  obtain ⟨hLen, hConsumed⟩ := loadBits_eq_ok hBits
  rw [bytesBits_packBits 32 bits hLen]
  exact hConsumed

theorem ensureRemaining_eq_ok {count : Nat} {slice rest : CellSlice} {u : Unit}
    (h : ensureRemaining count slice = .ok u rest) : rest = slice := by
  unfold ensureRemaining at h
  split at h
  · cases h
    rfl
  · cases h

/-- Reading `count` raw bits into a zeroed buffer gives a byte string holding exactly the bits read. -/
theorem loadRaw_eq_ok {count : Nat} {slice rest : CellSlice} {value : List (BitVec 8)}
    (h : loadRaw (List.replicate ((count + 7) / 8) 0) count slice = .ok value rest) :
    HoldsBits value count ∧ Consumed slice rest ((bytesBits value).take count) [] := by
  unfold loadRaw at h
  simp only [List.length_replicate, le_refl, if_true] at h
  obtain ⟨bits, middle, hBits, h⟩ := bind_apply_eq_ok h
  cases h
  obtain ⟨hLen, hConsumed⟩ := loadBits_eq_ok hBits
  have hPacked := @bytesBits_packBits_of_le ((count + 7) / 8) bits (by omega)
  simp only [List.drop_replicate, Nat.sub_self, List.replicate_zero, List.append_nil]
  refine ⟨⟨packBits_length _ _, ?_⟩, ?_⟩
  · rw [hPacked, packBits_length, List.drop_left' hLen, hLen]
  · rw [hPacked, List.take_left' hLen]
    exact hConsumed

theorem loadReference_eq_ok {slice rest : CellSlice} {cell : Cell}
    (h : loadReference slice = .ok cell rest) : Consumed slice rest [] [cell] := by
  obtain ⟨bits, references⟩ := slice
  match references, h with
  | _ :: _, h => cases h; exact ⟨rfl, rfl⟩

/-- A `Maybe` field read back: a zero bit for `None`, or a one bit and what the value's load
consumed. -/
theorem loadOption_eq_ok {α : Type} {load : SliceM α} {P : α → Prop} {encode : α → List Bool}
    (hLoad : ∀ {slice rest : CellSlice} {value : α}, load slice = .ok value rest →
      P value ∧ Consumed slice rest (encode value) [])
    {slice rest : CellSlice} {value : Option α} (h : loadOption load slice = .ok value rest) :
    (∀ present ∈ value, P present) ∧
      Consumed slice rest (value.elim [false] fun a => true :: encode a) [] := by
  obtain ⟨bit, middle, hBit, h⟩ := bind_apply_eq_ok h
  have hTag := loadBit_eq_ok hBit
  cases bit with
  | false =>
      cases h
      exact ⟨fun _ hMem => (by cases hMem), hTag⟩
  | true =>
      obtain ⟨present, after, hPresent, h⟩ := bind_apply_eq_ok h
      cases h
      obtain ⟨hP, hConsumed⟩ := hLoad hPresent
      exact ⟨fun _ hMem => (by cases hMem; exact hP), hTag.trans hConsumed⟩

end CellSlice

end EverscaleTypes

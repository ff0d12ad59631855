import EverscaleTypes.Models.Message.AddressText

/-! The language `FromStr` for `StdAddr` accepts, stated over the text: an optional sign and decimal
digits whose value fits `i8`, a colon, and the 64 hex digits of the account id in either letter
case. The parser is followed one piece at a time: the hex digits of `hex::decode_to_slice`, the digit
loop of `i8::from_str`, then the split at colons. This is the converse of the round trip from
`Display`, and it shows what the parser takes beyond what `Display` writes: a `+` sign, leading
zeros and upper-case hex. -/
namespace EverscaleTypes

/-! ### Characters by code point -/

theorem char_le_iff {a b : Char} : a ≤ b ↔ a.toNat ≤ b.toNat := Iff.rfl

theorem char_eq_of_toNat {a b : Char} (h : a.toNat = b.toNat) : a = b := by
  rw [← Char.ofNat_toNat a, h, Char.ofNat_toNat]

/-- `char::to_ascii_lowercase` moves `A..=Z` up by 32 and keeps every other character. -/
theorem toLower_toNat (c : Char) :
    c.toLower.toNat = if 65 ≤ c.toNat ∧ c.toNat ≤ 90 then c.toNat + 32 else c.toNat := by
  simp only [Char.toLower, ge_iff_le]
  split
  · rw [Char.ofNat, dif_pos (Or.inl (by omega))]
    rfl
  · rfl

/-! ### Hex account ids -/

theorem hexChar_toNat {nibble : BitVec 8} (h : nibble.toNat < 16) :
    (hexChar nibble).toNat = if nibble.toNat < 10 then nibble.toNat + 48 else nibble.toNat + 87 := by
  generalize hn : nibble.toNat = n at h
  obtain rfl : nibble = BitVec.ofNat 8 n := BitVec.eq_of_toNat_eq (by simp [hn]; omega)
  interval_cases n <;> rfl

theorem toLower_eq_hexChar_iff (c : Char) {nibble : BitVec 8} (h : nibble.toNat < 16) :
    c.toLower = hexChar nibble ↔ (if 65 ≤ c.toNat ∧ c.toNat ≤ 90 then c.toNat + 32 else c.toNat) =
      if nibble.toNat < 10 then nibble.toNat + 48 else nibble.toNat + 87 := by
  rw [← toLower_toNat, ← hexChar_toNat h]
  exact ⟨congrArg _, char_eq_of_toNat⟩

/-- `val` accepts a character exactly when it is, in lower case, the digit `Display` writes for the
nibble it returns. -/
theorem hexVal_eq_ok_iff (c : Char) (index : Nat) (nibble : BitVec 8) :
    hexVal c index = .ok nibble ↔ nibble.toNat < 16 ∧ c.toLower = hexChar nibble := by
  rw [and_congr_right (toLower_eq_hexChar_iff c)]
  unfold hexVal
  simp only [char_le_iff, show 'A'.toNat = 65 from rfl, show 'F'.toNat = 70 from rfl,
    show 'a'.toNat = 97 from rfl, show 'f'.toNat = 102 from rfl, show '0'.toNat = 48 from rfl,
    show '9'.toNat = 57 from rfl]
  split_ifs <;>
    simp only [Except.ok.injEq, BitVec.toNat_eq, BitVec.toNat_ofNat, reduceCtorEq, false_iff, not_and] <;>
    omega

theorem testBit_of_lt {x : BitVec 8} (h : x.toNat < 16) {j : Nat} (hj : 4 ≤ j) : x.getLsbD j = false :=
  Nat.testBit_lt_two_pow (lt_of_lt_of_le h (Nat.pow_le_pow_right (by decide : 2 > 0) hj))

/-- A byte joined from two nibbles is written as those two digits. -/
theorem hexPair_join {high low : BitVec 8} (hHigh : high.toNat < 16) (hLow : low.toNat < 16) :
    hexPair (high <<< 4 ||| low) = [hexChar high, hexChar low] := by
  have hHigh' := fun j => testBit_of_lt hHigh (j := j)
  have hLow' := fun j => testBit_of_lt hLow (j := j)
  have hShift : (high <<< 4 ||| low) >>> 4 = high := by
    apply BitVec.eq_of_getLsbD_eq
    intro ⟨i, hi⟩
    simp only [BitVec.getLsbD_or, BitVec.getLsbD_shiftLeft, BitVec.getLsbD_ushiftRight]
    interval_cases i <;> simp [hHigh', hLow']
  have hMask : (high <<< 4 ||| low) &&& 0x0f = low := by
    apply BitVec.eq_of_getLsbD_eq
    intro ⟨i, hi⟩
    simp only [BitVec.getLsbD_or, BitVec.getLsbD_shiftLeft, BitVec.getLsbD_and]
    interval_cases i <;> simp [hHigh', hLow']
  rw [hexPair, hShift, hMask]

/-- What the pair loop reads from a text of even length is the hex text of its bytes, up to letter
case. -/
theorem map_toLower_of_decodePairs {data : List Char} {i : Nat} {bytes : List (BitVec 8)}
    (hEven : data.length % 2 = 0) (h : decodePairs data i = .ok bytes) :
    data.map Char.toLower = bytes.flatMap hexPair := by
  induction data, i using decodePairs.induct generalizing bytes with
  | case1 hi lo rest i ih =>
    obtain ⟨high, hHigh, h⟩ := Except.bind_eq_ok h
    obtain ⟨low, hLow, h⟩ := Except.bind_eq_ok h
    obtain ⟨bytes', hRest, h⟩ := Except.bind_eq_ok h
    cases h
    obtain ⟨hHigh16, hHi⟩ := (hexVal_eq_ok_iff _ _ _).mp hHigh
    obtain ⟨hLow16, hLo⟩ := (hexVal_eq_ok_iff _ _ _).mp hLow
    rw [List.flatMap_cons, hexPair_join hHigh16 hLow16, List.map_cons, List.map_cons, hHi, hLo,
      ih (by simp only [List.length_cons] at hEven; omega) hRest]
    rfl
  | case2 data i hShort =>
    match data, hShort with
    | [], _ => cases h; rfl
    | [_], _ => simp at hEven
    | _ :: _ :: _, hShort => exact absurd rfl (hShort _ _ _)

/-- The pair loop reads every text that is, up to letter case, the hex text of some bytes, and
returns those bytes. -/
theorem decodePairs_of_map_toLower {data : List Char} {bytes : List (BitVec 8)}
    (h : data.map Char.toLower = bytes.flatMap hexPair) (i : Nat) : decodePairs data i = .ok bytes := by
  induction bytes generalizing data i with
  | nil =>
    rw [List.flatMap_nil, List.map_eq_nil_iff] at h
    rw [h]
    rfl
  | cons byte bytes ih =>
    rw [List.flatMap_cons, hexPair, List.cons_append, List.cons_append, List.nil_append] at h
    obtain ⟨hi, tail, rfl, hHi, h⟩ := List.map_eq_cons_iff.mp h
    obtain ⟨lo, rest, rfl, hLo, hRest⟩ := List.map_eq_cons_iff.mp h
    rw [decodePairs, (hexVal_eq_ok_iff _ _ _).mpr ⟨high_lt byte, hHi⟩,
      (hexVal_eq_ok_iff _ _ _).mpr ⟨low_lt byte, hLo⟩, ih hRest]
    show Except.ok ((byte >>> 4 <<< 4 ||| byte &&& 0x0f) :: bytes) = _
    rw [halves_eq]

/-- `decode_to_slice` accepts a text exactly when, in lower case, it is the text `Display` writes
for the hash it returns; the buffer's old bytes play no part. -/
theorem decodeToSlice_eq_ok_iff (data : List Char) (out hash : HashBytes) :
    decodeToSlice data out = .ok hash ↔ data.map Char.toLower = hash.display := by
  constructor
  · intro h
    unfold decodeToSlice at h
    split_ifs at h with hOdd
    split at h
    · rename_i hBytes
      cases h
      exact map_toLower_of_decodePairs (by omega) hBytes
    · cases h
  · intro h
    have hLen : data.length = 64 := by rw [← List.length_map data Char.toLower, h, hash.display_length]
    unfold decodeToSlice
    rw [if_neg (by rw [hLen]; decide), dif_pos (by rw [hLen, out.length_bytes])]
    split <;> rename_i hBytes <;> rw [decodePairs_of_map_toLower h] at hBytes <;> cases hBytes
    rfl

theorem colon_not_mem_of_map_toLower {text : List Char} {hash : HashBytes}
    (h : text.map Char.toLower = hash.display) : ':' ∉ text := fun hIn =>
  colon_not_mem_hashDisplay hash (h ▸ List.mem_map_of_mem Char.toLower hIn)

/-! ### Decimal workchains -/

/-- A decimal digit appended to the number `acc`. -/
def appendDigit (acc : Nat) (c : Char) : Nat := 10 * acc + (c.toNat - '0'.toNat)

/-- The number a string of decimal digits spells, most significant digit first. -/
def decimalValue (digits : List Char) : Nat := digits.foldl appendDigit 0

/-- A text `i8::from_str` reads as `value`: no sign, `+` or `-`, then one or more ASCII digits whose
number under the sign is `value`. Leading zeros are allowed; the number must fit `i8`. -/
def I8Text (text : List Char) (value : BitVec 8) : Prop :=
  ∃ sign digits, sign ∈ [[], ['+'], ['-']] ∧ text = sign ++ digits ∧ digits ≠ [] ∧
    (∀ c ∈ digits, c.isDigit) ∧ value.toInt = signedValue (sign != ['-']) (decimalValue digits)

theorem le_foldl_appendDigit (digits : List Char) (m : Nat) : m ≤ digits.foldl appendDigit m := by
  induction digits generalizing m with
  | nil => exact le_refl m
  | cons c digits ih => exact le_trans (by unfold appendDigit; omega) (ih _)

theorem signedValue_zero (positive : Bool) : signedValue positive 0 = 0 := by
  cases positive <;> rfl

/-- A magnitude under a sign fits `i8` when it is at most 127, or 128 under a minus. -/
theorem signedValue_range (positive : Bool) (n : Nat) :
    (-128 ≤ signedValue positive n ∧ signedValue positive n ≤ 127) ↔ n ≤ 128 - positive.toNat := by
  cases positive <;> simp [signedValue] <;> omega

/-- One turn of the digit loop from a magnitude: the digit is taken while the magnitude it makes
stays in range. -/
theorem accumulateDigit_signedValue (positive : Bool) (m : Nat) (c : Char) :
    accumulateDigit positive (signedValue positive m) c =
      if c.isDigit ∧ appendDigit m c ≤ 128 - positive.toNat then
        some (signedValue positive (appendDigit m c))
      else none := by
  by_cases hc : c.isDigit
  · cases positive <;>
      simp only [accumulateDigit, decimalDigit, hc, checkedI8, signedValue, appendDigit, if_true,
        Bool.false_eq_true, if_false, true_and, Bool.toNat_true, Bool.toNat_false,
        Option.bind_eq_bind] <;>
      split_ifs <;> simp only [Option.some_bind, Option.none_bind] <;> (try split_ifs) <;>
      first | rfl | omega | (rw [Option.some.injEq]; omega)
  · simp [accumulateDigit, decimalDigit, hc]

/-- The digit loop from a magnitude in range reads the rest exactly when it is all digits and the
number it extends the magnitude to stays in range: a magnitude never shrinks, so the first step out
of range ends the loop for good. -/
theorem foldlM_accumulateDigit (positive : Bool) (digits : List Char) {m : Nat}
    (hm : m ≤ 128 - positive.toNat) :
    digits.foldlM (accumulateDigit positive) (signedValue positive m) =
      if (∀ c ∈ digits, c.isDigit) ∧ digits.foldl appendDigit m ≤ 128 - positive.toNat then
        some (signedValue positive (digits.foldl appendDigit m))
      else none := by
  induction digits generalizing m with
  | nil => simp [hm]
  | cons c digits ih =>
    rw [List.foldlM_cons, accumulateDigit_signedValue]
    by_cases hStep : c.isDigit ∧ appendDigit m c ≤ 128 - positive.toNat
    · rw [if_pos hStep, Option.bind_eq_bind, Option.some_bind, ih hStep.2]
      simp only [List.mem_cons, forall_eq_or_imp, hStep.1, true_and, List.foldl_cons]
    · rw [if_neg hStep, Option.bind_eq_bind, Option.none_bind, if_neg]
      rintro ⟨hAll, hLe⟩
      exact hStep ⟨hAll c (List.mem_cons_self _ _), le_trans (le_foldl_appendDigit _ _) hLe⟩

theorem ofInt_eq_iff {x : Int} (h : -128 ≤ x ∧ x ≤ 127) (value : BitVec 8) :
    BitVec.ofInt 8 x = value ↔ value.toInt = x := by
  constructor
  · rintro rfl
    rw [BitVec.toInt_ofInt, Int.bmod]
    simp only [Nat.reducePow, Nat.cast_ofNat, Nat.reduceAdd, Nat.reduceDiv]
    split <;> omega
  · rintro rfl
    exact ofInt_toInt value

theorem parseDigits_eq_some_iff (positive : Bool) (digits : List Char) (value : BitVec 8) :
    parseDigits positive digits = some value ↔
      (∀ c ∈ digits, c.isDigit) ∧ value.toInt = signedValue positive (decimalValue digits) := by
  rw [parseDigits, ← signedValue_zero positive, foldlM_accumulateDigit _ _ (Nat.zero_le _)]
  split
  · next hIn =>
    rw [Option.map_some', Option.some.injEq, ofInt_eq_iff ((signedValue_range _ _).mpr hIn.2)]
    exact ⟨fun h => ⟨hIn.1, h⟩, fun h => h.2⟩
  · next hOut =>
    refine ⟨fun h => (nomatch h), fun ⟨hAll, hValue⟩ => absurd ⟨hAll, ?_⟩ hOut⟩
    rw [← signedValue_range]
    exact hValue ▸ toInt_range value

/-- `i8::from_str` reads exactly the texts of `I8Text`, to the value they spell. -/
theorem parseI8_eq_some_iff (text : List Char) (value : BitVec 8) :
    parseI8 text = some value ↔ I8Text text value := by
  constructor
  · intro h
    match text, h with
    | [], h => cases h
    | c :: rest, h =>
      rw [parseI8] at h
      split_ifs at h with hAlone hPlus hMinus <;>
        obtain ⟨hAll, hValue⟩ := (parseDigits_eq_some_iff _ _ _).mp h
      · exact ⟨['+'], rest, by simp, by rw [hPlus]; rfl, fun hNil => hAlone ⟨.inl hPlus, hNil⟩, hAll,
          hValue⟩
      · exact ⟨['-'], rest, by simp, by rw [hMinus]; rfl, fun hNil => hAlone ⟨.inr hMinus, hNil⟩, hAll,
          hValue⟩
      · exact ⟨[], c :: rest, by simp, rfl, List.cons_ne_nil _ _, hAll, hValue⟩
  · rintro ⟨sign, digits, hSign, rfl, hNe, hAll, hValue⟩
    obtain ⟨c, rest, rfl⟩ := List.exists_cons_of_ne_nil hNe
    have hDigit : c.isDigit := hAll c (List.mem_cons_self _ _)
    have hPlus : c ≠ '+' := by rintro rfl; exact absurd hDigit (by decide)
    have hMinus : c ≠ '-' := by rintro rfl; exact absurd hDigit (by decide)
    simp only [List.mem_cons, List.not_mem_nil, or_false] at hSign
    rcases hSign with rfl | rfl | rfl
    · rw [List.nil_append, parseI8, if_neg (by tauto), if_neg hPlus, if_neg hMinus]
      exact (parseDigits_eq_some_iff _ _ _).mpr ⟨hAll, hValue⟩
    · rw [List.singleton_append, parseI8, if_neg (by simp), if_pos rfl]
      exact (parseDigits_eq_some_iff _ _ _).mpr ⟨hAll, hValue⟩
    · rw [List.singleton_append, parseI8, if_neg (by simp), if_neg (by decide), if_pos rfl]
      exact (parseDigits_eq_some_iff _ _ _).mpr ⟨hAll, hValue⟩

example : parseI8 "+007".toList = some 7 ∧ parseI8 "-128".toList = some 0x80 ∧
    parseI8 "128".toList = none ∧ parseI8 "-".toList = none := by decide

theorem colon_not_mem_of_i8Text {text : List Char} {value : BitVec 8} (h : I8Text text value) :
    ':' ∉ text := by
  obtain ⟨sign, digits, hSign, rfl, -, hAll, -⟩ := h
  rw [List.mem_append]
  rintro (hIn | hIn)
  · simp only [List.mem_cons, List.not_mem_nil, or_false] at hSign
    rcases hSign with rfl | rfl | rfl <;> simp at hIn
  · exact absurd (hAll _ hIn) (by decide)

/-! ### Standard addresses -/

namespace StdAddr

/-- `from_str` accepts exactly a workchain that `i8::from_str` reads, a colon, and the 64 hex digits
of an account id in either letter case; the address it returns has those two fields and no
anycast. -/
theorem fromStr_eq_ok_iff (s : List Char) (addr : StdAddr) :
    fromStr s = .ok addr ↔ addr.anycast = none ∧ ∃ workchainText accountText,
      s = workchainText ++ ':' :: accountText ∧ I8Text workchainText addr.workchain ∧
        accountText.map Char.toLower = addr.address.display := by
  constructor
  · intro h
    obtain ⟨w, a, hSplit, hW, hA, hNone⟩ := fromStr_eq_ok h
    refine ⟨hNone, w, a, ?_, (parseI8_eq_some_iff _ _).mp hW, (decodeToSlice_eq_ok_iff _ _ _).mp hA⟩
    rw [← List.intercalate_splitOn s ':', hSplit]
    simp [List.intercalate]
  · rintro ⟨hNone, w, a, rfl, hW, hA⟩
    rw [fromStr, if_neg (List.append_ne_nil_of_right_ne_nil _ (List.cons_ne_nil _ _)),
      splitOn_colon (colon_not_mem_of_i8Text hW) (colon_not_mem_of_map_toLower hA)]
    simp only [(parseI8_eq_some_iff _ _).mpr hW, (decodeToSlice_eq_ok_iff _ _ _).mpr hA]
    obtain ⟨anycast, workchain, address⟩ := addr
    cases hNone
    rfl

end StdAddr

end EverscaleTypes

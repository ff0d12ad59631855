import EverscaleTypes.Models.Message.AddressText
import Mathlib.Data.List.GetD

/-! The text `Display` writes for an anycast rewrite prefix. The code fills a nine-character buffer
of `'0'` with the hex digits of the prefix's whole bytes, stamps a partial last byte with the
completion tag, cuts the buffer to the digits the depth needs and marks a tagged digit with `_`.
What it is for is TL-B's hex notation of the prefix's first `depth` bits, which the code reads as
zero bits past the end of the prefix. -/
namespace EverscaleTypes

/-! ### TL-B hex notation -/

/-- The first `count` hex digits of a bit string, one for each next four bits, most significant
first. -/
def hexDigits : Nat → List Bool → List Char
  | 0, _ => []
  | count + 1, bits => hexCharsLower.getD (decodeBE (bits.take 4)) '0' :: hexDigits count (bits.drop 4)

/-- A bit string in TL-B hex notation: a length that is not a multiple of four is completed to a
whole digit by a one bit and zero bits, and the completed digit is followed by `_`. -/
def hexWithTag (bits : List Bool) : List Char :=
  if bits.length % 4 = 0 then hexDigits (bits.length / 4) bits
  else hexDigits (bits.length / 4 + 1) (bits ++ [true, false, false, false]) ++ ['_']

@[simp] theorem hexDigits_length : ∀ (count : Nat) (bits : List Bool),
    (hexDigits count bits).length = count
  | 0, _ => rfl
  | count + 1, bits => by rw [hexDigits, List.length_cons, hexDigits_length]

theorem hexDigits_add (first second : Nat) (bits : List Bool) :
    hexDigits (first + second) bits =
      hexDigits first bits ++ hexDigits second (bits.drop (4 * first)) := by
  induction first generalizing bits with
  | zero => rw [Nat.zero_add, Nat.mul_zero, List.drop_zero]; rfl
  | succ first ih =>
    rw [Nat.succ_add, hexDigits, hexDigits, ih, List.drop_drop, List.cons_append, Nat.mul_succ,
      Nat.add_comm (4 * first)]

/-- A digit count reads only the bits its digits cover. -/
theorem hexDigits_take (count : Nat) (bits : List Bool) :
    hexDigits count (bits.take (4 * count)) = hexDigits count bits := by
  induction count generalizing bits with
  | zero => rfl
  | succ count ih =>
    rw [hexDigits, hexDigits, List.take_take, List.drop_take, Nat.mul_succ, Nat.add_sub_cancel,
      ih, Nat.min_eq_left (by omega)]

theorem hexDigits_append_of_le {count : Nat} {first : List Bool} (h : 4 * count ≤ first.length)
    (second : List Bool) : hexDigits count (first ++ second) = hexDigits count first := by
  rw [← hexDigits_take, List.take_append_of_le_length h, hexDigits_take]

/-- The digits of two bit strings side by side, the first a whole number of digits long. -/
theorem hexDigits_append {count : Nat} {first : List Bool} (h : first.length = 4 * count)
    (rest : Nat) (second : List Bool) :
    hexDigits (count + rest) (first ++ second) = hexDigits count first ++ hexDigits rest second := by
  rw [hexDigits_add, hexDigits_append_of_le h.ge, List.drop_left' h]

theorem take_hexDigits {k count : Nat} (h : k ≤ count) (bits : List Bool) :
    (hexDigits count bits).take k = hexDigits k bits := by
  obtain ⟨rest, rfl⟩ := Nat.exists_eq_add_of_le h
  rw [hexDigits_add, List.take_left' (hexDigits_length _ _)]

/-- For a length that is not a multiple of four, the text can be read off the bits followed by the
tag and any number of zero bits that fills the last digit. -/
theorem hexWithTag_eq_of_completion {bits : List Bool} (h : bits.length % 4 ≠ 0) (zeros : Nat)
    (hZeros : 3 - bits.length % 4 ≤ zeros) :
    hexWithTag bits =
      hexDigits (bits.length / 4 + 1) (bits ++ true :: List.replicate zeros false) ++ ['_'] := by
  have hTake : (bits ++ [true, false, false, false]).take (4 * (bits.length / 4 + 1)) =
      (bits ++ true :: List.replicate zeros false).take (4 * (bits.length / 4 + 1)) := by
    obtain ⟨n, hn⟩ : ∃ n, 4 * (bits.length / 4 + 1) - bits.length = n + 1 :=
      ⟨_, (Nat.succ_pred_eq_of_pos (by omega)).symm⟩
    rw [List.take_append_eq_append_take, List.take_append_eq_append_take, hn, List.take_succ_cons,
      List.take_succ_cons, show [false, false, false] = List.replicate 3 false from rfl,
      List.take_replicate, List.take_replicate]
    congr 3
    omega
  rw [hexWithTag, if_neg h, ← hexDigits_take, hTake, hexDigits_take]

/-- The two digits `Display` writes for a byte are the digits of its eight bits. -/
theorem hexPair_eq_hexDigits (byte : BitVec 8) : hexPair byte = hexDigits 2 (encodeBE 8 byte.toNat) := by
  have hHigh : (byte >>> 4).toNat = byte.toNat >>> 4 % 2 ^ 4 := by
    have := byte.isLt
    simp only [BitVec.toNat_ushiftRight, Nat.shiftRight_eq_div_pow]
    omega
  have hLow : (byte &&& 0x0f).toNat = byte.toNat % 2 ^ 4 :=
    Nat.and_pow_two_sub_one_eq_mod byte.toNat 4
  rw [hexPair, hexChar, hexChar, hHigh, hLow, hexDigits, hexDigits, hexDigits,
    take_encodeBE (show 4 + 4 = 8 from rfl), drop_encodeBE (show 4 + 4 = 8 from rfl),
    List.take_of_length_le (encodeBE_length 4 _).le, decodeBE_encodeBE, decodeBE_encodeBE]

theorem flatMap_hexPair (bytes : List (BitVec 8)) :
    bytes.flatMap hexPair = hexDigits (2 * bytes.length) (bytesBits bytes) := by
  induction bytes with
  | nil => rfl
  | cons byte bytes ih =>
    rw [List.flatMap_cons, List.length_cons, Nat.mul_succ, Nat.add_comm, bytesBits_cons,
      hexDigits_append (encodeBE_length 8 _), ← hexPair_eq_hexDigits, ih]

/-! ### The buffer `Display` fills -/

/-- The loop writes each byte's two digits over the two characters at its place. -/
theorem writeHexBytes_eq (bytes : List (BitVec 8)) (i : Nat) (pre mid post : List Char)
    (hPre : pre.length = 2 * i) (hMid : mid.length = 2 * bytes.length) :
    writeHexBytes bytes i (pre ++ mid ++ post) = pre ++ bytes.flatMap hexPair ++ post := by
  induction bytes generalizing i pre mid with
  | nil => rw [List.eq_nil_of_length_eq_zero hMid]; rfl
  | cons byte bytes ih =>
    obtain ⟨a, b, rest, rfl⟩ : ∃ a b rest, mid = a :: b :: rest := by
      rcases mid with _ | ⟨a, _ | ⟨b, rest⟩⟩
      · simp at hMid
      · simp at hMid; omega
      · exact ⟨a, b, rest, rfl⟩
    rw [writeHexBytes, List.append_assoc, List.set_append_right _ _ (by omega),
      List.set_append_right _ _ (by omega), show i * 2 - pre.length = 0 by omega,
      show i * 2 + 1 - pre.length = 1 by omega, List.cons_append, List.cons_append, List.set_cons_zero,
      List.set_cons_succ, List.set_cons_zero,
      show pre ++ hexChar (byte >>> 4) :: hexChar (byte &&& 0x0f) :: (rest ++ post) =
        (pre ++ hexPair byte) ++ rest ++ post by simp [hexPair],
      ih (i + 1) _ rest (by rw [List.length_append, hPre, hexPair_length]; ring)
        (by simp only [List.length_cons] at hMid; omega),
      List.flatMap_cons, List.append_assoc pre]

/-- Writing the first `count` bytes of a prefix, which may be shorter: the digits of the prefix
padded with zero bytes, then the placeholders. -/
theorem writeHexBytes_take (bytes : List (BitVec 8)) {count : Nat} (h : count ≤ 4) :
    writeHexBytes (bytes.take count) 0 (List.replicate 9 '0') =
      ((bytes ++ List.replicate 4 0).take count).flatMap hexPair ++
        List.replicate (9 - 2 * count) '0' := by
  have hZeroPairs : ∀ m, (List.replicate m (0 : BitVec 8)).flatMap hexPair = List.replicate (2 * m) '0' := by
    intro m
    induction m with
    | zero => rfl
    | succ m ih =>
      rw [List.replicate_succ, List.flatMap_cons, ih, Nat.mul_succ, Nat.add_comm, List.replicate_add]
      rfl
  have hLen : (bytes.take count).length + (count - bytes.length) = count := by simp; omega
  rw [List.take_append_eq_append_take, List.take_replicate, List.flatMap_append, hZeroPairs,
    List.append_assoc, ← List.replicate_add,
    show List.replicate 9 '0' = [] ++ List.replicate (2 * (bytes.take count).length) '0' ++
      List.replicate (9 - 2 * (bytes.take count).length) '0' by
        rw [List.nil_append, ← List.replicate_add]; congr 1; simp; omega,
    writeHexBytes_eq _ 0 [] _ _ rfl (List.length_replicate _ _), List.nil_append]
  congr 2
  omega

theorem writeHexBytes_singleton (byte : BitVec 8) (i : Nat) (result : List Char) :
    writeHexBytes [byte] i result =
      (result.set (i * 2) (hexChar (byte >>> 4))).set (i * 2 + 1) (hexChar (byte &&& 0x0f)) := rfl

/-! ### The completion tag -/

/-- Bit `i` of a byte stamped with the tag `1 << r`: the byte's own bit above `r`, a one at `r`
and zeros below. -/
theorem testBit_tagged (byte : BitVec 8) {r : Nat} (hr : r < 8) {i : Nat} (hi : i < 8) :
    let tagMask : BitVec 8 := 1 <<< r
    ((byte &&& ~~~(tagMask - 1)) ||| tagMask).toNat.testBit i =
      (decide (r < i) && byte.toNat.testBit i || decide (i = r)) := by
  have hPow : 2 ^ r < 2 ^ 8 := Nat.pow_lt_pow_right (by decide) hr
  have hTag : ((1 <<< r : Nat) : BitVec 8) = BitVec.ofNat 8 (2 ^ r) := by
    rw [Nat.shiftLeft_eq, Nat.one_mul]; rfl
  have hMask : (BitVec.ofNat 8 (2 ^ r) - 1) = BitVec.ofNat 8 (2 ^ r - 1) := by
    apply BitVec.eq_of_toNat_eq
    have : 0 < 2 ^ r := Nat.two_pow_pos r
    simp only [BitVec.toNat_sub, BitVec.toNat_ofNat, show (1 : BitVec 8).toNat = 1 from rfl]
    omega
  simp only [hTag, hMask, BitVec.testBit_toNat, BitVec.getLsbD_or, BitVec.getLsbD_and,
    BitVec.getLsbD_not, BitVec.getLsbD_ofNat, Nat.testBit_two_pow_sub_one, Nat.testBit_two_pow, hi]
  rcases Nat.lt_trichotomy i r with h | rfl | h
  · simp [h, Nat.ne_of_lt h, Nat.ne_of_gt h, Nat.lt_asymm h]
  · simp
  · simp [h, Nat.ne_of_lt h, Nat.ne_of_gt h, Nat.lt_asymm h]

/-- The last byte of a prefix `rem` bits past a byte boundary, stamped as `Display` stamps it: its
first `rem` bits, then a one and zeros. -/
theorem encodeBE_tagged (byte : BitVec 8) {rem : Nat} (h0 : 0 < rem) (h8 : rem < 8) :
    let tagMask : BitVec 8 := 1 <<< (7 - rem)
    encodeBE 8 ((byte &&& ~~~(tagMask - 1)) ||| tagMask).toNat =
      (encodeBE 8 byte.toNat).take rem ++ true :: List.replicate (7 - rem) false := by
  intro tagMask
  have hSplit : rem + (7 - rem + 1) = 8 := by omega
  rw [encodeBE_split hSplit, take_encodeBE hSplit, ← encodeBE_two_pow]
  congr 1 <;> apply encodeBE_congr <;> intro i hi
  · rw [Nat.testBit_shiftRight, Nat.testBit_shiftRight, testBit_tagged byte (by omega) (by omega)]
    simp [show 7 - rem < 7 - rem + 1 + i by omega, show 7 - rem + 1 + i ≠ 7 - rem by omega]
  · rw [testBit_tagged byte (by omega) (by omega), Nat.testBit_two_pow]
    simp [show ¬ 7 - rem < i by omega, eq_comm]

/-! ### The text of an anycast prefix -/

/-- The first `8 * k + r` bits of a byte string: its first `k` bytes and the top `r` bits of the
next. -/
theorem take_bytesBits {bytes : List (BitVec 8)} {k r : Nat} (hk : k < bytes.length) (hr : r ≤ 8) :
    (bytesBits bytes).take (8 * k + r) =
      bytesBits (bytes.take k) ++ (encodeBE 8 (bytes.getD k 0).toNat).take r := by
  conv_lhs => rw [← List.take_append_drop k bytes, List.drop_eq_getElem_cons hk]
  rw [bytesBits_append, bytesBits_cons, List.take_append_eq_append_take,
    List.take_of_length_le (by simp; omega), bytesBits_length, List.length_take,
    Nat.min_eq_left hk.le, Nat.add_sub_cancel_left,
    List.take_append_of_le_length (by rw [encodeBE_length]; exact hr), List.getD_eq_getElem?_getD,
    List.getElem?_eq_getElem hk, Option.getD_some]

/-- Zero bytes past the end of the prefix read as the default, as `unwrap_or_default` reads a
missing byte. -/
theorem getD_append_zeros (bytes : List (BitVec 8)) (n k : Nat) :
    (bytes ++ List.replicate n 0).getD k 0 = bytes.getD k 0 := by
  rcases Nat.lt_or_ge k bytes.length with h | h
  · exact List.getD_append _ _ _ _ h
  · rw [List.getD_eq_default _ _ h, List.getD_append_right _ _ _ _ h, List.getD_eq_getElem?_getD,
      List.getElem?_getD_replicate_default_eq]

/-- Padding the prefix with zero bytes changes none of its first 30 bits. -/
theorem take_bytesBits_pad (bytes : List (BitVec 8)) {d : Nat} (hd : d ≤ 30) :
    (bytesBits bytes ++ List.replicate 30 false).take d =
      (bytesBits (bytes ++ List.replicate 4 0)).take d := by
  rw [bytesBits_append, bytesBits_replicate_zero, List.take_append_eq_append_take,
    List.take_append_eq_append_take, List.take_replicate, List.take_replicate]
  congr 2
  omega

/-- Writing over position `j` and cutting after it. -/
theorem take_set_succ {α : Type} {l : List α} {j : Nat} (h : j < l.length) (a : α) :
    (l.set j a).take (j + 1) = l.take j ++ [a] := by
  rw [List.set_eq_take_append_cons_drop, if_pos h, List.take_append_eq_append_take,
    List.take_of_length_le (by rw [List.length_take]; omega), List.length_take, Nat.min_eq_left h.le,
    Nat.add_sub_cancel_left, List.take_succ_cons, List.take_zero]

/-- `Display` for `Anycast` writes the first `min depth 30` bits of the rewrite prefix, zero past
its end, in TL-B hex notation: a digit for every four bits, and for a depth that is not a multiple
of four the digit completed by the tag, then `_`. -/
theorem Anycast.display_eq_hexWithTag (anycast : Anycast) :
    anycast.display = hexWithTag ((bytesBits anycast.rewritePrefix ++ List.replicate 30 false).take
      (min anycast.depth.intoBitLen 30)) := by
  have hd : min anycast.depth.intoBitLen 30 ≤ 30 := Nat.min_le_right _ _
  rw [Anycast.display]
  generalize min anycast.depth.intoBitLen 30 = d at hd ⊢
  generalize anycast.rewritePrefix = bytes
  dsimp only
  have hByteLen : min ((d - d % 8) / 8) 4 = d / 8 := by omega
  rw [hByteLen, writeHexBytes_take bytes (by omega), ← getD_append_zeros bytes 4,
    take_bytesBits_pad bytes hd, ← writeHexBytes_singleton]
  have hPadLen : d / 8 < (bytes ++ List.replicate 4 0).length := by
    rw [List.length_append, List.length_replicate]; omega
  generalize bytes ++ List.replicate 4 0 = padded at hPadLen ⊢
  have hBits : (bytesBits padded).take d =
      bytesBits (padded.take (d / 8)) ++ (encodeBE 8 (padded.getD (d / 8) 0).toNat).take (d % 8) := by
    rw [← take_bytesBits hPadLen (by omega), Nat.div_add_mod]
  have hBitsLen : ((bytesBits padded).take d).length = d := by
    rw [List.length_take, bytesBits_length]; omega
  have hPre : ((padded.take (d / 8)).flatMap hexPair).length = 2 * (d / 8) := by
    rw [flatMap_length_of_width hexPair_length, List.length_take, Nat.min_eq_left hPadLen.le]
  generalize padded.getD (d / 8) 0 = last at hBits ⊢
  by_cases hRem : d % 8 = 0
  · have hWhole : (bytesBits padded).take d = bytesBits (padded.take (d / 8)) := by
      rw [hBits, hRem, List.take_zero, List.append_nil]
    rw [if_pos (by omega), if_neg (not_not_intro hRem), List.take_left' (by omega), hexWithTag,
      hBitsLen, if_pos (by omega), hWhole, flatMap_hexPair, List.length_take,
      Nat.min_eq_left hPadLen.le]
    congr 1
    omega
  · have hTagged := encodeBE_tagged last (Nat.pos_of_ne_zero hRem) (Nat.mod_lt d (by decide))
    dsimp only at hTagged
    have hZeros : List.replicate (9 - 2 * (d / 8)) '0' =
        List.replicate 2 '0' ++ List.replicate (7 - 2 * (d / 8)) '0' := by
      rw [← List.replicate_add]
      congr 1
      omega
    rw [if_pos hRem, hZeros, ← List.append_assoc, writeHexBytes_eq _ _ _ _ _ hPre (by rfl),
      ← List.flatMap_append, flatMap_hexPair, bytesBits_append, bytesBits_cons, bytesBits_nil,
      List.append_nil, hTagged, ← List.append_assoc, ← hBits, List.length_append, List.length_take,
      Nat.min_eq_left hPadLen.le, List.length_singleton]
    generalize (bytesBits padded).take d = bits at hBitsLen ⊢
    split_ifs with h4
    · rw [List.take_append_of_le_length (by rw [hexDigits_length]; omega), take_hexDigits (by omega),
        hexDigits_append_of_le (by omega), hexWithTag, hBitsLen, if_pos h4]
    · rw [take_set_succ (by simp; omega), List.take_append_of_le_length (by simp; omega),
        take_hexDigits (by omega), hexWithTag_eq_of_completion (by omega) (7 - d % 8) (by omega),
        hBitsLen]

/-- A depth of five over the prefix `1011 0...`: the digit `b`, the digit `4` completing `0` by the
tag, and `_`. -/
example : (Anycast.mk ⟨5#8, by decide⟩ [0xb0]).display = "b4_".toList := by decide

end EverscaleTypes

import EverscaleTypes.Models.Message.Address
import Mathlib.Data.List.Basic
import Mathlib.Data.Nat.Digits
import Mathlib.Tactic.IntervalCases

/-! The text forms of internal addresses: `Display` for `Anycast`, `StdAddr` and `IntAddr`, and
`FromStr` for `StdAddr` and `IntAddr`. A string is its list of characters. The parser reads only
`workchain:account_id`, with no anycast part; the printer writes the anycast in front when there is
one. The decimal and hex helpers follow the Rust core library and the `hex` crate. -/
namespace EverscaleTypes

/-! ### The decimal text of an `i8` -/

/-- `char::to_digit(10)`: the value of an ASCII decimal digit. -/
def decimalDigit (c : Char) : Option Nat :=
  if c.isDigit then some (c.toNat - '0'.toNat) else none

/-- The checked arithmetic of `i8`: a result outside `-128..=127` is `None`. -/
def checkedI8 (x : Int) : Option Int :=
  if -128 ≤ x ∧ x ≤ 127 then some x else none

/-- One turn of the digit loop of `i8::from_str_radix(_, 10)`: multiply by ten, then add the digit,
or subtract it for a negative number, each step checked. -/
def accumulateDigit (positive : Bool) (acc : Int) (c : Char) : Option Int := do
  let digit ← decimalDigit c
  let mul ← checkedI8 (acc * 10)
  checkedI8 (if positive then mul + digit else mul - digit)

/-- The digit loop of `i8::from_str_radix(_, 10)`, from zero. -/
def parseDigits (positive : Bool) (digits : List Char) : Option (BitVec 8) :=
  (digits.foldlM (accumulateDigit positive) 0).map (BitVec.ofInt 8)

/-- `i8::from_str`: an optional sign and then decimal digits whose value is in range. A sign alone
is an error. The only caller drops the error's kind, so an error is `none` here. -/
def parseI8 : List Char → Option (BitVec 8)
  | [] => none
  | c :: rest =>
    if (c = '+' ∨ c = '-') ∧ rest = [] then none
    else if c = '+' then parseDigits true rest
    else if c = '-' then parseDigits false rest
    else parseDigits true (c :: rest)

/-- `Display` for `i8`: a `-` before a negative value, then the decimal digits of its magnitude
with no leading zero. -/
def displayI8 (value : BitVec 8) : List Char :=
  if value.toInt < 0 then '-' :: Nat.toDigits 10 value.toInt.natAbs
  else Nat.toDigits 10 value.toInt.natAbs

theorem toDigitsCore_append (fuel n : Nat) (ds es : List Char) :
    Nat.toDigitsCore 10 fuel n (ds ++ es) = Nat.toDigitsCore 10 fuel n ds ++ es := by
  induction fuel generalizing n ds with
  | zero => rfl
  | succ fuel ih =>
    simp only [Nat.toDigitsCore]
    split
    · rfl
    · exact ih _ (_ :: ds)

/-- Any fuel above the number gives the same digits. -/
theorem toDigitsCore_fuel {fuel fuel' n : Nat} (h : n < fuel) (h' : n < fuel') (ds : List Char) :
    Nat.toDigitsCore 10 fuel n ds = Nat.toDigitsCore 10 fuel' n ds := by
  induction fuel generalizing fuel' n ds with
  | zero => omega
  | succ fuel ih =>
    obtain _ | fuel' := fuel'
    · omega
    simp only [Nat.toDigitsCore]
    split
    · rfl
    · exact ih (by omega) (by omega) _

/-- The decimal digits of `n` are those of `n / 10` followed by the last digit. -/
theorem toDigits_eq (n : Nat) : Nat.toDigits 10 n =
    if n < 10 then [Nat.digitChar n] else Nat.toDigits 10 (n / 10) ++ [Nat.digitChar (n % 10)] := by
  rw [Nat.toDigits, Nat.toDigitsCore]
  split <;> split
  · rw [Nat.mod_eq_of_lt ‹_›]
  · omega
  · omega
  · rw [← List.nil_append [Nat.digitChar (n % 10)], toDigitsCore_append,
      toDigitsCore_fuel (by omega) (by omega : n / 10 < n / 10 + 1)]
    rfl

theorem decimalDigit_digitChar {d : Nat} (hd : d < 10) : decimalDigit (Nat.digitChar d) = some d := by
  interval_cases d <;> rfl

theorem isDigit_digitChar {d : Nat} (hd : d < 10) : (Nat.digitChar d).isDigit := by
  interval_cases d <;> rfl

theorem toDigits_isDigit (n : Nat) : ∀ c ∈ Nat.toDigits 10 n, c.isDigit := by
  induction n using Nat.strong_induction_on with
  | _ n ih =>
    rw [toDigits_eq]
    split
    · simpa using isDigit_digitChar ‹n < 10›
    · simp only [List.mem_append, List.mem_singleton]
      rintro c (hc | rfl)
      · exact ih _ (by omega) c hc
      · exact isDigit_digitChar (Nat.mod_lt n (by omega))

theorem toDigits_ne_nil (n : Nat) : Nat.toDigits 10 n ≠ [] := by
  rw [toDigits_eq]; split <;> simp

theorem checkedI8_eq {x : Int} (h : -128 ≤ x ∧ x ≤ 127) : checkedI8 x = some x := if_pos h

/-- The value a magnitude stands for under a sign. -/
def signedValue (positive : Bool) (n : Nat) : Int := if positive then n else -n

/-- A digit appended to the text of `m` reads as `10 * m + d`, while the magnitude fits `i8`: 127
for a positive number, 128 for a negative one. -/
theorem accumulateDigit_digitChar (positive : Bool) {m d : Nat} (hd : d < 10)
    (hRange : 10 * m + d ≤ 128 - positive.toNat) :
    accumulateDigit positive (signedValue positive m) (Nat.digitChar d) =
      some (signedValue positive (10 * m + d)) := by
  simp only [accumulateDigit, decimalDigit_digitChar hd, Option.bind_eq_bind, Option.some_bind]
  cases positive <;> simp only [signedValue, Bool.toNat_true, Bool.toNat_false, if_true,
    Bool.false_eq_true, if_false] at hRange ⊢ <;>
    rw [checkedI8_eq (by omega), Option.some_bind, checkedI8_eq (by omega)] <;> congr 1 <;> omega

/-- The digit loop reads the decimal text of a magnitude that fits back as its signed value. -/
theorem foldlM_toDigits (positive : Bool) (n : Nat) (hRange : n ≤ 128 - positive.toNat) :
    (Nat.toDigits 10 n).foldlM (accumulateDigit positive) 0 = some (signedValue positive n) := by
  induction n using Nat.strong_induction_on with
  | _ n ih =>
    rw [toDigits_eq]
    split
    · simpa [signedValue] using accumulateDigit_digitChar positive (m := 0) ‹n < 10› (by omega)
    · rw [List.foldlM_append, ih (n / 10) (by omega) (by omega), Option.bind_eq_bind,
        Option.some_bind, List.foldlM_cons,
        accumulateDigit_digitChar positive (Nat.mod_lt n (by omega)) (by omega), Nat.div_add_mod]
      rfl

theorem toInt_range (value : BitVec 8) : -128 ≤ value.toInt ∧ value.toInt ≤ 127 := by
  have := value.isLt
  rw [BitVec.toInt_eq_toNat_cond]
  split <;> omega

theorem ofInt_toInt (value : BitVec 8) : BitVec.ofInt 8 value.toInt = value := by
  apply BitVec.eq_of_toNat_eq
  have := value.isLt
  rw [BitVec.toNat_ofInt, BitVec.toInt_eq_toNat_cond]
  split <;> omega

theorem parseDigits_toDigits (value : BitVec 8) :
    parseDigits (decide (0 ≤ value.toInt)) (Nat.toDigits 10 value.toInt.natAbs) = some value := by
  have ⟨hLow, hHigh⟩ := toInt_range value
  rw [parseDigits, foldlM_toDigits _ _ (by by_cases h : 0 ≤ value.toInt <;> simp [h] <;> omega)]
  simp only [Option.map_some', Option.some.injEq, signedValue, decide_eq_true_eq]
  conv_rhs => rw [← ofInt_toInt value]
  congr 1
  split <;> omega

/-- `i8::from_str` reads back what `Display` writes, for all 256 values. -/
theorem parseI8_displayI8 (value : BitVec 8) : parseI8 (displayI8 value) = some value := by
  have hDigits := parseDigits_toDigits value
  unfold displayI8
  split
  · rw [parseI8, if_neg (by simp [toDigits_ne_nil]), if_neg (by decide), if_pos rfl]
    simpa [show ¬ 0 ≤ value.toInt by omega] using hDigits
  · obtain ⟨c, rest, hSplit⟩ := List.exists_cons_of_ne_nil (toDigits_ne_nil value.toInt.natAbs)
    have hc : c.isDigit := toDigits_isDigit _ c (hSplit ▸ List.mem_cons_self c rest)
    have hPlus : c ≠ '+' := by rintro rfl; exact absurd hc (by decide)
    have hMinus : c ≠ '-' := by rintro rfl; exact absurd hc (by decide)
    rw [hSplit, parseI8, if_neg (by tauto), if_neg hPlus, if_neg hMinus, ← hSplit]
    simpa [show 0 ≤ value.toInt by omega] using hDigits

/-- The text is Lean's decimal text of the value as an integer. -/
theorem displayI8_eq_toString (value : BitVec 8) : displayI8 value = (toString value.toInt).toList := by
  unfold displayI8
  cases value.toInt with
  | ofNat m => rfl
  | negSucc m => rw [if_pos (Int.negSucc_lt_zero m)]; rfl

theorem colon_not_mem_displayI8 (value : BitVec 8) : ':' ∉ displayI8 value := by
  have hDigits := toDigits_isDigit value.toInt.natAbs
  unfold displayI8
  split
  · rintro (_ | ⟨_, h⟩)
    exact absurd (hDigits _ h) (by decide)
  · exact fun h => absurd (hDigits _ h) (by decide)

/-! ### The hex text of a hash -/

/-- `HEX_CHARS_LOWER`. -/
def hexCharsLower : List Char := "0123456789abcdef".toList

/-- `HEX_CHARS_LOWER[nibble as usize]`. -/
def hexChar (nibble : BitVec 8) : Char := hexCharsLower.getD nibble.toNat '0'

/-- The two hex digits of a byte, high half first. -/
def hexPair (byte : BitVec 8) : List Char := [hexChar (byte >>> 4), hexChar (byte &&& 0x0f)]

theorem hexPair_length (byte : BitVec 8) : (hexPair byte).length = 2 := rfl

/-- Modelled from the spec: `Display` for `HashBytes`, the 32 bytes as 64 lowercase hex digits. -/
def HashBytes.display (hash : HashBytes) : List Char := hash.bytes.flatMap hexPair

/-- `hex::FromHexError`. -/
inductive FromHexError where
  | invalidHexCharacter (c : Char) (index : Nat)
  | oddLength
  | invalidStringLength

/-- `val` of the `hex` crate: the value of one hex digit of either case, or the character and its
index as the error. -/
def hexVal (c : Char) (index : Nat) : Except FromHexError (BitVec 8) :=
  if 'A' ≤ c ∧ c ≤ 'F' then .ok (BitVec.ofNat 8 (c.toNat - 'A'.toNat + 10))
  else if 'a' ≤ c ∧ c ≤ 'f' then .ok (BitVec.ofNat 8 (c.toNat - 'a'.toNat + 10))
  else if '0' ≤ c ∧ c ≤ '9' then .ok (BitVec.ofNat 8 (c.toNat - '0'.toNat))
  else .error (.invalidHexCharacter c index)

/-- The loop of `hex::decode_to_slice`: byte `i` from the digits at `2 * i` and `2 * i + 1`, the
first bad digit ending the loop. -/
def decodePairs : List Char → Nat → Except FromHexError (List (BitVec 8))
  | hi :: lo :: rest, i => do
    let high ← hexVal hi (2 * i)
    let low ← hexVal lo (2 * i + 1)
    let bytes ← decodePairs rest (i + 1)
    pure ((high <<< 4 ||| low) :: bytes)
  | _, _ => pure []

theorem decodePairs_length {data : List Char} {i : Nat} {bytes : List (BitVec 8)}
    (h : decodePairs data i = .ok bytes) : bytes.length = data.length / 2 := by
  induction data, i using decodePairs.induct generalizing bytes with
  | case1 hi lo rest i ih =>
    obtain ⟨_, -, h⟩ := Except.bind_eq_ok h
    obtain ⟨_, -, h⟩ := Except.bind_eq_ok h
    obtain ⟨bytes', hRest, h⟩ := Except.bind_eq_ok h
    cases h
    simp only [List.length_cons, ih hRest]
    omega
  | case2 data i hShort =>
    match data, hShort with
    | [], _ => cases h; rfl
    | [_], _ => cases h; simp
    | _ :: _ :: _, hShort => exact absurd rfl (hShort _ _ _)

/-- `hex::decode_to_slice(data, out)`: an odd length, or a length other than twice `out`'s, is an
error; otherwise every byte of `out` is overwritten. -/
def decodeToSlice (data : List Char) (out : HashBytes) : Except FromHexError HashBytes :=
  if data.length % 2 ≠ 0 then .error .oddLength
  else if hLen : data.length / 2 = out.bytes.length then
    match hBytes : decodePairs data 0 with
    | .ok bytes => .ok ⟨bytes, (decodePairs_length hBytes).trans (hLen.trans out.length_bytes)⟩
    | .error e => .error e
  else .error .invalidStringLength

theorem hexVal_hexChar {nibble : BitVec 8} (h : nibble.toNat < 16) (index : Nat) :
    hexVal (hexChar nibble) index = .ok nibble := by
  generalize hn : nibble.toNat = n at h
  obtain rfl : nibble = BitVec.ofNat 8 n := BitVec.eq_of_toNat_eq (by simp [hn]; omega)
  interval_cases n <;> rfl

/-- Indexing `HEX_CHARS_LOWER` gives a lowercase hex digit; past its end the model's default `'0'`
is one too. -/
theorem hexChar_mem (nibble : BitVec 8) : hexChar nibble ∈ hexCharsLower := by
  rw [hexChar, List.getD_eq_getElem?_getD]
  cases h : hexCharsLower[nibble.toNat]? with
  | none => decide
  | some c => exact List.getElem?_mem h

theorem high_lt (byte : BitVec 8) : (byte >>> 4).toNat < 16 := by
  have := byte.isLt
  simp only [BitVec.toNat_ushiftRight, Nat.shiftRight_eq_div_pow]
  omega

theorem low_lt (byte : BitVec 8) : (byte &&& 0x0f).toNat < 16 := by
  simp only [BitVec.toNat_and]
  exact Nat.lt_of_le_of_lt Nat.and_le_right (by decide)

/-- A byte is its high half shifted back up, joined with its low half. -/
theorem halves_eq (byte : BitVec 8) : (byte >>> 4) <<< 4 ||| (byte &&& 0x0f) = byte := by
  apply BitVec.eq_of_getLsbD_eq
  intro ⟨i, hi⟩
  simp only [BitVec.getLsbD_or, BitVec.getLsbD_shiftLeft, BitVec.getLsbD_ushiftRight,
    BitVec.getLsbD_and]
  interval_cases i <;> simp

theorem decodePairs_flatMap_hexPair (bytes : List (BitVec 8)) (i : Nat) :
    decodePairs (bytes.flatMap hexPair) i = .ok bytes := by
  induction bytes generalizing i with
  | nil => rfl
  | cons byte bytes ih =>
    rw [List.flatMap_cons, hexPair, List.cons_append, List.cons_append, List.nil_append, decodePairs,
      hexVal_hexChar (high_lt byte), hexVal_hexChar (low_lt byte), ih]
    show Except.ok ((byte >>> 4 <<< 4 ||| byte &&& 0x0f) :: bytes) = _
    rw [halves_eq]

theorem HashBytes.display_length (hash : HashBytes) : hash.display.length = 64 := by
  rw [HashBytes.display, flatMap_length_of_width hexPair_length, hash.length_bytes]

theorem HashBytes.mem_display {hash : HashBytes} {c : Char} (h : c ∈ hash.display) :
    c ∈ hexCharsLower := by
  obtain ⟨byte, -, hc⟩ := List.mem_flatMap.mp h
  rcases List.mem_pair.mp hc with rfl | rfl
  · exact hexChar_mem _
  · exact hexChar_mem _

/-- `decode_to_slice` reads back the 64 digits `Display` writes, whatever the buffer held. -/
theorem decodeToSlice_display (hash out : HashBytes) : decodeToSlice hash.display out = .ok hash := by
  unfold decodeToSlice
  rw [if_neg (by rw [hash.display_length]; decide),
    dif_pos (by rw [hash.display_length, out.length_bytes])]
  split <;> rename_i hBytes <;> rw [HashBytes.display, decodePairs_flatMap_hexPair] at hBytes <;>
    cases hBytes
  rfl

/-! ### Addresses -/

/-- The `enumerate` loop of `Anycast`'s `Display`: byte `i` of the prefix as two hex digits at
`2 * i` and `2 * i + 1` of the buffer. -/
def writeHexBytes : List (BitVec 8) → Nat → List Char → List Char
  | [], _, result => result
  | byte :: bytes, i, result =>
    writeHexBytes bytes (i + 1)
      ((result.set (i * 2) (hexChar (byte >>> 4))).set (i * 2 + 1) (hexChar (byte &&& 0x0f)))

/-- `Display` for `Anycast`: the depth is capped at 30; the whole bytes of the prefix are written
as hex digits into a nine-character buffer of `'0'`, a partial last byte with its completion tag set,
and a depth that is not a multiple of four ends in `_` after the tagged digit. -/
def Anycast.display (anycast : Anycast) : List Char :=
  let depth := min anycast.depth.intoBitLen 30
  let rem := depth % 8
  let byteLen := min ((depth - rem) / 8) 4
  let result := writeHexBytes (anycast.rewritePrefix.take byteLen) 0 (List.replicate 9 '0')
  let result :=
    if rem ≠ 0 then
      let tagMask : BitVec 8 := 1 <<< (7 - rem)
      let dataMask := ~~~(tagMask - 1)
      let byte := (anycast.rewritePrefix.getD (depth / 8) 0 &&& dataMask) ||| tagMask
      (result.set (byteLen * 2) (hexChar (byte >>> 4))).set (byteLen * 2 + 1)
        (hexChar (byte &&& 0x0f))
    else result
  if depth % 4 = 0 then result.take (depth / 4)
  else (result.set (depth / 4 + 1) '_').take (depth / 4 + 2)

/-- `ParseAddrError`, with the variants `from_str` returns. -/
inductive ParseAddrError where
  | empty
  | invalidWorkchain
  | invalidAccountId
  | unexpectedPart
  deriving DecidableEq

namespace StdAddr

/-- `StdAddr::default()`: no anycast, workchain 0 and the zero account id. -/
def default : StdAddr := ⟨none, 0, HashBytes.zero⟩

/-- `Display` for `StdAddr`: the anycast and a colon when there is one, then the workchain in
decimal, a colon, and the account id in hex. -/
def display (addr : StdAddr) : List Char :=
  (match addr.anycast with
    | some anycast => anycast.display ++ [':']
    | none => []) ++ displayI8 addr.workchain ++ ':' :: addr.address.display

/-- `FromStr` for `StdAddr`: the text split at colons must be a workchain and an account id of 64
hex digits, and nothing more. The result has no anycast. -/
def fromStr (s : List Char) : Except ParseAddrError StdAddr :=
  if s = [] then .error .empty
  else
    let result := default
    match s.splitOn ':' with
    | [] => .error .empty
    | part :: parts =>
      match parseI8 part with
      | none => .error .invalidWorkchain
      | some workchain =>
        match parts with
        | [] => .error .invalidAccountId
        | part :: parts =>
          match decodeToSlice part result.address with
          | .error _ => .error .invalidAccountId
          | .ok address =>
            match parts with
            | [] => .ok { result with workchain, address }
            | _ :: _ => .error .unexpectedPart

end StdAddr

namespace IntAddr

/-- `Display` for `IntAddr`: a standard address as `StdAddr` writes it; a variable-length one as
the placeholder `varaddr`. -/
def display : IntAddr → List Char
  | .std addr => addr.display
  | .var _ => "varaddr".toList

/-- `FromStr` for `IntAddr`: always a standard address. -/
def fromStr (s : List Char) : Except ParseAddrError IntAddr := IntAddr.std <$> StdAddr.fromStr s

end IntAddr

/-- `str::split(':')` of a text without a colon is the text alone. -/
theorem splitOn_colon_single {part : List Char} (h : ':' ∉ part) : part.splitOn ':' = [part] :=
  List.splitOnP_eq_single (· == ':') part (fun _ hc hEq => h (eq_of_beq hEq ▸ hc))

/-- `str::split(':')` of `first:rest`, with no colon in `first`, gives `first` and then the parts of
`rest`. -/
theorem splitOn_colon_cons {first : List Char} (h : ':' ∉ first) (rest : List Char) :
    (first ++ ':' :: rest).splitOn ':' = first :: rest.splitOn ':' :=
  List.splitOnP_first (· == ':') first (fun _ hc hEq => h (eq_of_beq hEq ▸ hc)) ':'
    (beq_self_eq_true _) rest

theorem splitOn_colon {first second : List Char} (hFirst : ':' ∉ first) (hSecond : ':' ∉ second) :
    (first ++ ':' :: second).splitOn ':' = [first, second] := by
  rw [splitOn_colon_cons hFirst, splitOn_colon_single hSecond]

theorem set_subset {α : Type} {l s : List α} {b : α} (hl : l ⊆ s) (hb : b ∈ s) (n : Nat) :
    l.set n b ⊆ s :=
  fun _ hc => (List.mem_or_eq_of_mem_set hc).elim (fun h => hl h) (fun h => h ▸ hb)

theorem writeHexBytes_subset :
    ∀ (bytes : List (BitVec 8)) (i : Nat) (result : List Char), result ⊆ '_' :: hexCharsLower →
      writeHexBytes bytes i result ⊆ '_' :: hexCharsLower
  | [], _, _, h => h
  | _ :: bytes, i, _, h => writeHexBytes_subset bytes (i + 1) _
      (set_subset (set_subset h (List.mem_cons_of_mem _ (hexChar_mem _)) _)
        (List.mem_cons_of_mem _ (hexChar_mem _)) _)

/-- The anycast printer writes only lowercase hex digits and `_`. -/
theorem Anycast.display_subset (anycast : Anycast) : anycast.display ⊆ '_' :: hexCharsLower := by
  have hHex : ∀ nibble, hexChar nibble ∈ '_' :: hexCharsLower :=
    fun _ => List.mem_cons_of_mem _ (hexChar_mem _)
  have hBuffer := writeHexBytes_subset (anycast.rewritePrefix.take
    (min ((min anycast.depth.intoBitLen 30 - min anycast.depth.intoBitLen 30 % 8) / 8) 4)) 0
    (List.replicate 9 '0') (fun c hc => by rw [List.eq_of_mem_replicate hc]; decide)
  unfold Anycast.display
  dsimp only
  split
  all_goals
    refine (List.take_subset _ _).trans ?_
    try refine set_subset ?_ (List.mem_cons_self _ _) _
    split
    · exact set_subset (set_subset hBuffer (hHex _) _) (hHex _) _
    · exact hBuffer

theorem colon_not_mem_anycastDisplay (anycast : Anycast) : ':' ∉ anycast.display :=
  fun h => absurd (anycast.display_subset h) (by decide)

theorem colon_not_mem_hashDisplay (hash : HashBytes) : ':' ∉ hash.display :=
  fun h => absurd (HashBytes.mem_display h) (by decide)

namespace StdAddr

theorem display_of_anycast_none {addr : StdAddr} (hNone : addr.anycast = none) :
    addr.display = displayI8 addr.workchain ++ ':' :: addr.address.display := by
  rw [display, hNone]
  rfl

theorem fromStr_workchain_address (workchain : BitVec 8) (address : HashBytes) :
    fromStr (displayI8 workchain ++ ':' :: address.display) = .ok ⟨none, workchain, address⟩ := by
  rw [fromStr, if_neg (List.append_ne_nil_of_right_ne_nil _ (List.cons_ne_nil _ _)),
    splitOn_colon (colon_not_mem_displayI8 workchain) (colon_not_mem_hashDisplay address)]
  simp only [parseI8_displayI8, decodeToSlice_display]
  rfl

/-- A standard address without anycast reads back from its text. -/
theorem fromStr_display_of_none {addr : StdAddr} (hNone : addr.anycast = none) :
    fromStr addr.display = .ok addr := by
  obtain ⟨anycast, workchain, address⟩ := addr
  cases hNone
  rw [display_of_anycast_none rfl]
  exact fromStr_workchain_address workchain address

/-- What `from_str` accepts: a text of exactly two colon-separated parts, a workchain and an
account id, read into an address without anycast. -/
theorem fromStr_eq_ok {s : List Char} {addr : StdAddr} (h : fromStr s = .ok addr) :
    ∃ workchainText accountText, s.splitOn ':' = [workchainText, accountText] ∧
      parseI8 workchainText = some addr.workchain ∧
      decodeToSlice accountText HashBytes.zero = .ok addr.address ∧ addr.anycast = none := by
  unfold fromStr at h
  split at h
  · cases h
  rcases hSplit : s.splitOn ':' with _ | ⟨part, _ | ⟨part', _ | ⟨extra, rest⟩⟩⟩ <;>
    simp only [hSplit] at h
  · cases h
  · cases hWorkchain : parseI8 part <;> simp only [hWorkchain] at h <;> cases h
  · cases hWorkchain : parseI8 part <;> simp only [hWorkchain] at h
    · cases h
    · cases hAddress : decodeToSlice part' default.address <;> simp only [hAddress] at h <;> cases h
      exact ⟨part, part', rfl, hWorkchain, hAddress, rfl⟩
  · cases hWorkchain : parseI8 part <;> simp only [hWorkchain] at h
    · cases h
    · cases hAddress : decodeToSlice part' default.address <;> simp only [hAddress] at h <;> cases h

/-- For every standard address with no anycast, the text `Display` writes is the decimal workchain,
a colon and the 64 hex digits of the account id, and `from_str` reads it back, for `StdAddr` and for
`IntAddr`. -/
theorem fromStr_display (addr : StdAddr) (hNone : addr.anycast = none) :
    addr.display = displayI8 addr.workchain ++ ':' :: addr.address.display ∧
      displayI8 addr.workchain = (toString addr.workchain.toInt).toList ∧
      addr.address.display.length = 64 ∧ (∀ c ∈ addr.address.display, c ∈ hexCharsLower) ∧
      fromStr addr.display = .ok addr ∧
      IntAddr.fromStr (IntAddr.std addr).display = .ok (.std addr) := by
  refine ⟨display_of_anycast_none hNone, displayI8_eq_toString _, addr.address.display_length,
    fun _ => HashBytes.mem_display, fromStr_display_of_none hNone, ?_⟩
  show IntAddr.std <$> fromStr addr.display = _
  rw [fromStr_display_of_none hNone]
  rfl

theorem fromStr_display_masterchain :
    (⟨none, 0xff, HashBytes.zero⟩ : StdAddr).anycast = none ∧
      ((⟨none, 0xff, HashBytes.zero⟩ : StdAddr).display =
          displayI8 0xff ++ ':' :: HashBytes.zero.display ∧
        displayI8 0xff = (toString (0xff : BitVec 8).toInt).toList ∧
        HashBytes.zero.display.length = 64 ∧ (∀ c ∈ HashBytes.zero.display, c ∈ hexCharsLower) ∧
        fromStr (⟨none, 0xff, HashBytes.zero⟩ : StdAddr).display = .ok ⟨none, 0xff, HashBytes.zero⟩ ∧
        IntAddr.fromStr (IntAddr.std ⟨none, 0xff, HashBytes.zero⟩).display =
          .ok (.std ⟨none, 0xff, HashBytes.zero⟩)) :=
  ⟨rfl, fromStr_display ⟨none, 0xff, HashBytes.zero⟩ rfl⟩

end StdAddr

namespace IntAddr

/-- The text of a standard address with an anycast splits into three parts. -/
theorem splitOn_display_std_anycast {std : StdAddr} {anycast : Anycast}
    (hAnycast : std.anycast = some anycast) :
    (IntAddr.std std).display.splitOn ':' =
      [anycast.display, displayI8 std.workchain, std.address.display] := by
  show std.display.splitOn ':' = _
  rw [StdAddr.display, hAnycast, List.append_assoc, List.append_assoc, List.singleton_append,
    splitOn_colon_cons (colon_not_mem_anycastDisplay anycast),
    splitOn_colon (colon_not_mem_displayI8 _) (colon_not_mem_hashDisplay _)]

/-- `from_str` reads back exactly the texts `Display` writes for standard addresses without
anycast. The text of an address with an anycast has a third part and is rejected, and the
placeholder `varaddr` of a variable-length address is one part only. -/
theorem fromStr_display_eq_ok_iff (addr result : IntAddr) :
    fromStr addr.display = .ok result ↔
      result = addr ∧ ∃ std : StdAddr, addr = .std std ∧ std.anycast = none := by
  constructor
  · intro h
    obtain ⟨std, hStd, rfl⟩ : ∃ std, StdAddr.fromStr addr.display = .ok std ∧ result = .std std := by
      cases hStd : StdAddr.fromStr addr.display <;> rw [fromStr, hStd] at h <;> cases h
      exact ⟨_, rfl, rfl⟩
    obtain ⟨part, part', hSplit, -, -, -⟩ := StdAddr.fromStr_eq_ok hStd
    cases addr with
    | var addr =>
        rw [show (IntAddr.var addr).display.splitOn ':' = ["varaddr".toList] from rfl] at hSplit
        cases hSplit
    | std addr =>
        cases hAnycast : addr.anycast with
        | some anycast =>
            rw [splitOn_display_std_anycast hAnycast] at hSplit
            cases hSplit
        | none =>
            rw [show (IntAddr.std addr).display = addr.display from rfl,
              StdAddr.fromStr_display_of_none hAnycast] at hStd
            cases hStd
            exact ⟨rfl, _, rfl, hAnycast⟩
  · rintro ⟨rfl, std, rfl, hNone⟩
    show IntAddr.std <$> StdAddr.fromStr std.display = _
    rw [StdAddr.fromStr_display_of_none hNone]
    rfl

end IntAddr

end EverscaleTypes

import EverscaleTypes.Num.VarUint
import EverscaleTypes.Num.SmallUint
import EverscaleTypes.Models.Message.AddressParse

/-! The text forms `impl_ops!` gives the integers of `num`: `FromStr` runs the inner integer's
`from_str` and then `is_valid`, `TryFrom` runs `is_valid` alone, and `Display` writes the inner
integer in decimal. The inner parser follows the Rust core library for unsigned integers: an
optional `+`, then decimal digits read by a checked loop. One definition serves every type, with the
inner integer's width and the type's `is_valid` as parameters; the decimal digits are those of the
`i8` parser of the address text. -/
namespace EverscaleTypes

/-- `IntErrorKind`, with the variants an unsigned `from_str` returns. -/
inductive IntErrorKind where
  | empty
  | invalidDigit
  | posOverflow
  deriving DecidableEq

/-- One turn of the checked digit loop of `from_str_radix(_, 10)` for an unsigned `width`-bit
integer: the product by ten first, then the digit, then the checks of the product and of the sum. -/
def uintDigit (width : Nat) (acc : Nat) (c : Char) : Except IntErrorKind Nat :=
  let mul := if acc * 10 < 2 ^ width then some (acc * 10) else none
  match decimalDigit c, mul with
  | none, _ => .error .invalidDigit
  | some _, none => .error .posOverflow
  | some digit, some mul => if mul + digit < 2 ^ width then .ok (mul + digit) else .error .posOverflow

/-- The digits of an unsigned `from_str` text: a leading `+` is skipped, and a `-` is no sign
here. -/
def skipPlus : List Char → List Char
  | '+' :: rest => rest
  | s => s

/-- `from_str` of an unsigned `width`-bit integer: an empty text is `Empty`, a lone sign
`InvalidDigit`, and after an optional `+` the digits are read by the checked loop, a `-` being
refused as a digit. The unchecked loop std runs on texts too short to overflow gives the same
results. -/
def parseUint (width : Nat) (s : List Char) : Except IntErrorKind Nat :=
  if s = [] then .error .empty
  else if s = ['+'] ∨ s = ['-'] then .error .invalidDigit
  else (skipPlus s).foldlM (uintDigit width) 0

/-- `ParseIntError` of `num`: the inner integer's error, or a value over `MAX`. -/
inductive ParseIntError where
  | invalidString (kind : IntErrorKind)
  | overflow
  deriving DecidableEq

/-- `FromStr` of `impl_ops!`: the inner integer's `from_str`, then `Overflow` for a value the type's
`is_valid` refuses. -/
def fromStrWith {width : Nat} (isValid : BitVec width → Bool) (s : List Char) :
    Except ParseIntError (BitVec width) :=
  match parseUint width s with
  | .ok inner =>
    let result := BitVec.ofNat width inner
    if isValid result then .ok result else .error .overflow
  | .error e => .error (.invalidString e)

/-- `TryFrom<inner>` of `impl_ops!`. -/
def tryFromWith {width : Nat} (isValid : BitVec width → Bool) (inner : BitVec width) :
    Except ParseIntError (BitVec width) :=
  if isValid inner then .ok inner else .error .overflow

/-- `Display` of `impl_ops!`: the inner integer in decimal. -/
def displayUint {width : Nat} (value : BitVec width) : List Char := Nat.toDigits 10 value.toNat

/-- `FromStr for VarUint24`. -/
def VarUint24.fromStr : List Char → Except ParseIntError (BitVec 32) :=
  fromStrWith fun value => VarUint.isValid 3 value.toNat

/-- `FromStr for VarUint56`. -/
def VarUint56.fromStr : List Char → Except ParseIntError (BitVec 64) :=
  fromStrWith fun value => VarUint.isValid 7 value.toNat

/-- `FromStr for Tokens`. -/
def Tokens.fromStr : List Char → Except ParseIntError (BitVec 128) :=
  fromStrWith fun value => VarUint.isValid 15 value.toNat

/-- `FromStr for Uint9`. -/
def Uint9.fromStr : List Char → Except ParseIntError (BitVec 16) :=
  fromStrWith (SmallUint.isValid Uint9.bits)

/-- `FromStr for Uint12`. -/
def Uint12.fromStr : List Char → Except ParseIntError (BitVec 16) :=
  fromStrWith (SmallUint.isValid Uint12.bits)

/-- `FromStr for Uint15`. -/
def Uint15.fromStr : List Char → Except ParseIntError (BitVec 16) :=
  fromStrWith (SmallUint.isValid Uint15.bits)

/-- `TryFrom<u32> for VarUint24`. -/
def VarUint24.tryFrom : BitVec 32 → Except ParseIntError (BitVec 32) :=
  tryFromWith fun value => VarUint.isValid 3 value.toNat

/-- `TryFrom<u64> for VarUint56`. -/
def VarUint56.tryFrom : BitVec 64 → Except ParseIntError (BitVec 64) :=
  tryFromWith fun value => VarUint.isValid 7 value.toNat

/-- `TryFrom<u128> for Tokens`. -/
def Tokens.tryFrom : BitVec 128 → Except ParseIntError (BitVec 128) :=
  tryFromWith fun value => VarUint.isValid 15 value.toNat

/-- `TryFrom<u16> for Uint9`. -/
def Uint9.tryFrom : BitVec 16 → Except ParseIntError (BitVec 16) :=
  tryFromWith (SmallUint.isValid Uint9.bits)

/-- `TryFrom<u16> for Uint12`. -/
def Uint12.tryFrom : BitVec 16 → Except ParseIntError (BitVec 16) :=
  tryFromWith (SmallUint.isValid Uint12.bits)

/-- `TryFrom<u16> for Uint15`. -/
def Uint15.tryFrom : BitVec 16 → Except ParseIntError (BitVec 16) :=
  tryFromWith (SmallUint.isValid Uint15.bits)

/-- A text the inner `from_str` reads as the number `n`: an optional `+`, then one or more ASCII
digits spelling `n`, leading zeros allowed. -/
def UintText (text : List Char) (n : Nat) : Prop :=
  ∃ sign digits, sign ∈ [[], ['+']] ∧ text = sign ++ digits ∧ digits ≠ [] ∧
    (∀ c ∈ digits, c.isDigit) ∧ decimalValue digits = n

/-- A digit is taken while the number stays below `2^width`. -/
theorem uintDigit_of_isDigit {c : Char} (hc : c.isDigit) (width m : Nat) :
    uintDigit width m c =
      if appendDigit m c < 2 ^ width then .ok (appendDigit m c) else .error .posOverflow := by
  simp only [uintDigit, decimalDigit, hc, if_true, appendDigit]
  by_cases hMul : m * 10 < 2 ^ width
  · rw [if_pos hMul, Nat.mul_comm m 10]
  · simp only [hMul, if_false, if_neg (show ¬10 * m + (c.toNat - '0'.toNat) < 2 ^ width by omega)]

theorem uintDigit_of_not_isDigit {c : Char} (hc : ¬c.isDigit) (width m : Nat) :
    uintDigit width m c = .error .invalidDigit := by
  simp only [uintDigit, decimalDigit, Bool.eq_false_iff.mpr hc, Bool.false_eq_true, if_false]

/-- The checked loop over decimal digits returns their number when it stays below `2^width`: the
number never shrinks, so the first step past the range ends the loop with `PosOverflow`. -/
theorem foldlM_uintDigit_of_digits {width : Nat} :
    ∀ {digits : List Char}, (∀ c ∈ digits, c.isDigit) → ∀ {m : Nat}, m < 2 ^ width →
      digits.foldlM (uintDigit width) m =
        if digits.foldl appendDigit m < 2 ^ width then .ok (digits.foldl appendDigit m)
        else .error .posOverflow
  | [], _, _, hm => by simp [hm]; rfl
  | c :: rest, hAll, m, _ => by
    rw [List.foldlM_cons, uintDigit_of_isDigit (hAll c (List.mem_cons_self _ _)), List.foldl_cons]
    split
    · exact foldlM_uintDigit_of_digits (fun c hc => hAll c (List.mem_cons_of_mem _ hc)) ‹_›
    · rw [if_neg (fun h => ‹¬_› (lt_of_le_of_lt (le_foldl_appendDigit _ _) h))]
      rfl

/-- A text with a character that is no digit never reads as a number. -/
theorem foldlM_uintDigit_ne_ok {width : Nat} :
    ∀ {digits : List Char}, ¬(∀ c ∈ digits, c.isDigit) → ∀ (m n : Nat),
      digits.foldlM (uintDigit width) m ≠ .ok n
  | [], hNot, _, _ => absurd (fun _ h => nomatch h) hNot
  | c :: rest, hNot, m, n => by
    rw [List.foldlM_cons]
    by_cases hc : c.isDigit
    · rw [uintDigit_of_isDigit hc]
      split
      · exact foldlM_uintDigit_ne_ok (fun hRest => hNot fun x hx =>
          (List.mem_cons.mp hx).elim (· ▸ hc) (hRest x)) _ n
      · nofun
    · rw [uintDigit_of_not_isDigit hc]
      nofun

theorem skipPlus_of_ne {c : Char} (hc : c ≠ '+') (rest : List Char) :
    skipPlus (c :: rest) = c :: rest := by
  simp [skipPlus, hc]

/-- The inner `from_str` reads a text of an optional `+` and digits by its number. -/
theorem parseUint_of_uintText {width : Nat} {s : List Char} {n : Nat} (hText : UintText s n) :
    parseUint width s = if n < 2 ^ width then .ok n else .error .posOverflow := by
  obtain ⟨sign, digits, hSign, rfl, hNe, hAll, rfl⟩ := hText
  obtain ⟨c, rest, rfl⟩ := List.exists_cons_of_ne_nil hNe
  have hDigit : c.isDigit := hAll c (List.mem_cons_self _ _)
  have hPlus : c ≠ '+' := by rintro rfl; exact absurd hDigit (by decide)
  have hMinus : c ≠ '-' := by rintro rfl; exact absurd hDigit (by decide)
  simp only [List.mem_cons, List.not_mem_nil, or_false] at hSign
  unfold parseUint
  rcases hSign with rfl | rfl
  · rw [List.nil_append, if_neg (List.cons_ne_nil _ _), if_neg (by simp [hPlus, hMinus]),
      skipPlus_of_ne hPlus]
    exact foldlM_uintDigit_of_digits hAll (Nat.two_pow_pos width)
  · rw [List.singleton_append, if_neg (List.cons_ne_nil _ _), if_neg (by simp)]
    exact foldlM_uintDigit_of_digits hAll (Nat.two_pow_pos width)

/-- Whatever the inner `from_str` reads is a text of an optional `+` and digits, for a number below
`2^width`. -/
theorem parseUint_eq_ok {width : Nat} {s : List Char} {n : Nat} (h : parseUint width s = .ok n) :
    UintText s n ∧ n < 2 ^ width := by
  unfold parseUint at h
  split_ifs at h with hEmpty hSign
  have hAll : ∀ c ∈ skipPlus s, c.isDigit :=
    Classical.byContradiction fun hNot => foldlM_uintDigit_ne_ok hNot 0 n h
  rw [foldlM_uintDigit_of_digits hAll (Nat.two_pow_pos width)] at h
  split at h
  · cases h
    obtain ⟨c, rest, rfl⟩ := List.exists_cons_of_ne_nil hEmpty
    by_cases hc : c = '+'
    · subst hc
      have hRest : rest ≠ [] := fun hNil => hSign (.inl (by rw [hNil]))
      exact ⟨⟨['+'], rest, by simp, rfl, hRest, hAll, rfl⟩, ‹_›⟩
    · rw [skipPlus_of_ne hc] at *
      exact ⟨⟨[], c :: rest, by simp, rfl, List.cons_ne_nil _ _, hAll, rfl⟩, ‹_›⟩
  · cases h

theorem digitChar_sub_zero {d : Nat} (hd : d < 10) : (Nat.digitChar d).toNat - '0'.toNat = d := by
  interval_cases d <;> rfl

/-- The digits `Display` writes for a number spell that number. -/
theorem decimalValue_toDigits (n : Nat) : decimalValue (Nat.toDigits 10 n) = n := by
  induction n using Nat.strong_induction_on with
  | _ n ih =>
    rw [toDigits_eq]
    split
    · show 10 * 0 + ((Nat.digitChar n).toNat - '0'.toNat) = n
      rw [digitChar_sub_zero ‹n < 10›]
      omega
    · rw [decimalValue, List.foldl_append, ← decimalValue, ih (n / 10) (by omega)]
      show 10 * (n / 10) + ((Nat.digitChar (n % 10)).toNat - '0'.toNat) = n
      rw [digitChar_sub_zero (Nat.mod_lt n (by omega))]
      omega

theorem uintText_displayUint {width : Nat} (value : BitVec width) :
    UintText (displayUint value) value.toNat :=
  ⟨[], _, by simp, rfl, toDigits_ne_nil _, toDigits_isDigit _, decimalValue_toDigits _⟩

/-- `FromStr` for the integers of `impl_ops!`, for every type whose `is_valid` is a bound `MAX`
below the inner integer's range, on every text. A text of an optional `+` and decimal digits is read
by its value: returned up to `MAX`, `Overflow` above `MAX` while it fits the inner integer, and the
inner parser's `PosOverflow` beyond. Every other text is an `InvalidString` error. The text `Display`
writes for any inner value, valid or not, reads back as `TryFrom` of that value. -/
theorem fromStrWith_outcome {width max : Nat} {isValid : BitVec width → Bool}
    (hValid : ∀ value, isValid value = decide (value.toNat ≤ max)) (hMax : max < 2 ^ width) :
    (∀ s n, UintText s n → fromStrWith isValid s =
        if n ≤ max then .ok (BitVec.ofNat width n)
        else if n < 2 ^ width then .error .overflow else .error (.invalidString .posOverflow)) ∧
      (∀ s, (∀ n, ¬UintText s n) → ∃ kind, fromStrWith isValid s = .error (.invalidString kind)) ∧
      ∀ inner : BitVec width, fromStrWith isValid (displayUint inner) = tryFromWith isValid inner := by
  refine ⟨fun s n hText => ?_, fun s hNot => ?_, fun inner => ?_⟩
  · rw [fromStrWith, parseUint_of_uintText hText]
    by_cases hFits : n < 2 ^ width
    · have hToNat : (BitVec.ofNat width n).toNat = n := by simp [Nat.mod_eq_of_lt hFits]
      simp only [if_pos hFits, hValid, hToNat, decide_eq_true_eq]
    · rw [if_neg hFits, if_neg (by omega), if_neg hFits]
  · cases h : parseUint width s with
    | ok n => exact absurd (parseUint_eq_ok h).1 (hNot n)
    | error kind => exact ⟨kind, by rw [fromStrWith, h]⟩
  · rw [fromStrWith, parseUint_of_uintText (uintText_displayUint inner), if_pos inner.isLt,
      tryFromWith]
    simp only [BitVec.ofNat_toNat, BitVec.setWidth_eq]

theorem fromStrWith_outcome_varUint24 :
    (∀ value : BitVec 32, VarUint.isValid 3 value.toNat = decide (value.toNat ≤ 2 ^ 24 - 1)) ∧
      2 ^ 24 - 1 < 2 ^ 32 ∧
      ((∀ s n, UintText s n → VarUint24.fromStr s =
          if n ≤ 2 ^ 24 - 1 then .ok (BitVec.ofNat 32 n)
          else if n < 2 ^ 32 then .error .overflow else .error (.invalidString .posOverflow)) ∧
        (∀ s, (∀ n, ¬UintText s n) → ∃ kind, VarUint24.fromStr s = .error (.invalidString kind)) ∧
        ∀ inner : BitVec 32, VarUint24.fromStr (displayUint inner) = VarUint24.tryFrom inner) :=
  ⟨fun _ => rfl, by decide, fromStrWith_outcome (fun _ => rfl) (by decide)⟩

example : VarUint24.fromStr "+0016777215".toList = .ok 16777215 ∧
    VarUint24.fromStr "16777216".toList = .error .overflow ∧
    VarUint24.fromStr "4294967296".toList = .error (.invalidString .posOverflow) ∧
    VarUint24.fromStr "-1".toList = .error (.invalidString .invalidDigit) := ⟨rfl, rfl, rfl, rfl⟩

end EverscaleTypes

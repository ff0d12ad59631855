import EverscaleTypes.Num.VarUint
import EverscaleTypes.Num.SmallUint

/-! The `checked_add`, `checked_sub`, `checked_mul` and `checked_div` methods that
`impl_var_uints!` and `impl_small_uints!` generate. Each runs the inner integer's own checked
operation and keeps its result only when it is at most `MAX`. `MAX` lies below the inner type's
range, so the inner overflow check never decides the result: every method is the exact operation on
the values, kept when it is at most `MAX`. None wraps, and none returns a value above `MAX`, whatever
its operands hold. -/
namespace EverscaleTypes

/-! ### The inner integers' checked operations -/

/-- `checked_add` of a `width`-bit unsigned integer: `None` when the sum leaves the type. -/
def innerCheckedAdd {width : Nat} (a b : BitVec width) : Option (BitVec width) :=
  if a.toNat + b.toNat < 2 ^ width then some (a + b) else none

/-- `checked_sub` of a `width`-bit unsigned integer: `None` below zero. -/
def innerCheckedSub {width : Nat} (a b : BitVec width) : Option (BitVec width) :=
  if b.toNat ≤ a.toNat then some (a - b) else none

/-- `checked_mul` of a `width`-bit unsigned integer: `None` when the product leaves the type. -/
def innerCheckedMul {width : Nat} (a b : BitVec width) : Option (BitVec width) :=
  if a.toNat * b.toNat < 2 ^ width then some (a * b) else none

/-- `checked_div` of a `width`-bit unsigned integer: `None` for a zero divisor. -/
def innerCheckedDiv {width : Nat} (a b : BitVec width) : Option (BitVec width) :=
  if b.toNat = 0 then none else some (a / b)

/-- The body every `checked_*` method shares: `Some(value) if value <= Self::MAX.0` on the inner
operation's result, `None` otherwise. -/
def checkedWithin {width : Nat} (innerOp : BitVec width → BitVec width → Option (BitVec width))
    (max : Nat) (a b : BitVec width) : Option (BitVec width) :=
  match innerOp a b with
  | some value => if value.toNat ≤ max then some value else none
  | none => none

/-- An exact result on the values, kept as a `width`-bit integer when it is at most `max`. -/
def exactWithin {width : Nat} (max : Nat) : Option Nat → Option (BitVec width)
  | some value => if value ≤ max then some (BitVec.ofNat width value) else none
  | none => none

@[simp] theorem exactWithin_some {width max value : Nat} :
    (exactWithin max (some value) : Option (BitVec width)) =
      if value ≤ max then some (BitVec.ofNat width value) else none := rfl

@[simp] theorem exactWithin_none {width max : Nat} :
    (exactWithin max none : Option (BitVec width)) = none := rfl

theorem innerCheckedAdd_eq {width : Nat} (a b : BitVec width) :
    innerCheckedAdd a b = exactWithin (2 ^ width - 1) (some (a.toNat + b.toNat)) := by
  have hSum : a + b = BitVec.ofNat width (a.toNat + b.toNat) :=
    BitVec.eq_of_toNat_eq (by rw [BitVec.toNat_add, BitVec.toNat_ofNat])
  rw [innerCheckedAdd, exactWithin_some, hSum]
  simp only [Nat.le_sub_one_iff_lt (Nat.two_pow_pos width)]

theorem innerCheckedSub_eq {width : Nat} (a b : BitVec width) :
    innerCheckedSub a b =
      exactWithin (2 ^ width - 1) (if b.toNat ≤ a.toNat then some (a.toNat - b.toNat) else none) := by
  unfold innerCheckedSub
  by_cases h : b.toNat ≤ a.toNat
  · have hLt := a.isLt
    have hDiff : a - b = BitVec.ofNat width (a.toNat - b.toNat) := by
      apply BitVec.eq_of_toNat_eq
      rw [BitVec.toNat_sub, BitVec.toNat_ofNat,
        show 2 ^ width - b.toNat + a.toNat = a.toNat - b.toNat + 2 ^ width by omega, Nat.add_mod_right]
    rw [if_pos h, if_pos h, exactWithin_some, if_pos (by omega), hDiff]
  · rw [if_neg h, if_neg h, exactWithin_none]

theorem innerCheckedMul_eq {width : Nat} (a b : BitVec width) :
    innerCheckedMul a b = exactWithin (2 ^ width - 1) (some (a.toNat * b.toNat)) := by
  have hProduct : a * b = BitVec.ofNat width (a.toNat * b.toNat) :=
    BitVec.eq_of_toNat_eq (by rw [BitVec.toNat_mul, BitVec.toNat_ofNat])
  rw [innerCheckedMul, exactWithin_some, hProduct]
  simp only [Nat.le_sub_one_iff_lt (Nat.two_pow_pos width)]

theorem innerCheckedDiv_eq {width : Nat} (a b : BitVec width) :
    innerCheckedDiv a b =
      exactWithin (2 ^ width - 1) (if b.toNat = 0 then none else some (a.toNat / b.toNat)) := by
  unfold innerCheckedDiv
  by_cases h : b.toNat = 0
  · rw [if_pos h, if_pos h, exactWithin_none]
  · have hLt : a.toNat / b.toNat < 2 ^ width := lt_of_le_of_lt (Nat.div_le_self _ _) a.isLt
    have hQuotient : a / b = BitVec.ofNat width (a.toNat / b.toNat) :=
      BitVec.eq_of_toNat_eq (by rw [BitVec.toNat_udiv, BitVec.toNat_ofNat, Nat.mod_eq_of_lt hLt])
    rw [if_neg h, if_neg h, exactWithin_some, if_pos (by omega), hQuotient]

/-- An inner operation that keeps its exact result when it fits the inner type, checked against a
`max` below that range, keeps the exact result when it is at most `max`. -/
theorem checkedWithin_exactWithin {width max : Nat} (hMax : max < 2 ^ width)
    {innerOp : BitVec width → BitVec width → Option (BitVec width)}
    {exact : BitVec width → BitVec width → Option Nat}
    (hOp : ∀ a b, innerOp a b = exactWithin (2 ^ width - 1) (exact a b)) (a b : BitVec width) :
    checkedWithin innerOp max a b = exactWithin max (exact a b) := by
  rw [checkedWithin, hOp]
  cases exact a b with
  | none => rfl
  | some value =>
    rw [exactWithin_some, exactWithin_some]
    by_cases hFits : value ≤ 2 ^ width - 1
    · have hValue : (BitVec.ofNat width value).toNat = value := by
        rw [BitVec.toNat_ofNat, Nat.mod_eq_of_lt (by omega)]
      rw [if_pos hFits]
      dsimp only
      rw [hValue]
    · rw [if_neg hFits, if_neg (by omega)]

/-! ### The methods of the two macros -/

namespace VarUint

/-- `checked_add` of `impl_var_uints!`. -/
def checkedAdd {width : Nat} (maxBytes : Nat) : BitVec width → BitVec width → Option (BitVec width) :=
  checkedWithin innerCheckedAdd (2 ^ (maxBytes * 8) - 1)

/-- `checked_sub` of `impl_var_uints!`. -/
def checkedSub {width : Nat} (maxBytes : Nat) : BitVec width → BitVec width → Option (BitVec width) :=
  checkedWithin innerCheckedSub (2 ^ (maxBytes * 8) - 1)

/-- `checked_mul` of `impl_var_uints!`. -/
def checkedMul {width : Nat} (maxBytes : Nat) : BitVec width → BitVec width → Option (BitVec width) :=
  checkedWithin innerCheckedMul (2 ^ (maxBytes * 8) - 1)

/-- `checked_div` of `impl_var_uints!`. -/
def checkedDiv {width : Nat} (maxBytes : Nat) : BitVec width → BitVec width → Option (BitVec width) :=
  checkedWithin innerCheckedDiv (2 ^ (maxBytes * 8) - 1)

end VarUint

namespace SmallUint

/-- `checked_add` of `impl_small_uints!`. -/
def checkedAdd (bits : Nat) : BitVec 16 → BitVec 16 → Option (BitVec 16) :=
  checkedWithin innerCheckedAdd (2 ^ bits - 1)

/-- `checked_sub` of `impl_small_uints!`. -/
def checkedSub (bits : Nat) : BitVec 16 → BitVec 16 → Option (BitVec 16) :=
  checkedWithin innerCheckedSub (2 ^ bits - 1)

/-- `checked_mul` of `impl_small_uints!`. -/
def checkedMul (bits : Nat) : BitVec 16 → BitVec 16 → Option (BitVec 16) :=
  checkedWithin innerCheckedMul (2 ^ bits - 1)

/-- `checked_div` of `impl_small_uints!`. -/
def checkedDiv (bits : Nat) : BitVec 16 → BitVec 16 → Option (BitVec 16) :=
  checkedWithin innerCheckedDiv (2 ^ bits - 1)

end SmallUint

/-- The checked arithmetic of a variable-length integer whose `MAX` lies below its inner type, as
for `VarUint24`, `VarUint56` and `Tokens`: each method returns the exact sum, difference, product or
quotient of the values exactly when it exists and is at most `MAX`. -/
theorem varUint_checked_exact {width maxBytes : Nat} (hBytes : maxBytes * 8 < width)
    (a b : BitVec width) :
    VarUint.checkedAdd maxBytes a b =
        exactWithin (2 ^ (maxBytes * 8) - 1) (some (a.toNat + b.toNat)) ∧
      VarUint.checkedSub maxBytes a b = exactWithin (2 ^ (maxBytes * 8) - 1)
        (if b.toNat ≤ a.toNat then some (a.toNat - b.toNat) else none) ∧
      VarUint.checkedMul maxBytes a b =
        exactWithin (2 ^ (maxBytes * 8) - 1) (some (a.toNat * b.toNat)) ∧
      VarUint.checkedDiv maxBytes a b = exactWithin (2 ^ (maxBytes * 8) - 1)
        (if b.toNat = 0 then none else some (a.toNat / b.toNat)) := by
  have hMax : 2 ^ (maxBytes * 8) - 1 < 2 ^ width :=
    lt_of_le_of_lt (Nat.sub_le _ _) (Nat.pow_lt_pow_right (by decide) hBytes)
  exact ⟨checkedWithin_exactWithin hMax innerCheckedAdd_eq a b,
    checkedWithin_exactWithin hMax innerCheckedSub_eq a b,
    checkedWithin_exactWithin hMax innerCheckedMul_eq a b,
    checkedWithin_exactWithin hMax innerCheckedDiv_eq a b⟩

theorem varUint_checked_exact_varUint24 : 3 * 8 < 32 ∧ ∀ a b : BitVec 32,
    VarUint.checkedAdd 3 a b = exactWithin (2 ^ (3 * 8) - 1) (some (a.toNat + b.toNat)) ∧
      VarUint.checkedSub 3 a b = exactWithin (2 ^ (3 * 8) - 1)
        (if b.toNat ≤ a.toNat then some (a.toNat - b.toNat) else none) ∧
      VarUint.checkedMul 3 a b = exactWithin (2 ^ (3 * 8) - 1) (some (a.toNat * b.toNat)) ∧
      VarUint.checkedDiv 3 a b = exactWithin (2 ^ (3 * 8) - 1)
        (if b.toNat = 0 then none else some (a.toNat / b.toNat)) :=
  ⟨by decide, fun a b => varUint_checked_exact (by decide) a b⟩

end EverscaleTypes

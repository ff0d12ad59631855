import EverscaleTypes.Num.VarUint

/-! Augmented dictionaries skip a leaf's value without reading it. `load_from_root` loads the
extra of a leaf and then calls `skip_value`, and builds the root cell from the bits consumed so
far, so that cell is right only if skipping a value moves the slice exactly as loading it would. -/
namespace EverscaleTypes

/-- `AugDictSkipValue::skip_value` for `Tokens`: the 4-bit byte count, then `try_advance` past that
many bytes. A slice too short for the count is kept, and the result is `false`. -/
def Tokens.skipValue (slice : CellSlice) : Bool × CellSlice :=
  match CellSlice.loadSmallUint 4 slice with
  | .ok tokenBytes rest => rest.tryAdvance (8 * tokenBytes.toNat) 0
  | .error _ rest => (false, rest)

namespace Tokens

/-- The 4-bit byte count at the front of a slice that holds it. -/
theorem loadSmallUint_four {slice : CellSlice} (h : 4 ≤ slice.bits.length) :
    CellSlice.loadSmallUint 4 slice = .ok (BitVec.ofNat 8 (decodeBE (slice.bits.take 4)))
        ⟨slice.bits.drop 4, slice.references⟩ ∧
      (BitVec.ofNat 8 (decodeBE (slice.bits.take 4))).toNat = decodeBE (slice.bits.take 4) := by
  have hLt := decodeBE_lt (slice.bits.take 4)
  rw [List.length_take, Nat.min_eq_left h] at hLt
  exact ⟨by rw [CellSlice.loadSmallUint_apply, if_pos h], ofNat_toNat_of_lt (by omega)⟩

section

variable {slice : CellSlice}

/-- On a slice that holds the byte count and that many bytes, `skip_value` moves past them and
returns `true`. -/
theorem skipValue_of_le (h : 4 + 8 * decodeBE (slice.bits.take 4) ≤ slice.bits.length) :
    skipValue slice =
      (true, ⟨slice.bits.drop (4 + 8 * decodeBE (slice.bits.take 4)), slice.references⟩) := by
  obtain ⟨hLoad, hCount⟩ := loadSmallUint_four (by omega : 4 ≤ slice.bits.length)
  rw [skipValue, hLoad]
  dsimp only
  rw [CellSlice.tryAdvance, if_pos (by simp [CellSlice.hasRemaining, hCount]; omega), hCount,
    List.drop_drop, List.drop_zero]

theorem skipValue_of_lt (h : ¬4 + 8 * decodeBE (slice.bits.take 4) ≤ slice.bits.length) :
    (skipValue slice).1 = false := by
  by_cases hFour : 4 ≤ slice.bits.length
  · obtain ⟨hLoad, hCount⟩ := loadSmallUint_four hFour
    rw [skipValue, hLoad]
    dsimp only
    rw [CellSlice.tryAdvance, if_neg (by simp [CellSlice.hasRemaining, hCount]; omega)]
  · rw [skipValue, CellSlice.loadSmallUint_apply, if_neg hFour]

theorem lenBits_fifteen : VarUint.lenBits 15 = 4 := by decide

/-- A successful `Tokens::load_from` moved the slice past the byte count and that many bytes. -/
theorem loadFrom_eq_ok {rest : CellSlice} {value : BitVec 128} (h : loadFrom slice = .ok value rest) :
    4 + 8 * decodeBE (slice.bits.take 4) ≤ slice.bits.length ∧
      rest = ⟨slice.bits.drop (4 + 8 * decodeBE (slice.bits.take 4)), slice.references⟩ := by
  obtain ⟨bytes, middle, hBytes, h⟩ := bind_apply_eq_ok h
  rw [lenBits_fifteen] at hBytes
  have hFour : 4 ≤ slice.bits.length := by
    rw [CellSlice.loadSmallUint_apply] at hBytes
    split at hBytes <;> first | assumption | cases hBytes
  obtain ⟨hLoad, hCount⟩ := loadSmallUint_four hFour
  rw [hLoad] at hBytes
  cases hBytes
  obtain ⟨hLe, rfl⟩ := loadU128_eq_ok h
  rw [hCount, List.length_drop] at hLe
  exact ⟨by omega, by rw [hCount, List.drop_drop]⟩

theorem loadFrom_ok_of_le (h : 4 + 8 * decodeBE (slice.bits.take 4) ≤ slice.bits.length) :
    ∃ value rest, loadFrom slice = .ok value rest := by
  obtain ⟨hLoad, hCount⟩ := loadSmallUint_four (by omega : 4 ≤ slice.bits.length)
  have hBits : 8 * (BitVec.ofNat 8 (decodeBE (slice.bits.take 4))).toNat ≤
      (CellSlice.mk (slice.bits.drop 4) slice.references).bits.length := by
    rw [hCount, List.length_drop]; omega
  obtain ⟨value, rest, hValue⟩ := loadU128_ok_of_le hBits
  refine ⟨value, rest, ?_⟩
  show (do let bytes ← CellSlice.loadSmallUint (VarUint.lenBits 15); loadU128 bytes) slice = _
  rw [lenBits_fifteen, bind_apply, hLoad]
  exact hValue

/-- `skip_value` for `Tokens` returns `true` exactly when `Tokens::load_from` succeeds, and then
both leave the slice past the 4-bit byte count and that many bytes, with no reference consumed. -/
theorem skipValue_iff_loadFrom (slice : CellSlice) :
    ((skipValue slice).1 = true ↔ ∃ value rest, loadFrom slice = .ok value rest) ∧
      ∀ value rest, loadFrom slice = .ok value rest →
        (skipValue slice).2 = rest ∧
          rest = ⟨slice.bits.drop (4 + 8 * decodeBE (slice.bits.take 4)), slice.references⟩ := by
  by_cases hFits : 4 + 8 * decodeBE (slice.bits.take 4) ≤ slice.bits.length
  · rw [skipValue_of_le hFits]
    refine ⟨iff_of_true rfl (loadFrom_ok_of_le hFits), fun value rest h => ?_⟩
    obtain ⟨-, rfl⟩ := loadFrom_eq_ok h
    exact ⟨rfl, rfl⟩
  · have hNone : ¬∃ value rest, loadFrom slice = .ok value rest :=
      fun ⟨_, _, h⟩ => hFits (loadFrom_eq_ok h).1
    rw [skipValue_of_lt hFits]
    exact ⟨iff_of_false Bool.false_ne_true hNone, fun _ _ h => absurd ⟨_, _, h⟩ hNone⟩

end

end Tokens

end EverscaleTypes

import EverscaleTypes.Cell.CellContext

/-! Facts about the stack buffer of `compute_hashes` and the two child loops that fill it: what a
successful run has written in front of the hashed length, and that runs within the buffer do not
fault. -/
namespace EverscaleTypes

namespace HashBuffer

theorem write_eq_ok {buffer : HashBuffer} {offset : Nat} {src : List (BitVec 8)}
    {result : HashBuffer} (h : buffer.write offset src = .ok result) :
    offset + src.length ≤ maxCellSize ∧
      result.bytes = buffer.bytes.take offset ++ src ++ buffer.bytes.drop (offset + src.length) := by
  unfold write at h
  split at h
  · cases h
    exact ⟨‹_›, rfl⟩
  · cases h

/-- A write that fits leaves, in front of its end, what was in front of its start and then `src`. -/
theorem write_take {buffer : HashBuffer} {offset : Nat} {src : List (BitVec 8)}
    {result : HashBuffer} (h : buffer.write offset src = .ok result) :
    result.bytes.take (offset + src.length) = buffer.bytes.take offset ++ src := by
  obtain ⟨hFits, hBytes⟩ := write_eq_ok h
  have hLen : (buffer.bytes.take offset).length = offset := by
    simp [buffer.length_bytes]; omega
  rw [hBytes, List.append_assoc, List.take_append_eq_append_take, List.take_of_length_le (by omega),
    hLen, Nat.add_sub_cancel_left, List.take_append_of_le_length (le_refl _),
    List.take_length]

theorem write_of_fits (buffer : HashBuffer) (offset : Nat) (src : List (BitVec 8))
    (h : offset + src.length ≤ maxCellSize) : ∃ result, buffer.write offset src = .ok result :=
  ⟨_, dif_pos h⟩

theorem read_eq_ok {buffer : HashBuffer} {len : Nat} {bytes : List (BitVec 8)}
    (h : buffer.read len = .ok bytes) : len ≤ maxCellSize ∧ bytes = buffer.bytes.take len := by
  unfold read at h
  split at h
  · cases h
    exact ⟨‹_›, rfl⟩
  · cases h

end HashBuffer

theorem toNat_maxU16 (a b : BitVec 16) : (maxU16 a b).toNat = max a.toNat b.toNat := by
  unfold maxU16
  split <;> rename_i h <;> rw [BitVec.le_def] at h <;> omega

theorem toNat_add_one {depth : BitVec 16} (h : depth.toNat + 1 < 2 ^ 16) :
    (depth + 1).toNat = depth.toNat + 1 := by
  rw [BitVec.toNat_add, show (1 : BitVec 16).toNat = 1 from rfl, Nat.mod_eq_of_lt h]

@[simp] theorem toBeBytes_length (value : BitVec 16) : (toBeBytes value).length = 2 := rfl

namespace CellParts

theorem depthStep_eq_ok {level : Nat} {acc result : BitVec 16 × HashBuffer × Nat} {child : DynCell}
    (h : depthStep level acc child = .ok result) :
    (child.depth level).toNat + 1 < 2 ^ 16 ∧
      ∃ buffer, acc.2.1.write (2 + acc.2.2) (toBeBytes (child.depth level)) = .ok buffer ∧
        result = (maxU16 acc.1 (child.depth level + 1), buffer, acc.2.2 + 2) := by
  unfold depthStep at h
  dsimp only at h
  split at h
  · cases hWrite : acc.2.1.write (2 + acc.2.2) (toBeBytes (child.depth level)) <;>
      simp only [hWrite, Outcome.ok_bind, Outcome.err_bind, Outcome.fault_bind, Outcome.pure_eq,
        reduceCtorEq, Outcome.ok.injEq] at h
    exact ⟨‹_›, _, rfl, h.symm⟩
  · cases h

/-- The depth loop writes each child's depth, two bytes each, in order, and returns the largest
child depth plus one. -/
theorem depthLoop_eq_ok {level : Nat} :
    ∀ (children : List DynCell) (depth : BitVec 16) (buffer : HashBuffer) (hashedLen : Nat)
      (result : BitVec 16 × HashBuffer × Nat),
    children.foldlM (depthStep level) (depth, buffer, hashedLen) = .ok result →
      result.2.2 = hashedLen + 2 * children.length ∧
      result.2.1.bytes.take (2 + result.2.2) =
        buffer.bytes.take (2 + hashedLen) ++ children.flatMap (fun c => toBeBytes (c.depth level)) ∧
      result.1.toNat = children.foldl (fun m c => max m ((c.depth level).toNat + 1)) depth.toNat
  | [], depth, buffer, hashedLen, result, h => by cases h; simp
  | child :: rest, depth, buffer, hashedLen, result, h => by
      rw [List.foldlM_cons] at h
      cases hStep : depthStep level (depth, buffer, hashedLen) child <;>
        simp only [hStep, Outcome.ok_bind, Outcome.err_bind, Outcome.fault_bind, reduceCtorEq] at h
      obtain ⟨hNo, written, hWrite, rfl⟩ := depthStep_eq_ok hStep
      obtain ⟨hLen, hTake, hDepth⟩ := depthLoop_eq_ok rest _ _ _ result h
      have hFront := HashBuffer.write_take hWrite
      rw [toBeBytes_length] at hFront
      refine ⟨by simp only [hLen, List.length_cons]; omega, ?_, ?_⟩
      · rw [hTake, show 2 + (hashedLen + 2) = 2 + hashedLen + 2 by omega, hFront, List.flatMap_cons,
          List.append_assoc]
      · rw [hDepth, List.foldl_cons, toNat_maxU16, toNat_add_one hNo]

theorem hashStep_eq_ok {level : Nat} {acc result : HashBuffer × Nat} {child : DynCell}
    (h : hashStep level acc child = .ok result) :
    ∃ buffer, acc.1.write (2 + acc.2) (child.hash level).bytes = .ok buffer ∧
      result = (buffer, acc.2 + 32) := by
  unfold hashStep at h
  cases hWrite : acc.1.write (2 + acc.2) (child.hash level).bytes <;>
    simp only [hWrite, Outcome.ok_bind, Outcome.err_bind, Outcome.fault_bind, Outcome.pure_eq,
      reduceCtorEq, Outcome.ok.injEq] at h
  exact ⟨_, rfl, h.symm⟩

/-- The hash loop writes each child's hash, 32 bytes each, in order. -/
theorem hashLoop_eq_ok {level : Nat} :
    ∀ (children : List DynCell) (buffer : HashBuffer) (hashedLen : Nat) (result : HashBuffer × Nat),
    children.foldlM (hashStep level) (buffer, hashedLen) = .ok result →
      result.2 = hashedLen + 32 * children.length ∧
      result.1.bytes.take (2 + result.2) =
        buffer.bytes.take (2 + hashedLen) ++ children.flatMap (fun c => (c.hash level).bytes)
  | [], buffer, hashedLen, result, h => by cases h; simp
  | child :: rest, buffer, hashedLen, result, h => by
      rw [List.foldlM_cons] at h
      cases hStep : hashStep level (buffer, hashedLen) child <;>
        simp only [hStep, Outcome.ok_bind, Outcome.err_bind, Outcome.fault_bind, reduceCtorEq] at h
      obtain ⟨written, hWrite, rfl⟩ := hashStep_eq_ok hStep
      obtain ⟨hLen, hTake⟩ := hashLoop_eq_ok rest _ _ result h
      have hFront := HashBuffer.write_take hWrite
      rw [(child.hash level).length_bytes] at hFront
      refine ⟨by simp only [hLen, List.length_cons]; omega, ?_⟩
      rw [hTake, show 2 + (hashedLen + 32) = 2 + hashedLen + 32 by omega, hFront, List.flatMap_cons,
        List.append_assoc]

/-- Within the buffer the depth loop does not fault, and it fails exactly when a child's depth
cannot grow. -/
theorem depthLoop_of_fits {level : Nat} :
    ∀ (children : List DynCell) (depth : BitVec 16) (buffer : HashBuffer) (hashedLen : Nat),
    2 + hashedLen + 2 * children.length ≤ maxCellSize →
      if ∀ c ∈ children, (c.depth level).toNat + 1 < 2 ^ 16 then
        ∃ result, children.foldlM (depthStep level) (depth, buffer, hashedLen) = .ok result
      else children.foldlM (depthStep level) (depth, buffer, hashedLen) = .err .depthOverflow
  | [], depth, buffer, hashedLen, _ => by simp
  | child :: rest, depth, buffer, hashedLen, hFits => by
      simp only [List.length_cons] at hFits
      rw [List.foldlM_cons]
      by_cases hChild : (child.depth level).toNat + 1 < 2 ^ 16
      · obtain ⟨written, hWrite⟩ := buffer.write_of_fits (2 + hashedLen)
          (toBeBytes (child.depth level)) (by rw [toBeBytes_length]; omega)
        have hStep : depthStep level (depth, buffer, hashedLen) child =
            .ok (maxU16 depth (child.depth level + 1), written, hashedLen + 2) := by
          simp only [depthStep, if_pos hChild, hWrite, Outcome.ok_bind, Outcome.pure_eq]
        have hRest := @depthLoop_of_fits level rest (maxU16 depth (child.depth level + 1)) written
          (hashedLen + 2) (by omega)
        simp only [hStep, Outcome.ok_bind, List.mem_cons, forall_eq_or_imp, hChild, true_and]
        exact hRest
      · have hStep : depthStep level (depth, buffer, hashedLen) child = .err .depthOverflow := by
          simp only [depthStep, if_neg hChild]
        rw [if_neg (fun hAll => hChild (hAll child (List.mem_cons_self _ _))), hStep]
        rfl

/-- Within the buffer the hash loop does not fault. -/
theorem hashLoop_of_fits {level : Nat} :
    ∀ (children : List DynCell) (buffer : HashBuffer) (hashedLen : Nat),
    2 + hashedLen + 32 * children.length ≤ maxCellSize →
      ∃ result, children.foldlM (hashStep level) (buffer, hashedLen) = .ok result
  | [], buffer, hashedLen, _ => ⟨_, rfl⟩
  | child :: rest, buffer, hashedLen, hFits => by
      simp only [List.length_cons] at hFits
      obtain ⟨written, hWrite⟩ := buffer.write_of_fits (2 + hashedLen)
        (child.hash level).bytes (by rw [(child.hash level).length_bytes]; omega)
      have hStep : hashStep level (buffer, hashedLen) child = .ok (written, hashedLen + 32) := by
        simp only [hashStep, hWrite, Outcome.ok_bind, Outcome.pure_eq]
      rw [List.foldlM_cons, hStep, Outcome.ok_bind]
      exact hashLoop_of_fits rest written _ (by omega)

end CellParts

end EverscaleTypes

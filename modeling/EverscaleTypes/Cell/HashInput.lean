import EverscaleTypes.Cell.Validation

/-! The hash input `m_L` parses back uniquely. Its two header bytes fix the level and the payload
length, the fixed widths of depths and hashes fix the child count, so two valid cells whose
inputs agree at significant levels agree on everything the input holds. -/
namespace EverscaleTypes

/-- Concatenating fixed-width injective encodings of two lists of one length is injective. -/
theorem flatMap_injective_of_width {α β : Type} {f : α → List β} {k : Nat}
    (hLen : ∀ a, (f a).length = k) (hInj : Function.Injective f) :
    ∀ {l l' : List α}, l.length = l'.length → l.flatMap f = l'.flatMap f → l = l'
  | [], [], _, _ => rfl
  | a :: l, a' :: l', hLength, h => by
      rw [List.flatMap_cons, List.flatMap_cons] at h
      obtain ⟨hHead, hTail⟩ := List.append_inj h (by rw [hLen, hLen])
      rw [hInj hHead, flatMap_injective_of_width hLen hInj (Nat.succ.inj hLength) hTail]

theorem toBeBytes_injective : Function.Injective toBeBytes := by
  intro a b h
  simp only [toBeBytes, List.cons.injEq, and_true] at h
  have hHigh := congrArg BitVec.toNat h.1
  have hLow := congrArg BitVec.toNat h.2
  simp only [BitVec.toNat_ofNat] at hHigh hLow
  have := a.isLt
  have := b.isLt
  apply BitVec.eq_of_toNat_eq
  omega

theorem bytes_injective : Function.Injective HashBytes.bytes := by
  rintro ⟨a, _⟩ ⟨b, _⟩ h
  cases h
  rfl

theorem LevelMask.level_le_three (mask : LevelMask) : mask.level ≤ 3 := by
  unfold LevelMask.level
  split_ifs <;> omega

theorem LevelMask.fromLevel_inj {a b : Nat} (ha : a < 4) (hb : b < 4)
    (h : LevelMask.fromLevel a = LevelMask.fromLevel b) : a = b := by
  have hAll : ∀ a < 4, ∀ b < 4, LevelMask.fromLevel a = LevelMask.fromLevel b → a = b := by decide
  exact hAll a ha b hb h

/-- The level-mask bits of a rewritten descriptor byte are the mask written into it. -/
theorem rewriteD1_mask (d1 : BitVec 8) (mask : LevelMask) :
    ((((d1 &&& 0x0f#8) ||| (mask.toU8 <<< 5)) >>> 5).setWidth 3) = mask.bits := by
  apply BitVec.eq_of_getLsbD_eq
  intro ⟨i, hi⟩
  simp only [BitVec.getLsbD_and, BitVec.getLsbD_or, BitVec.getLsbD_shiftLeft, LevelMask.toU8,
    BitVec.getLsbD_setWidth, BitVec.getLsbD_ushiftRight]
  interval_cases i <;> simp

theorem isExotic_eq_of_low {a b : CellDescriptor} (h : a.d1 &&& 0x0f#8 = b.d1 &&& 0x0f#8) :
    a.isExotic = b.isExotic := by
  have hMask : ∀ d : BitVec 8, d &&& CellDescriptor.isExoticMask = (d &&& 0x0f#8) &&& 0x08#8 :=
    fun d => by rw [BitVec.and_assoc]; rfl
  simp only [CellDescriptor.isExotic, hMask, h]

namespace CellParts

/-- The sizes the descriptor promises for a bit length `b`: `d2 = ⌊b/8⌋ + ⌈b/8⌉` and `⌈b/8⌉` data
bytes. -/
def WellSized (p : CellParts) : Prop :=
  p.descriptor.d2.toNat = p.bitLen.toNat / 8 + (p.bitLen.toNat + 7) / 8 ∧
    p.data.length = (p.bitLen.toNat + 7) / 8

/-- The mask written into `d1_L`. -/
def hashedMask (p : CellParts) (level : Nat) : LevelMask :=
  if p.cellType = .prunedBranch then p.descriptor.levelMask else LevelMask.fromLevel level

theorem hashedD1_eq (p : CellParts) (level : Nat) :
    p.hashedD1 level = (p.descriptor.d1 &&& 0x0f#8) ||| ((p.hashedMask level).toU8 <<< 5) := rfl

/-- Equal rewritten descriptor bytes have equal low bits and carry equal masks. -/
theorem hashedD1_inj {p q : CellParts} {level level' : Nat} (h : p.hashedD1 level = q.hashedD1 level') :
    p.descriptor.d1 &&& 0x0f#8 = q.descriptor.d1 &&& 0x0f#8 ∧ p.hashedMask level = q.hashedMask level' := by
  rw [hashedD1_eq, hashedD1_eq] at h
  constructor
  · rw [← rewriteD1_low p.descriptor.d1 (p.hashedMask level), h, rewriteD1_low]
  · have hBits := congrArg (fun b : BitVec 8 => (b >>> 5).setWidth 3) h
    simp only [rewriteD1_mask] at hBits
    cases hMask : p.hashedMask level
    cases hMask' : q.hashedMask level'
    simp only [hMask, hMask'] at hBits
    rw [hBits]

theorem data_length_eq {p q : CellParts} (hp : p.WellSized) (hq : q.WellSized)
    (hD2 : p.descriptor.d2 = q.descriptor.d2) : p.data.length = q.data.length := by
  have := congrArg BitVec.toNat hD2
  unfold WellSized at hp hq
  omega

theorem isExotic_of_cellType_ne {p : CellParts} (h : p.cellType ≠ .ordinary) :
    p.descriptor.isExotic = true := by
  unfold CellParts.cellType at h
  split at h
  · assumption
  · exact absurd rfl h

theorem exoticRule_of_valid {p : CellParts} (hp : ¬p.Invalid) (hExotic : p.descriptor.isExotic = true) :
    p.ExoticRule p.cellType := by
  rcases hData : p.data with _ | ⟨first, rest⟩
  · exact absurd (invalid_of_data_nil hExotic hData) hp
  · rcases hType : CellType.fromByteExotic first with _ | cellType
    · exact absurd (invalid_of_unknown_type hExotic hData hType) hp
    · have hCell : p.cellType = cellType := by simp [CellParts.cellType, hExotic, hData, hType]
      rw [hCell]
      exact not_not.mp (mt (invalid_iff_of_type hExotic hData hType).mpr hp)

theorem not_invalid_of_validation {p : CellParts} {cellType : CellType}
    (h : p.validation = .ok cellType) : ¬p.Invalid := by
  rcases validation_eq p with ⟨-, hErr⟩ | ⟨hValid, -⟩
  · rw [h] at hErr
    cases hErr
  · exact hValid

theorem mem_significantLevels {p : CellParts} {level : Nat} (h : level ∈ p.significantLevels) :
    level < 4 ∧ (p.cellType = .prunedBranch → level = 0) := by
  unfold significantLevels at h
  split at h
  · simp_all
  · simp only [List.mem_cons, List.mem_filter, List.not_mem_nil, or_false] at h
    exact ⟨by omega, fun hPruned => absurd hPruned ‹_›⟩

/-- A valid pruned branch and a valid exotic cell of another type never share `d2`: the bit
lengths their rules fix give different byte counts. -/
theorem d2_ne_of_pruned {p q : CellParts} (hp : ¬p.Invalid) (hq : ¬q.Invalid) (hpSize : p.WellSized)
    (hqSize : q.WellSized) (hPruned : p.cellType = .prunedBranch) (hOther : q.cellType ≠ .prunedBranch)
    (hExotic : q.descriptor.isExotic = true) : p.descriptor.d2 ≠ q.descriptor.d2 := by
  intro hD2
  have hD2Nat := congrArg BitVec.toNat hD2
  have hpRule := exoticRule_of_valid hp (isExotic_of_cellType_ne (by rw [hPruned]; decide))
  have hqRule := exoticRule_of_valid hq hExotic
  rw [hPruned] at hpRule
  have hLevel := p.descriptor.levelMask.level_le_three
  unfold WellSized at hpSize hqSize
  obtain ⟨_, hpLen, -⟩ := hpRule
  cases hType : q.cellType <;> rw [hType] at hqRule hOther
  · exact hqRule
  · exact hOther rfl
  all_goals obtain ⟨hqLen, -⟩ := hqRule; omega

/-- The header bytes of `m_L` fix the level among significant levels. -/
theorem level_eq_of_header {p q : CellParts} {level level' : Nat} (hp : ¬p.Invalid) (hq : ¬q.Invalid)
    (hpSize : p.WellSized) (hqSize : q.WellSized) (hLevel : level ∈ p.significantLevels)
    (hLevel' : level' ∈ q.significantLevels) (hD1 : p.hashedD1 level = q.hashedD1 level')
    (hD2 : p.descriptor.d2 = q.descriptor.d2) : level = level' := by
  obtain ⟨hLow, hMask⟩ := hashedD1_inj hD1
  obtain ⟨hLt, hZero⟩ := mem_significantLevels hLevel
  obtain ⟨hLt', hZero'⟩ := mem_significantLevels hLevel'
  have hExotic := isExotic_eq_of_low hLow
  by_cases hPruned : p.cellType = .prunedBranch <;> by_cases hPruned' : q.cellType = .prunedBranch
  · rw [hZero hPruned, hZero' hPruned']
  · exact absurd hD2 (d2_ne_of_pruned hp hq hpSize hqSize hPruned hPruned'
      (hExotic ▸ isExotic_of_cellType_ne (by rw [hPruned]; decide)))
  · exact absurd hD2.symm (d2_ne_of_pruned hq hp hqSize hpSize hPruned' hPruned
      (hExotic ▸ isExotic_of_cellType_ne (by rw [hPruned']; decide)))
  · simp only [hashedMask, if_neg hPruned, if_neg hPruned'] at hMask
    exact LevelMask.fromLevel_inj hLt hLt' hMask

theorem hashInput_eq_cons (p : CellParts) (level : Nat) (prev : HashBytes) :
    p.hashInput level prev = p.hashedD1 level :: p.descriptor.d2 ::
      ((if level = 0 then p.data else prev.bytes) ++
        ((p.references.map fun c => c.depth (level + p.levelOffset)).flatMap toBeBytes ++
          (p.references.map fun c => c.hash (level + p.levelOffset)).flatMap HashBytes.bytes)) := by
  simp only [hashInput, List.flatMap_map, List.append_assoc, List.cons_append, List.nil_append]

/-- Two valid cells whose hash inputs agree at significant levels agree on the level, on both
descriptor bytes, on the payload (the data at level 0, the preceding hash above it), and on the
depths and hashes of their children. -/
theorem hashInput_determines {p q : CellParts} {level level' : Nat} {prev prev' : HashBytes}
    (hp : ¬p.Invalid) (hq : ¬q.Invalid) (hpSize : p.WellSized) (hqSize : q.WellSized)
    (hLevel : level ∈ p.significantLevels) (hLevel' : level' ∈ q.significantLevels)
    (h : p.hashInput level prev = q.hashInput level' prev') :
    level = level' ∧ p.hashedD1 level = q.hashedD1 level' ∧ p.descriptor.d2 = q.descriptor.d2 ∧
      (if level = 0 then p.data = q.data else prev = prev') ∧
      p.references.length = q.references.length ∧
      p.references.map (fun c => c.depth (level + p.levelOffset)) =
        q.references.map (fun c => c.depth (level' + q.levelOffset)) ∧
      p.references.map (fun c => c.hash (level + p.levelOffset)) =
        q.references.map (fun c => c.hash (level' + q.levelOffset)) := by
  rw [hashInput_eq_cons, hashInput_eq_cons] at h
  obtain ⟨hD1, hD2, hRest⟩ : _ ∧ _ ∧ _ := by simpa only [List.cons.injEq] using h
  obtain rfl := level_eq_of_header hp hq hpSize hqSize hLevel hLevel' hD1 hD2
  have hPayloadLen : (if level = 0 then p.data else prev.bytes).length =
      (if level = 0 then q.data else prev'.bytes).length := by
    split
    · exact data_length_eq hpSize hqSize hD2
    · rw [prev.length_bytes, prev'.length_bytes]
  obtain ⟨hPayload, hChildren⟩ := List.append_inj hRest hPayloadLen
  have hCount : p.references.length = q.references.length := by
    have hLen := congrArg List.length hChildren
    simp only [List.length_append, flatMap_length_of_width toBeBytes_length,
      flatMap_length_of_width HashBytes.length_bytes, List.length_map] at hLen
    omega
  obtain ⟨hDepths, hHashes⟩ := List.append_inj hChildren (by
    rw [flatMap_length_of_width toBeBytes_length, flatMap_length_of_width toBeBytes_length,
      List.length_map, List.length_map, hCount])
  refine ⟨rfl, hD1, hD2, ?_, hCount,
    flatMap_injective_of_width toBeBytes_length toBeBytes_injective (by simp [hCount]) hDepths,
    flatMap_injective_of_width HashBytes.length_bytes bytes_injective (by simp [hCount]) hHashes⟩
  split
  · simpa [*] using hPayload
  · exact bytes_injective (by simpa [*] using hPayload)

theorem hashInput_determines_leafParts : ¬leafParts.Invalid ∧ leafParts.WellSized ∧
    0 ∈ leafParts.significantLevels ∧
    (0 = 0 ∧ leafParts.hashedD1 0 = leafParts.hashedD1 0 ∧
      leafParts.descriptor.d2 = leafParts.descriptor.d2 ∧
      (if 0 = 0 then leafParts.data = leafParts.data else HashBytes.zero = HashBytes.zero) ∧
      leafParts.references.length = leafParts.references.length ∧
      leafParts.references.map (fun c => c.depth (0 + leafParts.levelOffset)) =
        leafParts.references.map (fun c => c.depth (0 + leafParts.levelOffset)) ∧
      leafParts.references.map (fun c => c.hash (0 + leafParts.levelOffset)) =
        leafParts.references.map (fun c => c.hash (0 + leafParts.levelOffset))) :=
  have hValid : ¬leafParts.Invalid := @not_invalid_of_validation leafParts .ordinary rfl
  have hSize : leafParts.WellSized := ⟨rfl, rfl⟩
  have hLevel : 0 ∈ leafParts.significantLevels := by decide
  ⟨hValid, hSize, hLevel, @hashInput_determines leafParts leafParts 0 0 HashBytes.zero HashBytes.zero
    hValid hValid hSize hSize hLevel hLevel rfl⟩

end CellParts

end EverscaleTypes

import EverscaleTypes.Cell.HashTable

/-! When `compute_hashes` rejects a cell and with which error. The rules each exotic cell type sets
on its size, references and level mask, and the rule that an ordinary cell's mask is its children's,
give `InvalidCell`; on a cell that passes them, a run that stays within
the stack buffer fails only with `DepthOverflow`, and exactly when some child's depth cannot grow at
a significant level. -/
namespace EverscaleTypes

namespace CellParts

variable {sha256 : List (BitVec 8) → HashBytes}

/-- The rule an exotic cell of each type must meet: a pruned branch of level `L ≥ 1` has
`16 + 272 L` bits, no references and its mask in its second data byte; a Merkle proof has 280 bits
and one reference, a Merkle update 552 bits and two, each with its children's mask shifted down one
level; a library reference has 264 bits, no references and an empty mask. -/
def ExoticRule (p : CellParts) : CellType → Prop
  | .prunedBranch =>
      1 ≤ p.descriptor.levelMask.level ∧ p.bitLen.toNat = 16 + p.descriptor.levelMask.level * 272 ∧
        p.references = [] ∧ p.data[1]? = some p.descriptor.levelMask.toU8
  | .merkleProof =>
      p.bitLen.toNat = 280 ∧ p.references.length = 1 ∧
        p.descriptor.levelMask = p.childrenMask.virtualize 1
  | .merkleUpdate =>
      p.bitLen.toNat = 552 ∧ p.references.length = 2 ∧
        p.descriptor.levelMask = p.childrenMask.virtualize 1
  | .libraryReference =>
      p.bitLen.toNat = 264 ∧ p.references = [] ∧ p.descriptor.levelMask = LevelMask.empty
  | .ordinary => False

/-- The cells `compute_hashes` must reject as invalid: an ordinary cell whose mask is not its
children's, and an exotic cell without data, with an unknown type byte, or breaking its type's
rule. -/
def Invalid (p : CellParts) : Prop :=
  (p.descriptor.isExotic = false ∧ p.descriptor.levelMask ≠ p.childrenMask) ∨
  (p.descriptor.isExotic = true ∧ p.data = []) ∨
  (p.descriptor.isExotic = true ∧
    ∃ first, p.data.head? = some first ∧ CellType.fromByteExotic first = none) ∨
  (p.descriptor.isExotic = true ∧ ∃ first cellType, p.data.head? = some first ∧
    CellType.fromByteExotic first = some cellType ∧ ¬p.ExoticRule cellType)

theorem toU8_ne_zero_of_level {mask : LevelMask} (h : 1 ≤ mask.level) : mask.toU8 ≠ 0 := by
  obtain ⟨bits⟩ := mask
  revert bits
  decide

/-- The second data byte as the pruned-branch check reads it agrees with `data[1]` once the mask is
nonzero: a missing byte reads as zero, which no nonzero mask equals. -/
theorem storedMask_iff {data : List (BitVec 8)} {mask : LevelMask} (h : 1 ≤ mask.level) :
    mask.toU8 = data.getD 1 0 ↔ data[1]? = some mask.toU8 := by
  rcases data with _ | ⟨a, _ | ⟨b, rest⟩⟩
  · simpa using toU8_ne_zero_of_level h
  · simpa using toU8_ne_zero_of_level h
  · simp [eq_comm]

/-- The validation part of `compute_hashes`: the type checks and then the comparison of the
mask the type requires with the declared one. -/
def validation (p : CellParts) : Outcome CellType :=
  p.computeCellType >>= fun (cellType, mask) =>
    if mask ≠ p.descriptor.levelMask then .err .invalidCell else .ok cellType

theorem invalid_iff_of_ordinary {p : CellParts} (hExotic : p.descriptor.isExotic = false) :
    p.Invalid ↔ p.descriptor.levelMask ≠ p.childrenMask := by
  simp [Invalid, hExotic]

theorem invalid_of_data_nil {p : CellParts} (hExotic : p.descriptor.isExotic = true)
    (hData : p.data = []) : p.Invalid := by
  simp [Invalid, hExotic, hData]

theorem invalid_of_unknown_type {p : CellParts} {first : BitVec 8} {rest : List (BitVec 8)}
    (hExotic : p.descriptor.isExotic = true) (hData : p.data = first :: rest)
    (hType : CellType.fromByteExotic first = none) : p.Invalid := by
  simp [Invalid, hExotic, hData, hType]

theorem invalid_iff_of_type {p : CellParts} {first : BitVec 8} {rest : List (BitVec 8)}
    {cellType : CellType} (hExotic : p.descriptor.isExotic = true) (hData : p.data = first :: rest)
    (hType : CellType.fromByteExotic first = some cellType) : p.Invalid ↔ ¬p.ExoticRule cellType := by
  simp [Invalid, hExotic, hData, hType]

theorem references_eq_nil_iff (p : CellParts) : p.references = [] ↔ p.references.isEmpty = true :=
  List.isEmpty_iff.symm

/-- The validation rejects exactly the invalid cells, with `InvalidCell`, and names the type of
the others. -/
theorem validation_eq (p : CellParts) :
    (p.Invalid ∧ p.validation = .err .invalidCell) ∨ (¬p.Invalid ∧ p.validation = .ok p.cellType) := by
  cases hExotic : p.descriptor.isExotic
  · rw [invalid_iff_of_ordinary hExotic]
    by_cases hMask : p.descriptor.levelMask = p.childrenMask
    · simp [validation, computeCellType, cellType, hExotic, hMask]
    · simp [validation, computeCellType, hExotic, hMask, Ne.symm hMask]
  · rcases hData : p.data with _ | ⟨first, rest⟩
    · simp [invalid_of_data_nil hExotic hData, validation, computeCellType, hExotic, hData]
    · rcases hType : CellType.fromByteExotic first with _ | cellType
      · simp [invalid_of_unknown_type hExotic hData hType, validation, computeCellType, hExotic,
          hData, hType]
      · rw [invalid_iff_of_type hExotic hData hType]
        have hCell : p.cellType = cellType := by simp [CellParts.cellType, hExotic, hData, hType]
        rw [hCell]
        cases cellType <;> simp only [validation, computeCellType, ExoticRule, hExotic, hData, hType,
          if_true, List.head?_cons, references_eq_nil_iff, not_true, not_false_eq_true, true_and]
        · simp
        · by_cases hLevel : p.descriptor.levelMask.level = 0
          · simp [hLevel]
          · have hPos : 1 ≤ p.descriptor.levelMask.level := Nat.one_le_iff_ne_zero.mpr hLevel
            rw [← storedMask_iff hPos]
            by_cases hLen : p.bitLen.toNat = 16 + p.descriptor.levelMask.level * 272 <;>
              by_cases hRefs : p.references.isEmpty = true <;>
              by_cases hStored : p.descriptor.levelMask.toU8 = rest[0]?.getD 0#8 <;>
              simp [hLevel, hPos, hLen, hRefs, hStored]
        · rw [show p.descriptor.levelMask = LevelMask.empty ↔ LevelMask.empty = p.descriptor.levelMask
            from eq_comm]
          by_cases hLen : p.bitLen.toNat = 264 <;> by_cases hRefs : p.references.isEmpty = true <;>
            by_cases hMask : LevelMask.empty = p.descriptor.levelMask <;>
            simp [hLen, hRefs, hMask]
        all_goals
          rw [show p.descriptor.levelMask = p.childrenMask.virtualize 1 ↔
            p.childrenMask.virtualize 1 = p.descriptor.levelMask from eq_comm]
        · by_cases hLen : p.bitLen.toNat = 280 <;> by_cases hRefs : p.references.length = 1 <;>
            by_cases hMask : p.childrenMask.virtualize 1 = p.descriptor.levelMask <;>
            simp [hLen, hRefs, hMask]
        · by_cases hLen : p.bitLen.toNat = 552 <;> by_cases hRefs : p.references.length = 2 <;>
            by_cases hMask : p.childrenMask.virtualize 1 = p.descriptor.levelMask <;>
            simp [hLen, hRefs, hMask]

theorem writePayload_of_fits (p : CellParts) (hashes : List (HashBytes × BitVec 16)) (level : Nat)
    (buffer : HashBuffer) (hData : p.data.length ≤ 128) (hPrev : level ≠ 0 → hashes ≠ []) :
    ∃ result len, p.writePayload hashes level buffer = .ok (result, len) ∧ len ≤ 128 := by
  unfold writePayload
  split
  · obtain ⟨written, hWrite⟩ := buffer.write_of_fits 2 p.data (by unfold maxCellSize; simp; omega)
    exact ⟨written, _, by rw [hWrite]; rfl, hData⟩
  · obtain ⟨⟨prev, depth⟩, hLast⟩ := Option.ne_none_iff_exists'.mp
      (mt List.getLast?_eq_none_iff.mp (hPrev ‹_›))
    rw [hLast]
    obtain ⟨written, hWrite⟩ := buffer.write_of_fits 2 prev.bytes
      (by rw [prev.length_bytes]; unfold maxCellSize; simp)
    exact ⟨written, 32, by dsimp only; rw [hWrite]; rfl, by omega⟩

/-- A level the loop does not skip, on a cell whose data fits the buffer: it fails exactly when a
child's depth cannot grow, and then with `DepthOverflow`. -/
theorem hashLevel_of_fits (sha256 : List (BitVec 8) → HashBytes) {p : CellParts} {st : HashState}
    {level : Nat} (hData : p.data.length ≤ 128) (hPrev : level ≠ 0 → st.hashes ≠ [])
    (hSig :
      (level != 0 && (p.cellType.isPrunedBranch || !p.descriptor.levelMask.contains level)) = false) :
    if ∀ c ∈ p.references, (c.depth (level + p.levelOffset)).toNat + 1 < 2 ^ 16 then
      ∃ result, hashLevel sha256 p p.descriptor.levelMask p.cellType.isPrunedBranch p.levelOffset st
        level = .ok result
    else hashLevel sha256 p p.descriptor.levelMask p.cellType.isPrunedBranch p.levelOffset st level =
      .err .depthOverflow := by
  have hRefs : p.references.length ≤ 4 := p.references_le
  have hSize : maxCellSize = 266 := rfl
  unfold hashLevel
  rw [hSig, if_neg Bool.false_ne_true]
  dsimp only
  obtain ⟨b0, hWrite0⟩ := st.buffer.write_of_fits 0 [(st.d1 &&& ~~~(CellDescriptor.levelMaskBits |||
    CellDescriptor.storeHashesMask)) ||| ((if p.cellType.isPrunedBranch then p.descriptor.levelMask
      else LevelMask.fromLevel level).toU8 <<< 5)] (by rw [hSize]; simp)
  obtain ⟨b1, hWrite1⟩ := b0.write_of_fits 1 [p.descriptor.d2] (by rw [hSize]; simp)
  obtain ⟨b2, len2, hPayload, hLen2⟩ := p.writePayload_of_fits st.hashes level b1 hData hPrev
  rw [hWrite0, Outcome.ok_bind, hWrite1, Outcome.ok_bind, hPayload, Outcome.ok_bind]
  have hDepth := @depthLoop_of_fits (level + p.levelOffset) p.references 0 b2 len2 (by omega)
  split
  · rename_i hAll
    rw [if_pos hAll] at hDepth
    obtain ⟨⟨depth, b3, len3⟩, hDepths⟩ := hDepth
    obtain ⟨hLen3, -, -⟩ := depthLoop_eq_ok _ _ _ _ _ hDepths
    obtain ⟨⟨b4, len4⟩, hHashes⟩ := @hashLoop_of_fits (level + p.levelOffset) p.references b3 len3
      (by simp only at hLen3; omega)
    obtain ⟨hLen4, -⟩ := hashLoop_eq_ok _ _ _ _ hHashes
    simp only at hLen3 hLen4
    rw [hDepths, Outcome.ok_bind]
    dsimp only
    rw [hHashes, Outcome.ok_bind]
    dsimp only
    unfold HashBuffer.read
    rw [if_pos (by omega)]
    exact ⟨_, rfl⟩
  · rename_i hSome
    rw [if_neg hSome] at hDepth
    rw [hDepth, Outcome.err_bind]

/-- A child's depth overflows at `level` when it is already `u16::MAX`. -/
def Overflows (p : CellParts) (level : Nat) : Prop :=
  ∃ c ∈ p.references, c.depth (level + p.levelOffset) = 0xffff#16

theorem not_overflows_iff (p : CellParts) (level : Nat) :
    ¬p.Overflows level ↔ ∀ c ∈ p.references, (c.depth (level + p.levelOffset)).toNat + 1 < 2 ^ 16 := by
  simp only [Overflows, not_exists, not_and]
  refine forall₂_congr fun c _ => ?_
  rw [BitVec.toNat_eq, show (65535#16).toNat = 65535 from rfl]
  have := (c.depth (level + p.levelOffset)).isLt
  omega

/-- The level loop on a cell whose data fits the buffer: it fails with `DepthOverflow` exactly when
some level it does not skip has a child whose depth cannot grow, and otherwise succeeds. -/
theorem levelLoop_of_fits (sha256 : List (BitVec 8) → HashBytes) {p : CellParts}
    (hData : p.data.length ≤ 128) :
    ∀ (levels : List Nat) (st : HashState), (st.hashes = [] → levels.head? = some 0) →
    st.d1 &&& 0x0f#8 = p.descriptor.d1 &&& 0x0f#8 →
    (levels.foldlM (hashLevel sha256 p p.descriptor.levelMask p.cellType.isPrunedBranch p.levelOffset) st =
        .err .depthOverflow ∧
      ∃ level ∈ levels, (level != 0 && (p.cellType.isPrunedBranch ||
        !p.descriptor.levelMask.contains level)) = false ∧ p.Overflows level) ∨
    ((∃ result, levels.foldlM (hashLevel sha256 p p.descriptor.levelMask p.cellType.isPrunedBranch
        p.levelOffset) st = .ok result) ∧
      ∀ level ∈ levels, (level != 0 && (p.cellType.isPrunedBranch ||
        !p.descriptor.levelMask.contains level)) = false → ¬p.Overflows level)
  | [], st, _, _ => .inr ⟨⟨st, rfl⟩, by simp⟩
  | level :: rest, st, hPrev, hLow => by
      have hPrev' : level ≠ 0 → st.hashes ≠ [] := fun hLevel hNil => hLevel (by simpa using hPrev hNil)
      rw [List.foldlM_cons]
      cases hSkip : (level != 0 && (p.cellType.isPrunedBranch || !p.descriptor.levelMask.contains level))
      · have hStep := hashLevel_of_fits sha256 hData hPrev' hSkip
        split at hStep
        · rename_i hAll
          obtain ⟨mid, hMid⟩ := hStep
          obtain ⟨hLow', hHashes⟩ := hashLevel_eq_ok hSkip hLow hMid
          rw [hMid, Outcome.ok_bind]
          rcases levelLoop_of_fits sha256 hData rest mid (by simp [hHashes]) hLow' with
            ⟨hErr, level', hMem, hSkip', hOver⟩ | ⟨hOk, hNone⟩
          · exact .inl ⟨hErr, level', List.mem_cons_of_mem _ hMem, hSkip', hOver⟩
          · refine .inr ⟨hOk, ?_⟩
            rintro level' (_ | ⟨_, hMem⟩) hSkip'
            · exact (not_overflows_iff p level).mpr hAll
            · exact hNone level' hMem hSkip'
        · rename_i hSome
          rw [hStep, Outcome.err_bind]
          exact .inl ⟨rfl, level, List.mem_cons_self _ _, hSkip,
            not_not.mp (mt (not_overflows_iff p level).mp hSome)⟩
      · have hMid : hashLevel sha256 p p.descriptor.levelMask p.cellType.isPrunedBranch p.levelOffset
            st level = .ok st := by
          unfold hashLevel
          rw [hSkip, if_pos rfl]
          rfl
        have hNe : st.hashes ≠ [] := hPrev' (by rintro rfl; simp at hSkip)
        rw [hMid, Outcome.ok_bind]
        rcases levelLoop_of_fits sha256 hData rest st (fun h => absurd h hNe) hLow with
          ⟨hErr, level', hMem, hSkip', hOver⟩ | ⟨hOk, hNone⟩
        · exact .inl ⟨hErr, level', List.mem_cons_of_mem _ hMem, hSkip', hOver⟩
        · refine .inr ⟨hOk, ?_⟩
          rintro level' (_ | ⟨_, hMem⟩) hSkip'
          · simp [hSkip] at hSkip'
          · exact hNone level' hMem hSkip'

theorem computeHashes_eq_validation_bind (p : CellParts) :
    p.computeHashes sha256 = p.validation >>= fun cellType =>
      (List.range 4).foldlM (hashLevel sha256 p p.descriptor.levelMask cellType.isPrunedBranch
        (if cellType.isMerkle then 1 else 0)) ⟨p.descriptor.d1, HashBuffer.uninit, []⟩ >>=
        fun st => pure st.hashes := by
  unfold computeHashes validation
  rcases p.computeCellType with ⟨cellType, mask⟩ | e | _ <;> try rfl
  dsimp only [Outcome.ok_bind]
  split <;> rfl

/-- The three outcomes of a run on a cell whose data fits the buffer: `InvalidCell` on an invalid
cell, then `DepthOverflow` when a significant level has a child whose depth cannot grow, and
otherwise a table. -/
theorem computeHashes_cases (p : CellParts) (hData : p.data.length ≤ 128) :
    (p.Invalid ∧ p.computeHashes sha256 = .err .invalidCell) ∨
    (¬p.Invalid ∧ (∃ level ∈ p.significantLevels, p.Overflows level) ∧
      p.computeHashes sha256 = .err .depthOverflow) ∨
    (¬p.Invalid ∧ (∀ level ∈ p.significantLevels, ¬p.Overflows level) ∧
      ∃ hs, p.computeHashes sha256 = .ok hs) := by
  have hSig : ∀ level, level ∈ p.significantLevels ↔ level ∈ List.range 4 ∧
      (level != 0 && (p.cellType.isPrunedBranch || !p.descriptor.levelMask.contains level)) = false := by
    intro level
    rw [← range_filter_skip, List.mem_filter, Bool.not_eq_true']
  rw [computeHashes_eq_validation_bind]
  rcases validation_eq p with ⟨hInv, hVal⟩ | ⟨hInv, hVal⟩
  · exact .inl ⟨hInv, by rw [hVal, Outcome.err_bind]⟩
  · rw [hVal, Outcome.ok_bind]
    rcases levelLoop_of_fits sha256 hData (List.range 4) ⟨p.descriptor.d1, HashBuffer.uninit, []⟩
        (fun _ => rfl) rfl with ⟨hErr, level, hMem, hSkip, hOver⟩ | ⟨⟨result, hOk⟩, hNone⟩
    · exact .inr (.inl ⟨hInv, ⟨level, (hSig level).mpr ⟨hMem, hSkip⟩, hOver⟩,
        by rw [levelOffset] at hErr; rw [hErr, Outcome.err_bind]⟩)
    · refine .inr (.inr ⟨hInv, fun level hLevel => hNone level ((hSig level).mp hLevel).1
        ((hSig level).mp hLevel).2, result.hashes, ?_⟩)
      rw [levelOffset] at hOk
      rw [hOk, Outcome.ok_bind]
      rfl

/-- The errors of a run on a cell whose data fits the buffer: `InvalidCell` exactly on the invalid
cells, `DepthOverflow` exactly on the valid cells with a child whose depth cannot grow at a
significant level, and a table on all others. -/
theorem computeHashes_error_iff (p : CellParts) (hData : p.data.length ≤ 128) :
    (p.computeHashes sha256 = .err .invalidCell ↔ p.Invalid) ∧
    (p.computeHashes sha256 = .err .depthOverflow ↔
      ¬p.Invalid ∧ ∃ level ∈ p.significantLevels, p.Overflows level) ∧
    ((∃ hs, p.computeHashes sha256 = .ok hs) ↔
      ¬p.Invalid ∧ ∀ level ∈ p.significantLevels, ¬p.Overflows level) := by
  rcases computeHashes_cases p hData with ⟨hInv, h⟩ | ⟨hInv, hOver, h⟩ | ⟨hInv, hNone, hs, h⟩ <;>
    rw [h]
  · simp [hInv]
  · simp [hInv, hOver]
  · simpa [hInv] using hNone

theorem computeHashes_error_iff_leafParts : leafParts.data.length ≤ 128 ∧
    (leafParts.computeHashes (fun _ => HashBytes.zero) = .err .invalidCell ↔ leafParts.Invalid) ∧
    (leafParts.computeHashes (fun _ => HashBytes.zero) = .err .depthOverflow ↔
      ¬leafParts.Invalid ∧ ∃ level ∈ leafParts.significantLevels, leafParts.Overflows level) ∧
    ((∃ hs, leafParts.computeHashes (fun _ => HashBytes.zero) = .ok hs) ↔
      ¬leafParts.Invalid ∧ ∀ level ∈ leafParts.significantLevels, ¬leafParts.Overflows level) :=
  ⟨by decide, computeHashes_error_iff leafParts (by decide)⟩

end CellParts

end EverscaleTypes

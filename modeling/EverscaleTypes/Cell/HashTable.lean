import EverscaleTypes.Cell.HashBuffer
import Mathlib.Tactic.IntervalCases

/-! The hash and depth table of a cell, stated on the cell parts alone: for each significant level,
the SHA-256 of the rewritten descriptor bytes, the data (or the previous level's hash) and the
children's depths and hashes at that level, with a depth one more than the deepest child's. The
proof that a successful `compute_hashes` run returns it follows the buffer assembly, the rewritten
descriptor byte and the skip-and-chain level loop. -/
namespace EverscaleTypes

namespace CellParts

/-- The type of a cell: the one its first data byte names when it is exotic. -/
def cellType (p : CellParts) : CellType :=
  if p.descriptor.isExotic then ((p.data.head?).bind CellType.fromByteExotic).getD .ordinary
  else .ordinary

/-- The significant levels in increasing order: only level 0 for a pruned branch, otherwise
level 0 and each level whose bit is set in the descriptor's mask. -/
def significantLevels (p : CellParts) : List Nat :=
  if p.cellType = .prunedBranch then [0]
  else 0 :: [1, 2, 3].filter fun level => p.descriptor.levelMask.bits.getLsbD (level - 1)

/-- The offset `o`: a merkle cell's level `L` hashes its children at level `L + 1`. -/
def levelOffset (p : CellParts) : Nat := if p.cellType.isMerkle then 1 else 0

/-- The byte `d1_L`: `d1` with the store-hashes bit cleared, the level-mask bits set to the whole
mask for a pruned branch and to `LevelMask.fromLevel level` otherwise. -/
def hashedD1 (p : CellParts) (level : Nat) : BitVec 8 :=
  let mask := if p.cellType = .prunedBranch then p.descriptor.levelMask else LevelMask.fromLevel level
  (p.descriptor.d1 &&& 0x0f#8) ||| (mask.toU8 <<< 5)

/-- The input `m_L`: the bytes hashed at `level`, given the hash of the preceding entry. -/
def hashInput (p : CellParts) (level : Nat) (prev : HashBytes) : List (BitVec 8) :=
  [p.hashedD1 level, p.descriptor.d2] ++ (if level = 0 then p.data else prev.bytes) ++
    p.references.flatMap (fun c => toBeBytes (c.depth (level + p.levelOffset))) ++
    p.references.flatMap (fun c => (c.hash (level + p.levelOffset)).bytes)

/-- The depth `d_L`: one more than the deepest child at `level`, zero for a cell without
children. -/
def levelDepth (p : CellParts) (level : Nat) : BitVec 16 :=
  BitVec.ofNat 16 ((p.references.map fun c => (c.depth (level + p.levelOffset)).toNat + 1).foldr max 0)

section

variable (sha256 : List (BitVec 8) → HashBytes)

/-- The entries for `levels`, each after the first hashing the preceding entry's hash. -/
def tableFrom (p : CellParts) : List Nat → HashBytes → List (HashBytes × BitVec 16)
  | [], _ => []
  | level :: rest, prev =>
      let hash := sha256 (p.hashInput level prev)
      (hash, p.levelDepth level) :: tableFrom p rest hash

/-- The hash and depth table: one `(SHA-256(m_L), d_L)` entry per significant level, `m_L` the hash
input of level `L` and `d_L` its depth. Level 0 comes
first and hashes the data, so the starting hash is never read. -/
def referenceTable (p : CellParts) : List (HashBytes × BitVec 16) :=
  tableFrom sha256 p p.significantLevels HashBytes.zero

end

variable {sha256 : List (BitVec 8) → HashBytes}

/-- The mask the cell's type requires its descriptor to declare. -/
def requiredMask (p : CellParts) : LevelMask :=
  match p.cellType with
  | .prunedBranch => p.descriptor.levelMask
  | .merkleProof | .merkleUpdate => p.childrenMask.virtualize 1
  | .libraryReference => LevelMask.empty
  | .ordinary => p.childrenMask

theorem computeCellType_eq_ok {p : CellParts} {cellType : CellType} {mask : LevelMask}
    (h : p.computeCellType = .ok (cellType, mask)) :
    cellType = p.cellType ∧ mask = p.requiredMask := by
  unfold computeCellType at h
  unfold requiredMask CellParts.cellType
  split at h
  · rename_i hExotic
    simp only [if_pos hExotic]
    split at h
    · cases h
    · rename_i firstByte hHead
      simp only [hHead, Option.some_bind]
      split at h <;> rename_i hType <;> dsimp only at h <;> (try split_ifs at h) <;> cases h <;>
        simp [hType]
  · rename_i hExotic
    simp only [if_neg hExotic]
    cases h
    exact ⟨rfl, rfl⟩

/-- The descriptor byte the loop writes: whatever the loop did to it before, the rewrite keeps
the reference count and exotic bits and installs `mask`. -/
theorem rewriteD1_eq (d1 original : BitVec 8) (mask : LevelMask)
    (hLow : d1 &&& 0x0f#8 = original &&& 0x0f#8) :
    (d1 &&& ~~~(CellDescriptor.levelMaskBits ||| CellDescriptor.storeHashesMask)) |||
      (mask.toU8 <<< 5) = (original &&& 0x0f#8) ||| (mask.toU8 <<< 5) := by
  rw [← hLow]
  rfl

theorem rewriteD1_low (d1 : BitVec 8) (mask : LevelMask) :
    ((d1 &&& 0x0f#8) ||| (mask.toU8 <<< 5)) &&& 0x0f#8 = d1 &&& 0x0f#8 := by
  apply BitVec.eq_of_getLsbD_eq
  intro ⟨i, hi⟩
  simp only [BitVec.getLsbD_and, BitVec.getLsbD_or, BitVec.getLsbD_shiftLeft, LevelMask.toU8,
    BitVec.getLsbD_setWidth]
  interval_cases i <;> simp

theorem foldl_max_eq {α : Type} (f : α → Nat) :
    ∀ (l : List α) (a : Nat), l.foldl (fun m x => max m (f x)) a = max a ((l.map f).foldr max 0)
  | [], a => by simp
  | x :: rest, a => by
      rw [List.foldl_cons, foldl_max_eq f rest, List.map_cons, List.foldr_cons]
      omega

theorem isPrunedBranch_iff (cellType : CellType) :
    cellType.isPrunedBranch = true ↔ cellType = .prunedBranch := by
  cases cellType <;> simp [CellType.isPrunedBranch]

/-- The hash the next level chains from: the last one pushed. -/
def prevHash (hashes : List (HashBytes × BitVec 16)) : HashBytes :=
  (hashes.getLast?.map Prod.fst).getD HashBytes.zero

theorem writePayload_eq_ok {p : CellParts} {hashes : List (HashBytes × BitVec 16)} {level : Nat}
    {buffer result : HashBuffer} {len : Nat} (h : p.writePayload hashes level buffer = .ok (result, len)) :
    result.bytes.take (2 + len) =
      buffer.bytes.take 2 ++ (if level = 0 then p.data else (prevHash hashes).bytes) := by
  unfold writePayload at h
  split at h
  · obtain ⟨written, hWrite, h⟩ := Outcome.bind_eq_ok h
    cases h
    rw [if_pos ‹_›, HashBuffer.write_take hWrite]
  · rename_i hLevel
    split at h
    · rename_i prev depth hLast
      obtain ⟨written, hWrite, h⟩ := Outcome.bind_eq_ok h
      cases h
      rw [if_neg hLevel, ← prev.length_bytes, HashBuffer.write_take hWrite]
      simp [prevHash, hLast]
    · cases h

/-- One significant level of a successful run: the rewritten descriptor byte keeps its low bits,
and the level pushes the hash of `m_L` with the depth `d_L`. -/
theorem hashLevel_eq_ok {p : CellParts} {st result : HashState} {level : Nat}
    (hSig : (level != 0 && (p.cellType.isPrunedBranch || !p.descriptor.levelMask.contains level)) = false)
    (hLow : st.d1 &&& 0x0f#8 = p.descriptor.d1 &&& 0x0f#8)
    (h : hashLevel sha256 p p.descriptor.levelMask p.cellType.isPrunedBranch p.levelOffset st level =
      .ok result) :
    result.d1 &&& 0x0f#8 = p.descriptor.d1 &&& 0x0f#8 ∧
      result.hashes =
        st.hashes ++ [(sha256 (p.hashInput level (prevHash st.hashes)), p.levelDepth level)] := by
  unfold hashLevel at h
  rw [hSig, if_neg Bool.false_ne_true] at h
  obtain ⟨b0, hWrite0, h⟩ := Outcome.bind_eq_ok h
  obtain ⟨b1, hWrite1, h⟩ := Outcome.bind_eq_ok h
  obtain ⟨⟨b2, len2⟩, hPayload, h⟩ := Outcome.bind_eq_ok h
  obtain ⟨⟨depth, b3, len3⟩, hDepths, h⟩ := Outcome.bind_eq_ok h
  obtain ⟨⟨b4, len4⟩, hHashes, h⟩ := Outcome.bind_eq_ok h
  obtain ⟨input, hRead, h⟩ := Outcome.bind_eq_ok h
  cases h
  have hD1 := rewriteD1_eq st.d1 p.descriptor.d1
    (if p.cellType.isPrunedBranch = true then p.descriptor.levelMask else LevelMask.fromLevel level) hLow
  refine ⟨by rw [hD1, rewriteD1_low], ?_⟩
  have h0 := HashBuffer.write_take hWrite0
  have h1 := HashBuffer.write_take hWrite1
  simp only [List.length_singleton, Nat.zero_add, List.take_zero, List.nil_append] at h0 h1
  rw [h0] at h1
  obtain ⟨_, hTake3, hDepth⟩ := depthLoop_eq_ok _ _ _ _ _ hDepths
  obtain ⟨_, hTake4⟩ := hashLoop_eq_ok _ _ _ _ hHashes
  obtain ⟨_, rfl⟩ := HashBuffer.read_eq_ok hRead
  dsimp only at hTake3 hDepth hTake4
  have hLevelDepth : depth = p.levelDepth level := by
    have hMax : depth.toNat =
        (p.references.map fun c => (c.depth (level + p.levelOffset)).toNat + 1).foldr max 0 := by
      rw [hDepth, foldl_max_eq]
      exact Nat.zero_max _
    apply BitVec.eq_of_toNat_eq
    rw [levelDepth, BitVec.toNat_ofNat, ← hMax, Nat.mod_eq_of_lt depth.isLt]
  rw [hTake4, hTake3, writePayload_eq_ok hPayload, h1, hD1, hLevelDepth]
  simp [hashInput, hashedD1, isPrunedBranch_iff]

/-- The level loop's skip test keeps exactly the significant levels. -/
theorem range_filter_skip (p : CellParts) :
    (List.range 4).filter (fun level =>
      !(level != 0 && (p.cellType.isPrunedBranch || !p.descriptor.levelMask.contains level))) =
      p.significantLevels := by
  have hAll : ∀ (pruned : Bool) (mask : BitVec 3),
      (List.range 4).filter (fun level => !(level != 0 && (pruned || !LevelMask.contains ⟨mask⟩ level))) =
        if pruned = true then [0] else 0 :: [1, 2, 3].filter fun level => mask.getLsbD (level - 1) := by
    decide
  rw [hAll, significantLevels]
  simp only [isPrunedBranch_iff]

/-- A successful run of the level loop pushes the table entries of the levels it does not skip,
each chained from the hash pushed before it. -/
theorem levelLoop_eq_ok {p : CellParts} :
    ∀ (levels : List Nat) (st result : HashState),
    levels.foldlM (hashLevel sha256 p p.descriptor.levelMask p.cellType.isPrunedBranch p.levelOffset)
      st = .ok result →
    st.d1 &&& 0x0f#8 = p.descriptor.d1 &&& 0x0f#8 →
    result.hashes = st.hashes ++ tableFrom sha256 p (levels.filter fun level =>
      !(level != 0 && (p.cellType.isPrunedBranch || !p.descriptor.levelMask.contains level)))
        (prevHash st.hashes)
  | [], st, result, h, _ => by cases h; simp [tableFrom]
  | level :: rest, st, result, h, hLow => by
      rw [List.foldlM_cons] at h
      obtain ⟨mid, hStep, hRest⟩ := Outcome.bind_eq_ok h
      cases hSkip : (level != 0 && (p.cellType.isPrunedBranch || !p.descriptor.levelMask.contains level))
      · obtain ⟨hLow', hHashes⟩ := hashLevel_eq_ok hSkip hLow hStep
        rw [levelLoop_eq_ok rest mid result hRest hLow', hHashes, List.filter_cons, hSkip]
        simp [tableFrom, prevHash]
      · have hMid : mid = st := by
          unfold hashLevel at hStep
          rw [hSkip, if_pos rfl] at hStep
          cases hStep
          rfl
        subst hMid
        rw [levelLoop_eq_ok rest mid result hRest hLow, List.filter_cons, hSkip]
        rfl

/-- A successful `compute_hashes` returns exactly the hash and depth table `referenceTable`. -/
theorem computeHashes_eq_referenceTable (p : CellParts) (hs : List (HashBytes × BitVec 16))
    (h : p.computeHashes sha256 = .ok hs) : hs = p.referenceTable sha256 := by
  unfold computeHashes at h
  obtain ⟨⟨cellType, mask⟩, hType, h⟩ := Outcome.bind_eq_ok h
  obtain ⟨rfl, -⟩ := computeCellType_eq_ok hType
  dsimp only at h
  split at h
  · cases h
  · obtain ⟨result, hLoop, h⟩ := Outcome.bind_eq_ok h
    cases h
    rw [levelLoop_eq_ok _ _ _ hLoop rfl, range_filter_skip]
    rfl

/-- An ordinary leaf with one data byte. -/
def leafParts : CellParts := ⟨8, ⟨0, 2⟩, LevelMask.empty, [], Nat.zero_le _, [0xab]⟩

theorem computeHashes_leafParts :
    leafParts.computeHashes (fun _ => HashBytes.zero) = .ok [(HashBytes.zero, 0)] ∧
      [(HashBytes.zero, 0)] = leafParts.referenceTable (fun _ => HashBytes.zero) :=
  ⟨rfl, computeHashes_eq_referenceTable leafParts _ rfl⟩

end CellParts

end EverscaleTypes

import EverscaleTypes.Cell.Validation

/-! The bounds behind the `unsafe` blocks of `compute_hashes`. Every copy into the stack buffer
`data_to_hash`, the slice over it handed to SHA-256 and the `unwrap_unchecked` of the previous
level's hash are unchecked; the model makes each of them a `fault` when its precondition fails. For
a cell with at most 128 data bytes no run reaches one: a level's input is at most `MAX_CELL_SIZE`
bytes, and the loop reaches each level after level 0 holding the entries of the significant levels
before it. -/
namespace EverscaleTypes

namespace CellParts

variable {sha256 : List (BitVec 8) → HashBytes}

/-- The level loop's test for a level it hashes, the negation of its skip test: level 0, and a
level of the descriptor's mask unless the cell is a pruned branch. -/
def isSignificant (p : CellParts) (level : Nat) : Bool :=
  !(level != 0 && (p.cellType.isPrunedBranch || !p.descriptor.levelMask.contains level))

/-- The bytes hashed at a level: the two descriptor bytes, the data at level 0 or the previous
hash above it, and a depth and a hash per child. -/
theorem hashInput_length (p : CellParts) (level : Nat) (prev : HashBytes) :
    (p.hashInput level prev).length =
      2 + (if level = 0 then p.data.length else 32) + 34 * p.references.length := by
  simp only [hashInput, List.length_append, List.length_cons, List.length_nil,
    flatMap_length_of_width (fun (c : DynCell) => toBeBytes_length (c.depth _)),
    flatMap_length_of_width (fun (c : DynCell) => (c.hash _).length_bytes), apply_ite List.length,
    prev.length_bytes]
  omega

/-- With at most 128 data bytes and four children, a level's input fits `MAX_CELL_SIZE`. -/
theorem hashInput_length_le {p : CellParts} (hData : p.data.length ≤ 128) (level : Nat)
    (prev : HashBytes) : (p.hashInput level prev).length ≤ maxCellSize := by
  have hRefs : p.references.length ≤ 4 := p.references_le
  rw [hashInput_length, show maxCellSize = 2 + 128 + 4 * 34 from rfl]
  split <;> omega

theorem computeHashes_ne_fault (p : CellParts) (hData : p.data.length ≤ 128) :
    p.computeHashes sha256 ≠ .fault := by
  rcases computeHashes_cases p hData with ⟨-, h⟩ | ⟨-, -, h⟩ | ⟨-, -, _, h⟩ <;> rw [h] <;>
    nofun

/-- The loop over the first `k` levels, from the state `compute_hashes` starts it in, holds the
table entries of the significant levels below `k`; past level 0 it holds at least one. -/
theorem levelPrefix_eq_ok (p : CellParts) (k : Nat) {st : HashState}
    (h : (List.range k).foldlM (hashLevel sha256 p p.descriptor.levelMask p.cellType.isPrunedBranch
      p.levelOffset) ⟨p.descriptor.d1, HashBuffer.uninit, []⟩ = .ok st) :
    st.hashes = tableFrom sha256 p ((List.range k).filter p.isSignificant) HashBytes.zero ∧
      (0 < k → st.hashes ≠ []) := by
  have hTable : st.hashes = tableFrom sha256 p ((List.range k).filter p.isSignificant) HashBytes.zero :=
    levelLoop_eq_ok _ _ _ h rfl
  refine ⟨hTable, fun hk => ?_⟩
  obtain ⟨j, rfl⟩ : ∃ j, k = j + 1 := ⟨k - 1, by omega⟩
  rw [hTable, List.range_succ_eq_map, List.filter_cons_of_pos (by simp [isSignificant])]
  exact List.cons_ne_nil _ _

/-- Every run of `compute_hashes` on a cell with at most 128 data bytes stays within its unsafe
preconditions: no copy or slice leaves the `MAX_CELL_SIZE`-byte buffer and no `unwrap_unchecked`
meets an empty `hashes`, so the run does not fault; the slice hashed at any level, of
`2 + hashed_len` bytes, fits the buffer; and the loop reaches level `k` holding the entries of the
significant levels below it, at least one past level 0, the last being the one the next level
chains from. -/
theorem computeHashes_within_buffer (p : CellParts) (hData : p.data.length ≤ 128) :
    p.computeHashes sha256 ≠ .fault ∧
      (∀ level prev, (p.hashInput level prev).length ≤ maxCellSize) ∧
      ∀ (k : Nat) (st : HashState),
        (List.range k).foldlM (hashLevel sha256 p p.descriptor.levelMask p.cellType.isPrunedBranch
          p.levelOffset) ⟨p.descriptor.d1, HashBuffer.uninit, []⟩ = .ok st →
        st.hashes = tableFrom sha256 p ((List.range k).filter p.isSignificant) HashBytes.zero ∧
          (0 < k → st.hashes ≠ []) :=
  ⟨computeHashes_ne_fault p hData, hashInput_length_le hData, fun k _ h => levelPrefix_eq_ok p k h⟩

theorem computeHashes_within_buffer_leafParts : leafParts.data.length ≤ 128 ∧
    (leafParts.computeHashes (fun _ => HashBytes.zero) ≠ .fault ∧
      (∀ level prev, (leafParts.hashInput level prev).length ≤ maxCellSize) ∧
      ∀ (k : Nat) (st : HashState),
        (List.range k).foldlM (hashLevel (fun _ => HashBytes.zero) leafParts
          leafParts.descriptor.levelMask leafParts.cellType.isPrunedBranch leafParts.levelOffset)
          ⟨leafParts.descriptor.d1, HashBuffer.uninit, []⟩ = .ok st →
        st.hashes = tableFrom (fun _ => HashBytes.zero) leafParts
            ((List.range k).filter leafParts.isSignificant) HashBytes.zero ∧
          (0 < k → st.hashes ≠ [])) :=
  ⟨by decide, computeHashes_within_buffer leafParts (by decide)⟩

/-- Two runs of the level loop on a cell whose data fits, from states with the same descriptor byte
and hashes, return the same hashes or the same error, whatever their buffers hold. -/
theorem levelLoop_hashes_eq (p : CellParts) (hData : p.data.length ≤ 128) (levels : List Nat)
    {st st' : HashState} (hD1 : st.d1 = st'.d1) (hHashes : st.hashes = st'.hashes)
    (hPrev : st.hashes = [] → levels.head? = some 0)
    (hLow : st.d1 &&& 0x0f#8 = p.descriptor.d1 &&& 0x0f#8) :
    (levels.foldlM (hashLevel sha256 p p.descriptor.levelMask p.cellType.isPrunedBranch
        p.levelOffset) st >>= fun result => pure result.hashes) =
      (levels.foldlM (hashLevel sha256 p p.descriptor.levelMask p.cellType.isPrunedBranch
        p.levelOffset) st' >>= fun result => pure result.hashes) := by
  have hLow' : st'.d1 &&& 0x0f#8 = p.descriptor.d1 &&& 0x0f#8 := hD1 ▸ hLow
  rcases levelLoop_of_fits sha256 hData levels st hPrev hLow with
    ⟨hErr, level, hMem, hSkip, hOver⟩ | ⟨⟨result, hOk⟩, hNone⟩ <;>
  rcases levelLoop_of_fits sha256 hData levels st' (hHashes ▸ hPrev) hLow' with
    ⟨hErr', level', hMem', hSkip', hOver'⟩ | ⟨⟨result', hOk'⟩, hNone'⟩
  · rw [hErr, hErr']
  · exact absurd hOver (hNone' level hMem hSkip)
  · exact absurd hOver' (hNone level' hMem' hSkip')
  · rw [hOk, hOk', Outcome.ok_bind, Outcome.ok_bind, levelLoop_eq_ok _ _ _ hOk hLow,
      levelLoop_eq_ok _ _ _ hOk' hLow', hHashes]

/-- `data_to_hash` starts as `MaybeUninit` memory, and `compute_hashes` never reads a byte of it it
has not written: on a cell with at most 128 data bytes, its result is the same whatever the buffer
held at the start. -/
theorem computeHashes_of_buffer (p : CellParts) (hData : p.data.length ≤ 128)
    (buffer : HashBuffer) :
    p.computeHashes sha256 = p.validation >>= fun cellType =>
      (List.range 4).foldlM (hashLevel sha256 p p.descriptor.levelMask cellType.isPrunedBranch
        (if cellType.isMerkle then 1 else 0)) ⟨p.descriptor.d1, buffer, []⟩ >>=
        fun st => pure st.hashes := by
  rw [computeHashes_eq_validation_bind]
  rcases validation_eq p with ⟨-, hVal⟩ | ⟨-, hVal⟩ <;> rw [hVal]
  · rfl
  · exact levelLoop_hashes_eq p hData _ rfl rfl (fun _ => rfl) rfl

theorem computeHashes_of_buffer_leafParts : leafParts.data.length ≤ 128 ∧
    leafParts.computeHashes (fun _ => HashBytes.zero) = leafParts.validation >>= fun cellType =>
      (List.range 4).foldlM (hashLevel (fun _ => HashBytes.zero) leafParts
        leafParts.descriptor.levelMask cellType.isPrunedBranch (if cellType.isMerkle then 1 else 0))
        ⟨leafParts.descriptor.d1, ⟨List.replicate maxCellSize 0xff, List.length_replicate _ _⟩, []⟩ >>=
        fun st => pure st.hashes :=
  ⟨by decide, computeHashes_of_buffer leafParts (by decide) _⟩

end CellParts

end EverscaleTypes

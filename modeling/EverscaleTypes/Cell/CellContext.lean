import EverscaleTypes.Cell.Descriptor

/-! `CellParts::compute_hashes` of `cell_context.rs`: the validation of a cell under construction
and the level loop that fills the stack buffer `data_to_hash` and hashes it. SHA-256 is a parameter:
the model fixes which bytes are hashed, not the digest. -/
namespace EverscaleTypes

/-- The result of code with `unsafe` blocks: a value, an error, or `fault` where an unsafe
operation's precondition fails and the source has no defined behaviour. -/
inductive Outcome (α : Type) where
  | ok (value : α)
  | err (error : Error)
  | fault

namespace Outcome

variable {α β : Type}

def bind : Outcome α → (α → Outcome β) → Outcome β
  | ok a, f => f a
  | err e, _ => err e
  | fault, _ => fault

instance : Monad Outcome where
  pure := ok
  bind := bind

@[simp] theorem pure_eq (a : α) : (pure a : Outcome α) = ok a := rfl

@[simp] theorem ok_bind (a : α) (f : α → Outcome β) : (ok a >>= f) = f a := rfl

@[simp] theorem err_bind (e : Error) (f : α → Outcome β) : (err e >>= f) = err e := rfl

@[simp] theorem fault_bind (f : α → Outcome β) : (fault >>= f) = fault := rfl

theorem bind_eq_ok {x : Outcome α} {f : α → Outcome β} {b : β} (h : (x >>= f) = ok b) :
    ∃ a, x = ok a ∧ f a = ok b := by
  cases x with
  | ok a => exact ⟨a, rfl, h⟩
  | err e => cases h
  | fault => cases h

end Outcome

/-- Modelled from the spec: what `compute_hashes` reads of a child through `DynCell`, its level
mask and its hash and depth at each level. -/
structure DynCell where
  levelMask : LevelMask
  hash : Nat → HashBytes
  depth : Nat → BitVec 16

/-- The parts of a cell under construction. The reference array is an
`ArrayVec<Cell, MAX_REF_COUNT>`, so it holds at most four children. -/
structure CellParts where
  bitLen : BitVec 16
  descriptor : CellDescriptor
  childrenMask : LevelMask
  references : List DynCell
  references_le : references.length ≤ maxRefCount
  data : List (BitVec 8)

/-- The size `MAX_CELL_SIZE`: descriptor bytes, 128 data bytes, and a depth and a hash per child. -/
def maxCellSize : Nat := 2 + 128 + maxRefCount * (2 + 32)

/-- The stack buffer `data_to_hash`. -/
structure HashBuffer where
  bytes : List (BitVec 8)
  length_bytes : bytes.length = maxCellSize

namespace HashBuffer

/-- The buffer as `MaybeUninit` leaves it; no byte is read before it is written. -/
def uninit : HashBuffer := ⟨List.replicate maxCellSize 0, List.length_replicate _ _⟩

/-- A `copy_nonoverlapping` of `src` to `offset`, undefined past the end of the buffer. -/
def write (buffer : HashBuffer) (offset : Nat) (src : List (BitVec 8)) : Outcome HashBuffer :=
  if h : offset + src.length ≤ maxCellSize then
    .ok ⟨buffer.bytes.take offset ++ src ++ buffer.bytes.drop (offset + src.length), by
      simp only [List.length_append, List.length_take, List.length_drop, buffer.length_bytes]
      omega⟩
  else .fault

/-- A `slice::from_raw_parts` over the first `len` bytes, undefined past the end of the buffer. -/
def read (buffer : HashBuffer) (len : Nat) : Outcome (List (BitVec 8)) :=
  if len ≤ maxCellSize then .ok (buffer.bytes.take len) else .fault

end HashBuffer

/-- The bytes of `u16::to_be_bytes`. -/
def toBeBytes (value : BitVec 16) : List (BitVec 8) :=
  [BitVec.ofNat 8 (value.toNat / 256), BitVec.ofNat 8 (value.toNat % 256)]

/-- The `std::cmp::max` of two `u16`. -/
def maxU16 (a b : BitVec 16) : BitVec 16 := if a ≤ b then b else a

namespace CellParts

/-- The exotic-cell checks of `compute_hashes`: the cell type, and the level mask the cell must
declare. -/
def computeCellType (p : CellParts) : Outcome (CellType × LevelMask) :=
  let levelMask := p.descriptor.levelMask
  let level := levelMask.level
  let bitLen := p.bitLen.toNat
  if p.descriptor.isExotic then
    match p.data.head? with
    | none => .err .invalidCell
    | some firstByte =>
        match CellType.fromByteExotic firstByte with
        | some .prunedBranch =>
            if level = 0 then .err .invalidCell
            else if bitLen ≠ 8 + 8 + level * (256 + 16) ∨ !p.references.isEmpty then .err .invalidCell
            else if levelMask.toU8 ≠ p.data.getD 1 0 then .err .invalidCell
            else .ok (.prunedBranch, levelMask)
        | some .merkleProof =>
            if bitLen ≠ 8 + 256 + 16 ∨ p.references.length ≠ 1 then .err .invalidCell
            else .ok (.merkleProof, p.childrenMask.virtualize 1)
        | some .merkleUpdate =>
            if bitLen ≠ 8 + 2 * (256 + 16) ∨ p.references.length ≠ 2 then .err .invalidCell
            else .ok (.merkleUpdate, p.childrenMask.virtualize 1)
        | some .libraryReference =>
            if bitLen ≠ 8 + 256 ∨ !p.references.isEmpty then .err .invalidCell
            else .ok (.libraryReference, LevelMask.empty)
        | _ => .err .invalidCell
  else .ok (.ordinary, p.childrenMask)

/-- The state the level loop carries: the rewritten `descriptor.d1`, the stack buffer and the
hashes pushed so far. -/
structure HashState where
  d1 : BitVec 8
  buffer : HashBuffer
  hashes : List (HashBytes × BitVec 16)

/-- One child of the depth loop: checks its depth can grow, raises the cell's depth and writes the
child's depth after what is already hashed. -/
def depthStep (level : Nat) (acc : BitVec 16 × HashBuffer × Nat) (child : DynCell) :
    Outcome (BitVec 16 × HashBuffer × Nat) :=
  let childDepth := child.depth level
  if childDepth.toNat + 1 < 2 ^ 16 then do
    let buffer ← acc.2.1.write (2 + acc.2.2) (toBeBytes childDepth)
    pure (maxU16 acc.1 (childDepth + 1), buffer, acc.2.2 + 2)
  else .err .depthOverflow

/-- One child of the hash loop: writes the child's hash after what is already hashed. -/
def hashStep (level : Nat) (acc : HashBuffer × Nat) (child : DynCell) :
    Outcome (HashBuffer × Nat) := do
  let buffer ← acc.1.write (2 + acc.2) (child.hash level).bytes
  pure (buffer, acc.2 + 32)

/-- What a level hashes after the descriptor bytes: the data at level 0, above it the previous
level's hash, read with `unwrap_unchecked`. -/
def writePayload (p : CellParts) (hashes : List (HashBytes × BitVec 16)) (level : Nat)
    (buffer : HashBuffer) : Outcome (HashBuffer × Nat) :=
  if level = 0 then do
    pure (← buffer.write 2 p.data, p.data.length)
  else
    match hashes.getLast? with
    | some (prevHash, _) => do pure (← buffer.write 2 prevHash.bytes, 32)
    | none => .fault

variable (sha256 : List (BitVec 8) → HashBytes)

/-- One pass of the level loop: skips an insignificant level, otherwise assembles the hash input
in the buffer and pushes its hash and the cell's depth at this level. -/
def hashLevel (p : CellParts) (levelMask : LevelMask) (isPruned : Bool) (levelOffset : Nat)
    (st : HashState) (level : Nat) : Outcome HashState :=
  if level != 0 && (isPruned || !levelMask.contains level) then pure st
  else do
    let mask := if isPruned then levelMask else LevelMask.fromLevel level
    let d1 := (st.d1 &&& ~~~(CellDescriptor.levelMaskBits ||| CellDescriptor.storeHashesMask)) |||
      (mask.toU8 <<< 5)
    let buffer ← st.buffer.write 0 [d1]
    let buffer ← buffer.write 1 [p.descriptor.d2]
    let (buffer, hashedLen) ← writePayload p st.hashes level buffer
    let (depth, buffer, hashedLen) ←
      p.references.foldlM (depthStep (level + levelOffset)) (0, buffer, hashedLen)
    let (buffer, hashedLen) ← p.references.foldlM (hashStep (level + levelOffset)) (buffer, hashedLen)
    let input ← buffer.read (2 + hashedLen)
    pure ⟨d1, buffer, st.hashes ++ [(sha256 input, depth)]⟩

/-- The function `CellParts::compute_hashes`: validates the cell and computes its hash and depth at each
significant level. -/
def computeHashes (p : CellParts) : Outcome (List (HashBytes × BitVec 16)) := do
  let levelMask := p.descriptor.levelMask
  let (cellType, computedLevelMask) ← p.computeCellType
  if computedLevelMask ≠ levelMask then .err .invalidCell
  else
    let levelOffset := if cellType.isMerkle then 1 else 0
    let st ← (List.range 4).foldlM (hashLevel sha256 p levelMask cellType.isPrunedBranch levelOffset)
      ⟨p.descriptor.d1, HashBuffer.uninit, []⟩
    pure st.hashes

end CellParts

end EverscaleTypes

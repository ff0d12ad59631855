import EverscaleTypes.Cell.Basic

/-! The two descriptor bytes of a cell, the level mask they carry and the cell types an exotic
cell's first data byte selects. The cell module that declares them is not among the sources. -/
namespace EverscaleTypes

/-- Modelled from the spec: `LevelMask(u8)`, the set of the levels 1 to 3 a cell has a hash
for, in three bits. -/
structure LevelMask where
  bits : BitVec 3
  deriving DecidableEq, Repr

namespace LevelMask

def empty : LevelMask := ⟨0⟩

/-- Modelled from the spec: the highest set bit plus one. -/
def level (mask : LevelMask) : Nat :=
  if mask.bits.getLsbD 2 then 3 else if mask.bits.getLsbD 1 then 2 else if mask.bits.getLsbD 0 then 1 else 0

/-- Modelled from the spec: the mask of all levels up to `level`. -/
def fromLevel : Nat → LevelMask
  | 0 => ⟨0⟩
  | 1 => ⟨1⟩
  | 2 => ⟨3⟩
  | _ => ⟨7⟩

/-- Modelled from the spec: level 0 is always present, level `l > 0` when bit `l - 1` is set. -/
def contains (mask : LevelMask) (level : Nat) : Bool :=
  level == 0 || mask.bits.getLsbD (level - 1)

/-- Modelled from the spec: the mask seen `offset` merkle levels down. -/
def virtualize (mask : LevelMask) (offset : Nat) : LevelMask := ⟨mask.bits >>> offset⟩

/-- The byte `u8::from(mask)`. -/
def toU8 (mask : LevelMask) : BitVec 8 := mask.bits.setWidth 8

instance : OrOp LevelMask := ⟨fun a b => ⟨a.bits ||| b.bits⟩⟩

end LevelMask

/-- Modelled from the spec: the descriptor bytes `d1` (reference count, exotic flag,
store-hashes flag, level mask) and `d2` (data length). -/
structure CellDescriptor where
  d1 : BitVec 8
  d2 : BitVec 8
  deriving DecidableEq, Repr

namespace CellDescriptor

def levelMaskBits : BitVec 8 := 0xe0

def storeHashesMask : BitVec 8 := 0x10

def isExoticMask : BitVec 8 := 0x08

def refCountMask : BitVec 8 := 0x07

def levelMask (descriptor : CellDescriptor) : LevelMask := ⟨(descriptor.d1 >>> 5).setWidth 3⟩

def isExotic (descriptor : CellDescriptor) : Bool := descriptor.d1 &&& isExoticMask != 0

def referenceCount (descriptor : CellDescriptor) : Nat := (descriptor.d1 &&& refCountMask).toNat

end CellDescriptor

/-- Modelled from the spec: the closed set of cell kinds. -/
inductive CellType where
  | ordinary
  | prunedBranch
  | libraryReference
  | merkleProof
  | merkleUpdate
  deriving DecidableEq, Repr

namespace CellType

/-- Modelled from the spec: the kind an exotic cell's first data byte names, with the tag values
of the cell format. -/
def fromByteExotic (byte : BitVec 8) : Option CellType :=
  match byte.toNat with
  | 1 => some prunedBranch
  | 2 => some libraryReference
  | 3 => some merkleProof
  | 4 => some merkleUpdate
  | _ => none

def isMerkle : CellType → Bool
  | merkleProof | merkleUpdate => true
  | _ => false

def isPrunedBranch : CellType → Bool
  | prunedBranch => true
  | _ => false

end CellType

end EverscaleTypes

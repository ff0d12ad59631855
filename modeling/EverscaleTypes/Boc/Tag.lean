import Mathlib.Tactic.Common

/-! The magic numbers that open a bag of cells. `BocTag::from_bytes` accepts exactly the three
four-byte constants, and `to_bytes` is its inverse. The encoder and decoder that read and write the
rest of the format are outside the sources. -/
namespace EverscaleTypes

/-- `BocTag`. -/
inductive BocTag where
  | indexed
  | indexedCrc32
  | generic
  deriving DecidableEq, Repr

namespace BocTag

/-- `BocTag::INDEXED`. -/
def indexedBytes : List (BitVec 8) := [0x68, 0xff, 0x65, 0xf3]

/-- `BocTag::INDEXED_CRC32`. -/
def indexedCrc32Bytes : List (BitVec 8) := [0xac, 0xc3, 0xa7, 0x28]

/-- `BocTag::GENERIC`. -/
def genericBytes : List (BitVec 8) := [0xb5, 0xee, 0x9c, 0x72]

/-- `BocTag::from_bytes`: the tag whose constant the four bytes are, if any. -/
def fromBytes (data : List (BitVec 8)) : Option BocTag :=
  if data = genericBytes then some generic
  else if data = indexedCrc32Bytes then some indexedCrc32
  else if data = indexedBytes then some indexed
  else none

/-- `BocTag::to_bytes`. -/
def toBytes : BocTag → List (BitVec 8)
  | indexed => indexedBytes
  | indexedCrc32 => indexedCrc32Bytes
  | generic => genericBytes

/-- `from_bytes` recognises exactly the bytes `to_bytes` writes, each as its own tag. -/
theorem fromBytes_eq_some_iff (data : List (BitVec 8)) (tag : BocTag) :
    fromBytes data = some tag ↔ tag.toBytes = data := by
  constructor
  · intro h
    unfold fromBytes at h
    split_ifs at h <;> cases h <;> subst_vars <;> rfl
  · rintro rfl
    cases tag <;> decide

end BocTag

end EverscaleTypes

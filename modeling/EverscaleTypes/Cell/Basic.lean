import EverscaleTypes.Cell.Bits

/-! The cell layer the sources build on: cells, the builder that appends to a cell under
construction and the slice that reads one. Builder and slice operations are `EStateM` actions, so a
failed call leaves its state as the Rust `&mut self` call leaves it. -/
namespace EverscaleTypes

/-- Modelled from the spec: the error variants the modelled code raises. -/
inductive Error where
  | cellUnderflow
  | cellOverflow
  | invalidTag
  | invalidData
  | intOverflow
  | invalidCell
  | depthOverflow
  | unexpectedExoticCell
  deriving DecidableEq, Repr

/-- Modelled from the spec: the data capacity of a cell, in bits. -/
@[simp] def maxBitLen : Nat := 1023

/-- Modelled from the spec: the reference capacity of a cell. -/
@[simp] def maxRefCount : Nat := 4

/-- Modelled from the spec: a cell as the codecs see it, its exotic flag, its data bits and its
ordered child references. The capacity bounds are the builder's invariant, not the cell's. -/
inductive Cell where
  | mk (isExotic : Bool) (bits : List Bool) (references : List Cell)

namespace Cell

def isExotic : Cell → Bool
  | mk isExotic _ _ => isExotic

def bits : Cell → List Bool
  | mk _ bits _ => bits

def references : Cell → List Cell
  | mk _ _ references => references

/-- The ordinary cell with no data and no references. -/
def empty : Cell := mk false [] []

end Cell

/-- A 256-bit hash, as the 32 bytes of `HashBytes([u8; 32])`. -/
structure HashBytes where
  bytes : List (BitVec 8)
  length_bytes : bytes.length = 32
  deriving DecidableEq

/-- The all-zero hash, `HashBytes::ZERO`. -/
def HashBytes.zero : HashBytes := ⟨List.replicate 32 0, rfl⟩

/-- Modelled from the spec: a builder holds at most `maxBitLen` bits and `maxRefCount`
references; every store checks room first. -/
structure CellBuilder where
  bits : List Bool
  references : List Cell
  bits_le : bits.length ≤ maxBitLen
  references_le : references.length ≤ maxRefCount

/-- Modelled from the spec: the unread rest of a cell, its remaining bits and references. -/
structure CellSlice where
  bits : List Bool
  references : List Cell

/-- A builder operation, as a call on `&mut CellBuilder` returning a `Result`. -/
abbrev BuilderM := EStateM Error CellBuilder

/-- A slice operation, as a call on `&mut CellSlice` returning a `Result`. -/
abbrev SliceM := EStateM Error CellSlice

theorem bind_apply {σ α β : Type} (x : EStateM Error σ α) (f : α → EStateM Error σ β) (s : σ) :
    (x >>= f) s = match x s with
      | .ok a s' => f a s'
      | .error e s' => .error e s' := by
  show EStateM.bind x f s = _
  unfold EStateM.bind
  cases x s <;> rfl

@[simp] theorem pure_apply {σ α : Type} (a : α) (s : σ) :
    (pure a : EStateM Error σ α) s = .ok a s := rfl

/-- A successful action on `x >>= f` ran `x` to a success and then `f` on its result. -/
theorem bind_apply_eq_ok {σ α β : Type} {x : EStateM Error σ α} {f : α → EStateM Error σ β}
    {s r : σ} {b : β} (h : (x >>= f) s = .ok b r) :
    ∃ a middle, x s = .ok a middle ∧ f a middle = .ok b r := by
  rw [bind_apply] at h
  cases hx : x s with
  | ok a middle => exact ⟨a, middle, rfl, by rw [hx] at h; exact h⟩
  | error e middle => rw [hx] at h; cases h

/-- A successful action on `f <$> x` ran `x` to a success whose value `f` maps to the result. -/
theorem map_apply_eq_ok {σ α β : Type} {x : EStateM Error σ α} {f : α → β} {s r : σ} {b : β}
    (h : (f <$> x) s = .ok b r) : ∃ a, x s = .ok a r ∧ f a = b := by
  change EStateM.map f x s = _ at h
  unfold EStateM.map at h
  cases hx : x s with
  | ok a middle => rw [hx] at h; cases h; exact ⟨a, rfl, rfl⟩
  | error e middle => rw [hx] at h; cases h

/-- A successful `Except` computation `x >>= f` ran `x` to a value and then `f` on it. -/
theorem Except.bind_eq_ok {ε α β : Type} {x : Except ε α} {f : α → Except ε β} {b : β}
    (h : x >>= f = .ok b) : ∃ a, x = .ok a ∧ f a = .ok b := by
  cases x with
  | error e => cases h
  | ok a => exact ⟨a, rfl, h⟩

namespace CellBuilder

def new : CellBuilder := ⟨[], [], by decide, by decide⟩

def hasCapacity (builder : CellBuilder) (bits refs : Nat) : Bool :=
  builder.bits.length + bits ≤ maxBitLen && builder.references.length + refs ≤ maxRefCount

/-- Modelled from the spec: append `bits` if they fit, else `CellOverflow` with the builder kept. -/
def storeBits (bits : List Bool) : BuilderM Unit := fun builder =>
  if h : builder.bits.length + bits.length ≤ maxBitLen then
    .ok () { builder with
      bits := builder.bits ++ bits
      bits_le := by simpa only [List.length_append] using h }
  else .error .cellOverflow builder

def storeBit (bit : Bool) : BuilderM Unit := storeBits [bit]

def storeSmallUint (value : BitVec 8) (bits : Nat) : BuilderM Unit :=
  storeBits (encodeBE bits value.toNat)

def storeUint (value : BitVec 64) (bits : Nat) : BuilderM Unit :=
  storeBits (encodeBE bits value.toNat)

def storeU8 (value : BitVec 8) : BuilderM Unit := storeBits (encodeBE 8 value.toNat)

def storeU32 (value : BitVec 32) : BuilderM Unit := storeBits (encodeBE 32 value.toNat)

def storeU256 (value : HashBytes) : BuilderM Unit := storeBits (bytesBits value.bytes)

/-- Modelled from the spec: the first `bits` bits of `value`, zero bits past its end. -/
def storeRaw (value : List (BitVec 8)) (bits : Nat) : BuilderM Unit :=
  storeBits ((bytesBits value ++ List.replicate bits false).take bits)

/-- Modelled from the spec: append a reference if there is room for one. -/
def storeReference (cell : Cell) : BuilderM Unit := fun builder =>
  if h : builder.references.length + 1 ≤ maxRefCount then
    .ok () { builder with
      references := builder.references ++ [cell]
      references_le := by simpa only [List.length_append, List.length_singleton] using h }
  else .error .cellOverflow builder

/-- The check a store makes before writing: `CellOverflow`, with the builder kept, unless it has
room for `bits` more bits. -/
def ensureCapacity (bits : Nat) : BuilderM Unit := fun builder =>
  if builder.hasCapacity bits 0 then .ok () builder else .error .cellOverflow builder

/-- Modelled from the spec: `Option<T>` is stored as a `Maybe`, a zero bit for `None`, a one bit
and the value for `Some`. -/
def storeOption {α : Type} (store : α → BuilderM Unit) : Option α → BuilderM Unit
  | none => storeBit false
  | some value => do
    storeBit true
    store value

/-- The ordinary cell holding what the builder holds. -/
def build (builder : CellBuilder) : Cell :=
  .mk false builder.bits builder.references

end CellBuilder

namespace CellSlice

def remainingBits (slice : CellSlice) : Nat := slice.bits.length

def hasRemaining (slice : CellSlice) (bits refs : Nat) : Bool :=
  bits ≤ slice.bits.length && refs ≤ slice.references.length

def isDataEmpty (slice : CellSlice) : Bool := slice.bits.isEmpty

def isRefsEmpty (slice : CellSlice) : Bool := slice.references.isEmpty

/-- Modelled from the spec: read `count` bits, or `CellUnderflow` with the slice kept. -/
def loadBits (count : Nat) : SliceM (List Bool) := fun slice =>
  if count ≤ slice.bits.length then .ok (slice.bits.take count) { slice with bits := slice.bits.drop count }
  else .error .cellUnderflow slice

def loadBit : SliceM Bool := do
  let bits ← loadBits 1
  pure (bits.headD false)

def loadSmallUint (bits : Nat) : SliceM (BitVec 8) := do
  pure (BitVec.ofNat 8 (decodeBE (← loadBits bits)))

def loadUint (bits : Nat) : SliceM (BitVec 64) := do
  pure (BitVec.ofNat 64 (decodeBE (← loadBits bits)))

def loadU8 : SliceM (BitVec 8) := do
  pure (BitVec.ofNat 8 (decodeBE (← loadBits 8)))

def loadU32 : SliceM (BitVec 32) := do
  pure (BitVec.ofNat 32 (decodeBE (← loadBits 32)))

def loadU256 : SliceM HashBytes := do
  let bits ← loadBits 256
  pure ⟨packBits 32 bits, packBits_length 32 bits⟩

/-- Modelled from the spec: read `bits` bits into the front of `target`, which must hold them. -/
def loadRaw (target : List (BitVec 8)) (bits : Nat) : SliceM (List (BitVec 8)) := fun slice =>
  let count := (bits + 7) / 8
  if count ≤ target.length then
    (do pure (packBits count (← loadBits bits) ++ target.drop count)) slice
  else .error .cellUnderflow slice

/-- Modelled from the spec: `get_raw(offset, target, bits)`, the copy of `bits` bits from `offset`
on into the front of `target` without advancing the slice. Zero bits always succeed; otherwise the
bits must lie in the slice and `target` must hold them, or the result is `CellUnderflow`. The value
is `target` after the copy. -/
def getRaw (slice : CellSlice) (offset : Nat) (target : List (BitVec 8)) (bits : Nat) :
    Except Error (List (BitVec 8)) :=
  let count := (bits + 7) / 8
  if bits = 0 then .ok target
  else if offset + bits ≤ slice.bits.length ∧ count ≤ target.length then
    .ok (packBits count ((slice.bits.drop offset).take bits) ++ target.drop count)
  else .error .cellUnderflow

/-- The check a load makes before reading raw bits: `CellUnderflow` unless `bits` bits remain. -/
def ensureRemaining (bits : Nat) : SliceM Unit := fun slice =>
  if slice.hasRemaining bits 0 then .ok () slice else .error .cellUnderflow slice

/-- Modelled from the spec: `try_advance(bits, refs)`, which moves the slice past `bits` bits and
`refs` references and returns `true` when it has them, and otherwise keeps it and returns `false`. -/
def tryAdvance (bits refs : Nat) (slice : CellSlice) : Bool × CellSlice :=
  if slice.hasRemaining bits refs then (true, ⟨slice.bits.drop bits, slice.references.drop refs⟩)
  else (false, slice)

/-- Modelled from the spec: a `Maybe` bit, then the value when it is one. -/
def loadOption {α : Type} (load : SliceM α) : SliceM (Option α) := do
  if ← loadBit then
    let value ← load
    pure (some value)
  else pure none

/-- Modelled from the spec: take the next reference, or `CellUnderflow` with the slice kept. -/
def loadReference : SliceM Cell := fun slice =>
  match slice.references with
  | cell :: rest => .ok cell { slice with references := rest }
  | [] => .error .cellUnderflow slice

end CellSlice

/-- Modelled from the spec: an ordinary cell reads as a slice over all of it. Every exotic cell is
refused with `UnexpectedExoticCell`; the crate's `CellSlice::new`, which is not under the sources,
refuses only pruned branches, with `PrunedBranchAccess`, and slices library and Merkle cells. A cell
here carries no level mask to tell those apart. -/
def Cell.asSlice (cell : Cell) : Except Error CellSlice :=
  if cell.isExotic then .error .unexpectedExoticCell else .ok ⟨cell.bits, cell.references⟩

end EverscaleTypes

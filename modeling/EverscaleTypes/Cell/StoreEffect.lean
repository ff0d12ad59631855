import EverscaleTypes.Cell.Codec

/-! What a store leaves in the builder on every builder, failures included. A store is a sequence of
builder calls, each a piece: bits and references appended together when the builder has room for
them, or else an error, with the builder left as the earlier pieces left it. A store that checks for
room for everything first is a single piece; one that does not can fail with the pieces that fitted
already written. -/
namespace EverscaleTypes

/-- One builder call of a store: what it appends, and the error it raises when the builder has no
room for that. -/
structure Piece where
  bits : List Bool
  refs : List Cell
  overflow : Error

namespace Piece

/-- A call that appends bits, such as `store_u32`, failing with `CellOverflow`. -/
def ofBits (bits : List Bool) : Piece := ⟨bits, [], .cellOverflow⟩

/-- `store_reference`. -/
def ofReference (cell : Cell) : Piece := ⟨[], [cell], .cellOverflow⟩

end Piece

/-- The action `store` writes `pieces` in order while the builder has room for each: on every builder
it appends the first `count` of them, and then either all are written and it succeeds, or it fails
with the error of the next one, for which the builder has no room. -/
def StoresPieces (store : BuilderM Unit) (pieces : List Piece) : Prop :=
  ∀ builder : CellBuilder, ∃ count ≤ pieces.length, ∃ result : CellBuilder,
    result.bits = builder.bits ++ (pieces.take count).flatMap Piece.bits ∧
    result.references = builder.references ++ (pieces.take count).flatMap Piece.refs ∧
    (count = pieces.length ∧ store builder = .ok () result ∨
      ∃ piece ∈ pieces[count]?, result.hasCapacity piece.bits.length piece.refs.length = false ∧
        store builder = .error piece.overflow result)

namespace StoresPieces

/-- A store that appends exactly `bits` and `refs` when they fit, and otherwise fails with `e` and
leaves the builder as it was, is one piece. -/
theorem of_atomic {store : BuilderM Unit} {bits : List Bool} {refs : List Cell} {e : Error}
    (hStores : StoresExactly store bits refs)
    (hFails : ∀ builder : CellBuilder, builder.hasCapacity bits.length refs.length = false →
      store builder = .error e builder) :
    StoresPieces store [⟨bits, refs, e⟩] := by
  intro builder
  cases hRoom : builder.hasCapacity bits.length refs.length
  · exact ⟨0, Nat.zero_le _, builder, by simp, by simp, .inr ⟨_, rfl, hRoom, hFails builder hRoom⟩⟩
  · obtain ⟨result, hOk, hBits, hRefs⟩ := hStores builder hRoom
    exact ⟨1, le_refl 1, result, by simpa using hBits, by simpa using hRefs, .inl ⟨rfl, hOk⟩⟩

theorem storeBits (bits : List Bool) : StoresPieces (CellBuilder.storeBits bits) [.ofBits bits] :=
  of_atomic (StoresExactly.storeBits bits) fun builder hRoom => dif_neg fun hFit =>
    absurd ((CellBuilder.hasCapacity_iff builder _ ([] : List Cell).length).mpr
      ⟨hFit, builder.references_le⟩) (by rw [hRoom]; exact Bool.false_ne_true)

theorem storeReference (cell : Cell) :
    StoresPieces (CellBuilder.storeReference cell) [.ofReference cell] :=
  of_atomic (StoresExactly.storeReference cell) fun builder hRoom => dif_neg fun hFit =>
    absurd ((CellBuilder.hasCapacity_iff builder ([] : List Bool).length [cell].length).mpr
      ⟨builder.bits_le, hFit⟩) (by rw [hRoom]; exact Bool.false_ne_true)

/-- Two stores in sequence write the pieces of the first and, once all of those are written, the
pieces of the second. -/
theorem seq {first second : BuilderM Unit} {pieces₁ pieces₂ : List Piece}
    (h₁ : StoresPieces first pieces₁) (h₂ : StoresPieces second pieces₂) :
    StoresPieces (first >>= fun _ => second) (pieces₁ ++ pieces₂) := by
  intro builder
  obtain ⟨count, hCount, middle, hBits, hRefs, hFirst | ⟨piece, hPiece, hRoom, hFirst⟩⟩ := h₁ builder
  · obtain ⟨rfl, hFirst⟩ := hFirst
    obtain ⟨count', hCount', result, hBits', hRefs', hSecond⟩ := h₂ middle
    have hTake : (pieces₁ ++ pieces₂).take (pieces₁.length + count') =
        pieces₁ ++ pieces₂.take count' := by
      rw [List.take_append_eq_append_take, List.take_of_length_le (by omega), Nat.add_sub_cancel_left]
    refine ⟨pieces₁.length + count', by simp; omega, result, ?_, ?_, ?_⟩
    · rw [hTake, hBits', hBits, List.flatMap_append, List.append_assoc, List.take_length]
    · rw [hTake, hRefs', hRefs, List.flatMap_append, List.append_assoc, List.take_length]
    · rw [bind_apply, hFirst]
      rcases hSecond with ⟨rfl, hSecond⟩ | ⟨piece, hPiece, hRoom, hSecond⟩
      · exact .inl ⟨by simp, hSecond⟩
      · refine .inr ⟨piece, ?_, hRoom, hSecond⟩
        rwa [List.getElem?_append_right (by omega), Nat.add_sub_cancel_left]
  · have hLt : count < pieces₁.length := (List.getElem?_eq_some_iff.mp hPiece).1
    refine ⟨count, by simp; omega, middle, ?_, ?_, .inr ⟨piece, ?_, hRoom, ?_⟩⟩
    · rw [List.take_append_of_le_length hLt.le, hBits]
    · rw [List.take_append_of_le_length hLt.le, hRefs]
    · rwa [List.getElem?_append_left hLt]
    · rw [bind_apply, hFirst]

/-- On a builder with room for all the pieces, every one of them is written. -/
theorem stores {store : BuilderM Unit} {pieces : List Piece} (h : StoresPieces store pieces) :
    StoresExactly store (pieces.flatMap Piece.bits) (pieces.flatMap Piece.refs) := by
  intro builder hRoom
  obtain ⟨count, -, result, hBits, hRefs, ⟨rfl, hOk⟩ | ⟨piece, hPiece, hNoRoom, -⟩⟩ := h builder
  · rw [List.take_length] at hBits hRefs
    exact ⟨result, hOk, hBits, hRefs⟩
  · obtain ⟨hLt, rfl⟩ := List.getElem?_eq_some_iff.mp hPiece
    have hSplit := List.take_append_drop count pieces
    rw [List.drop_eq_getElem_cons hLt] at hSplit
    rw [CellBuilder.hasCapacity_iff, ← hSplit] at hRoom
    rw [Bool.eq_false_iff, ne_eq, CellBuilder.hasCapacity_iff, hBits, hRefs] at hNoRoom
    simp only [List.flatMap_append, List.flatMap_cons, List.length_append] at hRoom hNoRoom
    omega

end StoresPieces

end EverscaleTypes

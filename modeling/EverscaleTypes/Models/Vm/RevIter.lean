import EverscaleTypes.Models.Vm.OutActions

/-! What the reverse iterator over out-actions does on any slice, well-formed or not. Cells are
finite trees, and every call either stays where it is or goes down: to the previous node after an
action, or, after an error, to what the failed load left, with fewer references. So every walk
settles, and from some call on returns one value forever. That value is not always `None`: when
`load_reference` fails on a node that still has data, the slice is left as it was and every later
call reports `InvalidData` again. A walk that does end with `None` after only `Ok` actions stood on
a list of those actions, each node holding its action's encoding and possibly more data after it. -/
namespace EverscaleTypes

mutual

/-- The height of a cell: one more than the tallest of its children. -/
def Cell.height : Cell → Nat
  | .mk _ _ references => Cell.heightList references + 1

/-- The height of the tallest cell of a list of references, zero for none. -/
def Cell.heightList : List Cell → Nat
  | [] => 0
  | cell :: rest => max cell.height (Cell.heightList rest)

end

mutual

/-- Modelled from the spec: a cell a builder can produce, with at most `maxBitLen` bits and
`maxRefCount` references, as is every cell below it. -/
def Cell.bounded : Cell → Bool
  | .mk _ bits references =>
      decide (bits.length ≤ maxBitLen) && decide (references.length ≤ maxRefCount) &&
        Cell.boundedList references

/-- Every cell of a list of references is bounded. -/
def Cell.boundedList : List Cell → Bool
  | [] => true
  | cell :: rest => cell.bounded && Cell.boundedList rest

end

/-- A cell that `as_slice` reads is the ordinary cell of the slice's bits and references. -/
theorem Cell.eq_of_asSlice {cell : Cell} {slice : CellSlice} (h : cell.asSlice = .ok slice) :
    cell = .mk false slice.bits slice.references := by
  obtain ⟨_ | _, bits, references⟩ := cell <;> cases h
  rfl

theorem Cell.heightList_lt_cons (isExotic : Bool) (bits : List Bool) (references rest : List Cell) :
    Cell.heightList references < Cell.heightList (.mk isExotic bits references :: rest) := by
  simp only [Cell.heightList, Cell.height]
  omega

/-- A list's height bounds the height of every suffix of it. -/
theorem Cell.heightList_le_of_suffix {references rest : List Cell} (h : rest <:+ references) :
    Cell.heightList rest ≤ Cell.heightList references := by
  obtain ⟨front, rfl⟩ := h
  induction front with
  | nil => exact le_refl _
  | cons cell front ih =>
      rw [List.cons_append, Cell.heightList]
      exact le_trans ih (le_max_right _ _)

/-! ### Loads that only consume -/

/-- The load `load` only consumes references: on success and on failure alike, the references it
leaves are a suffix of those it was given. Every load of the sources does; the currency and `Lazy`
loads are parameters, and the results below assume it of them. -/
def OnlyConsumes {α : Type} (load : SliceM α) : Prop :=
  ∀ slice, (∀ value rest, load slice = .ok value rest → rest.references <:+ slice.references) ∧
    ∀ e rest, load slice = .error e rest → rest.references <:+ slice.references

namespace OnlyConsumes

variable {α β : Type}

/-- A load that keeps the references it was given, whatever its outcome. -/
theorem of_keeps {load : SliceM α}
    (h : ∀ slice, (∀ value rest, load slice = .ok value rest → rest.references = slice.references) ∧
      ∀ e rest, load slice = .error e rest → rest.references = slice.references) :
    OnlyConsumes load := fun slice =>
  ⟨fun value rest hOk => ((h slice).1 value rest hOk).symm ▸ List.suffix_refl _,
    fun e rest hError => ((h slice).2 e rest hError).symm ▸ List.suffix_refl _⟩

theorem pure (value : α) : OnlyConsumes (Pure.pure value : SliceM α) :=
  of_keeps fun _ => ⟨fun _ _ h => (by cases h; rfl), fun _ _ h => by cases h⟩

theorem throw (e : Error) : OnlyConsumes (MonadExcept.throw e : SliceM α) :=
  of_keeps fun _ => ⟨fun _ _ h => (by cases h), fun _ _ h => by cases h; rfl⟩

theorem bind {x : SliceM α} {f : α → SliceM β} (hx : OnlyConsumes x) (hf : ∀ a, OnlyConsumes (f a)) :
    OnlyConsumes (x >>= f) := by
  intro slice
  rw [bind_apply]
  cases hRun : x slice with
  | ok a middle =>
      have hMiddle := (hx slice).1 a middle hRun
      exact ⟨fun value rest h => ((hf a middle).1 value rest h).trans hMiddle,
        fun e rest h => ((hf a middle).2 e rest h).trans hMiddle⟩
  | error e middle =>
      refine ⟨fun _ _ h => (by cases h), fun _ _ h => ?_⟩
      cases h
      exact (hx slice).2 e middle hRun

theorem map (f : α → β) {x : SliceM α} (hx : OnlyConsumes x) : OnlyConsumes (f <$> x) := by
  rw [map_eq_pure_bind]
  exact hx.bind fun _ => pure _

theorem loadBits (count : Nat) : OnlyConsumes (CellSlice.loadBits count) :=
  of_keeps fun slice => by
    unfold CellSlice.loadBits
    split
    · exact ⟨fun _ _ h => (by cases h; rfl), fun _ _ h => by cases h⟩
    · exact ⟨fun _ _ h => (by cases h), fun _ _ h => by cases h; rfl⟩

theorem loadU8 : OnlyConsumes CellSlice.loadU8 := (loadBits 8).bind fun _ => pure _

theorem loadU32 : OnlyConsumes CellSlice.loadU32 := (loadBits 32).bind fun _ => pure _

theorem loadU256 : OnlyConsumes CellSlice.loadU256 := (loadBits 256).bind fun _ => pure _

theorem loadReference : OnlyConsumes CellSlice.loadReference := fun ⟨bits, references⟩ => by
  cases references with
  | nil => exact ⟨fun _ _ h => (by cases h), fun _ _ h => by cases h; exact List.suffix_refl _⟩
  | cons cell rest =>
      exact ⟨fun _ _ h => (by cases h; exact List.suffix_cons cell rest), fun _ _ h => by cases h⟩

end OnlyConsumes

/-- `OutAction::load_from` only consumes references, given currency and `Lazy` loads that do. -/
theorem OutAction.loadFrom_onlyConsumes {Currency : Type} {loadCurrency : SliceM Currency}
    {loadLazy : SliceM Lazy} (hCurrency : OnlyConsumes loadCurrency) (hLazy : OnlyConsumes loadLazy) :
    OnlyConsumes (OutAction.loadFrom loadCurrency loadLazy) := by
  refine OnlyConsumes.loadU32.bind fun tag => ?_
  unfold OutAction.loadTagged
  split_ifs
  · exact (OnlyConsumes.loadU8.map _).bind fun _ => hLazy.bind fun _ => .pure _
  · exact OnlyConsumes.loadReference.bind fun _ => .pure _
  · exact (OnlyConsumes.loadU8.map _).bind fun _ => hCurrency.bind fun _ => .pure _
  · refine OnlyConsumes.loadU8.bind fun flags => ?_
    dsimp only
    split <;> refine .bind (by first | exact .pure _ | exact .throw _) fun mode => ?_ <;> split <;>
      first
      | exact (OnlyConsumes.loadU256.map _).bind fun _ => .pure _
      | exact (OnlyConsumes.loadReference.map _).bind fun _ => .pure _
  · exact OnlyConsumes.loadU8.bind fun _ => OnlyConsumes.loadU256.bind fun _ => .pure _
  · exact .throw _

namespace OutActionsRevIter

/-! ### Every walk settles -/

/-- The measure a call of `next` lowers unless it stays where it is: the height of the references
left in the slice, then their count. -/
def measure (iter : OutActionsRevIter) : Nat × Nat :=
  (Cell.heightList iter.slice.references, iter.slice.references.length)

/-- The order in which calls of `next` go down: the measure, compared lexicographically. -/
def Below : OutActionsRevIter → OutActionsRevIter → Prop :=
  InvImage (Prod.Lex (· < ·) (· < ·)) measure

theorem below_wf : WellFounded Below :=
  InvImage.wf _ (WellFounded.prod_lex Nat.lt_wfRel.wf Nat.lt_wfRel.wf)

theorem below_iff {iter iter' : OutActionsRevIter} :
    Below iter' iter ↔ Cell.heightList iter'.slice.references < Cell.heightList iter.slice.references ∨
      Cell.heightList iter'.slice.references = Cell.heightList iter.slice.references ∧
        iter'.slice.references.length < iter.slice.references.length :=
  Prod.lex_def

variable {Currency : Type} (loadCurrency : SliceM Currency) (loadLazy : SliceM Lazy)

/-- What one call can do: on a slice without references it stays where it is and returns `None`
(no data left) or `Some(Err(InvalidData))`; otherwise it takes the first reference and goes down,
to the previous node after an action, or to what the failed load left of the rest. -/
theorem next_cases (hCurrency : OnlyConsumes loadCurrency) (hLazy : OnlyConsumes loadLazy)
    (iter : OutActionsRevIter) :
    (next loadCurrency loadLazy iter).2 = iter ∧
        ((next loadCurrency loadLazy iter).1 = none ∨
          (next loadCurrency loadLazy iter).1 = some (.error .invalidData)) ∨
      Below (next loadCurrency loadLazy iter).2 iter := by
  obtain ⟨⟨bits, _ | ⟨prev, rest⟩⟩⟩ := iter
  · left
    simp only [next, CellSlice.loadReference]
    split <;> simp
  · right
    have hLoaded := OutAction.loadFrom_onlyConsumes hCurrency hLazy ⟨bits, rest⟩
    have hDrop : ∀ after : CellSlice, after.references <:+ rest →
        Below ⟨after⟩ ⟨⟨bits, prev :: rest⟩⟩ := fun after hSuffix => by
      have hHeight := Cell.heightList_le_of_suffix hSuffix
      have hTail := Cell.heightList_le_of_suffix (List.suffix_cons prev rest)
      have hLength := hSuffix.length_le
      rw [below_iff]
      simp only [List.length_cons]
      omega
    simp only [next, CellSlice.loadReference]
    split
    · exact hDrop _ (hLoaded.2 _ _ ‹_›)
    · split
      · exact hDrop _ (hLoaded.1 _ _ ‹_›)
      · rename_i hPrev
        obtain rfl := Cell.eq_of_asSlice hPrev
        exact below_iff.2 (.inl (Cell.heightList_lt_cons false _ _ rest))

/-- A call that leaves the iterator where it is returns the same value on every later call. -/
theorem results_of_stay {iter : OutActionsRevIter} (h : (next loadCurrency loadLazy iter).2 = iter)
    (count : Nat) :
    results loadCurrency loadLazy count iter =
      List.replicate count (next loadCurrency loadLazy iter).1 := by
  induction count with
  | zero => rfl
  | succ count ih => rw [results, h, ih, List.replicate_succ]

/-- From every state the walk settles: after some number of calls, every further call returns one
value, `None` or `Some(Err(InvalidData))`. By well-founded induction on `Below`. -/
theorem settles (hCurrency : OnlyConsumes loadCurrency) (hLazy : OnlyConsumes loadLazy)
    (iter : OutActionsRevIter) :
    ∃ count, ∃ item : Option (Except Error (OutAction Currency)),
      (item = none ∨ item = some (.error .invalidData)) ∧ ∀ extra,
        results loadCurrency loadLazy (count + extra) iter =
          results loadCurrency loadLazy count iter ++ List.replicate extra item := by
  induction iter using below_wf.induction with
  | _ iter ih =>
    rcases next_cases loadCurrency loadLazy hCurrency hLazy iter with ⟨hStay, hItem⟩ | hBelow
    · refine ⟨0, _, hItem, fun extra => ?_⟩
      rw [Nat.zero_add, results_of_stay loadCurrency loadLazy hStay]
      rfl
    · obtain ⟨count, item, hItem, hSettle⟩ := ih _ hBelow
      refine ⟨count + 1, item, hItem, fun extra => ?_⟩
      rw [Nat.add_right_comm, results, results, hSettle, List.cons_append]

/-- A call that returns `None` stands on an empty node and stays there. -/
theorem next_eq_none {iter : OutActionsRevIter} (h : (next loadCurrency loadLazy iter).1 = none) :
    iter = new ⟨[], []⟩ ∧ (next loadCurrency loadLazy iter).2 = iter := by
  obtain ⟨⟨bits, _ | ⟨cell, rest⟩⟩⟩ := iter
  · simp only [next, CellSlice.loadReference] at h ⊢
    split at h
    · rename_i hEmpty
      simp only [CellSlice.isDataEmpty, CellSlice.isRefsEmpty, List.isEmpty_eq_true,
        Bool.and_eq_true] at hEmpty
      rw [hEmpty.1]
      exact ⟨rfl, rfl⟩
    · cases h
  · simp only [next, CellSlice.loadReference] at h
    split at h
    · cases h
    · split at h <;> cases h

/-- A node with data and no reference never ends: `load_reference` fails and leaves the slice as it
was, so every call reports `InvalidData` again. -/
theorem results_of_no_reference {bits : List Bool} (hBits : bits ≠ []) (count : Nat) :
    results loadCurrency loadLazy count (new ⟨bits, []⟩) =
      List.replicate count (some (.error .invalidData)) := by
  have hNext : next loadCurrency loadLazy (new ⟨bits, []⟩) =
      (some (.error .invalidData), new ⟨bits, []⟩) := by
    simp [next, new, CellSlice.loadReference, CellSlice.isDataEmpty, hBits]
  rw [results_of_stay loadCurrency loadLazy (by rw [hNext]), hNext]

/-- On every slice the iterator settles after finitely many calls: from some call on, every call
returns the same value, `None` or `Some(Err(InvalidData))`, as long as the currency and `Lazy`
loads only consume references. Once a call returns `None`, every later call does. `None` is not
always reached: a node with data and no reference returns `Some(Err(InvalidData))` on every call. -/
theorem results_settle (hCurrency : OnlyConsumes loadCurrency) (hLazy : OnlyConsumes loadLazy) :
    (∀ slice : CellSlice, ∃ count, ∃ item : Option (Except Error (OutAction Currency)),
      (item = none ∨ item = some (.error .invalidData)) ∧ ∀ extra,
        results loadCurrency loadLazy (count + extra) (new slice) =
          results loadCurrency loadLazy count (new slice) ++ List.replicate extra item) ∧
    (∀ iter, (next loadCurrency loadLazy iter).1 = none → ∀ count,
      results loadCurrency loadLazy count (next loadCurrency loadLazy iter).2 =
        List.replicate count none) ∧
    ∀ bits : List Bool, bits ≠ [] → ∀ count, results loadCurrency loadLazy count (new ⟨bits, []⟩) =
      List.replicate count (some (.error .invalidData)) := by
  refine ⟨fun slice => settles loadCurrency loadLazy hCurrency hLazy (new slice), fun iter h count => ?_,
    fun _ hBits => results_of_no_reference loadCurrency loadLazy hBits⟩
  obtain ⟨-, hStay⟩ := next_eq_none loadCurrency loadLazy h
  rw [hStay, results_of_stay loadCurrency loadLazy hStay, h]

theorem results_settle_u8 :
    OnlyConsumes CellSlice.loadU8 ∧ OnlyConsumes (Lazy.mk <$> CellSlice.loadReference) ∧
      (∀ slice : CellSlice, ∃ count, ∃ item : Option (Except Error (OutAction (BitVec 8))),
        (item = none ∨ item = some (.error .invalidData)) ∧ ∀ extra,
          results CellSlice.loadU8 (Lazy.mk <$> CellSlice.loadReference) (count + extra) (new slice) =
            results CellSlice.loadU8 (Lazy.mk <$> CellSlice.loadReference) count (new slice) ++
              List.replicate extra item) ∧
      (∀ iter, (next CellSlice.loadU8 (Lazy.mk <$> CellSlice.loadReference) iter).1 =
          (none : Option (Except Error (OutAction (BitVec 8)))) → ∀ count,
        results CellSlice.loadU8 (Lazy.mk <$> CellSlice.loadReference) count
            (next CellSlice.loadU8 (Lazy.mk <$> CellSlice.loadReference) iter).2 =
          (List.replicate count none : List (Option (Except Error (OutAction (BitVec 8)))))) ∧
      ∀ bits : List Bool, bits ≠ [] → ∀ count,
        results CellSlice.loadU8 (Lazy.mk <$> CellSlice.loadReference) count (new ⟨bits, []⟩) =
          (List.replicate count (some (.error .invalidData)) :
            List (Option (Except Error (OutAction (BitVec 8))))) :=
  ⟨OnlyConsumes.loadU8, OnlyConsumes.loadReference.map _,
    results_settle _ _ OnlyConsumes.loadU8 (OnlyConsumes.loadReference.map _)⟩

/-- A one-bit node without references: none of the first three calls returns `None`, each an
`InvalidData` error. -/
theorem results_oneBitNode :
    results CellSlice.loadU8 (Lazy.mk <$> CellSlice.loadReference) 3 (new ⟨[true], []⟩) =
      List.replicate 3 (some (.error .invalidData : Except Error (OutAction (BitVec 8)))) :=
  results_of_no_reference _ _ (List.cons_ne_nil _ _) 3

section Soundness

variable {Currency : Type} (storeCurrency : Currency → BuilderM Unit) (loadCurrency : SliceM Currency)
  (loadLazy : SliceM Lazy)

/-- A call of `next` that returns an action took the first reference of the node as the previous
node, loaded the action from the rest, and moved to the previous node's slice. -/
theorem next_eq_ok {slice : CellSlice} {action : OutAction Currency} {iter : OutActionsRevIter}
    (h : next loadCurrency loadLazy (new slice) = (some (.ok action), iter)) :
    ∃ prev rest after, slice.references = prev :: rest ∧
      OutAction.loadFrom loadCurrency loadLazy ⟨slice.bits, rest⟩ = .ok action after ∧
      prev.asSlice = .ok iter.slice := by
  obtain ⟨bits, _ | ⟨prev, rest⟩⟩ := slice
  · simp only [next, new, CellSlice.loadReference] at h
    split at h <;> cases h
  · simp only [next, new, CellSlice.loadReference] at h
    split at h
    · cases h
    · rename_i after hLoad
      split at h
      · cases h
      · rename_i prevSlice hPrev
        cases h
        exact ⟨prev, rest, after, rfl, hLoad, hPrev⟩

theorem node_of_storeInto {prev : Cell} {action : OutAction Currency} {builder : CellBuilder}
    (h : action.storeInto storeCurrency ⟨[], [prev], by decide, Nat.le_of_ble_eq_true rfl⟩ =
      .ok () builder) :
    node storeCurrency prev action = some builder.build := by
  have hReference : CellBuilder.storeReference prev CellBuilder.new =
      .ok () ⟨[], [prev], by decide, Nat.le_of_ble_eq_true rfl⟩ := rfl
  simp only [node, bind_apply, hReference, h]

/-- A call that returns an action from a bounded cell stood on a padded node: the previous node is
the first reference, what the action's `store_into` writes follows it, and then anything. -/
theorem paddedNode_of_next {action : OutAction Currency}
    (hCurrency : action.carriesCurrency = true → StoresBack loadCurrency storeCurrency)
    (hLazy : StoresBack loadLazy fun outMsg => CellBuilder.storeReference outMsg.inner)
    {cell : Cell} {slice : CellSlice} {iter : OutActionsRevIter}
    (hBounded : cell.bounded = true) (hSlice : cell.asSlice = .ok slice)
    (h : next loadCurrency loadLazy (new slice) = (some (.ok action), iter)) :
    ∃ prev extraBits extraRefs, paddedNode storeCurrency prev (action, extraBits, extraRefs) = some cell ∧
      prev.bounded = true ∧ prev.asSlice = .ok iter.slice := by
  obtain ⟨prev, rest, after, hRefs, hLoad, hPrev⟩ := next_eq_ok loadCurrency loadLazy h
  obtain ⟨tag, middle, hTag, hTagged⟩ := bind_apply_eq_ok hLoad
  obtain ⟨bits, refs, hConsumed, hStore⟩ :=
    OutAction.loadTagged_storesBack storeCurrency loadCurrency loadLazy hCurrency hLazy hTagged
  obtain ⟨hBits, hRest⟩ := (CellSlice.loadU32_eq_ok hTag).trans hConsumed
  dsimp only at hBits hRest
  rw [Cell.eq_of_asSlice hSlice] at hBounded ⊢
  simp only [Cell.bounded, Cell.boundedList, hRefs, Bool.and_eq_true, decide_eq_true_eq] at hBounded
  obtain ⟨⟨hBitsLe, hRefsLe⟩, hPrevBounded, -⟩ := hBounded
  simp only [hBits, hRest, List.length_append, List.length_cons, List.length_nil] at hBitsLe hRefsLe
  obtain ⟨builder, hOk, hBuilderBits, hBuilderRefs⟩ := hStore ⟨[], [prev], by decide,
    Nat.le_of_ble_eq_true rfl⟩ ((CellBuilder.hasCapacity_iff _ _ _).2
      ⟨by simp only [List.length_nil, List.length_append]; omega,
        by simp only [List.length_singleton, List.length_append, List.length_nil]; omega⟩)
  refine ⟨prev, after.bits, after.references, ?_, hPrevBounded, hPrev⟩
  rw [paddedNode, node_of_storeInto storeCurrency hOk]
  simp [CellBuilder.build, Cell.bits, Cell.references, hBuilderBits, hBuilderRefs, hBits, hRefs, hRest]

/-- The iterator reads nothing but padded lists: when it returns `n` actions from a bounded cell,
each `Ok`, and then `None`, the cell is the head of a padded list of those actions, the oldest at the
bottom. So a walk that ends cleanly stood on nodes that each hold the previous node, the encoding of
one action and any further data, down to an empty cell. The currency codec need be canonical only
when one of the actions carries a currency value. -/
theorem paddedList_of_results {actions : List (OutAction Currency)}
    (hCurrency : (∃ action ∈ actions, action.carriesCurrency = true) →
      StoresBack loadCurrency storeCurrency)
    (hLazy : StoresBack loadLazy fun outMsg => CellBuilder.storeReference outMsg.inner)
    {cell : Cell} {slice : CellSlice}
    (hBounded : cell.bounded = true) (hSlice : cell.asSlice = .ok slice)
    (h : results loadCurrency loadLazy (actions.length + 1) (new slice) =
      actions.reverse.map (fun action => some (.ok action)) ++ [none]) :
    ∃ entries : List (OutAction Currency × List Bool × List Cell),
      entries.map Prod.fst = actions ∧ paddedList storeCurrency entries = some cell := by
  induction actions using List.reverseRecOn generalizing cell slice with
  | nil =>
      simp only [List.length_nil, results, List.reverse_nil, List.map_nil, List.nil_append,
        List.cons.injEq, and_true] at h
      obtain ⟨hEmpty, -⟩ := next_eq_none loadCurrency loadLazy h
      have hSliceEmpty : slice = ⟨[], []⟩ := congrArg OutActionsRevIter.slice hEmpty
      subst hSliceEmpty
      exact ⟨[], rfl, by rw [Cell.eq_of_asSlice hSlice]; rfl⟩
  | append_singleton actions action ih =>
      simp only [List.length_append, List.length_singleton, results, List.reverse_append,
        List.reverse_singleton, List.singleton_append, List.map_cons, List.cons_append,
        List.cons.injEq] at h
      obtain ⟨hHead, hTail⟩ := h
      obtain ⟨prev, extraBits, extraRefs, hPadded, hPrevBounded, hPrev⟩ :=
        paddedNode_of_next storeCurrency loadCurrency loadLazy
          (fun hCarries => hCurrency ⟨action, List.mem_append_right _ (List.mem_singleton_self _),
            hCarries⟩) hLazy hBounded hSlice (Prod.ext hHead rfl)
      obtain ⟨entries, hMap, hList⟩ :=
        ih (fun ⟨other, hMem, hCarries⟩ => hCurrency ⟨other, List.mem_append_left _ hMem, hCarries⟩)
          hPrevBounded hPrev hTail
      refine ⟨entries ++ [(action, extraBits, extraRefs)], by simp [hMap], ?_⟩
      rw [paddedList_append_singleton, hList]
      exact hPadded

end Soundness

theorem paddedList_of_results_threeActions :
    ((∃ action ∈ threeActions, action.carriesCurrency = true) →
        StoresBack CellSlice.loadU8 CellBuilder.storeU8) ∧
      StoresBack (Lazy.mk <$> CellSlice.loadReference)
        (fun outMsg => CellBuilder.storeReference outMsg.inner) ∧
      paddedThreeActionsNode.bounded = true ∧
      paddedThreeActionsNode.asSlice =
        .ok ⟨paddedThreeActionsNode.bits, paddedThreeActionsNode.references⟩ ∧
      results CellSlice.loadU8 (Lazy.mk <$> CellSlice.loadReference) (threeActions.length + 1)
          (new ⟨paddedThreeActionsNode.bits, paddedThreeActionsNode.references⟩) =
        threeActions.reverse.map (fun action => some (.ok action)) ++ [none] ∧
      ∃ entries : List (OutAction (BitVec 8) × List Bool × List Cell),
        entries.map Prod.fst = threeActions ∧
        paddedList CellBuilder.storeU8 entries = some paddedThreeActionsNode := by
  have hCurrency : StoresBack CellSlice.loadU8 CellBuilder.storeU8 := fun h =>
    ⟨_, _, CellSlice.loadU8_eq_ok h, .storeU8 _⟩
  have hLazy : StoresBack (Lazy.mk <$> CellSlice.loadReference)
      fun outMsg => CellBuilder.storeReference outMsg.inner := fun h => by
    obtain ⟨cell, hCell, rfl⟩ := map_apply_eq_ok h
    exact ⟨_, _, CellSlice.loadReference_eq_ok hCell, .storeReference cell⟩
  exact ⟨fun _ => hCurrency, hLazy, rfl, rfl, rfl,
    paddedList_of_results CellBuilder.storeU8 CellSlice.loadU8 _ (fun _ => hCurrency) hLazy rfl rfl rfl⟩

end OutActionsRevIter

end EverscaleTypes

import EverscaleTypes.Cell.StoreEffect
import Mathlib.Tactic.IntervalCases

/-! Output actions: the five actions a contract's action phase can take, their tagged cell layout,
and the reverse iterator that walks a list of them from its head cell. The layout is proved both
ways: what a store writes is read back, and what a load accepts is exactly what storing its result
writes. The currency collection and the lazy message cell come from modules outside the sources;
their codecs are parameters, and the results here hold for any codecs with the same properties. -/
namespace EverscaleTypes

/-- `SendMsgFlags`: the mode byte of a `SendMsg` action, with unknown bits kept. -/
structure SendMsgFlags where
  bits : BitVec 8

/-- `SendMsgFlags::load_from`: `from_bits_retain` of the next byte. -/
def SendMsgFlags.loadFrom : SliceM SendMsgFlags := SendMsgFlags.mk <$> CellSlice.loadU8

/-- `ReserveCurrencyFlags`: the mode byte of a `ReserveCurrency` action, with unknown bits kept. -/
structure ReserveCurrencyFlags where
  bits : BitVec 8

/-- `ReserveCurrencyFlags::load_from`: `from_bits_retain` of the next byte. -/
def ReserveCurrencyFlags.loadFrom : SliceM ReserveCurrencyFlags :=
  ReserveCurrencyFlags.mk <$> CellSlice.loadU8

/-- `ChangeLibraryMode`. -/
inductive ChangeLibraryMode where
  | remove
  | addPrivate
  | addPublic
  deriving DecidableEq

namespace ChangeLibraryMode

/-- `mode as u8`: the `#[repr(u8)]` discriminant. -/
def toU8 : ChangeLibraryMode → BitVec 8
  | remove => 0
  | addPrivate => 1
  | addPublic => 2

/-- `ChangeLibraryMode::try_from(u8)`: `InvalidData` past the three discriminants. -/
def tryFrom (value : BitVec 8) : Except Error ChangeLibraryMode :=
  if value = 0 then .ok remove
  else if value = 1 then .ok addPrivate
  else if value = 2 then .ok addPublic
  else .error .invalidData

/-- The flags byte of a hash reference carries the mode above a zero bit. -/
theorem flags_hash (mode : ChangeLibraryMode) :
    tryFrom ((mode.toU8 <<< 1) >>> 1) = .ok mode ∧ (mode.toU8 <<< 1) &&& 1 = 0 := by
  cases mode <;> exact ⟨rfl, by decide⟩

/-- The flags byte of a cell reference carries the mode above a one bit. -/
theorem flags_cell (mode : ChangeLibraryMode) :
    tryFrom (((mode.toU8 <<< 1) ||| 1) >>> 1) = .ok mode ∧ ((mode.toU8 <<< 1) ||| 1) &&& 1 ≠ 0 := by
  cases mode <;> exact ⟨rfl, by decide⟩

/-- The mode `try_from` accepts is the one whose discriminant it was given. -/
theorem eq_toU8_of_tryFrom {value : BitVec 8} {mode : ChangeLibraryMode}
    (h : tryFrom value = .ok mode) : value = mode.toU8 := by
  unfold tryFrom at h
  split_ifs at h <;> cases h <;> assumption

/-- A flags byte whose upper seven bits `try_from` accepts is the mode's discriminant above the
byte's low bit. -/
theorem flags_of_tryFrom {flags : BitVec 8} {mode : ChangeLibraryMode}
    (h : tryFrom (flags >>> 1) = .ok mode) : flags = (mode.toU8 <<< 1) ||| (flags &&& 1) := by
  rw [← eq_toU8_of_tryFrom h]
  apply BitVec.eq_of_getLsbD_eq
  intro ⟨i, hi⟩
  simp only [BitVec.getLsbD_or, BitVec.getLsbD_shiftLeft, BitVec.getLsbD_ushiftRight,
    BitVec.getLsbD_and]
  interval_cases i <;> simp

theorem and_one_eq_one {flags : BitVec 8} (h : ¬flags &&& 1 = 0) : flags &&& 1 = 1 := by
  revert flags
  decide

end ChangeLibraryMode

/-- `LibRef`: a library by the hash of its code, or the code cell itself. -/
inductive LibRef where
  | hash (hash : HashBytes)
  | cell (cell : Cell)

/-- `Lazy<OwnedRelaxedMessage>`: a message kept as its cell. `inner` is the cell a `SendMsg`
action stores; `Lazy::load_from` is outside the sources and is a parameter below. -/
structure Lazy where
  inner : Cell

/-- `OutAction`, over the type of `CurrencyCollection` values. -/
inductive OutAction (Currency : Type) where
  | sendMsg (mode : SendMsgFlags) (outMsg : Lazy)
  | setCode (newCode : Cell)
  | reserveCurrency (mode : ReserveCurrencyFlags) (value : Currency)
  | changeLibrary (mode : ChangeLibraryMode) (lib : LibRef)
  | copyLeft (license : BitVec 8) (address : HashBytes)

namespace OutAction

/-- `OutAction::TAG_SEND_MSG`. -/
def tagSendMsg : BitVec 32 := 0x0ec3c86d

/-- `OutAction::TAG_SET_CODE`. -/
def tagSetCode : BitVec 32 := 0xad4de08e

/-- `OutAction::TAG_RESERVE`. -/
def tagReserve : BitVec 32 := 0x36e6b809

/-- `OutAction::TAG_CHANGE_LIB`. -/
def tagChangeLib : BitVec 32 := 0x26fa1dd4

/-- `OutAction::TAG_COPYLEFT`. -/
def tagCopyleft : BitVec 32 := 0x24486f7a

section Codec

variable {Currency : Type} (storeCurrency : Currency → BuilderM Unit) (loadCurrency : SliceM Currency)
  (loadLazy : SliceM Lazy)

/-- `OutAction::store_into`: the 32-bit tag, then the action's fields. -/
def storeInto : OutAction Currency → BuilderM Unit
  | sendMsg mode outMsg => do
      CellBuilder.storeU32 tagSendMsg
      CellBuilder.storeU8 mode.bits
      CellBuilder.storeReference outMsg.inner
  | setCode newCode => do
      CellBuilder.storeU32 tagSetCode
      CellBuilder.storeReference newCode
  | reserveCurrency mode value => do
      CellBuilder.storeU32 tagReserve
      CellBuilder.storeU8 mode.bits
      storeCurrency value
  | changeLibrary mode lib => do
      CellBuilder.storeU32 tagChangeLib
      match lib with
      | .hash hash => do
          CellBuilder.storeU8 (mode.toU8 <<< 1)
          CellBuilder.storeU256 hash
      | .cell cell => do
          CellBuilder.storeU8 ((mode.toU8 <<< 1) ||| 1)
          CellBuilder.storeReference cell
  | copyLeft license address => do
      CellBuilder.storeU32 tagCopyleft
      CellBuilder.storeU8 license
      CellBuilder.storeU256 address

/-- The arms of the `match tag` in `OutAction::load_from`: the action a tag announces, read from
the rest of the slice; `InvalidTag` for any other tag. -/
def loadTagged (tag : BitVec 32) : SliceM (OutAction Currency) :=
  if tag = tagSendMsg then do
    let mode ← SendMsgFlags.loadFrom
    let outMsg ← loadLazy
    pure (sendMsg mode outMsg)
  else if tag = tagSetCode then do
    let newCode ← CellSlice.loadReference
    pure (setCode newCode)
  else if tag = tagReserve then do
    let mode ← ReserveCurrencyFlags.loadFrom
    let value ← loadCurrency
    pure (reserveCurrency mode value)
  else if tag = tagChangeLib then do
    let flags ← CellSlice.loadU8
    let mode ← match ChangeLibraryMode.tryFrom (flags >>> 1) with
      | .ok mode => pure mode
      | .error e => throw e
    let lib ← if flags &&& 1 = 0 then LibRef.hash <$> CellSlice.loadU256
      else LibRef.cell <$> CellSlice.loadReference
    pure (changeLibrary mode lib)
  else if tag = tagCopyleft then do
    let license ← CellSlice.loadU8
    let address ← CellSlice.loadU256
    pure (copyLeft license address)
  else throw .invalidTag

/-- `OutAction::load_from`. -/
def loadFrom : SliceM (OutAction Currency) := do
  let tag ← CellSlice.loadU32
  loadTagged loadCurrency loadLazy tag

/-- One case per constructor: the tag, then the fields in the order both sides handle them. -/
theorem readsBack (hCurrency : ∀ value, ReadsBack (storeCurrency value) loadCurrency value)
    (hLazy : ∀ outMsg : Lazy, LoadsExactly loadLazy outMsg [] [outMsg.inner])
    (action : OutAction Currency) :
    ReadsBack (action.storeInto storeCurrency) (loadFrom loadCurrency loadLazy) action := by
  cases action with
  | sendMsg mode outMsg =>
      refine ReadsBack.bind (ReadsBack.u32 tagSendMsg) ?_
      rw [loadTagged, if_pos rfl]
      exact ReadsBack.bind (ReadsBack.map SendMsgFlags.mk (ReadsBack.u8 mode.bits))
        (ReadsBack.bind_pure (sendMsg mode)
          (ReadsBack.of_appends (Appends.storeReference _) (hLazy outMsg)))
  | setCode newCode =>
      refine ReadsBack.bind (ReadsBack.u32 tagSetCode) ?_
      rw [loadTagged, if_neg (by decide), if_pos rfl]
      exact ReadsBack.bind_pure setCode (ReadsBack.reference newCode)
  | reserveCurrency mode value =>
      refine ReadsBack.bind (ReadsBack.u32 tagReserve) ?_
      rw [loadTagged, if_neg (by decide), if_neg (by decide), if_pos rfl]
      exact ReadsBack.bind (ReadsBack.map ReserveCurrencyFlags.mk (ReadsBack.u8 mode.bits))
        (ReadsBack.bind_pure (reserveCurrency mode) (hCurrency value))
  | changeLibrary mode lib =>
      refine ReadsBack.bind (ReadsBack.u32 tagChangeLib) ?_
      rw [loadTagged, if_neg (by decide), if_neg (by decide), if_neg (by decide), if_pos rfl]
      cases lib with
      | hash hash =>
          refine ReadsBack.bind (ReadsBack.u8 (mode.toU8 <<< 1)) ?_
          simp only [(ChangeLibraryMode.flags_hash mode).1, (ChangeLibraryMode.flags_hash mode).2,
            pure_bind, if_true]
          exact ReadsBack.bind_pure (changeLibrary mode)
            (ReadsBack.map LibRef.hash (ReadsBack.u256 hash))
      | cell cell =>
          refine ReadsBack.bind (ReadsBack.u8 ((mode.toU8 <<< 1) ||| 1)) ?_
          simp only [(ChangeLibraryMode.flags_cell mode).1, (ChangeLibraryMode.flags_cell mode).2,
            pure_bind, if_false]
          exact ReadsBack.bind_pure (changeLibrary mode)
            (ReadsBack.map LibRef.cell (ReadsBack.reference cell))
  | copyLeft license address =>
      refine ReadsBack.bind (ReadsBack.u32 tagCopyleft) ?_
      rw [loadTagged, if_neg (by decide), if_neg (by decide), if_neg (by decide), if_neg (by decide),
        if_pos rfl]
      exact ReadsBack.bind (ReadsBack.u8 license)
        (ReadsBack.bind_pure (copyLeft license) (ReadsBack.u256 address))

/-- Every action a store writes is read back: whenever `store_into` succeeds, `load_from` returns
the same action from the appended bits and references, consuming exactly them, provided the
currency codec reads back what it writes and `Lazy::load_from` reads a message back from its
reference. -/
theorem storeInto_readsBack (hCurrency : ∀ value, ReadsBack (storeCurrency value) loadCurrency value)
    (hLazy : ∀ outMsg : Lazy, LoadsExactly loadLazy outMsg [] [outMsg.inner])
    (action : OutAction Currency) :
    ReadsBack (action.storeInto storeCurrency) (loadFrom loadCurrency loadLazy) action :=
  readsBack storeCurrency loadCurrency loadLazy hCurrency hLazy action

end Codec

theorem storeInto_readsBack_copyLeft :
    (∀ value, ReadsBack (CellBuilder.storeU8 value) CellSlice.loadU8 value) ∧
      (∀ outMsg : Lazy, LoadsExactly (Lazy.mk <$> CellSlice.loadReference) outMsg [] [outMsg.inner]) ∧
      ReadsBack ((copyLeft 7 HashBytes.zero : OutAction (BitVec 8)).storeInto CellBuilder.storeU8)
        (loadFrom CellSlice.loadU8 (Lazy.mk <$> CellSlice.loadReference)) (copyLeft 7 HashBytes.zero) :=
  have hLazy :
      ∀ outMsg : Lazy, LoadsExactly (Lazy.mk <$> CellSlice.loadReference) outMsg [] [outMsg.inner] :=
    fun outMsg => LoadsExactly.map Lazy.mk (LoadsExactly.loadReference outMsg.inner)
  ⟨ReadsBack.u8, hLazy, storeInto_readsBack CellBuilder.storeU8 CellSlice.loadU8 _ ReadsBack.u8 hLazy _⟩

section Effect

variable {Currency : Type} (storeCurrency : Currency → BuilderM Unit)
  (currencyPieces : Currency → List Piece)

/-- The builder calls `store_into` makes for an action, the tag first and then one per field, given
those of the currency value's store. -/
def pieces : OutAction Currency → List Piece
  | sendMsg mode outMsg =>
      [.ofBits (encodeBE 32 tagSendMsg.toNat), .ofBits (encodeBE 8 mode.bits.toNat),
        .ofReference outMsg.inner]
  | setCode newCode => [.ofBits (encodeBE 32 tagSetCode.toNat), .ofReference newCode]
  | reserveCurrency mode value =>
      .ofBits (encodeBE 32 tagReserve.toNat) :: .ofBits (encodeBE 8 mode.bits.toNat) ::
        currencyPieces value
  | changeLibrary mode (.hash hash) =>
      [.ofBits (encodeBE 32 tagChangeLib.toNat), .ofBits (encodeBE 8 (mode.toU8 <<< 1).toNat),
        .ofBits (bytesBits hash.bytes)]
  | changeLibrary mode (.cell cell) =>
      [.ofBits (encodeBE 32 tagChangeLib.toNat),
        .ofBits (encodeBE 8 ((mode.toU8 <<< 1) ||| 1).toNat), .ofReference cell]
  | copyLeft license address =>
      [.ofBits (encodeBE 32 tagCopyleft.toNat), .ofBits (encodeBE 8 license.toNat),
        .ofBits (bytesBits address.bytes)]

/-- `store_into` writes the tag and then each field, with no check for room first: on every builder
it writes the action's pieces while they fit. It succeeds exactly when the builder has room for the
whole action, and otherwise fails with the tag, or the tag and the flags, possibly left in the
builder. -/
theorem storeInto_storesPieces
    (hCurrency : ∀ value, StoresPieces (storeCurrency value) (currencyPieces value))
    (action : OutAction Currency) :
    StoresPieces (action.storeInto storeCurrency) (action.pieces currencyPieces) := by
  cases action with
  | sendMsg mode outMsg =>
      exact .seq (.storeBits _) (.seq (.storeBits _) (.storeReference _))
  | setCode newCode => exact .seq (.storeBits _) (.storeReference _)
  | reserveCurrency mode value => exact .seq (.storeBits _) (.seq (.storeBits _) (hCurrency value))
  | changeLibrary mode lib =>
      cases lib with
      | hash hash => exact .seq (.storeBits _) (.seq (.storeBits _) (.storeBits _))
      | cell cell => exact .seq (.storeBits _) (.seq (.storeBits _) (.storeReference _))
  | copyLeft license address => exact .seq (.storeBits _) (.seq (.storeBits _) (.storeBits _))

end Effect

theorem storeInto_storesPieces_copyLeft :
    (∀ value : BitVec 8,
      StoresPieces (CellBuilder.storeU8 value) [.ofBits (encodeBE 8 value.toNat)]) ∧
      StoresPieces ((copyLeft 7 HashBytes.zero : OutAction (BitVec 8)).storeInto CellBuilder.storeU8)
        ((copyLeft 7 HashBytes.zero : OutAction (BitVec 8)).pieces
          fun value => [.ofBits (encodeBE 8 value.toNat)]) :=
  ⟨fun _ => StoresPieces.storeBits _,
    storeInto_storesPieces _ _ (fun _ => StoresPieces.storeBits _) _⟩

section Canonical

variable {Currency : Type} (storeCurrency : Currency → BuilderM Unit) (loadCurrency : SliceM Currency)
  (loadLazy : SliceM Lazy)

/-- Whether an action carries a currency value: only `ReserveCurrency` does. -/
def carriesCurrency : OutAction Currency → Bool
  | reserveCurrency _ _ => true
  | _ => false

/-- One case per tag: what each arm of the loader consumed after the tag is what the store writes
after it. The currency codec matters only when the action read carries a currency value. -/
theorem loadTagged_storesBack {action : OutAction Currency}
    (hCurrency : action.carriesCurrency = true → StoresBack loadCurrency storeCurrency)
    (hLazy : StoresBack loadLazy fun outMsg => CellBuilder.storeReference outMsg.inner)
    {tag : BitVec 32} {slice rest : CellSlice}
    (h : loadTagged loadCurrency loadLazy tag slice = .ok action rest) :
    ∃ bits refs, Consumed slice rest bits refs ∧
      StoresExactly (action.storeInto storeCurrency) (encodeBE 32 tag.toNat ++ bits) refs := by
  unfold loadTagged at h
  split_ifs at h with hSendMsg hSetCode hReserve hChangeLib hCopyleft
  · subst hSendMsg
    obtain ⟨mode, middle, hMode, h⟩ := bind_apply_eq_ok h
    obtain ⟨outMsg, after, hMsg, ⟨⟩⟩ := bind_apply_eq_ok h
    obtain ⟨flags, hFlags, rfl⟩ := map_apply_eq_ok hMode
    obtain ⟨bits, refs, hConsumed, hStore⟩ := hLazy hMsg
    exact ⟨_, _, (CellSlice.loadU8_eq_ok hFlags).trans hConsumed,
      .seq (.storeU32 _) (.seq (.storeU8 _) hStore)⟩
  · subst hSetCode
    obtain ⟨newCode, after, hCode, ⟨⟩⟩ := bind_apply_eq_ok h
    exact ⟨_, _, CellSlice.loadReference_eq_ok hCode, .seq (.storeU32 _) (.storeReference _)⟩
  · subst hReserve
    obtain ⟨mode, middle, hMode, h⟩ := bind_apply_eq_ok h
    obtain ⟨value, after, hValue, ⟨⟩⟩ := bind_apply_eq_ok h
    obtain ⟨flags, hFlags, rfl⟩ := map_apply_eq_ok hMode
    obtain ⟨bits, refs, hConsumed, hStore⟩ := hCurrency rfl hValue
    exact ⟨_, _, (CellSlice.loadU8_eq_ok hFlags).trans hConsumed,
      .seq (.storeU32 _) (.seq (.storeU8 _) hStore)⟩
  · subst hChangeLib
    obtain ⟨flags, middle, hFlags, h⟩ := bind_apply_eq_ok h
    cases hTry : ChangeLibraryMode.tryFrom (flags >>> 1) with
    | error e =>
        simp only [hTry] at h
        cases h
    | ok mode =>
        simp only [hTry, pure_bind] at h
        have hByte := ChangeLibraryMode.flags_of_tryFrom hTry
        split at h
        · obtain ⟨lib, after, hLib, ⟨⟩⟩ := bind_apply_eq_ok h
          obtain ⟨hash, hHash, rfl⟩ := map_apply_eq_ok hLib
          rw [‹flags &&& 1 = 0›, BitVec.ofNat_eq_ofNat, BitVec.or_zero] at hByte
          subst hByte
          exact ⟨_, _, (CellSlice.loadU8_eq_ok hFlags).trans (CellSlice.loadU256_eq_ok hHash),
            .seq (.storeU32 _) (.seq (.storeU8 _) (.storeU256 _))⟩
        · obtain ⟨lib, after, hLib, ⟨⟩⟩ := bind_apply_eq_ok h
          obtain ⟨cell, hCell, rfl⟩ := map_apply_eq_ok hLib
          rw [ChangeLibraryMode.and_one_eq_one ‹_›] at hByte
          subst hByte
          exact ⟨_, _, (CellSlice.loadU8_eq_ok hFlags).trans (CellSlice.loadReference_eq_ok hCell),
            .seq (.storeU32 _) (.seq (.storeU8 _) (.storeReference _))⟩
  · subst hCopyleft
    obtain ⟨license, middle, hLicense, h⟩ := bind_apply_eq_ok h
    obtain ⟨address, after, hAddress, ⟨⟩⟩ := bind_apply_eq_ok h
    exact ⟨_, _, (CellSlice.loadU8_eq_ok hLicense).trans (CellSlice.loadU256_eq_ok hAddress),
      .seq (.storeU32 _) (.seq (.storeU8 _) (.storeU256 _))⟩
  · cases h

/-- Without any assumption on the currency codec, the encoding of the four actions that carry no
currency is canonical: whenever `load_from` returns one of them, `store_into` writes back exactly
the bits and references it consumed. -/
theorem loadFrom_storesBack_of_noCurrency
    (hLazy : StoresBack loadLazy fun outMsg => CellBuilder.storeReference outMsg.inner)
    {slice rest : CellSlice} {action : OutAction Currency}
    (h : loadFrom loadCurrency loadLazy slice = .ok action rest)
    (hAction : action.carriesCurrency = false) :
    ∃ bits refs, Consumed slice rest bits refs ∧
      StoresExactly (action.storeInto storeCurrency) bits refs := by
  obtain ⟨tag, middle, hTag, h⟩ := bind_apply_eq_ok h
  obtain ⟨bits, refs, hConsumed, hStore⟩ := loadTagged_storesBack storeCurrency loadCurrency loadLazy
    (fun hCarries => absurd (hAction.symm.trans hCarries) Bool.false_ne_true) hLazy h
  exact ⟨_, _, (CellSlice.loadU32_eq_ok hTag).trans hConsumed, hStore⟩

theorem loadFrom_storesBack_of_noCurrency_setCode :
    StoresBack (Lazy.mk <$> CellSlice.loadReference)
        (fun outMsg => CellBuilder.storeReference outMsg.inner) ∧
      loadFrom CellSlice.loadU8 (Lazy.mk <$> CellSlice.loadReference)
          ⟨encodeBE 32 tagSetCode.toNat, [Cell.empty]⟩ = .ok (setCode Cell.empty) ⟨[], []⟩ ∧
      (setCode Cell.empty : OutAction (BitVec 8)).carriesCurrency = false ∧
      ∃ bits refs, Consumed ⟨encodeBE 32 tagSetCode.toNat, [Cell.empty]⟩ ⟨[], []⟩ bits refs ∧
        StoresExactly ((setCode Cell.empty : OutAction (BitVec 8)).storeInto CellBuilder.storeU8)
          bits refs := by
  have hLazy : StoresBack (Lazy.mk <$> CellSlice.loadReference)
      fun outMsg => CellBuilder.storeReference outMsg.inner := fun h => by
    obtain ⟨cell, hCell, rfl⟩ := map_apply_eq_ok h
    exact ⟨_, _, CellSlice.loadReference_eq_ok hCell, .storeReference cell⟩
  exact ⟨hLazy, rfl, rfl,
    loadFrom_storesBack_of_noCurrency CellBuilder.storeU8 CellSlice.loadU8 _ hLazy rfl rfl⟩

end Canonical

end OutAction

/-- `OutActionsRevIter`: the unread part of the list node the iterator stands on. -/
structure OutActionsRevIter where
  slice : CellSlice

namespace OutActionsRevIter

section Iterator

variable {Currency : Type} (storeCurrency : Currency → BuilderM Unit) (loadCurrency : SliceM Currency)
  (loadLazy : SliceM Lazy)

/-- `OutActionsRevIter::new`. -/
def new (slice : CellSlice) : OutActionsRevIter := ⟨slice⟩

/-- `OutActionsRevIter::next`: the first reference is the previous node; the action follows it.
Without a reference the list ends, cleanly only on an empty node. -/
def next (iter : OutActionsRevIter) : Option (Except Error (OutAction Currency)) × OutActionsRevIter :=
  match CellSlice.loadReference iter.slice with
  | .error _ slice =>
      if slice.isDataEmpty && slice.isRefsEmpty then (none, ⟨slice⟩)
      else (some (.error .invalidData), ⟨slice⟩)
  | .ok prevCell slice =>
      match OutAction.loadFrom loadCurrency loadLazy slice with
      | .error e slice => (some (.error e), ⟨slice⟩)
      | .ok action slice =>
          match prevCell.asSlice with
          | .error e => (some (.error e), ⟨slice⟩)
          | .ok prevSlice => (some (.ok action), ⟨prevSlice⟩)

/-- The results of `count` successive calls of `next`. -/
def results : Nat → OutActionsRevIter → List (Option (Except Error (OutAction Currency)))
  | 0, _ => []
  | count + 1, iter =>
      (next loadCurrency loadLazy iter).1 :: results count (next loadCurrency loadLazy iter).2

/-- Modelled from the spec: the node for `action` after the node `prev`, an ordinary cell whose
first reference is `prev`, followed by what `store_into` writes; `none` if a store fails. -/
def node (prev : Cell) (action : OutAction Currency) : Option Cell :=
  match (do CellBuilder.storeReference prev; action.storeInto storeCurrency) CellBuilder.new with
  | .ok _ builder => some builder.build
  | .error _ _ => none

/-- Modelled from the spec: the head node of the list of `actions`, oldest first, starting from the
empty cell. -/
def outList (actions : List (OutAction Currency)) : Option Cell :=
  actions.foldlM (node storeCurrency) Cell.empty

theorem next_empty : next loadCurrency loadLazy (new ⟨[], []⟩) = (none, new ⟨[], []⟩) := rfl

/-- An exhausted empty node ends the list for good: every further call returns `None`. -/
theorem results_empty (count : Nat) :
    results loadCurrency loadLazy count (new ⟨[], []⟩) = List.replicate count none := by
  induction count with
  | zero => rfl
  | succ count ih => rw [results, next_empty, ih, List.replicate_succ]

theorem asSlice_build (builder : CellBuilder) :
    builder.build.asSlice = .ok ⟨builder.bits, builder.references⟩ := rfl

theorem outList_append_singleton (actions : List (OutAction Currency)) (action : OutAction Currency) :
    outList storeCurrency (actions ++ [action]) =
      (outList storeCurrency actions).bind fun prev => node storeCurrency prev action := by
  simp [outList, Option.bind_eq_bind]

/-- A node is built into a fresh builder: the previous node is its first reference, and what the
action's store appended is the rest. -/
theorem node_eq_some {prev cell : Cell} {action : OutAction Currency}
    (h : node storeCurrency prev action = some cell) :
    ∃ builder : CellBuilder, cell = builder.build ∧
      action.storeInto storeCurrency ⟨[], [prev], by decide, Nat.le_of_ble_eq_true rfl⟩ =
        .ok () builder := by
  unfold node at h
  rw [bind_apply] at h
  split at h
  · rename_i builder hStore
    cases h
    exact ⟨builder, rfl, hStore⟩
  · cases h

/-- One call of `next` on a node of the list returns its action and moves to the previous node,
whatever bits and references follow the action in the node: they are never read. -/
theorem next_padded (hCurrency : ∀ value, ReadsBack (storeCurrency value) loadCurrency value)
    (hLazy : ∀ outMsg : Lazy, LoadsExactly loadLazy outMsg [] [outMsg.inner]) {prev cell : Cell}
    {prevSlice : CellSlice} {action : OutAction Currency} (extraBits : List Bool)
    (extraRefs : List Cell) (hPrev : prev.asSlice = .ok prevSlice)
    (hNode : node storeCurrency prev action = some cell) :
    next loadCurrency loadLazy (new ⟨cell.bits ++ extraBits, cell.references ++ extraRefs⟩) =
      (some (.ok action), new prevSlice) := by
  obtain ⟨builder, rfl, hStore⟩ := node_eq_some storeCurrency hNode
  obtain ⟨bits, refs, hBits, hRefs, hLoad⟩ :=
    OutAction.readsBack storeCurrency loadCurrency loadLazy hCurrency hLazy action _ _ hStore
  have hAction := hLoad ⟨extraBits, extraRefs⟩
  simp only [next, new, CellBuilder.build, Cell.bits, Cell.references, hBits, hRefs, List.nil_append,
    List.singleton_append, List.cons_append, CellSlice.loadReference, hAction, hPrev]

/-- One call of `next` on a node of the list returns its action and moves to the previous node. -/
theorem next_node (hCurrency : ∀ value, ReadsBack (storeCurrency value) loadCurrency value)
    (hLazy : ∀ outMsg : Lazy, LoadsExactly loadLazy outMsg [] [outMsg.inner]) {prev cell : Cell}
    {prevSlice : CellSlice} {action : OutAction Currency} (hPrev : prev.asSlice = .ok prevSlice)
    (hNode : node storeCurrency prev action = some cell) :
    next loadCurrency loadLazy (new ⟨cell.bits, cell.references⟩) =
      (some (.ok action), new prevSlice) := by
  simpa using next_padded storeCurrency loadCurrency loadLazy hCurrency hLazy [] [] hPrev hNode

/-- Walking the list of `actions` from its head node returns the actions newest first, then `None`
on every further call. -/
theorem results_outList (hCurrency : ∀ value, ReadsBack (storeCurrency value) loadCurrency value)
    (hLazy : ∀ outMsg : Lazy, LoadsExactly loadLazy outMsg [] [outMsg.inner])
    (actions : List (OutAction Currency)) :
    ∀ cell, outList storeCurrency actions = some cell →
      cell.asSlice = .ok ⟨cell.bits, cell.references⟩ ∧
      ∀ extra,
        results loadCurrency loadLazy (actions.length + 1 + extra) (new ⟨cell.bits, cell.references⟩) =
        actions.reverse.map (fun action => some (.ok action)) ++ List.replicate (extra + 1) none := by
  induction actions using List.reverseRecOn with
  | nil =>
      rintro cell ⟨⟩
      refine ⟨rfl, fun extra => ?_⟩
      rw [List.length_nil, Nat.zero_add, Nat.add_comm]
      exact results_empty loadCurrency loadLazy (extra + 1)
  | append_singleton actions action ih =>
      intro cell hCell
      rw [outList_append_singleton, Option.bind_eq_some] at hCell
      obtain ⟨prev, hPrevList, hNode⟩ := hCell
      obtain ⟨hPrev, hRun⟩ := ih prev hPrevList
      obtain ⟨builder, rfl, -⟩ := node_eq_some storeCurrency hNode
      refine ⟨asSlice_build builder, fun extra => ?_⟩
      rw [List.length_append, List.length_singleton,
        show actions.length + 1 + 1 + extra = actions.length + 1 + extra + 1 by omega, results,
        next_node storeCurrency loadCurrency loadLazy hCurrency hLazy hPrev hNode, hRun]
      simp

/-- The iterator over the head node of a list of `n` actions yields the `n` actions newest first,
each `Ok`, and then `None`, on this call and every later one. -/
theorem yields_reverse (hCurrency : ∀ value, ReadsBack (storeCurrency value) loadCurrency value)
    (hLazy : ∀ outMsg : Lazy, LoadsExactly loadLazy outMsg [] [outMsg.inner])
    {actions : List (OutAction Currency)}
    {cell : Cell} {slice : CellSlice} (hList : outList storeCurrency actions = some cell)
    (hSlice : cell.asSlice = .ok slice) (extra : Nat) :
    results loadCurrency loadLazy (actions.length + 1 + extra) (new slice) =
      actions.reverse.map (fun action => some (.ok action)) ++ List.replicate (extra + 1) none := by
  obtain ⟨hOrdinary, hRun⟩ :=
    results_outList storeCurrency loadCurrency loadLazy hCurrency hLazy actions cell hList
  rw [hOrdinary] at hSlice
  cases hSlice
  exact hRun extra

end Iterator

/-- Three actions of three kinds, oldest first: the code set to the empty cell, a reserve of 5 with
mode 3 (the currency a byte), and a message sent with mode 1. -/
def threeActions : List (OutAction (BitVec 8)) :=
  [.setCode Cell.empty, .reserveCurrency ⟨3⟩ 5, .sendMsg ⟨1⟩ ⟨Cell.empty⟩]

/-- The head node of the list of `threeActions`. -/
def threeActionsNode : Cell :=
  .mk false (encodeBE 32 OutAction.tagSendMsg.toNat ++ encodeBE 8 1)
    [.mk false (encodeBE 32 OutAction.tagReserve.toNat ++ encodeBE 8 3 ++ encodeBE 8 5)
      [.mk false (encodeBE 32 OutAction.tagSetCode.toNat) [Cell.empty, Cell.empty]],
      Cell.empty]

theorem yields_reverse_threeActions :
    (∀ value, ReadsBack (CellBuilder.storeU8 value) CellSlice.loadU8 value) ∧
      (∀ outMsg : Lazy, LoadsExactly (Lazy.mk <$> CellSlice.loadReference) outMsg [] [outMsg.inner]) ∧
      outList CellBuilder.storeU8 threeActions = some threeActionsNode ∧
      threeActionsNode.asSlice = .ok ⟨threeActionsNode.bits, threeActionsNode.references⟩ ∧
      results CellSlice.loadU8 (Lazy.mk <$> CellSlice.loadReference) (threeActions.length + 1 + 1)
          (new ⟨threeActionsNode.bits, threeActionsNode.references⟩) =
        threeActions.reverse.map (fun action => some (.ok action)) ++ List.replicate (1 + 1) none :=
  have hLazy :
      ∀ outMsg : Lazy, LoadsExactly (Lazy.mk <$> CellSlice.loadReference) outMsg [] [outMsg.inner] :=
    fun outMsg => LoadsExactly.map Lazy.mk (LoadsExactly.loadReference outMsg.inner)
  ⟨ReadsBack.u8, hLazy, rfl, rfl,
    @yields_reverse (BitVec 8) CellBuilder.storeU8 CellSlice.loadU8 _ ReadsBack.u8 hLazy threeActions
      threeActionsNode _ rfl rfl 1⟩

/-- `threeActions` with extra data after the first and the last action. -/
def paddedThreeActions : List (OutAction (BitVec 8) × List Bool × List Cell) :=
  [(.setCode Cell.empty, [true], [Cell.empty]), (.reserveCurrency ⟨3⟩ 5, [], []),
    (.sendMsg ⟨1⟩ ⟨Cell.empty⟩, [false, true], [])]

/-- The head node of the padded list of `threeActions`. -/
def paddedThreeActionsNode : Cell :=
  .mk false (encodeBE 32 OutAction.tagSendMsg.toNat ++ encodeBE 8 1 ++ [false, true])
    [.mk false (encodeBE 32 OutAction.tagReserve.toNat ++ encodeBE 8 3 ++ encodeBE 8 5)
      [.mk false (encodeBE 32 OutAction.tagSetCode.toNat ++ [true]) [Cell.empty, Cell.empty, Cell.empty]],
      Cell.empty]

section Padding

variable {Currency : Type} (storeCurrency : Currency → BuilderM Unit) (loadCurrency : SliceM Currency)
  (loadLazy : SliceM Lazy)

/-- The node that `node` builds for `entry.1`, with the bits `entry.2.1` and the references
`entry.2.2` a writer stored after the action. -/
def paddedNode (prev : Cell) (entry : OutAction Currency × List Bool × List Cell) : Option Cell :=
  (node storeCurrency prev entry.1).map fun cell =>
    .mk false (cell.bits ++ entry.2.1) (cell.references ++ entry.2.2)

/-- The head node of a list built as `outList` builds it, each node padded after its action. -/
def paddedList (entries : List (OutAction Currency × List Bool × List Cell)) : Option Cell :=
  entries.foldlM (paddedNode storeCurrency) Cell.empty

theorem paddedList_append_singleton (entries : List (OutAction Currency × List Bool × List Cell))
    (entry : OutAction Currency × List Bool × List Cell) :
    paddedList storeCurrency (entries ++ [entry]) =
      (paddedList storeCurrency entries).bind fun prev => paddedNode storeCurrency prev entry := by
  simp [paddedList, Option.bind_eq_bind]

/-- Every node of a padded list is an ordinary cell, so `as_slice` reads it whole. -/
theorem asSlice_of_paddedList {entries : List (OutAction Currency × List Bool × List Cell)}
    {cell : Cell} (hList : paddedList storeCurrency entries = some cell) :
    cell.asSlice = .ok ⟨cell.bits, cell.references⟩ := by
  induction entries using List.reverseRecOn generalizing cell with
  | nil => cases hList; rfl
  | append_singleton entries entry _ =>
      rw [paddedList_append_singleton, Option.bind_eq_some] at hList
      obtain ⟨prev, -, hNode⟩ := hList
      obtain ⟨nodeCell, -, rfl⟩ := Option.map_eq_some'.mp hNode
      rfl

/-- The iterator never reads past the action of a node: on a list whose nodes carry any bits and
references after their actions, it yields the actions newest first, each `Ok`, and then `None`,
exactly as on the list without them. -/
theorem results_paddedList (hCurrency : ∀ value, ReadsBack (storeCurrency value) loadCurrency value)
    (hLazy : ∀ outMsg : Lazy, LoadsExactly loadLazy outMsg [] [outMsg.inner])
    {entries : List (OutAction Currency × List Bool × List Cell)} {cell : Cell} {slice : CellSlice}
    (hList : paddedList storeCurrency entries = some cell) (hSlice : cell.asSlice = .ok slice)
    (extra : Nat) :
    results loadCurrency loadLazy (entries.length + 1 + extra) (new slice) =
      (entries.map Prod.fst).reverse.map (fun action => some (.ok action)) ++
        List.replicate (extra + 1) none := by
  induction entries using List.reverseRecOn generalizing cell slice with
  | nil =>
      cases hList
      cases hSlice
      rw [List.length_nil, Nat.zero_add, Nat.add_comm]
      exact results_empty loadCurrency loadLazy (extra + 1)
  | append_singleton entries entry ih =>
      rw [paddedList_append_singleton, Option.bind_eq_some] at hList
      obtain ⟨prev, hPrevList, hPadded⟩ := hList
      obtain ⟨nodeCell, hNode, rfl⟩ := Option.map_eq_some'.mp hPadded
      cases hSlice
      have hPrev := asSlice_of_paddedList storeCurrency hPrevList
      rw [List.length_append, List.length_singleton,
        show entries.length + 1 + 1 + extra = entries.length + 1 + extra + 1 by omega, results,
        Cell.bits, Cell.references,
        next_padded storeCurrency loadCurrency loadLazy hCurrency hLazy _ _ hPrev hNode,
        ih hPrevList hPrev]
      simp

theorem results_paddedList_threeActions :
    (∀ value, ReadsBack (CellBuilder.storeU8 value) CellSlice.loadU8 value) ∧
      (∀ outMsg : Lazy, LoadsExactly (Lazy.mk <$> CellSlice.loadReference) outMsg [] [outMsg.inner]) ∧
      paddedList CellBuilder.storeU8 paddedThreeActions = some paddedThreeActionsNode ∧
      paddedThreeActionsNode.asSlice =
        .ok ⟨paddedThreeActionsNode.bits, paddedThreeActionsNode.references⟩ ∧
      results CellSlice.loadU8 (Lazy.mk <$> CellSlice.loadReference) (paddedThreeActions.length + 1 + 1)
          (new ⟨paddedThreeActionsNode.bits, paddedThreeActionsNode.references⟩) =
        (paddedThreeActions.map Prod.fst).reverse.map (fun action => some (.ok action)) ++
          List.replicate (1 + 1) none :=
  have hLazy :
      ∀ outMsg : Lazy, LoadsExactly (Lazy.mk <$> CellSlice.loadReference) outMsg [] [outMsg.inner] :=
    fun outMsg => LoadsExactly.map Lazy.mk (LoadsExactly.loadReference outMsg.inner)
  ⟨ReadsBack.u8, hLazy, rfl, rfl,
    @results_paddedList (BitVec 8) CellBuilder.storeU8 CellSlice.loadU8 _ ReadsBack.u8 hLazy
      paddedThreeActions _ _ rfl rfl 1⟩

end Padding

end OutActionsRevIter

end EverscaleTypes

import HashAhead.Chain.Crosschain
import HashAhead.Dex.MatchDex

/-! The orders in the database. Each order of this chain or of a peer chain is recorded under one
of two keys, for orders that are completed and for orders that are not. A block writes the new
records over the old trie, so a record under the other key stays: an order has one record as long
as no block changes its status. The number of the last order of an address is asked of the orders of the transaction,
of the block and of the database, and the first that have a positive number end the search. -/

namespace HashAhead.Dex
open Foundation Trie State Chain List Option

structure DexOrderSave where
  dexOrder : DexOrderBody
  nAtChainId : ChainId
  hashAtBlock : UInt256

/-- `CDexOrderHeader::GetCoinPairHashStatic` and `CDexOrderHeader::GetOwnerCoinFlagStatic` -/
structure HeaderCodec where
  getCoinPairHashStatic : Bytes → Bytes → UInt256
  getOwnerCoinFlagStatic : Bytes → Bytes → UInt8

/-- `DB_HDEX_KEY_TYPE_TRIE_LOCAL_DEX_ORDER` and `DB_HDEX_KEY_TYPE_TRIE_PEER_DEX_ORDER` -/
inductive OrderSpace where
  | own
  | peer
deriving DecidableEq

/-- The key of an order record: the type, `DB_HDEX_COMPLETED_MATCH_ORDER` or
`DB_HDEX_UNCOMPLETED_MATCH_ORDER`, and the header. -/
structure OrderKey where
  space : OrderSpace
  fCompleted : Bool
  header : DexOrderHeader
deriving DecidableEq

abbrev OrderRecords := OrderKey → Option DexOrderSave

structure OrderAmounts where
  nOrderAmount : UInt256
  nCompleteAmount : UInt256

def OrderAmounts.reached (amounts : OrderAmounts) : Bool := amounts.nCompleteAmount ≥ amounts.nOrderAmount

def DexOrderBody.amounts (body : DexOrderBody) : OrderAmounts := ⟨body.nOrderAmount, body.nCompleteOrderAmount⟩

def DexOrderSave.amounts (save : DexOrderSave) : OrderAmounts := save.dexOrder.amounts

/-- The records to write and the orders seen so far, `mapKv` and `mapDbDexOrder` of
`CHdexDB::AddDexOrder`. -/
structure OrderDraft where
  mapKv : OrderRecords
  mapDbDexOrder : DexOrderHeader → Option DexOrderSave

/-- The turns of the loops of `CHdexDB::AddDexOrder` over `mapCompDexOrderRecord`, over `mapDexOrder`
and over the order proves of `mapBlockProve`. -/
inductive OrderTurn where
  | complete (header : DexOrderHeader) (vCompleteAmount : List UInt256)
  | place (header : DexOrderHeader) (orderBody : DexOrderBody)
  | prove (nPeerChainId : ChainId) (hashPeerAtBlock : UInt256) (orderProve : BlockDexOrderProve)

/-- The arguments of `CHdexDB::AddDexOrder` that its order records depend on. -/
structure DexBlock where
  hashBlock : UInt256
  mapCompDexOrderRecord : List (DexOrderHeader × List UInt256)
  mapDexOrder : List (DexOrderHeader × DexOrderBody)
  mapBlockProve : List (ChainId × BlockProve)

namespace DexBlock

def nChainId (block : DexBlock) : ChainId := getBlockChainIdByHash block.hashBlock

def orderProves (block : DexBlock) : List OrderTurn :=
  block.mapBlockProve.flatMap fun kv => kv.2.consumed.flatMap fun vd =>
    vd.2.proveCrosschain.mapDexOrderProve.map fun order => .prove kv.1 vd.1 order.2

def turns (block : DexBlock) : List OrderTurn :=
  block.mapCompDexOrderRecord.map (fun kv => .complete kv.1 kv.2)
    ++ block.mapDexOrder.map (fun kv => .place kv.1 kv.2) ++ block.orderProves

/-- Where the record of an order is read: an order of this chain is a local one. -/
def spaceOf (block : DexBlock) (header : DexOrderHeader) : OrderSpace :=
  if header.nChainId = block.nChainId then .own else .peer

end DexBlock

/-- The header and the body that `funcAddOrderProve` makes of a prove. -/
def proveHeader (codec : HeaderCodec) (nPeerChainId : ChainId) (orderProve : BlockDexOrderProve) : DexOrderHeader where
  nChainId := nPeerChainId
  destOrder := orderProve.destOrder
  hashCoinPair := codec.getCoinPairHashStatic orderProve.strCoinSymbolOwner orderProve.strCoinSymbolPeer
  nOwnerCoinFlag := codec.getOwnerCoinFlagStatic orderProve.strCoinSymbolOwner orderProve.strCoinSymbolPeer
  nOrderNumber := orderProve.nOrderNumber

def proveBody (orderProve : BlockDexOrderProve) : DexOrderBody where
  strCoinSymbolOwner := orderProve.strCoinSymbolOwner
  strCoinSymbolPeer := orderProve.strCoinSymbolPeer
  nCoinAtChainIdPeer := orderProve.nChainIdPeer
  nOrderAmount := orderProve.nOrderAmount
  nOrderPrice := orderProve.nOrderPrice
  nCompleteOrderAmount := 0
  nCompleteOrderCount := 0

def OrderTurn.header (codec : HeaderCodec) : OrderTurn → DexOrderHeader
  | .complete header _ => header
  | .place header _ => header
  | .prove nPeerChainId _ orderProve => proveHeader codec nPeerChainId orderProve

namespace OrderDraft

def empty : OrderDraft := ⟨fun _ => none, fun _ => none⟩

/-- `funcAddLocalDexOrder` and `funcAddPeerDexOrder`: the other key is taken out of what this block
writes, and only of that. -/
def addDexOrder (space : OrderSpace) (fCompleted : Bool) (header : DexOrderHeader) (save : DexOrderSave)
    (draft : OrderDraft) : OrderDraft :=
  { draft with
    mapKv := Function.update (Function.update draft.mapKv ⟨space, !fCompleted, header⟩ none)
      ⟨space, fCompleted, header⟩ (some save) }

def setDb (header : DexOrderHeader) (save : DexOrderSave) (draft : OrderDraft) : OrderDraft :=
  { draft with mapDbDexOrder := Function.update draft.mapDbDexOrder header (some save) }

/-- An order that is given: known, it may get a new amount, and otherwise it is added. -/
def giveOrder (stored : Option DexOrderSave) (space : OrderSpace) (nAtChainId : ChainId) (hashAtBlock : UInt256)
    (header : DexOrderHeader) (orderBody : DexOrderBody) (draft : OrderDraft) : OrderDraft :=
  match draft.mapDbDexOrder header <|> stored with
  | some save =>
    if orderBody.nOrderAmount ≠ save.dexOrder.nOrderAmount
        ∧ orderBody.nOrderAmount ≥ save.dexOrder.nCompleteOrderAmount then
      let save := ⟨{ save.dexOrder with nOrderAmount := orderBody.nOrderAmount }, nAtChainId, hashAtBlock⟩
      (draft.addDexOrder space save.amounts.reached header save).setDb header save
    else draft.setDb header save
  | none =>
    let save := ⟨orderBody, nAtChainId, hashAtBlock⟩
    (draft.addDexOrder space false header save).setDb header save

def completeSave (save : DexOrderSave) (vCompleteAmount : List UInt256) : DexOrderSave :=
  { save with
    dexOrder := { save.dexOrder with
      nCompleteOrderAmount := vCompleteAmount.foldl (· + ·) save.dexOrder.nCompleteOrderAmount
      nCompleteOrderCount := save.dexOrder.nCompleteOrderCount + UInt64.ofNat vCompleteAmount.length } }

def completeOrder (stored : DexOrderSave) (space : OrderSpace) (header : DexOrderHeader)
    (vCompleteAmount : List UInt256) (draft : OrderDraft) : OrderDraft :=
  let save := completeSave stored vCompleteAmount
  let known := (draft.mapDbDexOrder header).getD save -- `insert` leaves an entry that is there
  (draft.addDexOrder space save.amounts.reached header save).setDb header known

/-- One turn, with what `GetDexOrderDb` and `GetPeerDexOrderProveDb` read from the previous trie. -/
def turn (codec : HeaderCodec) (read : OrderSpace → DexOrderHeader → Option DexOrderSave) (block : DexBlock)
    (draft : OrderDraft) : OrderTurn → Option OrderDraft
  | .complete header vCompleteAmount =>
    (read (block.spaceOf header) header).map fun stored =>
      draft.completeOrder stored (block.spaceOf header) header vCompleteAmount
  | .place header orderBody =>
    some (draft.giveOrder (read (block.spaceOf header) header) .own block.nChainId block.hashBlock header orderBody)
  | .prove nPeerChainId hashPeerAtBlock orderProve =>
    let header := proveHeader codec nPeerChainId orderProve
    some (draft.giveOrder (read .peer header) .peer nPeerChainId hashPeerAtBlock header (proveBody orderProve))

end OrderDraft

/-- The two private reads of `CHdexDB`, of the records of a trie. -/
abbrev OrderReader := OrderRecords → OrderSpace → DexOrderHeader → Option DexOrderSave

/-- `CHdexDB::AddDexOrder`, on the order records. `AddNewTrie` puts what is to be written over what
the previous trie has. -/
def addDexOrder (codec : HeaderCodec) (reader : OrderReader) (records : OrderRecords) (block : DexBlock) :
    Option OrderRecords :=
  (block.turns.foldlM (OrderDraft.turn codec (reader records) block) .empty).map fun draft key =>
    draft.mapKv key <|> records key

/-- The read functions return the record that is stored under one of the two keys. -/
structure OrderReader.Reads (reader : OrderReader) : Prop where
  stored : ∀ records space header save, reader records space header = some save →
    ∃ fCompleted, records ⟨space, fCompleted, header⟩ = some save
  missing : ∀ records space header, reader records space header = none →
    ∀ fCompleted, records ⟨space, fCompleted, header⟩ = none

/-- Each order has at most one record, under the key that its amounts ask for. -/
def Exclusive (records : OrderRecords) : Prop :=
  ∀ space header fCompleted save, records ⟨space, fCompleted, header⟩ = some save →
    fCompleted = save.amounts.reached ∧ records ⟨space, !fCompleted, header⟩ = none

def storedAmounts (records : OrderRecords) (space : OrderSpace) (header : DexOrderHeader) : Option OrderAmounts :=
  (records ⟨space, false, header⟩ <|> records ⟨space, true, header⟩).map DexOrderSave.amounts

/-- What becomes of one order in a block: the amounts it has reached, and for each key type the
status and the amounts it has been recorded with. -/
structure OrderCourse where
  held : Option OrderAmounts
  recorded : OrderSpace → Option (Bool × OrderAmounts)

namespace OrderCourse

def start : OrderCourse := ⟨none, fun _ => none⟩

def record (space : OrderSpace) (fCompleted : Bool) (amounts : OrderAmounts) (course : OrderCourse) : OrderCourse :=
  { course with recorded := Function.update course.recorded space (some (fCompleted, amounts)) }

def complete (stored : Option OrderAmounts) (space : OrderSpace) (vCompleteAmount : List UInt256)
    (course : OrderCourse) : OrderCourse :=
  match stored with
  | none => course
  | some amounts =>
    let amounts := { amounts with nCompleteAmount := vCompleteAmount.foldl (· + ·) amounts.nCompleteAmount }
    { course.record space amounts.reached amounts with held := some (course.held.getD amounts) }

/-- The order is given with an amount: a new order is recorded as not completed, and a known one
takes an amount that it has not outgrown. -/
def give (stored : Option OrderAmounts) (space : OrderSpace) (given : OrderAmounts) (course : OrderCourse) :
    OrderCourse :=
  match course.held <|> stored with
  | some amounts =>
    if given.nOrderAmount ≠ amounts.nOrderAmount ∧ given.nOrderAmount ≥ amounts.nCompleteAmount then
      let amounts := { amounts with nOrderAmount := given.nOrderAmount }
      { course.record space amounts.reached amounts with held := some amounts }
    else { course with held := some amounts }
  | none => { course.record space false given with held := some given }

def turn (stored : OrderSpace → Option OrderAmounts) (block : DexBlock) (course : OrderCourse) :
    OrderTurn → OrderCourse
  | .complete header vCompleteAmount =>
    course.complete (stored (block.spaceOf header)) (block.spaceOf header) vCompleteAmount
  | .place header orderBody => course.give (stored (block.spaceOf header)) .own orderBody.amounts
  | .prove _ _ orderProve => course.give (stored .peer) .peer (proveBody orderProve).amounts

end OrderCourse

def courseOf (codec : HeaderCodec) (records : OrderRecords) (block : DexBlock) (header : DexOrderHeader) : OrderCourse :=
  (block.turns.filter fun turn => turn.header codec = header).foldl
    (OrderCourse.turn (fun space => storedAmounts records space header) block) .start

/-- No order that is stored changes its status in the block, and no order is left with a status
that its amounts contradict. -/
def KeepsStatus (codec : HeaderCodec) (records : OrderRecords) (block : DexBlock) : Prop :=
  ∀ header space fCompleted amounts,
    (courseOf codec records block header).recorded space = some (fCompleted, amounts) →
      fCompleted = amounts.reached ∧ records ⟨space, !fCompleted, header⟩ = none

def underKey (recorded : Option (Bool × OrderAmounts)) (fCompleted : Bool) : Option OrderAmounts :=
  recorded.bind fun status => if status.1 = fCompleted then some status.2 else none

structure OrderDraft.Tracks (draft : OrderDraft) (header : DexOrderHeader) (course : OrderCourse) : Prop where
  held : (draft.mapDbDexOrder header).map DexOrderSave.amounts = course.held
  keys : ∀ space fCompleted, (draft.mapKv ⟨space, fCompleted, header⟩).map DexOrderSave.amounts =
    underKey (course.recorded space) fCompleted

namespace OrderDraft
variable {codec : HeaderCodec} {read : OrderSpace → DexOrderHeader → Option DexOrderSave} {block : DexBlock}
  {draft draft' : OrderDraft} {header other : DexOrderHeader} {course : OrderCourse} {save : DexOrderSave}
  {stored : Option DexOrderSave} {space : OrderSpace} {fCompleted : Bool}

theorem tracks_empty (header : DexOrderHeader) : Tracks .empty header .start := ⟨rfl, fun _ _ => rfl⟩

section
variable (tracks : draft.Tracks header course)
include tracks

theorem Tracks.addDexOrder :
    (draft.addDexOrder space fCompleted header save).Tracks header (course.record space fCompleted save.amounts) := by
  refine ⟨tracks.held, ?_⟩
  intro space' status
  have before := tracks.keys space' status
  by_cases same : space' = space
  · subst same
    cases fCompleted <;> cases status <;> simp [OrderDraft.addDexOrder, OrderCourse.record, underKey]
  · simpa [OrderDraft.addDexOrder, OrderCourse.record, same] using before

theorem Tracks.setDb {amounts : OrderAmounts} (same : save.amounts = amounts) :
    (draft.setDb header save).Tracks header { course with held := some amounts } :=
  ⟨by simp [OrderDraft.setDb, same], tracks.keys⟩

theorem Tracks.addDexOrder_other (apart : header ≠ other) :
    (draft.addDexOrder space fCompleted other save).Tracks header course := by
  refine ⟨tracks.held, ?_⟩
  simpa [OrderDraft.addDexOrder, apart] using tracks.keys

theorem Tracks.setDb_other (apart : header ≠ other) :
    (draft.setDb other save).Tracks header course := by
  refine ⟨?_, tracks.keys⟩
  simpa [OrderDraft.setDb, apart] using tracks.held

theorem Tracks.giveOrder {nAtChainId : ChainId} {block : UInt256} {orderBody : DexOrderBody} :
    (draft.giveOrder stored space nAtChainId block header orderBody).Tracks header
      (course.give (stored.map DexOrderSave.amounts) space orderBody.amounts) := by
  have known : (course.held <|> stored.map DexOrderSave.amounts) =
      (draft.mapDbDexOrder header <|> stored).map DexOrderSave.amounts := by
    rw [← tracks.held]
    cases draft.mapDbDexOrder header <;> rfl
  unfold OrderDraft.giveOrder OrderCourse.give
  rw [known]
  cases draft.mapDbDexOrder header <|> stored with
  | none => exact tracks.addDexOrder.setDb rfl
  | some save =>
    dsimp only [map_some]
    split_ifs with taken follows follows
    · exact tracks.addDexOrder.setDb rfl
    · exact absurd taken follows
    · exact absurd follows taken
    · exact tracks.setDb rfl

theorem Tracks.giveOrder_other {nAtChainId : ChainId} {block : UInt256} {orderBody : DexOrderBody}
    (apart : header ≠ other) :
    (draft.giveOrder stored space nAtChainId block other orderBody).Tracks header course := by
  unfold OrderDraft.giveOrder
  cases draft.mapDbDexOrder other <|> stored with
  | none => exact (tracks.addDexOrder_other apart).setDb_other apart
  | some save =>
    dsimp only
    split_ifs
    · exact (tracks.addDexOrder_other apart).setDb_other apart
    · exact tracks.setDb_other apart

theorem Tracks.turn {turn : OrderTurn} (own : turn.header codec = header)
    (taken : draft.turn codec read block turn = some draft') :
    draft'.Tracks header
      (course.turn (fun space => (read space header).map DexOrderSave.amounts) block turn) := by
  subst own
  cases turn with
  | complete header vCompleteAmount =>
    obtain ⟨stored, found, rfl⟩ := map_eq_some_iff.1 taken
    simp only [OrderCourse.turn, OrderTurn.header, found]
    have known : ((draft.mapDbDexOrder header).getD (completeSave stored vCompleteAmount)).amounts =
        course.held.getD (completeSave stored vCompleteAmount).amounts := by
      rw [← tracks.held, OrderTurn.header]
      cases draft.mapDbDexOrder header <;> rfl
    exact tracks.addDexOrder.setDb known
  | place header orderBody =>
    cases taken
    exact tracks.giveOrder
  | prove nPeerChainId hashPeerAtBlock orderProve =>
    cases taken
    exact tracks.giveOrder

theorem Tracks.turn_other {turn : OrderTurn} (apart : header ≠ turn.header codec)
    (taken : draft.turn codec read block turn = some draft') :
    draft'.Tracks header course := by
  cases turn with
  | complete other vCompleteAmount =>
    obtain ⟨stored, found, rfl⟩ := map_eq_some_iff.1 taken
    exact (tracks.addDexOrder_other apart).setDb_other apart
  | place other orderBody =>
    cases taken
    exact tracks.giveOrder_other apart
  | prove nPeerChainId hashPeerAtBlock orderProve =>
    cases taken
    exact tracks.giveOrder_other apart

end

/-- The turns of a block take every order along its course. -/
theorem Tracks.turns {turns : List OrderTurn} :
    ∀ {draft : OrderDraft} {course : OrderCourse}, draft.Tracks header course →
      turns.foldlM (OrderDraft.turn codec read block) draft = some draft' →
      draft'.Tracks header ((turns.filter fun turn => turn.header codec = header).foldl
        (OrderCourse.turn (fun space => (read space header).map DexOrderSave.amounts) block) course) := by
  induction turns with
  | nil =>
    intro draft course tracks taken
    cases taken
    exact tracks
  | cons turn rest ih =>
    intro draft course tracks taken
    rw [foldlM_cons, bind_eq_bind, bind_eq_some_iff] at taken
    obtain ⟨middle, first, later⟩ := taken
    by_cases own : turn.header codec = header
    · rw [filter_cons_of_pos (by simpa using own)]
      exact ih (tracks.turn own first) later
    · rw [filter_cons_of_neg (by simpa using own)]
      exact ih (tracks.turn_other (Ne.symm own) first) later

end OrderDraft

variable {codec : HeaderCodec} {reader : OrderReader} {records records' : OrderRecords} {block : DexBlock}

theorem OrderReader.Reads.eq_storedAmounts (reads : reader.Reads) (exclusive : Exclusive records) (space : OrderSpace)
    (header : DexOrderHeader) :
    (reader records space header).map DexOrderSave.amounts = storedAmounts records space header := by
  unfold storedAmounts
  cases found : reader records space header with
  | none =>
    rw [reads.missing _ _ _ found, reads.missing _ _ _ found]
    rfl
  | some save =>
    obtain ⟨done, there⟩ := reads.stored _ _ _ _ found
    have absent := (exclusive _ _ _ _ there).2
    cases done with
    | false =>
      rw [there]
      rfl
    | true =>
      rw [there, show records ⟨space, false, header⟩ = none from absent]
      rfl

/-- What a block leaves under a key is what the course of the order records there, or else what was
there before. -/
theorem addDexOrder_eq_some (reads : reader.Reads) (exclusive : Exclusive records)
    (added : addDexOrder codec reader records block = some records') (space : OrderSpace) (header : DexOrderHeader)
    (done : Bool) :
    (records' ⟨space, done, header⟩).map DexOrderSave.amounts =
      (underKey ((courseOf codec records block header).recorded space) done
        <|> (records ⟨space, done, header⟩).map DexOrderSave.amounts) := by
  obtain ⟨draft, taken, rfl⟩ := map_eq_some_iff.1 added
  have tracks := (OrderDraft.tracks_empty header).turns taken
  simp only [reads.eq_storedAmounts exclusive] at tracks
  rw [courseOf, ← tracks.keys]
  dsimp only
  cases draft.mapKv ⟨space, done, header⟩ <;> rfl

/-- At most one of the two keys is in use, and it is the one that the amounts ask for. -/
def OneStatus (amounts : Bool → Option OrderAmounts) : Prop :=
  ∀ fCompleted found, amounts fCompleted = some found → fCompleted = found.reached ∧ amounts (!fCompleted) = none

theorem exclusive_iff : Exclusive records ↔
    ∀ space header, OneStatus fun done => (records ⟨space, done, header⟩).map DexOrderSave.amounts := by
  simp [Exclusive, OneStatus]

theorem OneStatus.recorded {amounts : Bool → Option OrderAmounts} (one : OneStatus amounts)
    (recorded : Option (Bool × OrderAmounts)) :
    OneStatus (fun done => underKey recorded done <|> amounts done) ↔
      ∀ done found, recorded = some (done, found) →
        done = found.reached ∧ amounts (!done) = none := by
  cases recorded with
  | none => simpa [underKey] using one
  | some status =>
    obtain ⟨done, found⟩ := status
    cases done <;> simp +contextual [underKey, OneStatus]

/-- Along a chain each order has one record, under the key that its amounts ask for, exactly if
every block keeps the status of the orders. -/
theorem exclusive_always_iff (codec : HeaderCodec) (reader : OrderReader) (reads : reader.Reads)
    (blocks : List DexBlock) :
    Always (addDexOrder codec reader) Exclusive (fun _ => none) blocks ↔
      AtEach (addDexOrder codec reader) (KeepsStatus codec) (fun _ => none) blocks := by
  apply always_iff_atEach_of fun _ exclusive => exclusive
  · intro records block _ records' exclusive added
    rw [← iff_def, exclusive_iff, forall_comm]
    apply forall₂_congr
    intro header space
    simp only [addDexOrder_eq_some reads exclusive added]
    rw [OneStatus.recorded (exclusive_iff.1 exclusive space header)]
    simp
  · intro space header fCompleted save found
    cases found

namespace Sample

def header : DexOrderHeader where
  nChainId := 1
  destOrder := 0xA11CE
  hashCoinPair := 7
  nOwnerCoinFlag := 0
  nOrderNumber := 1

def placedBlock : DexBlock where
  hashBlock := createBlockHash 1 5 0 0
  mapCompDexOrderRecord := []
  mapDexOrder := [(header, ⟨[72], [66], 2, 10, 1000, 0, 0⟩)]
  mapBlockProve := []

def matchedFor (nCompleteAmount : UInt256) : DexBlock where
  hashBlock := createBlockHash 1 6 0 0
  mapCompDexOrderRecord := [(header, [nCompleteAmount])]
  mapDexOrder := []
  mapBlockProve := []

def headers : HeaderCodec := ⟨fun _ _ => 7, fun _ _ => 0⟩

def openFirst : OrderReader := fun records space header =>
  records ⟨space, false, header⟩ <|> records ⟨space, true, header⟩

theorem openFirst_reads : openFirst.Reads := by
  constructor
  · intro records space header save found
    rcases (orElse_eq_some _ _ _).1 found with there | ⟨_, there⟩
    exacts [⟨false, there⟩, ⟨true, there⟩]
  · intro records space header missing done
    have both := (orElse_eq_none _ _).1 missing
    cases done
    exacts [both.1, both.2]

/-- The order is placed and matched for a part, and keeps its one record. -/
theorem exclusive_always_part :
    Always (addDexOrder headers openFirst) Exclusive (fun _ => none) [placedBlock, matchedFor 4] := by
  apply (exclusive_always_iff headers openFirst openFirst_reads _).2
  rintro records ⟨⟩
  refine ⟨?_, ?_⟩
  · intro other space fCompleted amounts recorded
    by_cases own : header = other
    · subst own
      cases space <;> cases recorded
      exact ⟨rfl, rfl⟩
    · simp [courseOf, placedBlock, DexBlock.turns, DexBlock.orderProves, OrderTurn.header, own,
        OrderCourse.start] at recorded
  · rintro records ⟨⟩
    refine ⟨?_, trivial⟩
    intro other space fCompleted amounts recorded
    by_cases own : header = other
    · subst own
      cases space <;> cases recorded
      exact ⟨rfl, rfl⟩
    · simp [courseOf, matchedFor, DexBlock.turns, DexBlock.orderProves, OrderTurn.header, own, OrderCourse.start]
        at recorded

/-- Once the order is matched in full, it has a record under both keys. -/
theorem completed_order_twice : ∃ first second,
    addDexOrder headers openFirst (fun _ => none) placedBlock = some first ∧
      addDexOrder headers openFirst first (matchedFor 10) = some second ∧ ¬Exclusive second := by
  refine ⟨_, _, rfl, rfl, ?_⟩
  intro exclusive
  cases (exclusive .own header false _ rfl).2

end Sample

structure OrderSide where
  destOrder : Destination
  hashCoinPair : UInt256
  nOwnerCoinFlag : UInt8

namespace OrderSide

def covers (side : OrderSide) (header : DexOrderHeader) : Prop :=
  header.destOrder = side.destOrder ∧ header.hashCoinPair = side.hashCoinPair ∧
    header.nOwnerCoinFlag = side.nOwnerCoinFlag
deriving Decidable

def higher (side : OrderSide) (nMaxNumber : UInt64) (header : DexOrderHeader) : UInt64 :=
  if side.covers header ∧ nMaxNumber < header.nOrderNumber then header.nOrderNumber else nMaxNumber

/-- The loop over `mapCacheDexOrder`, and the one over `mapBlockDexOrder`. -/
def maxNumber (side : OrderSide) (orders : List DexOrderHeader) : UInt64 := orders.foldl side.higher 0

/-- A turn of `CHdexDB::AddDexOrder` on `mapMaxOrderNumber`. Without an entry the stored number is compared. -/
def raise (side : OrderSide) (stored noted : Option UInt64) (header : DexOrderHeader) : Option UInt64 :=
  if side.covers header ∧ noted.getD (stored.getD 0) < header.nOrderNumber then some header.nOrderNumber else noted

/-- `CHdexDB::GetDexOrderMaxNumber` after blocks with these orders. -/
def getDexOrderMaxNumber (side : OrderSide) (blocks : List (List DexOrderHeader)) : Option UInt64 :=
  blocks.foldl (fun stored orders => orders.foldl (side.raise stored) none <|> stored) none

/-- `CBlockState::GetMaxDexCoinOrderNumber` -/
def getMaxDexCoinOrderNumber (side : OrderSide) (cache block : List DexOrderHeader)
    (blocks : List (List DexOrderHeader)) : UInt64 :=
  if side.maxNumber cache ≠ 0 then side.maxNumber cache
  else if side.maxNumber block ≠ 0 then side.maxNumber block
  else (side.getDexOrderMaxNumber blocks).getD 0

theorem maxNumber_le_iff (side : OrderSide) (orders : List DexOrderHeader) (bound : UInt64) :
    side.maxNumber orders ≤ bound ↔ ∀ header ∈ orders, side.covers header → header.nOrderNumber ≤ bound := by
  have each : ∀ least : UInt64, orders.foldl side.higher least ≤ bound ↔
      least ≤ bound ∧ ∀ header ∈ orders, side.covers header → header.nOrderNumber ≤ bound := by
    induction orders with
    | nil => simp
    | cons first rest ih =>
      intro least
      rw [foldl_cons, ih, forall_mem_cons, ← and_assoc, higher]
      refine and_congr_left fun _ => ?_
      split_ifs <;> grind
  simpa [maxNumber] using each 0

theorem getDexOrderMaxNumber_eq (side : OrderSide) (blocks : List (List DexOrderHeader)) :
    (side.getDexOrderMaxNumber blocks).getD 0 = side.maxNumber blocks.flatten := by
  have placed : ∀ (orders : List DexOrderHeader) (stored noted : Option UInt64),
      (orders.foldl (side.raise stored) noted <|> stored).getD 0 =
      orders.foldl side.higher ((noted <|> stored).getD 0) := by
    intro orders stored
    induction orders with
    | nil => exact fun _ => rfl
    | cons first rest ih =>
      intro noted
      have entry : (noted <|> stored).getD 0 = noted.getD (stored.getD 0) := by cases noted <;> rfl
      rw [foldl_cons, ih, foldl_cons, raise, higher, entry]
      split_ifs
      · rfl
      · rw [entry]
  have each : ∀ stored : Option UInt64,
      (blocks.foldl (fun stored orders => orders.foldl (side.raise stored) none <|> stored) stored).getD 0 =
        blocks.flatten.foldl side.higher (stored.getD 0) := by
    induction blocks with
    | nil => exact fun _ => rfl
    | cons orders rest ih =>
      intro stored
      rw [foldl_cons, ih, placed, flatten_cons, foldl_append]
      rfl
  exact each none

/-- The number is not below any order's exactly if the orders that end the search are not below the later ones. -/
theorem orderNumber_max_iff (side : OrderSide) (cache block : List DexOrderHeader) (blocks : List (List DexOrderHeader)) :
    (∀ header ∈ cache ++ block ++ blocks.flatten, side.covers header →
      header.nOrderNumber ≤ side.getMaxDexCoinOrderNumber cache block blocks) ↔
    (side.maxNumber cache ≠ 0 → side.maxNumber (block ++ blocks.flatten) ≤ side.maxNumber cache) ∧
      (side.maxNumber cache = 0 → side.maxNumber block ≠ 0 →
        side.maxNumber blocks.flatten ≤ side.maxNumber block) := by
  simp only [maxNumber_le_iff, forall_mem_append, getMaxDexCoinOrderNumber, getDexOrderMaxNumber_eq]
  simp only [← maxNumber_le_iff]
  split_ifs <;> simp_all

end OrderSide

namespace Sample

def numbered (nOrderNumber : UInt64) : DexOrderHeader := ⟨201, 1, 7, 0, nOrderNumber⟩

/-- The first order is amended by the transaction, and the block has a second one. -/
theorem second_number_forgotten : OrderSide.getMaxDexCoinOrderNumber ⟨1, 7, 0⟩ [numbered 1] [numbered 2] [] = 1 := by
  decide

end Sample

end HashAhead.Dex

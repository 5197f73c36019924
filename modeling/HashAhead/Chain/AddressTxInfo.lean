import HashAhead.Chain.BlockHash
import HashAhead.Foundation.WriteBatch
import HashAhead.Foundation.Exhaust

/-! The history of addresses. Each address, and each pair of a token contract and a user, has its
records numbered from 0 and a count of them. They follow the long chain: a block that comes in
appends its records, and a block that goes out erases them. All writes of an update are committed
together, and its reads see the database as it was before.

Records are numbered with natural numbers in place of 64-bit words. -/

namespace HashAhead.Chain
open Foundation State

def longChain {Block : Type} (chain vRemoveBlock vAddBlock : List Block) : List Block :=
  chain.take (chain.length - vRemoveBlock.length) ++ vAddBlock

structure DestTxInfo where
  nDirection : UInt8
  nBlockNumber : UInt64
  txid : UInt256
  nTxType : UInt16
  nTimeStamp : UInt64
  destPeer : Destination
  nAmount : UInt256
  nTxFee : UInt256
deriving DecidableEq

structure TokenTransRecord where
  nBlockNumber : UInt64
  nBlockTime : UInt64
  txid : UInt256
  destFrom : Destination
  destTo : Destination
  nAmount : UInt256
deriving DecidableEq

abbrev DestMap (V : Type) := SortedMap Destination V destOrder

structure BlockTxData where
  nBlockNumber : UInt64
  mapAddressTxInfo : DestMap (List DestTxInfo)
  mapTokenRecord : DestMap (List TokenTransRecord)

/-- Whose history it is: that of an address, or that of a token contract and an address. -/
inductive HistoryKey where
  | address (address : Destination)
  | token (destContractAddress address : Destination)
deriving DecidableEq

inductive HistoryRecord where
  | address (info : DestTxInfo)
  | token (record : TokenTransRecord)
deriving DecidableEq

def HistoryRecord.nBlockNumber : HistoryRecord → UInt64
  | address info => info.nBlockNumber
  | token record => record.nBlockNumber

/-- The keys of `CForkAddressTxInfoDB`. The records and counts of addresses and of tokens have two
key types each there. -/
inductive AddressTxKey where
  | txInfo (key : HistoryKey) (nTxIndex : Nat)
  | txCount (key : HistoryKey)
  | blockAddressTxData (hashBlock : UInt256)
  | blockAddressTxRange (hashBlock : UInt256)
  | blockTokenAddressTxRange (hashBlock : UInt256)
  | blockPrevblock (hashBlock : UInt256)
  | blockLastblock
deriving DecidableEq

/-- The first and the last number of the records a block has brought in, by address. -/
abbrev RangeMap := DestMap (Nat × Nat)

@[reducible] def AddressTxKey.Value : AddressTxKey → Type
  | txInfo _ _ => HistoryRecord
  | txCount _ => Nat
  | blockAddressTxData _ => BlockTxData
  | blockAddressTxRange _ => RangeMap
  | blockTokenAddressTxRange _ => DestMap RangeMap
  | blockPrevblock _ => UInt256 × UInt64
  | blockLastblock => UInt256

abbrev AddressTxStore := KvStore AddressTxKey.Value

abbrev AddressTxBatch := WriteBatch AddressTxKey.Value

structure ForkAddressTxInfoDB where
  db : AddressTxStore
  setCacheBlockHash : List UInt256

/-- `CForkAddressTxInfoDB::ReadAddressTxCount` and `ReadTokenTxCount`, where a missing count is 0. -/
def readTxCount (db : AddressTxStore) (key : HistoryKey) : Nat := (db (.txCount key)).getD 0

def appendRecords (key : HistoryKey) (nTxCount : Nat) : List HistoryRecord → AddressTxBatch
  | [] => []
  | record :: rest => put (.txInfo key nTxCount) record :: appendRecords key (nTxCount + 1) rest

def addAddressTx (db : AddressTxStore) (kv : Destination × List DestTxInfo) : AddressTxBatch :=
  if kv.2 = [] then []
  else
    let nTxCount := readTxCount db (.address kv.1)
    appendRecords (.address kv.1) nTxCount (kv.2.map .address) ++
      [put (.txCount (.address kv.1)) (nTxCount + kv.2.length)]

def blockAddressTxIndex (db : AddressTxStore) (mapAddressTxInfo : DestMap (List DestTxInfo)) : RangeMap :=
  mapAddressTxInfo.entries.foldl (fun index kv =>
    if kv.2 = [] then index
    else
      let nTxCount := readTxCount db (.address kv.1)
      index.insert kv.1 (nTxCount, nTxCount + kv.2.length - 1)) .empty

structure TokenTurn where
  mapAddressTxCount : DestMap Nat
  mapBeginAddressTxCount : DestMap Nat
  writes : AddressTxBatch

/-- `funcWriteRecord` of `AddLongChainBlock` -/
def writeRecord (db : AddressTxStore) (destContractAddress : Destination) (record : TokenTransRecord) (turn : TokenTurn)
    (address : Destination) : TokenTurn :=
  if address = 0 then turn
  else
    match turn.mapAddressTxCount.find address with
    | some nTxCount =>
      { turn with
        mapAddressTxCount := turn.mapAddressTxCount.insert address (nTxCount + 1)
        writes := turn.writes ++ [put (.txInfo (.token destContractAddress address) nTxCount) (.token record)] }
    | none =>
      let nTxCount := readTxCount db (.token destContractAddress address)
      { mapAddressTxCount := turn.mapAddressTxCount.insert address (nTxCount + 1)
        mapBeginAddressTxCount := turn.mapBeginAddressTxCount.insert address nTxCount
        writes := turn.writes ++ [put (.txInfo (.token destContractAddress address) nTxCount) (.token record)] }

/-- The addresses for which a record of a token is written, in this order. -/
def recordAddresses (destContractAddress : Destination) (record : TokenTransRecord) : List Destination :=
  [destContractAddress, record.destFrom] ++ if record.destFrom ≠ record.destTo then [record.destTo] else []

def tokenTurn (db : AddressTxStore) (destContractAddress : Destination) (records : List TokenTransRecord) : TokenTurn :=
  records.foldl (fun turn record =>
    (recordAddresses destContractAddress record).foldl (writeRecord db destContractAddress record) turn)
    ⟨.empty, .empty, []⟩

def addTokenTx (db : AddressTxStore) (kv : Destination × List TokenTransRecord) : AddressTxBatch :=
  let turn := tokenTurn db kv.1 kv.2
  turn.writes ++ turn.mapAddressTxCount.entries.map fun count => put (.txCount (.token kv.1 count.1)) count.2

def tokenRanges (turn : TokenTurn) : RangeMap :=
  turn.mapAddressTxCount.entries.foldl (fun index count =>
    match turn.mapBeginAddressTxCount.find count.1 with
    | some nBegin => index.insert count.1 (nBegin, count.2 - 1)
    | none => index) .empty

def blockAddressTokenTxIndex (db : AddressTxStore) (mapTokenRecord : DestMap (List TokenTransRecord)) :
    DestMap RangeMap :=
  mapTokenRecord.entries.foldl (fun index kv =>
    let ranges := tokenRanges (tokenTurn db kv.1 kv.2)
    if ranges.entries = [] then index else index.insert kv.1 ranges) .empty

def addLongChainBlock (db : AddressTxStore) (hashBlock : UInt256) : Option AddressTxBatch :=
  (db (.blockAddressTxData hashBlock)).map fun data =>
    data.mapAddressTxInfo.entries.flatMap (addAddressTx db) ++
      [put (.blockAddressTxRange hashBlock) (blockAddressTxIndex db data.mapAddressTxInfo)] ++
      data.mapTokenRecord.entries.flatMap (addTokenTx db) ++
      [put (.blockTokenAddressTxRange hashBlock) (blockAddressTokenTxIndex db data.mapTokenRecord),
        put .blockLastblock hashBlock]

def removeRange (key : HistoryKey) (range : Nat × Nat) : AddressTxBatch :=
  (List.range' range.1 (range.2 + 1 - range.1)).map (fun nTxIndex => erase (.txInfo key nTxIndex)) ++
    [put (.txCount key) (range.2 + 1)]

def removeLongChainlock (db : AddressTxStore) (hashBlock : UInt256) : Option AddressTxBatch := do
  let mapBlockAddressTxIndex ← db (.blockAddressTxRange hashBlock)
  let mapBlockAddressTokenTxIndex ← db (.blockTokenAddressTxRange hashBlock)
  let (hashPrevBlock, _) ← db (.blockPrevblock hashBlock)
  some (mapBlockAddressTxIndex.entries.flatMap (fun kv => removeRange (.address kv.1) kv.2) ++
    mapBlockAddressTokenTxIndex.entries.flatMap (fun kv =>
      kv.2.entries.flatMap fun kv2 => removeRange (.token kv.1 kv2.1) kv2.2) ++
    [put .blockLastblock hashPrevBlock])

def cacheRollbackHeight : UInt32 := 1024

/-- The blocks whose data `ClearOldBlockData` removes. -/
def oldBlocks (address : ForkAddressTxInfoDB) : List UInt256 :=
  match address.db .blockLastblock with
  | none => []
  | some hashLastBlock =>
    let nLastHeight := getBlockHeightByHash hashLastBlock
    if nLastHeight ≤ cacheRollbackHeight then []
    else
      let nClearEndHeight := nLastHeight - cacheRollbackHeight
      address.setCacheBlockHash.filter fun hashBlock => getBlockHeightByHash hashBlock < nClearEndHeight

def removeOldBlockData (hashBlock : UInt256) : AddressTxBatch :=
  [erase (.blockAddressTxData hashBlock), erase (.blockPrevblock hashBlock), erase (.blockAddressTxRange hashBlock),
    erase (.blockTokenAddressTxRange hashBlock)]

namespace ForkAddressTxInfoDB

def addAddressTxInfo (address : ForkAddressTxInfoDB) (hashPrevBlock hashBlock : UInt256) (data : BlockTxData) :
    ForkAddressTxInfoDB where
  db := commit address.db [put (.blockAddressTxData hashBlock) data,
    put (.blockPrevblock hashBlock) (hashPrevBlock, data.nBlockNumber)]
  setCacheBlockHash := address.setCacheBlockHash.insert hashBlock

/-- `CForkAddressTxInfoDB::UpdateAddressTxInfoBlockLongChain`. Blocks whose removal fails are passed
over, and a block that cannot be added ends the update without a change. -/
def updateAddressTxInfoBlockLongChain (address : ForkAddressTxInfoDB) (vRemoveBlock vAddBlock : List UInt256) :
    Option ForkAddressTxInfoDB :=
  (vAddBlock.mapM (addLongChainBlock address.db)).map fun added =>
    { db := commit address.db (vRemoveBlock.flatMap (fun hashBlock => (removeLongChainlock address.db hashBlock).getD []) ++
        added.flatten ++ (oldBlocks address).flatMap removeOldBlockData)
      setCacheBlockHash := address.setCacheBlockHash.filter fun hashBlock => hashBlock ∉ oldBlocks address }

end ForkAddressTxInfoDB

end HashAhead.Chain

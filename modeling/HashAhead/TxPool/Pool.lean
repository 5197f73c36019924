import HashAhead.Chain.LongChain
import HashAhead.Core.Transaction
import HashAhead.Foundation.Containers

/-! The pool of transactions of a fork. Pooled transactions are found by id, stand in one index by sequence and
by type, and are listed under the addresses of their sender and receiver. An address with listed transactions
also has its pending state, the state of the chain as the pooled transactions have changed it. -/

namespace HashAhead.TxPool
open Foundation State Core Chain

def initTxSequenceNumber : Nat := 0x1000000

/-- The results of `CForkTxPool::AddTx`. -/
inductive Errno where
  | ok
  | alreadyHave
  | transactionInputInvalid
  | transactionAtBlacklist
  | missingPrev
  | transactionInvalid
deriving DecidableEq

/-- What the pool of a fork takes from outside: the id of a transaction, its serialized size, whether the fork is
the main one, and `CONSENSUS_ENROLL_INTERVAL` of the network. -/
structure PoolBase where
  getHash : Transaction → UInt256
  getSerializeSize : Transaction → Nat
  isGenesisFork : Bool
  consensusEnrollInterval : UInt32

/-- What the chain of the fork answers. States and address contexts are those at a block. -/
structure ForkChain where
  existsTx : UInt256 → Bool
  isExistBlacklistAddress : Destination → Bool
  retrieveDestState : UInt256 → Destination → Option DestState
  retrieveAddressContext : UInt256 → Destination → Option AddressContext
  getTxToAddressContext : UInt256 → Transaction → Option AddressContext
  getForkMintMinGasPrice : UInt256

structure PooledTx extends Transaction where
  nSequenceNumber : Nat
  nSerializeSize : Nat

structure PooledTxLink where
  txid : UInt256
  nType : TxType
  nSequenceNumber : Nat
  ptx : PooledTx

def PooledTx.link (base : PoolBase) (ptx : PooledTx) : PooledTxLink :=
  ⟨base.getHash ptx.toTransaction, ptx.nType, ptx.nSequenceNumber, ptx⟩

/-- `IncTxNonce` and `GetNextTxNonce` of `CDestState` -/
def incTxNonce (state : DestState) : DestState := { state with nTxNonce := state.nTxNonce + 1 }

def getNextTxNonce (state : DestState) : UInt64 := state.nTxNonce + 1

structure AddressTxState where
  mapDestTx : HashMap PooledTx
  stateAddress : DestState
  ctxAddress : AddressContext
  mapMissTx : HashMap Transaction
  mapMissNonce : SortedMap UInt64 UInt256 (.ofKey UInt64.toNat uint64_injective)

namespace AddressTxState

def new : AddressTxState := ⟨.empty, .null, ⟨0, []⟩, .empty, .empty⟩

def removeMissTx (entry : AddressTxState) (txid : UInt256) : AddressTxState :=
  match entry.mapMissTx.find txid with
  | none => entry
  | some tx => { entry with
      mapMissNonce := entry.mapMissNonce.erase tx.nTxNonce
      mapMissTx := entry.mapMissTx.erase txid }

def addAddressTx (entry : AddressTxState) (txid : UInt256) (ptx : PooledTx) : AddressTxState :=
  removeMissTx { entry with mapDestTx := entry.mapDestTx.insertNew txid ptx } txid

def removeAddressTx (entry : AddressTxState) (txid : UInt256) : AddressTxState :=
  { entry with mapDestTx := entry.mapDestTx.erase txid }

def isEmptyAddressTx (entry : AddressTxState) : Bool := entry.mapDestTx.entries.isEmpty && entry.mapMissTx.entries.isEmpty

/-- The missing transactions with the nonces up to that of the new state are forgotten. -/
def setAddressState (entry : AddressTxState) (state : DestState) : AddressTxState :=
  let passed := entry.mapMissNonce.entries.takeWhile fun e => e.1 ≤ state.nTxNonce
  { entry with
    stateAddress := state
    mapMissTx := passed.foldl (fun map e => map.erase e.2) entry.mapMissTx
    mapMissNonce := passed.foldl (fun map e => map.erase e.1) entry.mapMissNonce }

def fetchNextMissTx (entry : AddressTxState) : Option (UInt256 × Transaction) :=
  (entry.mapMissNonce.find (getNextTxNonce entry.stateAddress)).bind fun txid =>
    (entry.mapMissTx.find txid).map fun tx => (txid, tx)

end AddressTxState

abbrev AddressMap := DestMap AddressTxState

namespace AddressMap
variable (map : AddressMap) (dest : Destination)

/-- The entry that indexing the map gives, which is made if there is none. -/
def entry : AddressTxState := (map.find dest).getD .new

def update (change : AddressTxState → AddressTxState) : AddressMap := map.insert dest (change (entry map dest))

/-- `removeDestTx` of `CForkTxPool::RemovePooledTx`. An entry without transactions goes. -/
def removeDestTx (txid : UInt256) : Option AddressMap :=
  (map.find dest).map fun entry =>
    let entry := entry.removeAddressTx txid
    if entry.isEmptyAddressTx then map.erase dest else map.insert dest entry

end AddressMap

/-- `CForkTxPool`. The index has its links in the order in which they were put in. -/
structure ForkTxPool where
  nTxSequenceNumber : Nat
  setTxLinkIndex : List PooledTxLink
  mapTx : HashMap PooledTx
  mapAddressTxState : AddressMap
  hashLastBlock : UInt256
  nLastBlockTime : Int

/-- `CBlockEx`, with the transactions that a miner has put in. -/
structure BlockEx where
  vtx : List Transaction

/-- `CBlockChainUpdate`, with what the pool reads. -/
structure BlockChainUpdate where
  hashLastBlock : UInt256
  nLastBlockTime : Int
  vBlockAddNew : List BlockEx

def BlockChainUpdate.txs (update : BlockChainUpdate) : List Transaction :=
  update.vBlockAddNew.flatMap fun block => block.vtx.filter fun tx => tx.nType ≠ .voteReward

def untilFails {S X : Type} (turn : S → X → Bool × S) : List X → S → Bool × S
  | [], s => (true, s)
  | x :: rest, s => if (turn s x).1 then untilFails turn rest (turn s x).2 else (false, (turn s x).2)

namespace ForkTxPool

def new (hashLastBlock : UInt256) (nBlockTime : Int) : ForkTxPool :=
  ⟨initTxSequenceNumber, [], .empty, .empty, hashLastBlock, nBlockTime⟩

def clearTxPool (pool : ForkTxPool) : ForkTxPool :=
  { pool with nTxSequenceNumber := initTxSequenceNumber, setTxLinkIndex := [], mapTx := .empty, mapAddressTxState := .empty }

def bySequence (pool : ForkTxPool) : List PooledTxLink :=
  pool.setTxLinkIndex.insertionSort fun a b => a.nSequenceNumber ≤ b.nSequenceNumber

def byTxType (pool : ForkTxPool) (nType : TxType) : List PooledTxLink :=
  pool.setTxLinkIndex.filter fun link => link.nType = nType

section Pooled
variable (base : PoolBase) (pool : ForkTxPool)

def listAddressTx (txid : UInt256) (ptx : PooledTx) : AddressMap :=
  let map := pool.mapAddressTxState
  let map := if ptx.destFrom ≠ 0 then map.update ptx.destFrom fun entry => entry.addAddressTx txid ptx else map
  if ptx.destTo ≠ 0 ∧ ptx.destFrom ≠ ptx.destTo then map.update ptx.destTo fun entry => entry.addAddressTx txid ptx else map

/-- `CForkTxPool::AddPooledTx`. The index takes no second link with an id. -/
def addPooledTx (txid : UInt256) (tx : Transaction) (nTxSeq : Nat) : Bool × ForkTxPool :=
  let ptx : PooledTx := { tx with nSequenceNumber := nTxSeq, nSerializeSize := base.getSerializeSize tx }
  if pool.setTxLinkIndex.any fun link => link.txid = (ptx.link base).txid then
    (false, { pool with mapTx := pool.mapTx.erase txid })
  else
    (true, { pool with
      mapTx := pool.mapTx.insertNew txid ptx
      setTxLinkIndex := pool.setTxLinkIndex ++ [ptx.link base]
      mapAddressTxState := pool.listAddressTx txid ptx })

/-- What `RemovePooledTx` does last for a pooled transaction. -/
def eraseTx (txid : UInt256) (map : AddressMap) : ForkTxPool :=
  let mapTx := pool.mapTx.erase txid
  { pool with
    mapAddressTxState := map
    setTxLinkIndex := pool.setTxLinkIndex.filter fun link => link.txid ≠ txid
    mapTx := mapTx
    nTxSequenceNumber :=
      if mapTx.entries.isEmpty ∧ pool.nTxSequenceNumber > 0xFFFFFFFFFFFFFFF then initTxSequenceNumber
      else pool.nTxSequenceNumber }

/-- `RemovePooledTx` for a transaction whose id is pooled. -/
def removeFoundTx (txid : UInt256) (tx : Transaction) : Bool × ForkTxPool :=
  let map := pool.mapAddressTxState
  match if tx.destFrom ≠ 0 then map.removeDestTx tx.destFrom txid else some map with
  | none => (false, pool)
  | some map =>
    match if tx.destTo ≠ 0 ∧ tx.destTo ≠ tx.destFrom then map.removeDestTx tx.destTo txid else some map with
    | none => (false, { pool with mapAddressTxState := map })
    | some map => (true, pool.eraseTx txid map)

/-- `RemovePooledTx` for an invalid transaction. -/
def removeInvalidTx (txid : UInt256) (tx : Transaction) : Bool × ForkTxPool :=
  if (pool.mapTx.find txid).isSome then pool.removeFoundTx txid tx else (false, pool)

/-- `vDelTx` of `RemovePooledTx`, the listed transactions that an address sends. -/
def sentTx (dest : Destination) : List (UInt256 × PooledTx) :=
  match pool.mapAddressTxState.find dest with
  | none => []
  | some entry => entry.mapDestTx.entries.filter fun kv => kv.2.destFrom = dest

/-- `CForkTxPool::RemovePooledTx`. When a transaction that is not pooled goes, the pooled ones of its sender go. -/
def removePooledTx (txid : UInt256) (tx : Transaction) (fInvalidTx : Bool) : Bool × ForkTxPool :=
  if (pool.mapTx.find txid).isSome then pool.removeFoundTx txid tx
  else if fInvalidTx then (false, pool)
  else if tx.destFrom ≠ 0 then
    untilFails (fun pool kv => pool.removeInvalidTx kv.1 kv.2.toTransaction) (pool.sentTx tx.destFrom) pool
  else (true, pool)

end Pooled

section Add
variable (chain : ForkChain) (pool : ForkTxPool)

/-- `CForkTxPool::GetDestState` of the pending state -/
def getDestState (dest : Destination) : Option DestState :=
  match pool.mapAddressTxState.find dest with
  | none => chain.retrieveDestState pool.hashLastBlock dest
  | some entry =>
    if entry.stateAddress.isNull then chain.retrieveDestState pool.hashLastBlock dest else some entry.stateAddress

/-- `CForkTxPool::GetAddressContext` of the pending context -/
def getAddressContext (dest : Destination) : Option AddressContext :=
  match pool.mapAddressTxState.find dest with
  | none => chain.retrieveAddressContext pool.hashLastBlock dest
  | some entry =>
    if entry.ctxAddress.nType = 0 then chain.retrieveAddressContext pool.hashLastBlock dest else some entry.ctxAddress

def setDestState (dest : Destination) (state : DestState) : ForkTxPool :=
  { pool with mapAddressTxState := pool.mapAddressTxState.update dest fun entry => entry.setAddressState state }

def setAddressContext (dest : Destination) (ctxAddress : AddressContext) : ForkTxPool :=
  { pool with mapAddressTxState := pool.mapAddressTxState.update dest fun entry => { entry with ctxAddress := ctxAddress } }

/-- `ctxAddressTo` of `AddTx` -/
def ctxAddressTo (tx : Transaction) : AddressContext :=
  (pool.getAddressContext chain tx.destTo).getD
    ((chain.getTxToAddressContext pool.hashLastBlock tx).getD (.pubkey []))

def creditTo (tx : Transaction) (ctxAddressTo : AddressContext) : ForkTxPool :=
  if tx.destFrom = tx.destTo then pool
  else if tx.destTo ≠ 0 then
    let stateTo := (pool.getDestState chain tx.destTo).getD
      (DestState.null.setType ctxAddressTo.getDestType ctxAddressTo.getTemplateType)
    pool.setDestState tx.destTo (stateTo.incBalance tx.nAmount)
  else pool

def debitFrom (tx : Transaction) (stateFrom : DestState) : DestState :=
  let stateFrom := if tx.destFrom = tx.destTo then stateFrom.incBalance tx.nAmount else stateFrom
  let stateFrom := if tx.nType ≠ .cert then incTxNonce stateFrom else stateFrom
  stateFrom.decBalance (tx.nAmount + tx.getTxFee)

/-- The states and the contexts that `AddTx` sets for a transaction that it has pooled. -/
def applyTx (tx : Transaction) (stateFrom : DestState) (ctxAddressFrom ctxAddressTo : AddressContext) : ForkTxPool :=
  let pool := (pool.creditTo chain tx ctxAddressTo).setDestState tx.destFrom (debitFrom tx stateFrom)
  let pool := pool.setAddressContext tx.destFrom ctxAddressFrom
  if tx.destTo ≠ 0 then pool.setAddressContext tx.destTo ctxAddressTo else pool

def addTx (base : PoolBase) (txid : UInt256) (tx : Transaction) : Errno × ForkTxPool :=
  if (pool.mapTx.find txid).isSome then (.alreadyHave, pool)
  else if chain.existsTx txid then (.alreadyHave, pool)
  else if tx.destFrom = 0 then (.transactionInputInvalid, pool)
  else if chain.isExistBlacklistAddress tx.destFrom then (.transactionAtBlacklist, pool)
  else match pool.getDestState chain tx.destFrom, pool.getAddressContext chain tx.destFrom with
  | none, _ => (.missingPrev, pool)
  | some _, none => (.transactionInvalid, pool)
  | some stateFrom, some ctxAddressFrom =>
    let ctxAddressTo := pool.ctxAddressTo chain tx
    let added := addPooledTx base { pool with nTxSequenceNumber := pool.nTxSequenceNumber + 1 } txid tx pool.nTxSequenceNumber
    if added.1 = false then (.transactionInvalid, added.2)
    else (.ok, added.2.applyTx chain tx stateFrom ctxAddressFrom ctxAddressTo)

end Add

section Synchronize
variable (base : PoolBase) (chain : ForkChain)

/-- The removals of `SynchronizeBlockChain`. -/
def removeBlockTxs (txs : List Transaction) (pool : ForkTxPool) : Bool × ForkTxPool :=
  untilFails (fun pool tx => pool.removePooledTx (base.getHash tx) tx false) txs pool

/-- `setAddAddress` of `SynchronizeBlockChain` -/
def setAddAddress (txs : List Transaction) : SortedSet Destination destOrder :=
  txs.foldl (fun set tx => if tx.destFrom ≠ 0 then set.add tx.destFrom else set) .empty

/-- The loop over the missing transactions of an address. Each turn pools another one of them. -/
def addMissTxs (dest : Destination) : Nat → ForkTxPool → ForkTxPool
  | 0, pool => pool
  | fuel + 1, pool =>
    match (pool.mapAddressTxState.entry dest).fetchNextMissTx with
    | none => pool
    | some (txid, tx) =>
      let added := pool.addTx chain base txid tx
      if added.1 = .ok then addMissTxs dest fuel added.2 else added.2

/-- The turn of `SynchronizeBlockChain` for a sender of the new blocks. -/
def refreshAddress (update : BlockChainUpdate) (pool : ForkTxPool) (dest : Destination) : Bool × ForkTxPool :=
  match chain.retrieveDestState update.hashLastBlock dest with
  | none => (false, pool)
  | some stateDb =>
    match pool.mapAddressTxState.find dest with
    | none => (true, pool)
    | some entry =>
      let pool := if entry.stateAddress.nTxNonce < stateDb.nTxNonce then pool.setDestState dest stateDb else pool
      (true, addMissTxs base chain dest (entry.mapMissTx.entries.length + 1) pool)

/-- The test of `RemoveObsoletedCertTx`. The nonce of a certificate is a height. -/
def isObsoletedCertTx (nLastHeight : UInt32) (tx : Transaction) : Bool :=
  tx.nTxNonce.toUInt32 + base.consensusEnrollInterval < nLastHeight

def removeObsoletedCertTx (pool : ForkTxPool) : ForkTxPool :=
  let nLastHeight := getBlockHeightByHash pool.hashLastBlock
  let vRemoveTxid := (pool.byTxType .cert).filter fun link => isObsoletedCertTx base nLastHeight link.ptx.toTransaction
  vRemoveTxid.foldl (fun pool link => (pool.removePooledTx link.txid link.ptx.toTransaction false).2) pool

/-- `CForkTxPool::SynchronizeBlockChain`. The height for certificates is still that of the old last block. -/
def synchronizeBlockChain (update : BlockChainUpdate) (pool : ForkTxPool) : Bool × ForkTxPool :=
  let removed := removeBlockTxs base update.txs pool
  if removed.1 = false then removed
  else
    let refreshed := untilFails (refreshAddress base chain update) (setAddAddress update.txs).members removed.2
    if refreshed.1 = false then refreshed
    else
      let pool := if base.isGenesisFork then removeObsoletedCertTx base refreshed.2 else refreshed.2
      (true, { pool with hashLastBlock := update.hashLastBlock, nLastBlockTime := update.nLastBlockTime })

end Synchronize

end ForkTxPool

inductive Call where
  | addTx (chain : ForkChain) (tx : Transaction)
  | removePooledTx (tx : Transaction) (fInvalidTx : Bool)
  | synchronizeBlockChain (chain : ForkChain) (update : BlockChainUpdate)
  | clearTxPool

def Call.txs : Call → List Transaction
  | .addTx _ tx => [tx]
  | .removePooledTx tx _ => [tx]
  | .synchronizeBlockChain _ update => update.txs
  | .clearTxPool => []

namespace ForkTxPool
variable (base : PoolBase)

def call (pool : ForkTxPool) : Call → ForkTxPool
  | .addTx chain tx => (pool.addTx chain base (base.getHash tx) tx).2
  | .removePooledTx tx fInvalidTx => (pool.removePooledTx (base.getHash tx) tx fInvalidTx).2
  | .synchronizeBlockChain chain update => (synchronizeBlockChain base chain update pool).2
  | .clearTxPool => pool.clearTxPool

def run (pool : ForkTxPool) (calls : List Call) : ForkTxPool := calls.foldl (call base) pool

def txs (pool : ForkTxPool) : List Transaction := pool.setTxLinkIndex.map fun link => link.ptx.toTransaction

end ForkTxPool

end HashAhead.TxPool

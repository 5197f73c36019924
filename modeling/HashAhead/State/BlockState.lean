import HashAhead.Foundation.Ledger
import HashAhead.State.Account

/-! The state of the block under construction. A transaction writes to the cache maps, the
block maps hold what earlier transactions of the block left, and the database answers for
the previous block. -/

namespace HashAhead.State
open Trie

/-- What the block database answers at the previous block, with the fork heights. -/
structure BlockBase where
  retrieveDestState : Destination → Option DestState
  retrieveContractKvValue : UInt256 → UInt256 → Option Bytes
  retrieveAddressContext : Destination → Option AddressContext
  getAddressLockedAmount : Destination → AddressContext → UInt256 → Option UInt256
  verifyAddressPledgeVote : Destination → Bool
  getBlockIndexHashByNumber : UInt64 → Option UInt256
  verifyFhxHeightBranch001 : Int → Bool
  verifyFhxHeightBranch002 : Int → Bool

structure CacheContractData where
  cacheDestState : DestState
  cacheContractLogs : List TransactionLogs
  cacheContractKv : UInt256 → Option Bytes

def CacheContractData.new : CacheContractData := ⟨.null, [], fun _ => none⟩

structure CodeGasData where
  destCodeOwner : Destination
  nGasUsed : UInt64
  nSubGasUsed : UInt64
  deriving DecidableEq, Repr

def CodeGasData.new : CodeGasData := ⟨0, 0, 0⟩

structure BlockState where
  dbBlockBase : BlockBase
  nBlockHeight : Int
  /-- The height of `hashPrevBlock`. -/
  nPrevHeight : Int
  mapCacheContractData : Destination → Option CacheContractData
  mapCacheAddressContext : Destination → Option AddressContext
  mapCacheContractCreateCodeContext : UInt256 → Option ContractCreateCodeContext
  mapCacheContractRunCodeContext : UInt256 → Option ContractRunCodeContext
  vCacheContractTransfer : List ContractTransfer
  mapCacheOwnerDestCodeGasUsed : Destination → UInt64
  mapCacheContractDestCodeGasUsed : Destination → CodeGasData
  mapCacheTransientStorage : Destination → UInt256 → Option Bytes
  mapBlockRewardLocked : Destination → Option UInt256
  mapBlockState : Destination → Option DestState
  mapContractKvState : Destination → UInt256 → Option Bytes
  mapBlockAddressContext : Destination → Option AddressContext

namespace BlockState

/-- `mapCacheContractData[dest]`, which makes an entry when there is none. -/
def cacheContractData (s : BlockState) (dest : Destination) : CacheContractData :=
  (s.mapCacheContractData dest).getD .new

def setCacheContractData (s : BlockState) (dest : Destination) (data : CacheContractData) : BlockState :=
  { s with mapCacheContractData := Function.update s.mapCacheContractData dest (some data) }

def setCacheAddressContext (s : BlockState) (dest : Destination) (ctx : AddressContext) : BlockState :=
  { s with mapCacheAddressContext := Function.update s.mapCacheAddressContext dest (some ctx) }

def lowerDestState (s : BlockState) (dest : Destination) : Option DestState :=
  (s.mapBlockState dest).or (s.dbBlockBase.retrieveDestState dest)

/-- `CBlockState::GetDestState`. A null state in the cache is passed over. -/
def getDestState (s : BlockState) (dest : Destination) : Option DestState :=
  match s.mapCacheContractData dest with
  | some data => if data.cacheDestState.isNull then s.lowerDestState dest else some data.cacheDestState
  | none => s.lowerDestState dest

def setCacheDestState (s : BlockState) (dest : Destination) (stateDest : DestState) : BlockState :=
  s.setCacheContractData dest { s.cacheContractData dest with cacheDestState := stateDest }

def getDestKvData (s : BlockState) (dest : Destination) (key : UInt256) : Option Bytes :=
  ((s.cacheContractData dest).cacheContractKv key).or
    ((s.mapContractKvState dest key).or
      ((s.getDestState dest).bind fun stateDest =>
        s.dbBlockBase.retrieveContractKvValue stateDest.hashStorageRoot key))

def getAddressContext (s : BlockState) (dest : Destination) : Option AddressContext :=
  (s.mapCacheAddressContext dest).or
    ((s.mapBlockAddressContext dest).or (s.dbBlockBase.retrieveAddressContext dest))

def isContractAddress (s : BlockState) (addr : Destination) : Bool :=
  match s.getAddressContext addr with
  | none => false
  | some ctxAddress => ctxAddress.isContract

def getDestLockedAmount (s : BlockState) (dest : Destination) : Option UInt256 := do
  let ctxAddress ← s.getAddressContext dest
  let stateDest ← s.getDestState dest
  let nLockedAmount ← s.dbBlockBase.getAddressLockedAmount dest ctxAddress stateDest.nBalance
  match s.mapBlockRewardLocked dest with
  | some nReward => some (nLockedAmount + nReward)
  | none => some nLockedAmount

def getDestBalance (s : BlockState) (dest : Destination) : Option UInt256 := do
  let stateDest ← s.getDestState dest
  let nLockedAmount ← s.getDestLockedAmount dest
  if stateDest.nBalance > nLockedAmount then some (stateDest.nBalance - nLockedAmount) else some 0

def getAddressLastTxNonce (s : BlockState) (addr : Destination) : UInt64 :=
  match s.getDestState addr with
  | none => 0
  | some state => state.nTxNonce

def setAddressLastTxNonce (s : BlockState) (addr : Destination) (nNonce : UInt64) : Option BlockState :=
  match s.getDestState addr with
  | none => none
  | some state => some (s.setCacheDestState addr { state with nTxNonce := nNonce })

def setTransientValue (s : BlockState) (dest : Destination) (key : UInt256) (value : Bytes) : BlockState :=
  { s with
    mapCacheTransientStorage := Function.update s.mapCacheTransientStorage dest
      (Function.update (s.mapCacheTransientStorage dest) key (some value)) }

/-- What `CBlockState::GetContractRunCode` finds. -/
inductive RunCode where
  | destroyed
  | code (ctxDestCode : ContractDestCodeContext) (btContractRunCode : Bytes)

/-- `CBlockState::GetContractRunCode`. Without the first fork the code itself is not looked up. -/
def getContractRunCode (s : BlockState) (destContractIn : Destination) : Option RunCode := do
  let stateContract ← s.getDestState destContractIn
  if stateContract.fDestroy then some .destroyed
  else
    let btDestCodeData ← s.getDestKvData destContractIn (toHash destContractIn)
    let ctxDestCode ← ContractDestCodeContext.ofStream btDestCodeData
    if s.dbBlockBase.verifyFhxHeightBranch001 s.nPrevHeight then
      match s.mapCacheContractRunCodeContext ctxDestCode.hashContractRunCode with
      | some ctxRunCode => some (.code ctxDestCode ctxRunCode.btContractRunCode)
      | none => some (.code ctxDestCode [])
    else some (.code ctxDestCode [])

def saveContractRunCode (codec : Codec) (s : BlockState) (destContractIn : Destination) (btContractRunCode : Bytes)
    (txcd : TxContractData) (txidCreate : UInt256) : Option BlockState :=
  let hashContractCreateCode := txcd.getContractCreateCodeHash codec
  let hashContractRunCode := codec.cryptoKeccakHash btContractRunCode
  let stateContractDest := (s.getDestState destContractIn).getD .null
  if (s.getDestState destContractIn).isSome ∧ stateContractDest.hashCode ≠ 0 then none
  else
    let data := s.cacheContractData destContractIn
    let btDestCodeData :=
      ContractDestCodeContext.toStream ⟨hashContractCreateCode, hashContractRunCode, txcd.destCodeOwner⟩
    let s := s.setCacheContractData destContractIn { data with
      cacheContractKv := Function.update data.cacheContractKv (toHash destContractIn) (some btDestCodeData)
      cacheDestState := { stateContractDest.setType destTypeContract 0 with hashCode := hashContractRunCode } }
    let s := s.setCacheAddressContext destContractIn (.contract (codec.contractStream
      ⟨txcd.strType, txcd.destCodeOwner, txcd.strName, txcd.getDescribe codec, txidCreate,
        txcd.getSourceCodeHash codec, hashContractCreateCode, hashContractRunCode⟩))
    some { s with
      mapCacheContractCreateCodeContext :=
        Function.update s.mapCacheContractCreateCodeContext hashContractCreateCode (some
          ⟨txcd.strType, txcd.strName, txcd.getDescribe codec, txcd.destCodeOwner, txcd.getCode codec, txidCreate,
            txcd.getSourceCodeHash codec, hashContractRunCode⟩)
      mapCacheContractRunCodeContext :=
        Function.update s.mapCacheContractRunCodeContext hashContractRunCode
          (some ⟨hashContractCreateCode, btContractRunCode⟩) }

/-- `CBlockState::ExecFunctionContract`: the gas left, when there is a function selector. -/
def execFunctionContract (btData : Bytes) (nGasLimit : UInt64) : Option UInt64 :=
  if btData.length < 4 then none else some nGasLimit

def selfdestruct (s : BlockState) (destContractIn destBeneficiaryIn : Destination) : Bool × BlockState :=
  match s.getDestState destContractIn with
  | none => (false, s)
  | some stateContract =>
    if stateContract.fDestroy then (true, s)
    else
      let stateBeneficiary := (s.getDestState destBeneficiaryIn).getD (DestState.null.setType destTypePubkey 0)
      let stateBeneficiary := stateBeneficiary.incBalance stateContract.nBalance
      let stateContract := { stateContract with nBalance := 0, fDestroy := true }
      (true, (s.setCacheDestState destContractIn stateContract).setCacheDestState destBeneficiaryIn stateBeneficiary)

/-- `CBlockState::IsContractDestroy`. An unknown contract counts as destroyed. -/
def isContractDestroy (s : BlockState) (destContractIn : Destination) : Bool :=
  match s.getDestState destContractIn with
  | none => true
  | some stateContract => stateContract.fDestroy

def saveCodeOwnerGasUsed (s : BlockState) (destParentCodeContractIn destCodeContractIn destCodeOwner : Destination)
    (nGasUsed : UInt64) : BlockState :=
  if nGasUsed = 0 then s
  else if s.dbBlockBase.verifyFhxHeightBranch002 s.nPrevHeight then
    let used := s.mapCacheContractDestCodeGasUsed
    let used := if destParentCodeContractIn = 0 then used
      else Function.update used destParentCodeContractIn
        { used destParentCodeContractIn with nSubGasUsed := (used destParentCodeContractIn).nSubGasUsed + nGasUsed }
    let gasCode := used destCodeContractIn
    let gasCode := if gasCode.destCodeOwner = 0 then { gasCode with destCodeOwner := destCodeOwner } else gasCode
    { s with
      mapCacheContractDestCodeGasUsed := Function.update used destCodeContractIn
        { gasCode with nGasUsed := gasCode.nGasUsed + nGasUsed } }
  else
    { s with
      mapCacheOwnerDestCodeGasUsed := Function.update s.mapCacheOwnerDestCodeGasUsed destCodeOwner
        (s.mapCacheOwnerDestCodeGasUsed destCodeOwner + nGasUsed) }

def saveRunResult (s : BlockState) (destContractIn : Destination) (vLogsIn : List TransactionLogs)
    (mapCacheKv : UInt256 → Option Bytes) : BlockState :=
  let data := s.cacheContractData destContractIn
  let s := s.setCacheContractData destContractIn { data with
    cacheContractKv := fun key => (mapCacheKv key).or (data.cacheContractKv key)
    cacheContractLogs := data.cacheContractLogs ++ vLogsIn }
  if (s.mapCacheAddressContext destContractIn).isNone then
    match s.getAddressContext destContractIn with
    | none => s
    | some ctxAddress => s.setCacheAddressContext destContractIn ctxAddress
  else s

/-- The state and the context of the receiver of a transfer, or nothing when the given
context does not agree with an account that has none. -/
def transferReceiver (s : BlockState) (destTo : Destination) (ctxToAddress : AddressContext) :
    Option (DestState × AddressContext) :=
  match s.getDestState destTo, s.getAddressContext destTo with
  | none, none => some (DestState.null.setType ctxToAddress.getDestType ctxToAddress.getTemplateType, ctxToAddress)
  | none, some ctxTempAddress =>
    some (DestState.null.setType ctxTempAddress.getDestType ctxTempAddress.getTemplateType, ctxTempAddress)
  | some stateTo, none =>
    if ctxToAddress.getDestType = stateTo.getDestType ∧ ctxToAddress.getTemplateType = stateTo.getTemplateType then
      some (stateTo, ctxToAddress)
    else none
  | some stateTo, some ctxTempAddress => some (stateTo, ctxTempAddress)

/-- The part of `CBlockState::ContractTransfer` after the receiver is known: the context and
the locked money of the payer, the pledge vote, and the two new account states. -/
def payReceiver (s : BlockState) (destFrom destTo : Destination) (amount : UInt256) (ctxToAddress : AddressContext)
    (nTransferType : UInt8) (stateFrom stateTo : DestState) : Bool × BlockState :=
  match s.getAddressContext destFrom with
  | none => (false, s)
  | some ctxTempFromAddress =>
    let s := if (s.mapCacheAddressContext destFrom).isNone then
        s.setCacheAddressContext destFrom ctxTempFromAddress
      else s
    match s.getDestLockedAmount destFrom with
    | none => (false, s)
    | some nLockedAmount =>
      if nLockedAmount > 0 ∧ stateFrom.nBalance < nLockedAmount + amount then (false, s)
      else if s.dbBlockBase.verifyFhxHeightBranch002 s.nBlockHeight ∧
          ctxToAddress.getTemplateType = templatePledge ∧ !s.dbBlockBase.verifyAddressPledgeVote destTo then (false, s)
      else
        let s := (s.setCacheDestState destFrom (stateFrom.decBalance amount)).setCacheDestState destTo
          (stateTo.incBalance amount)
        (true, { s with
          vCacheContractTransfer := s.vCacheContractTransfer ++ [⟨nTransferType, destFrom, destTo, amount⟩] })

/-- `CBlockState::ContractTransfer`, with the gas left. A refusal may leave address contexts
in the cache. -/
def contractTransfer (s : BlockState) (destFrom destTo : Destination) (amount : UInt256) (nGasLeft : UInt64)
    (ctxToAddress : AddressContext) (nTransferType : UInt8) : Bool × UInt64 × BlockState :=
  if ctxToAddress.isTemplate ∧ ((ctxToAddress.getTemplateType = templateVote ∧ !fEnableStakeVote) ∨
      (ctxToAddress.getTemplateType = templatePledge ∧ !fEnableStakePledge)) then (false, nGasLeft, s)
  else if nGasLeft < functionTxGasTrans then (false, 0, s)
  else
    let nGasLeft := nGasLeft - functionTxGasTrans
    match s.getDestState destFrom with
    | none => (false, nGasLeft, s)
    | some stateFrom =>
      if stateFrom.nBalance < amount then (false, nGasLeft, s)
      else
        match s.transferReceiver destTo ctxToAddress with
        | none => (false, nGasLeft, s)
        | some (stateTo, ctxTempAddress) =>
          let (fRet, s) := (s.setCacheAddressContext destTo ctxTempAddress).payReceiver destFrom destTo amount
            ctxToAddress nTransferType stateFrom stateTo
          (fRet, nGasLeft, s)

end BlockState
end HashAhead.State

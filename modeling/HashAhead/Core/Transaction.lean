import HashAhead.Chain.BlockHash

/-! Transactions and the checks of `CCoreProtocol::ValidateTransaction`, which look at a transaction
alone. Amounts, prices and the fee are 256-bit words: the fee is the product of the gas price and the
gas limit modulo 2^256. -/

namespace HashAhead.Core
open Foundation Trie State Chain

inductive Errno where
  | missingPrev
  | blockInvalidFork
  | transactionInvalid
  | transactionOversize
  | transactionOutputInvalid
  | transactionInputInvalid
  | transactionSignatureInvalid
  | transactionIsLocked
deriving DecidableEq

abbrev Check := Except Errno Unit

def refuseIf (refused : Bool) (err : Errno) : Check := if refused then .error err else .ok ()

@[simp] theorem refuseIf_eq_ok {refused : Bool} {err : Errno} : refuseIf refused err = .ok () ↔ refused = false := by
  cases refused <;> simp [refuseIf]

def whenever (condition : Bool) (check : Check) : Check := if condition then check else .ok ()

@[simp] theorem whenever_eq_ok {condition : Bool} {check : Check} :
    whenever condition check = .ok () ↔ (condition = true → check = .ok ()) := by
  cases condition <;> simp [whenever]

theorem bind_eq_ok {α β : Type} {first : Except Errno α} {next : α → Except Errno β} {b : β} :
    first >>= next = .ok b ↔ ∃ a, first = .ok a ∧ next a = .ok b := by
  cases first with
  | error err => simp [bind, Except.bind]
  | ok a => simp [bind, Except.bind]

theorem then_eq_ok {β : Type} {first : Check} {next : Unit → Except Errno β} {b : β} :
    first >>= next = .ok b ↔ first = .ok () ∧ next () = .ok b := by
  rw [bind_eq_ok]
  constructor
  · rintro ⟨⟨⟩, passed, rest⟩
    exact ⟨passed, rest⟩
  · rintro ⟨passed, rest⟩
    exact ⟨(), passed, rest⟩

inductive TxType where
  | null
  | genesis
  | token
  | cert
  | stake
  | poa
  | voteReward
  | internal
  | extdata
  | ethCreateContract
  | ethMessageCall
  | other (nType : UInt8)
deriving DecidableEq

abbrev TxDataMap := SortedMap UInt8 Bytes (.ofKey UInt8.toNat uint8_injective)

structure Transaction where
  nType : TxType
  nChainId : ChainId
  nTxNonce : UInt64
  destFrom : Destination
  destTo : Destination
  nAmount : UInt256
  nGasPrice : UInt256
  nGasLimit : UInt256
  mapTxData : TxDataMap
  vchSig : Bytes

def dfCreateCode : UInt8 := 0x01
def dfEthTxData : UInt8 := 0x05
def dfContractparam : UInt8 := 0x13

def coin : UInt256 := 10 ^ 18

def maxMoney : UInt256 := coin * 1000000000000

def moneyRange (nValue : UInt256) : Bool := nValue ≤ maxMoney

def minGasPrice : UInt256 := 10 ^ 10

def txBaseGas : UInt256 := 21000

def dataGasPerByte : UInt256 := 50

def maxTxSize : Nat := 1024 * 1024 * 4 / 2

namespace Transaction
variable (tx : Transaction)

def isMintTx : Bool := tx.nType = .genesis ∨ tx.nType = .stake ∨ tx.nType = .poa

def isRewardTx : Bool := tx.isMintTx ∨ tx.nType = .voteReward

def isEthTx : Bool := tx.nType = .ethCreateContract ∨ tx.nType = .ethMessageCall

def getTxFee : UInt256 := tx.nGasPrice * tx.nGasLimit

def getTxData (nType : UInt8) : Option Bytes := tx.mapTxData.find nType

def getTxDataCount : Nat := tx.mapTxData.entries.length

end Transaction

/-- What `ValidateTransaction` calls: the streams of the serialization and what the chain knows. -/
structure ValidateBase where
  verifyFhxHeightBranch002 : Int → Bool
  functionDeploymentSignerAddress : Destination
  getForkHashByChainId : ChainId → UInt256 → Option UInt256
  /-- `ss << mapTxData` -/
  serializeTxData : TxDataMap → Bytes
  /-- `GetTxDataSize` of the data with a proof of authority template and with a delegate template -/
  poaTxDataSize : Nat
  delegateTxDataSize : Nat
  /-- `GetTxDataSize` of the data with a vote template, if the template can be made -/
  voteTxDataSize : Option Nat
  /-- `ss >> nCodeType` and the context that follows -/
  readCodeContext : Bytes → Bool
  getSerializeSize : Transaction → Nat

section Validate
variable (base : ValidateBase)

def getTxExtData (tx : Transaction) : Bytes :=
  if tx.isEthTx then (tx.getTxData dfEthTxData).getD []
  else if tx.mapTxData.entries = [] then [] else base.serializeTxData tx.mapTxData

def getTxDataSize (tx : Transaction) : Nat := (getTxExtData base tx).length

def getTxBaseGas (tx : Transaction) : UInt256 := txBaseGas + dataGasPerByte * BitVec.ofNat 256 (getTxDataSize base tx)

/-- `CTransaction::GetCreateCodeContext` succeeds. -/
def hasCreateCodeContext (tx : Transaction) : Bool :=
  if tx.isEthTx then (tx.getTxData dfEthTxData).isSome
  else (tx.getTxData dfCreateCode).any base.readCodeContext

def validateChainId (hashTxAtFork hashMainChainRefBlock : UInt256) (nRefHeight : UInt32) (tx : Transaction) : Check :=
  if tx.nType = .genesis then .ok ()
  else if tx.nChainId = 0 then
    refuseIf (¬(base.verifyFhxHeightBranch002 nRefHeight.toNat ∧ tx.destFrom = base.functionDeploymentSignerAddress ∧
      tx.nTxNonce = 0)) .transactionInvalid
  else refuseIf (base.getForkHashByChainId tx.nChainId hashMainChainRefBlock ≠ some hashTxAtFork) .transactionInvalid

def hasExcessData (tx : Transaction) (nSize : Nat) : Bool := tx.getTxDataCount > 1 ∨ getTxDataSize base tx > nSize

/-- The check of the data that come with a mint or vote reward transaction. -/
def validateTxData (nRefHeight : UInt32) (tx : Transaction) : Check :=
  match tx.nType with
  | .poa => refuseIf (tx.getTxDataCount > 0 ∧ hasExcessData base tx base.poaTxDataSize) .transactionInvalid
  | .stake => refuseIf (tx.getTxDataCount > 0 ∧ hasExcessData base tx base.delegateTxDataSize) .transactionInvalid
  | .voteReward =>
    refuseIf (¬base.verifyFhxHeightBranch002 nRefHeight.toNat ∧ base.voteTxDataSize.all (hasExcessData base tx))
      .transactionInvalid
  | _ => .ok ()

/-- The check of the gas: a user transaction pays for its size, and others pay nothing. -/
def validateGas (tx : Transaction) : Check :=
  if tx.nType = .token ∨ tx.nType = .ethCreateContract ∨ tx.nType = .ethMessageCall then do
    refuseIf (tx.nGasPrice < minGasPrice) .transactionOutputInvalid
    refuseIf (tx.nGasLimit < getTxBaseGas base tx) .transactionOutputInvalid
  else refuseIf (tx.getTxFee ≠ 0) .transactionOutputInvalid

def validateFunctionContract (tx : Transaction) : Check := do
  refuseIf (isFunctionContractAddress tx.destFrom) .transactionInvalid
  whenever (isFunctionContractAddress tx.destTo) do
    refuseIf (tx.nAmount > 0) .transactionInvalid
    refuseIf (¬(tx.getTxData (if tx.isEthTx then dfEthTxData else dfContractparam)).any fun btTxData => btTxData.length ≥ 4)
      .transactionInvalid

def validateTransaction (hashTxAtFork hashMainChainRefBlock : UInt256) (nRefHeight : UInt32) (tx : Transaction) : Check := do
  validateChainId base hashTxAtFork hashMainChainRefBlock nRefHeight tx
  validateTxData base nRefHeight tx
  refuseIf (tx.vchSig ≠ [] ∧ tx.isRewardTx) .transactionInvalid
  refuseIf (tx.destTo = 0 ∧ ¬hasCreateCodeContext base tx) .transactionOutputInvalid
  refuseIf (¬moneyRange tx.nAmount) .transactionOutputInvalid
  refuseIf (¬moneyRange tx.getTxFee) .transactionOutputInvalid
  validateGas base tx
  validateFunctionContract tx
  refuseIf (base.getSerializeSize tx > maxTxSize) .transactionOversize

end Validate

end HashAhead.Core

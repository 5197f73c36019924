import HashAhead.Core.Transaction
import HashAhead.State.Template
import HashAhead.Vote.VoteDb

/-! The checks of `CCoreProtocol::VerifyTransaction`, which look at a transaction in its block: the
balance and the locks of the sender, the rules for the template addresses on both sides, and the
signature. What is locked is also given as an amount, by `CBlockBase::GetAddressLockedAmount`. -/

namespace HashAhead.Core
open Trie State Chain Vote

structure ForkCtxStatus where
  running : Bool
  nStopHeight : UInt32

structure ChainBase where
  param : NetworkParam
  hashGenesisBlock : UInt256
  verifyFhxHeightBranch002 : Int → Bool
  functionDeploymentSignerAddress : Destination
  /-- `ss >> ctxTemplate`: the data of a template address -/
  readTemplateContext : Bytes → Option Bytes
  /-- `CTemplate::Import` -/
  importTemplate : Bytes → Option Template
  getSignDestination : Template → Transaction → Option Destination
  retrieveDestVoteContext : UInt256 → Destination → Option VoteContext
  getForkCtxStatus : UInt256 → UInt256 → Option ForkCtxStatus
  /-- `ListVoteReward` for the fork, the previous block and the address: the heights and amounts of the
  rewards of the last days -/
  listVoteReward : UInt256 → UInt256 → Destination → Option (List (UInt32 × UInt256))
  verifyForkCreateTx : UInt256 → Transaction → Int → UInt256 → Bytes → Check
  verifyActivateCodeTx : UInt256 → UInt256 → Transaction → Check
  verifyCreateCodeTx : UInt256 → UInt256 → Transaction → Bool
  verifyContractAddress : UInt256 → UInt256 → Destination → Bool
  verifyTxSignature : Transaction → Destination → Bool

def fEnableContractCodeVerify : Bool := false

namespace ChainBase
variable (base : ChainBase)

section Locks

/-- The blocks since a fork stopped, as a signed difference that is not below 0. -/
def stoppedHeight (nPrevHeight nStopHeight : UInt32) : Nat :=
  if (nPrevHeight - nStopHeight).toNat < 2 ^ 31 then (nPrevHeight - nStopHeight).toNat else 0

def getCreateForkLockedAmount (hashPrevBlock : UInt256) (btAddressData : Bytes) : Option UInt256 :=
  match base.importTemplate btAddressData with
  | some (.fork _ hashFork) =>
    if btAddressData = [] then none
    else (base.getForkCtxStatus hashFork hashPrevBlock).map fun status =>
      lockedCoin base.param
        (if status.running then 0 else stoppedHeight (getBlockHeightByHash hashPrevBlock) status.nStopHeight)
  | _ => none

def verifyAddressPledgeVote (dest : Destination) (hashPrevBlock : UInt256) : Bool :=
  !(base.retrieveDestVoteContext hashPrevBlock dest).any fun ctxVote => ctxVote.getStopReVoteFlag && ctxVote.nVoteAmount > 0

def verifyAddressVoteRedeem (dest : Destination) (hashPrevBlock : UInt256) : Bool :=
  (base.retrieveDestVoteContext hashPrevBlock dest).any fun ctxVote =>
    ¬(ctxVote.nFinalHeight = 0 ∨ getBlockHeightByHash hashPrevBlock + 1 < ctxVote.nFinalHeight)

def rewardLocked (nPrevHeight : UInt32) (reward : UInt32 × UInt256) : UInt256 :=
  let nElapsedDays := (nPrevHeight + 1 - reward.1) / base.param.dayHeight
  if nElapsedDays = 0 then reward.2
  else if nElapsedDays < base.param.voteRewardLockDays then
    reward.2 * BitVec.ofNat 256 (base.param.voteRewardLockDays - nElapsedDays).toNat /
      BitVec.ofNat 256 base.param.voteRewardLockDays.toNat
  else 0

def getVoteRewardLockedAmount (hashFork hashPrevBlock : UInt256) (dest : Destination) : Option UInt256 :=
  (base.listVoteReward hashFork hashPrevBlock dest).map fun vVoteReward =>
    vVoteReward.foldl (fun nLockedAmount reward =>
      nLockedAmount + base.rewardLocked (getBlockHeightByHash hashPrevBlock) reward) 0

/-- What the type of the address locks. Nothing is answered for an address that is locked whole. -/
def typeLockedAmount (hashPrevBlock : UInt256) (dest : Destination) (ctxAddress : AddressContext) : Option UInt256 :=
  if ctxAddress.getTemplateType = templateFork then
    (base.readTemplateContext ctxAddress.btData).bind (base.getCreateForkLockedAmount hashPrevBlock)
  else if ctxAddress.getTemplateType = templateDelegate ∨ ctxAddress.getTemplateType = templateVote then
    if base.verifyAddressVoteRedeem dest hashPrevBlock then some 0 else none
  else if ctxAddress.getTemplateType = templatePledge then none
  else some 0

/-- `CBlockBase::GetAddressLockedAmount`. The whole balance is locked where an amount cannot be told. -/
def getAddressLockedAmount (hashFork hashPrevBlock : UInt256) (dest : Destination) (ctxAddress : AddressContext)
    (nBalance : UInt256) : UInt256 :=
  let typeLocked := if hashFork = base.hashGenesisBlock ∧ ctxAddress.isTemplate then
    base.typeLockedAmount hashPrevBlock dest ctxAddress else some 0
  ((typeLocked.bind fun nTypeLocked => (base.getVoteRewardLockedAmount hashFork hashPrevBlock dest).map fun nLocked =>
    nTypeLocked + nLocked)).getD nBalance

end Locks

section Verify
variable (tx : Transaction) (hashFork hashPrevBlock : UInt256)

def verifyNonce (nAtHeight : Int) (stateFrom : DestState) : Check :=
  whenever (tx.nType ≠ .cert ∧ tx.destFrom ≠ 0)
    (if tx.nTxNonce = 0 then
      refuseIf (¬(base.verifyFhxHeightBranch002 nAtHeight ∧ tx.destFrom = base.functionDeploymentSignerAddress)) .missingPrev
    else refuseIf (tx.nTxNonce ≠ stateFrom.nTxNonce + 1) .missingPrev)

def verifyCertTx (mapBlockAddress : Destination → Option AddressContext) : Check := do
  refuseIf (hashFork ≠ base.hashGenesisBlock) .transactionInvalid
  refuseIf (tx.destTo = 0 ∨ tx.destFrom ≠ tx.destTo) .transactionInvalid
  refuseIf (¬(mapBlockAddress tx.destTo).any fun ctxAddress =>
    ctxAddress.isTemplate ∧ ctxAddress.getTemplateType = templateDelegate) .transactionInvalid

/-- The template type of an address and its data, with 0 and nothing for an address without a template. -/
def templateContext (mapBlockAddress : Destination → Option AddressContext) (dest : Destination) :
    Except Errno (UInt8 × Bytes) :=
  match if dest = 0 then none else (mapBlockAddress dest).filter AddressContext.isTemplate with
  | none => .ok (0, [])
  | some ctxAddress =>
    match base.readTemplateContext ctxAddress.btData with
    | none => .error .transactionInvalid
    | some btData => .ok (ctxAddress.getTemplateType, btData)

def verifyVoteTx : Check := do
  refuseIf (¬fEnableStakeVote) .transactionInvalid
  refuseIf (hashFork ≠ base.hashGenesisBlock) .transactionInvalid
  refuseIf (tx.destTo = tx.destFrom) .transactionInvalid
  refuseIf (tx.nAmount = 0) .transactionInvalid

def verifyPledgeTx (btToData : Bytes) : Check := do
  let nHeight := getBlockHeightByHash hashPrevBlock + 1
  refuseIf (¬fEnableStakePledge) .transactionInvalid
  refuseIf (hashFork ≠ base.hashGenesisBlock) .transactionInvalid
  refuseIf (tx.destTo = tx.destFrom) .transactionInvalid
  refuseIf (base.verifyFhxHeightBranch002 nHeight.toNat ∧ tx.destFrom ≠ 0) .transactionInvalid
  refuseIf (tx.nAmount = 0) .transactionInvalid
  match base.importTemplate btToData with
  | some (.pledge objPledge) =>
    refuseIf (objPledge.getPledgeFinalHeight base.param nHeight).isNone .transactionInvalid
    whenever (base.verifyFhxHeightBranch002 nHeight.toNat) do
      refuseIf (objPledge.nCycles ≠ 0 ∨ objPledge.nNonce ≠ 0) .transactionInvalid
      refuseIf (¬base.verifyAddressPledgeVote tx.destTo hashPrevBlock) .transactionInvalid
  | _ => .error .transactionInvalid

def isStakeTemplate (nTemplateType : UInt8) : Bool :=
  nTemplateType = templateDelegate ∨ nTemplateType = templateVote ∨ nTemplateType = templatePledge

def verifyVoteRedeemTx (nFromTemplateType : UInt8) : Check := do
  refuseIf (hashFork ≠ base.hashGenesisBlock) .transactionInvalid
  refuseIf (nFromTemplateType = templatePledge) .transactionIsLocked
  refuseIf (¬base.verifyAddressVoteRedeem tx.destFrom hashPrevBlock) .transactionIsLocked

def verifyVoteRewardLockTx (stateFrom : DestState) : Check :=
  match base.getVoteRewardLockedAmount hashFork hashPrevBlock tx.destFrom with
  | none => .error .transactionIsLocked
  | some nLockedAmount =>
    refuseIf (nLockedAmount > 0 ∧ stateFrom.nBalance < nLockedAmount + tx.nAmount + tx.getTxFee) .transactionIsLocked

def verifyForkRedeemTx (stateFrom : DestState) (btFromData : Bytes) : Check := do
  refuseIf (hashFork ≠ base.hashGenesisBlock) .transactionInvalid
  refuseIf (tx.destTo = tx.destFrom) .transactionInvalid
  match base.getCreateForkLockedAmount hashPrevBlock btFromData with
  | none => .error .transactionInvalid
  | some nLockedAmount => refuseIf (stateFrom.nBalance < tx.nAmount + tx.getTxFee + nLockedAmount) .transactionIsLocked

def verifyCode (fToContract : Bool) : Check :=
  if tx.destTo = 0 then refuseIf (¬base.verifyCreateCodeTx hashFork hashPrevBlock tx) .transactionInvalid
  else refuseIf (fToContract ∧ ¬base.verifyContractAddress hashFork hashPrevBlock tx.destTo) .transactionInvalid

def verifySignature (nFromTemplateType : UInt8) (btFromData : Bytes) : Check :=
  if nFromTemplateType ≠ 0 then
    match (base.importTemplate btFromData).bind fun ptr => base.getSignDestination ptr tx with
    | none => .error .transactionInvalid
    | some destSign => refuseIf (¬base.verifyTxSignature tx destSign) .transactionSignatureInvalid
  else refuseIf (¬base.verifyTxSignature tx tx.destFrom) .transactionSignatureInvalid

def verifyTransaction (nAtHeight : Int) (stateFrom : DestState) (mapBlockAddress : Destination → Option AddressContext) :
    Check := do
  refuseIf (stateFrom.nBalance < tx.nAmount + tx.getTxFee) .transactionInputInvalid
  base.verifyNonce tx nAtHeight stateFrom
  whenever (tx.nType = .cert) (base.verifyCertTx tx hashFork mapBlockAddress)
  let (nFromTemplateType, btFromData) ← base.templateContext mapBlockAddress tx.destFrom
  let (nToTemplateType, btToData) ← base.templateContext mapBlockAddress tx.destTo
  whenever (nToTemplateType = templateVote) (base.verifyVoteTx tx hashFork)
  whenever (nToTemplateType = templatePledge) (base.verifyPledgeTx tx hashFork hashPrevBlock btToData)
  whenever (!isStakeTemplate nToTemplateType && isStakeTemplate nFromTemplateType)
    (base.verifyVoteRedeemTx tx hashFork hashPrevBlock nFromTemplateType)
  base.verifyVoteRewardLockTx tx hashFork hashPrevBlock stateFrom
  whenever (nFromTemplateType = templateFork) (base.verifyForkRedeemTx tx hashFork hashPrevBlock stateFrom btFromData)
  whenever (nToTemplateType = templateFork) (base.verifyForkCreateTx hashFork tx nAtHeight hashPrevBlock btToData)
  whenever (nToTemplateType = templateActivatecode ∧ fEnableContractCodeVerify)
    (base.verifyActivateCodeTx hashFork hashPrevBlock tx)
  base.verifyCode tx hashFork hashPrevBlock ((mapBlockAddress tx.destTo).any AddressContext.isContract)
  base.verifySignature tx nFromTemplateType btFromData

end Verify
end ChainBase

end HashAhead.Core

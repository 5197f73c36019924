import HashAhead.Core.Verify

/-! What an accepted transaction may spend. The balance covers the amount and the fee only if the
product of gas price and gas limit does not wrap around, and locked funds stay locked only if a
staking address does not pay to another one and a fork address has not both of its locks. -/

namespace HashAhead.Core
open Trie State Option

theorem toNat_maxMoney : maxMoney.toNat = 10 ^ 30 := by decide

theorem toNat_getTxFee (tx : Transaction) : tx.getTxFee.toNat = tx.nGasPrice.toNat * tx.nGasLimit.toNat % 2 ^ 256 :=
  BitVec.toNat_mul ..

namespace ChainBase
variable {base : ChainBase} {tx : Transaction} {hashFork hashPrevBlock : UInt256} {nAtHeight : Int} {stateFrom : DestState}
  {mapBlockAddress : Destination → Option AddressContext}

structure Accepted (base : ChainBase) (tx : Transaction) (hashFork hashPrevBlock : UInt256) (stateFrom : DestState)
    (mapBlockAddress : Destination → Option AddressContext) (fromTemplate toTemplate : UInt8 × Bytes) : Prop where
  balance : tx.nAmount + tx.getTxFee ≤ stateFrom.nBalance
  readFrom : base.templateContext mapBlockAddress tx.destFrom = .ok fromTemplate
  readTo : base.templateContext mapBlockAddress tx.destTo = .ok toTemplate
  redeem : isStakeTemplate toTemplate.1 = false → isStakeTemplate fromTemplate.1 = true →
    base.verifyVoteRedeemTx tx hashFork hashPrevBlock fromTemplate.1 = .ok ()
  reward : base.verifyVoteRewardLockTx tx hashFork hashPrevBlock stateFrom = .ok ()
  fork : fromTemplate.1 = templateFork → base.verifyForkRedeemTx tx hashFork hashPrevBlock stateFrom fromTemplate.2 = .ok ()

theorem accepted_of_verify
    (verified : base.verifyTransaction tx hashFork hashPrevBlock nAtHeight stateFrom mapBlockAddress = .ok ()) :
    ∃ paying toTemplate, Accepted base tx hashFork hashPrevBlock stateFrom mapBlockAddress paying toTemplate := by
  rw [verifyTransaction, then_eq_ok, then_eq_ok, then_eq_ok, bind_eq_ok] at verified
  obtain ⟨balance, _, _, paying, readFrom, verified⟩ := verified
  obtain ⟨toTemplate, readTo, verified⟩ := bind_eq_ok.1 verified
  simp only [then_eq_ok, whenever_eq_ok, decide_eq_true_eq, Bool.and_eq_true, Bool.not_eq_true'] at verified
  obtain ⟨_, _, redeem, reward, fork, _⟩ := verified
  refine ⟨paying, toTemplate, ?_, readFrom, readTo, ?_, reward, fork⟩
  · rw [refuseIf_eq_ok, decide_eq_false_iff_not] at balance
    exact BitVec.not_lt.1 balance
  · exact fun apart stake => redeem ⟨apart, stake⟩

/-- An accepted transaction is affordable over the integers just if its fee does not wrap around. -/
theorem affordable_iff_fee_small {validate : ValidateBase} {hashTxAtFork hashMainChainRefBlock : UInt256} {nRefHeight : UInt32}
    (valid : validateTransaction validate hashTxAtFork hashMainChainRefBlock nRefHeight tx = .ok ())
    (verified : base.verifyTransaction tx hashFork hashPrevBlock nAtHeight stateFrom mapBlockAddress = .ok ()) :
    (tx.nAmount.toNat + tx.nGasPrice.toNat * tx.nGasLimit.toNat ≤ stateFrom.nBalance.toNat ∧
      tx.nGasPrice.toNat * tx.nGasLimit.toNat ≤ maxMoney.toNat) ↔ tx.nGasPrice.toNat * tx.nGasLimit.toNat < 2 ^ 256 := by
  simp only [validateTransaction, then_eq_ok, refuseIf_eq_ok, decide_eq_false_iff_not, not_not] at valid
  obtain ⟨_, _, _, _, amountRange, feeRange, _⟩ := valid
  replace amountRange := of_decide_eq_true amountRange
  replace feeRange := of_decide_eq_true feeRange
  obtain ⟨_, _, accepted⟩ := accepted_of_verify verified
  have enough := accepted.balance
  rw [BitVec.le_def, toNat_maxMoney] at amountRange feeRange
  rw [BitVec.le_def, BitVec.toNat_add, toNat_getTxFee] at enough
  rw [toNat_getTxFee] at feeRange
  rw [toNat_maxMoney]
  constructor
  · rintro ⟨_, range⟩
    omega
  · intro small
    rw [Nat.mod_eq_of_lt small] at enough feeRange
    rw [Nat.mod_eq_of_lt (by omega)] at enough
    exact ⟨enough, feeRange⟩

def templateType (mapBlockAddress : Destination → Option AddressContext) (dest : Destination) : UInt8 :=
  if dest = 0 then 0 else ((mapBlockAddress dest).filter AddressContext.isTemplate).elim 0 AddressContext.getTemplateType

theorem templateContext_eq_ok {dest : Destination} {template : UInt8 × Bytes}
    (read : base.templateContext mapBlockAddress dest = .ok template) : template.1 = templateType mapBlockAddress dest := by
  unfold templateContext at read
  unfold templateType
  by_cases null : dest = 0
  · rw [if_pos null] at read ⊢
    cases read
    rfl
  rw [if_neg null] at read ⊢
  cases context : (mapBlockAddress dest).filter AddressContext.isTemplate with
  | none =>
    rw [context] at read
    cases read
    rfl
  | some ctxAddress =>
    rw [context] at read
    cases data : base.readTemplateContext ctxAddress.btData with
    | none => simp [data] at read
    | some btData =>
      simp only [data] at read
      cases read
      rfl

def spent (tx : Transaction) : Nat := tx.nAmount.toNat + tx.getTxFee.toNat

def forkLock (base : ChainBase) (hashPrevBlock : UInt256) (ctxAddress : AddressContext) : Nat :=
  (((base.readTemplateContext ctxAddress.btData).bind (base.getCreateForkLockedAmount hashPrevBlock)).getD 0).toNat

def rewardLock (base : ChainBase) (hashPrevBlock : UInt256) (dest : Destination) : Nat :=
  ((base.getVoteRewardLockedAmount base.hashGenesisBlock hashPrevBlock dest).getD 0).toNat

/-- The cases in which the checks keep what is locked: a pledge address spends nothing; a delegate or
vote address that pays to a staking address may be redeemed or spends nothing; and a fork address has
not both locks or keeps their sum. -/
@[mk_iff] structure LocksKept (base : ChainBase) (tx : Transaction) (hashPrevBlock : UInt256) (stateFrom : DestState)
    (mapBlockAddress : Destination → Option AddressContext) (ctxFrom : AddressContext) : Prop where
  pledge : templateType mapBlockAddress tx.destFrom = templatePledge → spent tx = 0
  stake : templateType mapBlockAddress tx.destFrom = templateDelegate ∨
    templateType mapBlockAddress tx.destFrom = templateVote →
    isStakeTemplate (templateType mapBlockAddress tx.destTo) = true →
    base.verifyAddressVoteRedeem tx.destFrom hashPrevBlock = true ∨ spent tx = 0
  fork : templateType mapBlockAddress tx.destFrom = templateFork →
    base.forkLock hashPrevBlock ctxFrom = 0 ∨ base.rewardLock hashPrevBlock tx.destFrom = 0 ∨
      spent tx + base.forkLock hashPrevBlock ctxFrom + base.rewardLock hashPrevBlock tx.destFrom ≤ stateFrom.nBalance.toNat

section Locks
variable {paying toTemplate : UInt8 × Bytes}

section
variable
  (accepted : Accepted base tx base.hashGenesisBlock hashPrevBlock stateFrom mapBlockAddress paying toTemplate)
include accepted

theorem Accepted.rewardKept (noOverflow : spent tx + base.rewardLock hashPrevBlock tx.destFrom < 2 ^ 256) :
    ∃ nLocked, base.getVoteRewardLockedAmount base.hashGenesisBlock hashPrevBlock tx.destFrom = some nLocked ∧
      spent tx + nLocked.toNat ≤ stateFrom.nBalance.toNat := by
  have reward := accepted.reward
  have enough := accepted.balance
  unfold verifyVoteRewardLockTx at reward
  unfold rewardLock at noOverflow
  cases locked : base.getVoteRewardLockedAmount base.hashGenesisBlock hashPrevBlock tx.destFrom with
  | none => simp [locked] at reward
  | some nLocked =>
    simp only [locked, refuseIf_eq_ok, decide_eq_false_iff_not, not_and, BitVec.not_lt] at reward
    simp only [locked, getD_some, spent] at noOverflow
    refine ⟨nLocked, rfl, ?_⟩
    rw [BitVec.le_def, BitVec.toNat_add, Nat.mod_eq_of_lt (by omega)] at enough
    unfold spent
    by_cases some : nLocked > 0
    · have kept := reward some
      rw [BitVec.le_def, BitVec.toNat_add, BitVec.toNat_add, Nat.mod_eq_of_lt (by omega),
        Nat.mod_eq_of_lt (by omega)] at kept
      omega
    · have zero : nLocked.toNat = 0 := by
        rw [gt_iff_lt, BitVec.lt_def] at some
        exact Nat.eq_zero_of_not_pos some
      omega

theorem Accepted.forkKept (isFork : paying.1 = templateFork) {ctxFrom : AddressContext}
    (noOverflow : spent tx + base.forkLock hashPrevBlock ctxFrom < 2 ^ 256)
    (data : base.readTemplateContext ctxFrom.btData = some paying.2) :
    ∃ nLocked, base.getCreateForkLockedAmount hashPrevBlock paying.2 = some nLocked ∧
      base.forkLock hashPrevBlock ctxFrom = nLocked.toNat ∧ spent tx + nLocked.toNat ≤ stateFrom.nBalance.toNat := by
  have fork := accepted.fork isFork
  rw [verifyForkRedeemTx, then_eq_ok, then_eq_ok] at fork
  obtain ⟨_, _, fork⟩ := fork
  cases locked : base.getCreateForkLockedAmount hashPrevBlock paying.2 with
  | none => simp [locked] at fork
  | some nLocked =>
    have whole : base.forkLock hashPrevBlock ctxFrom = nLocked.toNat := by
      rw [forkLock, data, bind_some, locked]
      rfl
    simp only [locked, refuseIf_eq_ok, decide_eq_false_iff_not, BitVec.not_lt] at fork
    rw [whole] at noOverflow
    unfold spent at noOverflow ⊢
    rw [BitVec.le_def, BitVec.toNat_add, BitVec.toNat_add, Nat.mod_eq_of_lt (by omega), Nat.mod_eq_of_lt (by omega)] at fork
    exact ⟨nLocked, rfl, whole, fork⟩

end

end Locks

section LockedAmount
variable {ctxFrom : AddressContext} {nBalance : UInt256} {dest : Destination}

theorem getAddressLockedAmount_template (isTemplate : ctxFrom.isTemplate = true) :
    base.getAddressLockedAmount base.hashGenesisBlock hashPrevBlock dest ctxFrom nBalance =
      ((base.typeLockedAmount hashPrevBlock dest ctxFrom).bind fun nTypeLocked =>
        (base.getVoteRewardLockedAmount base.hashGenesisBlock hashPrevBlock dest).map fun nLocked =>
          nTypeLocked + nLocked).getD nBalance := by
  rw [getAddressLockedAmount, if_pos ⟨rfl, isTemplate⟩]

end LockedAmount

section Sender
variable {paying toTemplate : UInt8 × Bytes} {ctxFrom : AddressContext} {nReward : UInt256}
  (accepted : Accepted base tx base.hashGenesisBlock hashPrevBlock stateFrom mapBlockAddress paying toTemplate)
  (isTemplate : ctxFrom.isTemplate = true) (type : paying.1 = ctxFrom.getTemplateType)
  (reward : base.getVoteRewardLockedAmount base.hashGenesisBlock hashPrevBlock tx.destFrom = some nReward)
include accepted isTemplate type reward

theorem locked_fork_iff (isFork : paying.1 = templateFork)
    (data : base.readTemplateContext ctxFrom.btData = some paying.2)
    (noOverflow : spent tx + base.forkLock hashPrevBlock ctxFrom + nReward.toNat < 2 ^ 256)
    (rewardKept : spent tx + nReward.toNat ≤ stateFrom.nBalance.toNat) :
    spent tx + (base.getAddressLockedAmount base.hashGenesisBlock hashPrevBlock tx.destFrom ctxFrom
        stateFrom.nBalance).toNat ≤ stateFrom.nBalance.toNat ↔
      base.forkLock hashPrevBlock ctxFrom = 0 ∨ nReward.toNat = 0 ∨
        spent tx + base.forkLock hashPrevBlock ctxFrom + nReward.toNat ≤ stateFrom.nBalance.toNat := by
  obtain ⟨nFork, forkLocked, forkLock_eq, forkKept⟩ := accepted.forkKept isFork (by omega) data
  have sum : (nFork + nReward).toNat = nFork.toNat + nReward.toNat := by
    rw [BitVec.toNat_add, Nat.mod_eq_of_lt (by omega)]
  rw [getAddressLockedAmount_template isTemplate, typeLockedAmount, if_pos (type ▸ isFork), data, bind_some,
    forkLocked, bind_some, reward, map_some, getD_some, sum]
  omega

theorem locked_vote_iff (isVote : paying.1 = templateDelegate ∨ paying.1 = templateVote)
    (rewardKept : spent tx + nReward.toNat ≤ stateFrom.nBalance.toNat) :
    spent tx + (base.getAddressLockedAmount base.hashGenesisBlock hashPrevBlock tx.destFrom ctxFrom
        stateFrom.nBalance).toNat ≤ stateFrom.nBalance.toNat ↔
      (isStakeTemplate toTemplate.1 = true →
        base.verifyAddressVoteRedeem tx.destFrom hashPrevBlock = true ∨ spent tx = 0) := by
  have notFork : ctxFrom.getTemplateType ≠ templateFork := by
    rw [← type]
    rcases isVote with same | same <;> rw [same] <;> decide
  have stake : isStakeTemplate paying.1 = true := by
    rcases isVote with same | same <;> rw [same] <;> decide
  rw [getAddressLockedAmount_template isTemplate, typeLockedAmount, if_neg notFork, if_pos (type ▸ isVote), reward]
  cases redeem : base.verifyAddressVoteRedeem tx.destFrom hashPrevBlock with
  | true =>
    apply iff_of_true _ fun _ => Or.inl rfl
    show spent tx + (0#256 + nReward).toNat ≤ _
    rw [BitVec.zero_add]
    exact rewardKept
  | false =>
    show spent tx + stateFrom.nBalance.toNat ≤ _ ↔ _
    constructor
    · exact fun kept _ => Or.inr (by omega)
    · intro locks
      cases toStake : isStakeTemplate toTemplate.1 with
      | true =>
        have nothing := (locks toStake).resolve_left (by simp)
        omega
      | false =>
        have redeemed := accepted.redeem toStake stake
        simp [verifyVoteRedeemTx, then_eq_ok, redeem] at redeemed

omit accepted in
theorem locked_other (notFork : paying.1 ≠ templateFork) (notStake : isStakeTemplate paying.1 = false)
    (rewardKept : spent tx + nReward.toNat ≤ stateFrom.nBalance.toNat) :
    spent tx + (base.getAddressLockedAmount base.hashGenesisBlock hashPrevBlock tx.destFrom ctxFrom
        stateFrom.nBalance).toNat ≤ stateFrom.nBalance.toNat := by
  rw [type] at notFork notStake
  simp only [isStakeTemplate, decide_eq_false_iff_not, not_or] at notStake
  rw [getAddressLockedAmount_template isTemplate, typeLockedAmount, if_neg notFork,
    if_neg (not_or.2 ⟨notStake.1, notStake.2.1⟩), if_neg notStake.2.2, reward]
  show spent tx + (0#256 + nReward).toNat ≤ _
  rw [BitVec.zero_add]
  exact rewardKept

end Sender

/-- An accepted transaction leaves what is locked just in these cases. -/
theorem locked_unspent_iff {ctxFrom : AddressContext} (sender : tx.destFrom ≠ 0)
    (known : mapBlockAddress tx.destFrom = some ctxFrom)
    (noOverflow : spent tx + base.forkLock hashPrevBlock ctxFrom + base.rewardLock hashPrevBlock tx.destFrom < 2 ^ 256)
    (verified : base.verifyTransaction tx base.hashGenesisBlock hashPrevBlock nAtHeight stateFrom mapBlockAddress = .ok ()) :
    spent tx + (base.getAddressLockedAmount base.hashGenesisBlock hashPrevBlock tx.destFrom ctxFrom
        stateFrom.nBalance).toNat ≤ stateFrom.nBalance.toNat ↔
      LocksKept base tx hashPrevBlock stateFrom mapBlockAddress ctxFrom := by
  obtain ⟨fromTemplate, toTemplate, accepted⟩ := accepted_of_verify verified
  obtain ⟨nReward, reward, rewardKept⟩ := accepted.rewardKept (by omega)
  have rewardLocked : base.rewardLock hashPrevBlock tx.destFrom = nReward.toNat := by
    rw [rewardLock, reward]
    rfl
  have fromType := templateContext_eq_ok accepted.readFrom
  have toType := templateContext_eq_ok accepted.readTo
  rw [locksKept_iff, ← fromType, ← toType, rewardLocked]
  rw [rewardLocked] at noOverflow
  cases isTemplate : ctxFrom.isTemplate with
  | false =>
    have none_type : fromTemplate.1 = 0 := by
      rw [fromType, templateType, if_neg sender, known, filter_some, if_neg (by simp [isTemplate])]
      rfl
    rw [getAddressLockedAmount, if_neg (by simp [isTemplate]), reward, none_type, bind_some, map_some, getD_some,
      zero_add]
    exact iff_of_true rewardKept ⟨nofun, nofun, nofun⟩
  | true =>
    obtain ⟨type, data⟩ : fromTemplate.1 = ctxFrom.getTemplateType ∧
        base.readTemplateContext ctxFrom.btData = some fromTemplate.2 := by
      have read := accepted.readFrom
      rw [templateContext, if_neg sender, known, filter_some, if_pos isTemplate] at read
      cases data : base.readTemplateContext ctxFrom.btData with
      | none => simp [data] at read
      | some btData =>
        simp only [data] at read
        cases read
        exact ⟨rfl, rfl⟩
    by_cases isFork : fromTemplate.1 = templateFork
    · rw [locked_fork_iff accepted isTemplate type reward isFork data noOverflow rewardKept, isFork]
      simp [templateFork, templatePledge, templateDelegate, templateVote]
    by_cases isVote : fromTemplate.1 = templateDelegate ∨ fromTemplate.1 = templateVote
    · rw [locked_vote_iff accepted isTemplate type reward isVote rewardKept]
      rcases isVote with same | same <;> simp [same, templateFork, templatePledge, templateDelegate, templateVote]
    by_cases isPledge : fromTemplate.1 = templatePledge
    · rw [getAddressLockedAmount_template isTemplate, typeLockedAmount, ← type, isPledge]
      show spent tx + stateFrom.nBalance.toNat ≤ _ ↔ _
      have empty : spent tx + stateFrom.nBalance.toNat ≤ stateFrom.nBalance.toNat ↔ spent tx = 0 := by omega
      simp [empty, templateFork, templatePledge, templateDelegate, templateVote]
    · rw [not_or] at isVote
      apply iff_of_true
      · exact locked_other isTemplate type reward isFork (by simp [isStakeTemplate, isVote, isPledge]) rewardKept
      · simp [isFork, isVote, isPledge]

end ChainBase

namespace Sample

def validateBase : ValidateBase where
  verifyFhxHeightBranch002 := fun _ => false
  functionDeploymentSignerAddress := 0xF1
  getForkHashByChainId := fun _ _ => some 1
  serializeTxData := fun _ => []
  poaTxDataSize := 0
  delegateTxDataSize := 0
  voteTxDataSize := none
  readCodeContext := fun _ => false
  getSerializeSize := fun _ => 200

/-- A chain where the addresses 0xD1 and 0xD2 are delegates whose votes have no final height yet. -/
def chainBase : ChainBase where
  param := mainnet
  hashGenesisBlock := 1
  verifyFhxHeightBranch002 := fun _ => false
  functionDeploymentSignerAddress := 0xF1
  readTemplateContext := some
  importTemplate := fun _ => some (.delegate 0xA1 0xA2 500)
  getSignDestination := fun _ _ => some 0xA2
  retrieveDestVoteContext := fun _ dest => some ⟨dest, 0xA2, 0, coin, 10000, 0⟩
  getForkCtxStatus := fun _ _ => none
  listVoteReward := fun _ _ _ => some []
  verifyForkCreateTx := fun _ _ _ _ _ => .ok ()
  verifyActivateCodeTx := fun _ _ _ => .ok ()
  verifyCreateCodeTx := fun _ _ _ => true
  verifyContractAddress := fun _ _ _ => true
  verifyTxSignature := fun _ _ => true

def delegateContext : AddressContext := ⟨packType destTypeTemplate templateDelegate, [3]⟩

def addresses (dest : Destination) : Option AddressContext :=
  some (if dest = 0xD1 ∨ dest = 0xD2 then delegateContext else .pubkey [])

def transfer (destFrom destTo : Destination) (nAmount nGasPrice nGasLimit : UInt256) : Transaction :=
  ⟨.token, 1, 1, destFrom, destTo, nAmount, nGasPrice, nGasLimit, .empty, []⟩

def account (nBalance : UInt256) : DestState := ⟨0, 0, nBalance, 0, 0, false⟩

def plainTransfer : Transaction := transfer 0xB1 0xB2 (coin / 2) minGasPrice txBaseGas

theorem plainTransfer_affordable :
    (coin / 2).toNat + minGasPrice.toNat * txBaseGas.toNat ≤ coin.toNat ∧
      minGasPrice.toNat * txBaseGas.toNat ≤ maxMoney.toNat := by
  have valid : validateTransaction validateBase 1 0 0 plainTransfer = .ok () := rfl
  have verified : chainBase.verifyTransaction plainTransfer 1 0 1 (account coin) addresses = .ok () := rfl
  exact (ChainBase.affordable_iff_fee_small valid verified).2 (by decide)

def wrappedTransfer : Transaction := transfer 0xB1 0xB2 0 (1 <<< 128) (1 <<< 128)

/-- An empty account can pay a fee of 2^256. -/
theorem wrapped_fee_accepted :
    validateTransaction validateBase 1 0 0 wrappedTransfer = .ok () ∧
      chainBase.verifyTransaction wrappedTransfer 1 0 1 (account 0) addresses = .ok () ∧
      ¬ wrappedTransfer.nAmount.toNat + wrappedTransfer.nGasPrice.toNat * wrappedTransfer.nGasLimit.toNat ≤
        (account 0).nBalance.toNat := by
  refine ⟨rfl, rfl, by decide⟩

theorem plainTransfer_locked_unspent :
    ChainBase.spent plainTransfer + (chainBase.getAddressLockedAmount 1 0 0xB1 (.pubkey []) coin).toNat ≤ coin.toNat := by
  have verified : chainBase.verifyTransaction plainTransfer 1 0 1 (account coin) addresses = .ok () := rfl
  have known : addresses plainTransfer.destFrom = some (.pubkey []) := by decide
  apply (ChainBase.locked_unspent_iff (by decide) known (by decide) verified).2
  exact ⟨by decide, by decide, by decide⟩

def delegateTransfer : Transaction := transfer 0xD1 0xD2 (coin / 2) minGasPrice txBaseGas

/-- The transfer is accepted though the whole balance of its sender is locked. -/
theorem locked_delegate_spends :
    chainBase.verifyTransaction delegateTransfer 1 0 1 (account coin) addresses = .ok () ∧
      addresses delegateTransfer.destFrom = some delegateContext ∧
      ¬ ChainBase.spent delegateTransfer +
        (chainBase.getAddressLockedAmount 1 0 delegateTransfer.destFrom delegateContext (account coin).nBalance).toNat ≤
          (account coin).nBalance.toNat := by
  refine ⟨rfl, by decide, by decide⟩

end Sample

end HashAhead.Core

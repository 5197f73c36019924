import HashAhead.State.BlockState

/-! Transfers between accounts. Both account states are read before either is written back,
and a null state written to the cache uncovers the layer below it, so a transfer is a
payment only under a condition on the two accounts. -/

namespace HashAhead.State
open Foundation
namespace BlockState

section Layers
variable (s : BlockState) (dest : Destination)

def moneyOf : Option DestState → Nat
  | none => 0
  | some stateDest => stateDest.nBalance.toNat

/-- The money that `GetDestState` shows for an address. -/
def balance : Nat := moneyOf (s.getDestState dest)

def lowerBalance : Nat := moneyOf (s.lowerDestState dest)

/-- What `GetDestState` shows once a state is in the cache. -/
def settled (stateDest : DestState) : Option DestState :=
  if stateDest.isNull then s.lowerDestState dest else some stateDest

variable (other : Destination)

@[simp] theorem lowerDestState_setCacheDestState (stateDest : DestState) :
    (s.setCacheDestState other stateDest).lowerDestState = s.lowerDestState := rfl

theorem getDestState_setCacheContractData (data : CacheContractData) :
    (s.setCacheContractData other data).getDestState dest =
      if dest = other then s.settled dest data.cacheDestState else s.getDestState dest := by
  by_cases same : dest = other
  · subst same
    simp [getDestState, setCacheContractData, settled, lowerDestState]
  · simp [getDestState, setCacheContractData, same, lowerDestState]

theorem getDestState_setCacheDestState (state : DestState) :
    (s.setCacheDestState other state).getDestState dest =
      if dest = other then s.settled dest state else s.getDestState dest :=
  s.getDestState_setCacheContractData dest other _

theorem settled_cacheContractData : s.settled dest (s.cacheContractData dest).cacheDestState = s.getDestState dest := by
  unfold settled cacheContractData getDestState
  cases s.mapCacheContractData dest <;> rfl

variable {s dest}

end Layers

section Payment
variable (s : BlockState) (destFrom destTo : Destination) (amount : UInt256) (ctxToAddress : AddressContext)
  (nTransferType : UInt8) (stateFrom stateTo : DestState)

structure SameMoney (s' : BlockState) : Prop where
  accounts : s'.getDestState = s.getDestState
  lower : s'.lowerDestState = s.lowerDestState
  transfers : s'.vCacheContractTransfer = s.vCacheContractTransfer

theorem SameMoney.refl : s.SameMoney s := ⟨rfl, rfl, rfl⟩

variable {s} in
theorem SameMoney.trans {s' s'' : BlockState} (first : s.SameMoney s') (second : s'.SameMoney s'') :
    s.SameMoney s'' :=
  ⟨second.accounts.trans first.accounts, second.lower.trans first.lower, second.transfers.trans first.transfers⟩

theorem sameMoney_setCacheAddressContext (dest : Destination) (ctx : AddressContext) :
    s.SameMoney (s.setCacheAddressContext dest ctx) := ⟨rfl, rfl, rfl⟩

theorem getAddressContext_setCacheAddressContext (dest other : Destination) (ctx : AddressContext) :
    (s.setCacheAddressContext other ctx).getAddressContext dest =
      if dest = other then some ctx else s.getAddressContext dest := by
  by_cases same : dest = other
  · subst same
    simp [getAddressContext, setCacheAddressContext]
  · simp [getAddressContext, setCacheAddressContext, same]

def lockedUnder (ctxAddress : AddressContext) : Option UInt256 :=
  (s.dbBlockBase.getAddressLockedAmount destFrom ctxAddress stateFrom.nBalance).map fun nLockedAmount =>
    match s.mapBlockRewardLocked destFrom with
    | some nReward => nLockedAmount + nReward
    | none => nLockedAmount

variable {s destFrom stateFrom} in
theorem getDestLockedAmount_eq {ctxAddress : AddressContext} (context : s.getAddressContext destFrom = some ctxAddress)
    (read : s.getDestState destFrom = some stateFrom) :
    s.getDestLockedAmount destFrom = s.lockedUnder destFrom stateFrom ctxAddress := by
  unfold getDestLockedAmount lockedUnder
  simp only [context, read, Option.bind_eq_bind, Option.bind_some]
  cases s.dbBlockBase.getAddressLockedAmount destFrom ctxAddress stateFrom.nBalance <;>
    cases s.mapBlockRewardLocked destFrom <;> rfl

structure Payable : Prop where
  unlocked : ∃ ctxFrom, s.getAddressContext destFrom = some ctxFrom ∧
    ∃ nLockedAmount, s.lockedUnder destFrom stateFrom ctxFrom = some nLockedAmount ∧
      (nLockedAmount = 0 ∨ nLockedAmount + amount ≤ stateFrom.nBalance)
  voting : s.dbBlockBase.verifyFhxHeightBranch002 s.nBlockHeight = true →
    ctxToAddress.getTemplateType = templatePledge → s.dbBlockBase.verifyAddressPledgeVote destTo = true

def paid : BlockState :=
  let s := (s.setCacheDestState destFrom (stateFrom.decBalance amount)).setCacheDestState destTo
    (stateTo.incBalance amount)
  { s with vCacheContractTransfer := s.vCacheContractTransfer ++ [⟨nTransferType, destFrom, destTo, amount⟩] }

open Classical in
theorem payReceiver_eq (read : s.getDestState destFrom = some stateFrom) :
    ∃ s', s.SameMoney s' ∧ s'.getAddressContext = s.getAddressContext ∧
      s.payReceiver destFrom destTo amount ctxToAddress nTransferType stateFrom stateTo =
        if s.Payable destFrom destTo amount ctxToAddress stateFrom then
          (true, s'.paid destFrom destTo amount nTransferType stateFrom stateTo) else (false, s') := by
  unfold payReceiver
  cases context : s.getAddressContext destFrom with
  | none =>
    refine ⟨s, .refl s, rfl, (if_neg fun payable => ?_).symm⟩
    obtain ⟨ctxFrom, known, _⟩ := payable.unlocked
    cases context.symm.trans known
  | some ctxFrom =>
    -- filling the cache with the context that is already visible changes no answer
    obtain ⟨s', made⟩ : ∃ s', s' = if (s.mapCacheAddressContext destFrom).isNone then
      s.setCacheAddressContext destFrom ctxFrom else s := ⟨_, rfl⟩
    have contexts : s'.getAddressContext = s.getAddressContext := by
      rw [made]
      split_ifs
      · funext dest
        rw [getAddressContext_setCacheAddressContext]
        split_ifs with payer
        · rw [payer, context]
        · rfl
      · rfl
    obtain ⟨same, base⟩ : s.SameMoney s' ∧ s'.dbBlockBase = s.dbBlockBase ∧ s'.nBlockHeight = s.nBlockHeight ∧
        s'.mapBlockRewardLocked = s.mapBlockRewardLocked := by
      rw [made]
      split_ifs
      · exact ⟨s.sameMoney_setCacheAddressContext destFrom ctxFrom, rfl, rfl, rfl⟩
      · exact ⟨.refl s, rfl, rfl, rfl⟩
    have locked : s'.getDestLockedAmount destFrom = s.lockedUnder destFrom stateFrom ctxFrom := by
      rw [getDestLockedAmount_eq (contexts ▸ context) (same.accounts ▸ read)]
      unfold lockedUnder
      rw [base.1, base.2.2]
    refine ⟨s', same, contexts, ?_⟩
    simp only [← made, locked]
    cases amountLocked : s.lockedUnder destFrom stateFrom ctxFrom with
    | none =>
      refine (if_neg fun payable => ?_).symm
      obtain ⟨ctxFrom', known', nLockedAmount, found, _⟩ := payable.unlocked
      cases context.symm.trans known'
      cases amountLocked.symm.trans found
    | some nLockedAmount =>
      simp only [base.1, base.2.1]
      by_cases blocked : nLockedAmount > 0 ∧ stateFrom.nBalance < nLockedAmount + amount
      · rw [if_pos blocked, if_neg]
        intro payable
        obtain ⟨ctxFrom', known', nLockedAmount', found, enough⟩ := payable.unlocked
        cases context.symm.trans known'
        cases amountLocked.symm.trans found
        rcases enough with none | enough
        · exact absurd blocked.1 (by simp [none])
        · exact absurd blocked.2 (BitVec.not_lt.mpr enough)
      rw [if_neg blocked]
      by_cases banned : s.dbBlockBase.verifyFhxHeightBranch002 s.nBlockHeight = true ∧
          ctxToAddress.getTemplateType = templatePledge ∧ (!s.dbBlockBase.verifyAddressPledgeVote destTo) = true
      · rw [if_pos banned, if_neg]
        intro payable
        have voted := payable.voting banned.1 banned.2.1
        simp [voted] at banned
      · rw [if_neg banned, if_pos]
        · rfl
        refine ⟨⟨ctxFrom, context, nLockedAmount, amountLocked, ?_⟩, fun active pledge => ?_⟩
        · by_contra! enough
          have positive : 0 < nLockedAmount := by
            have nonzero := enough.1
            bv_omega
          exact blocked ⟨positive, BitVec.not_le.mp enough.2⟩
        · by_contra stopped
          exact banned ⟨active, pledge, by simpa using stopped⟩

end Payment

section Transfer
variable (s : BlockState) (destFrom destTo : Destination) (amount : UInt256) (nGasLeft : UInt64)
  (ctxToAddress : AddressContext) (nTransferType : UInt8)

theorem transferReceiver_none_iff : s.transferReceiver destTo ctxToAddress = none ↔
    ¬(s.getAddressContext destTo = none → ∀ stateTo, s.getDestState destTo = some stateTo →
      ctxToAddress.getDestType = stateTo.getDestType ∧
        ctxToAddress.getTemplateType = stateTo.getTemplateType) := by
  unfold transferReceiver
  cases state : s.getDestState destTo <;> cases context : s.getAddressContext destTo <;> simp

variable {s destTo ctxToAddress} in
theorem transferReceiver_some {stateTo : DestState} {ctxTempAddress : AddressContext}
    (found : s.transferReceiver destTo ctxToAddress = some (stateTo, ctxTempAddress)) :
    ctxTempAddress = (s.getAddressContext destTo).getD ctxToAddress ∧
      (s.getDestState destTo = some stateTo ∨ s.getDestState destTo = none ∧ stateTo.nBalance = 0) := by
  unfold transferReceiver at found
  cases state : s.getDestState destTo with
  | none =>
    cases context : s.getAddressContext destTo <;> simp only [state, context] at found <;> cases found <;>
      exact ⟨rfl, Or.inr ⟨rfl, rfl⟩⟩
  | some stateTo' =>
    cases context : s.getAddressContext destTo with
    | none =>
      simp only [state, context] at found
      split_ifs at found
      cases found
      exact ⟨rfl, Or.inl rfl⟩
    | some ctx =>
      simp only [state, context] at found
      cases found
      exact ⟨rfl, Or.inl rfl⟩

/-- When a transfer goes through. The payer's context is looked up after the receiver's is in
the cache. -/
structure Transferable : Prop where
  enabled : ¬(ctxToAddress.isTemplate = true ∧ ctxToAddress.getTemplateType = templateVote)
  gas : functionTxGasTrans ≤ nGasLeft
  agreed : s.getAddressContext destTo = none → ∀ stateTo, s.getDestState destTo = some stateTo →
    ctxToAddress.getDestType = stateTo.getDestType ∧ ctxToAddress.getTemplateType = stateTo.getTemplateType
  funded : ∃ stateFrom, s.getDestState destFrom = some stateFrom ∧ amount ≤ stateFrom.nBalance ∧
    (s.setCacheAddressContext destTo ((s.getAddressContext destTo).getD ctxToAddress)).Payable destFrom destTo amount
      ctxToAddress stateFrom

/-- The transfer gets as far as the cache entry for the context of the receiver. -/
structure Reached : Prop where
  enabled : ¬(ctxToAddress.isTemplate = true ∧ ctxToAddress.getTemplateType = templateVote)
  gas : functionTxGasTrans ≤ nGasLeft
  funded : ∃ stateFrom, s.getDestState destFrom = some stateFrom ∧ amount ≤ stateFrom.nBalance
  agreed : s.getAddressContext destTo = none → ∀ stateTo, s.getDestState destTo = some stateTo →
    ctxToAddress.getDestType = stateTo.getDestType ∧ ctxToAddress.getTemplateType = stateTo.getTemplateType

theorem contractTransfer_reached :
    let outcome := s.contractTransfer destFrom destTo amount nGasLeft ctxToAddress nTransferType
    (¬s.Reached destFrom destTo amount nGasLeft ctxToAddress ∧ outcome.1 = false ∧ outcome.2.2 = s) ∨
    (s.Reached destFrom destTo amount nGasLeft ctxToAddress ∧ ∃ stateFrom stateTo,
      s.getDestState destFrom = some stateFrom ∧ amount ≤ stateFrom.nBalance ∧
      (s.getDestState destTo = some stateTo ∨ s.getDestState destTo = none ∧ stateTo.nBalance = 0) ∧
      let pays := (s.setCacheAddressContext destTo ((s.getAddressContext destTo).getD ctxToAddress)).payReceiver destFrom
        destTo amount ctxToAddress nTransferType stateFrom stateTo
      outcome = (pays.1, nGasLeft - functionTxGasTrans, pays.2)) := by
  unfold contractTransfer
  split_ifs with disabled poor
  · refine Or.inl ⟨fun reached => reached.enabled ?_, rfl, rfl⟩
    simpa [fEnableStakeVote, fEnableStakePledge] using disabled
  · exact Or.inl ⟨fun reached => absurd reached.gas (UInt64.not_le.mpr poor), rfl, rfl⟩
  · cases read : s.getDestState destFrom with
    | none => exact Or.inl ⟨fun reached => by simpa [read] using reached.funded, rfl, rfl⟩
    | some stateFrom =>
      dsimp only
      split_ifs with short
      · refine Or.inl ⟨fun reached => ?_, rfl, rfl⟩
        obtain ⟨_, present, enough⟩ := reached.funded
        cases read.symm.trans present
        exact absurd short (BitVec.not_lt.mpr enough)
      · have enough := BitVec.not_lt.mp short
        cases found : s.transferReceiver destTo ctxToAddress with
        | none => exact Or.inl ⟨fun reached => (transferReceiver_none_iff ..).mp found reached.agreed, rfl, rfl⟩
        | some receiver =>
          obtain ⟨context, receiving⟩ := transferReceiver_some found
          have agreed := mt (transferReceiver_none_iff s destTo ctxToAddress).mpr (by simp [found])
          refine Or.inr ⟨⟨?_, UInt64.not_lt.mp poor, ⟨stateFrom, read, enough⟩, not_not.mp agreed⟩, stateFrom, receiver.1,
            rfl, enough, receiving, by rw [← context]⟩
          simpa [fEnableStakeVote, fEnableStakePledge] using disabled

theorem contractTransfer_cases :
    let outcome := s.contractTransfer destFrom destTo amount nGasLeft ctxToAddress nTransferType
    (¬s.Transferable destFrom destTo amount nGasLeft ctxToAddress ∧ outcome.1 = false ∧ s.SameMoney outcome.2.2) ∨
    (s.Transferable destFrom destTo amount nGasLeft ctxToAddress ∧ ∃ stateFrom stateTo s',
      s.getDestState destFrom = some stateFrom ∧ amount ≤ stateFrom.nBalance ∧
      (s.getDestState destTo = some stateTo ∨ s.getDestState destTo = none ∧ stateTo.nBalance = 0) ∧
      s.SameMoney s' ∧ outcome = (true, nGasLeft - functionTxGasTrans,
        s'.paid destFrom destTo amount nTransferType stateFrom stateTo)) := by
  rcases s.contractTransfer_reached destFrom destTo amount nGasLeft ctxToAddress nTransferType with
    ⟨early, result, same⟩ | ⟨reached, stateFrom, stateTo, read, enough, receiving, result⟩
  · refine Or.inl ⟨fun allowed => early ⟨allowed.enabled, allowed.gas, ?_, allowed.agreed⟩, result, ?_⟩
    · obtain ⟨stateFrom, read, enough, _⟩ := allowed.funded
      exact ⟨stateFrom, read, enough⟩
    · rw [same]
      exact .refl s
  · have same := s.sameMoney_setCacheAddressContext destTo ((s.getAddressContext destTo).getD ctxToAddress)
    obtain ⟨s', kept, _, pays⟩ := payReceiver_eq (s.setCacheAddressContext destTo ((s.getAddressContext destTo).getD
      ctxToAddress)) destFrom destTo amount ctxToAddress nTransferType stateFrom stateTo read
    simp only [result, pays]
    split_ifs with payable
    · exact Or.inr ⟨⟨reached.enabled, reached.gas, reached.agreed, stateFrom, read, enough, payable⟩,
        stateFrom, stateTo, s', read, enough, receiving, same.trans kept, rfl⟩
    · refine Or.inl ⟨fun allowed => ?_, rfl, same.trans kept⟩
      obtain ⟨stateFrom', present, _, allowed⟩ := allowed.funded
      cases read.symm.trans present
      exact payable allowed

/-- The same account states, address contexts, contracts and transfers. -/
structure SameAnswers (s s' : BlockState) : Prop where
  accounts : s'.getDestState = s.getDestState
  contexts : s'.getAddressContext = s.getAddressContext
  contracts : s'.isContractAddress = s.isContractAddress
  transfers : s'.vCacheContractTransfer = s.vCacheContractTransfer

/-- A refused transfer leaves a trace exactly if it has put a context into the cache for a
receiver that had none. -/
theorem refused_traceless_iff
    (refused : (s.contractTransfer destFrom destTo amount nGasLeft ctxToAddress nTransferType).1 = false) :
    s.SameAnswers (s.contractTransfer destFrom destTo amount nGasLeft ctxToAddress nTransferType).2.2 ↔
      ((s.getAddressContext destTo).isSome ∨ ¬s.Reached destFrom destTo amount nGasLeft ctxToAddress) := by
  have money : s.SameMoney (s.contractTransfer destFrom destTo amount nGasLeft ctxToAddress nTransferType).2.2 := by
    rcases s.contractTransfer_cases destFrom destTo amount nGasLeft ctxToAddress nTransferType with
      ⟨_, _, same⟩ | ⟨_, _, _, _, _, _, _, _, paid⟩
    · exact same
    · rw [paid] at refused
      cases refused
  have answers (same : (s.contractTransfer destFrom destTo amount nGasLeft ctxToAddress
      nTransferType).2.2.getAddressContext = s.getAddressContext) : s.SameAnswers _ :=
    ⟨money.accounts, same, funext fun addr => by rw [isContractAddress, isContractAddress, same], money.transfers⟩
  rcases s.contractTransfer_reached destFrom destTo amount nGasLeft ctxToAddress nTransferType with
    ⟨early, _, unchanged⟩ | ⟨reached, stateFrom, stateTo, read, _, _, result⟩
  · exact ⟨fun _ => Or.inr early, fun _ => answers (by rw [unchanged])⟩
  · obtain ⟨s', _, contexts, pays⟩ := payReceiver_eq (s.setCacheAddressContext destTo ((s.getAddressContext destTo).getD
      ctxToAddress)) destFrom destTo amount ctxToAddress nTransferType stateFrom stateTo read
    have cached : (s.contractTransfer destFrom destTo amount nGasLeft ctxToAddress nTransferType).2.2.getAddressContext =
        (s.setCacheAddressContext destTo ((s.getAddressContext destTo).getD ctxToAddress)).getAddressContext := by
      simp only [result, pays, ← contexts]
      split_ifs <;> rfl
    constructor
    · intro traceless
      have entry := congrFun (cached.symm.trans traceless.contexts) destTo
      rw [getAddressContext_setCacheAddressContext, if_pos rfl] at entry
      exact Or.inl (by rw [← entry]; rfl)
    · intro known
      obtain ⟨ctx, context⟩ := Option.isSome_iff_exists.mp (known.resolve_right (not_not.mpr reached))
      apply answers
      rw [cached]
      funext dest
      rw [getAddressContext_setCacheAddressContext]
      split_ifs with receiver
      · rw [receiver, context, Option.getD_some]
      · rfl

end Transfer

section Conservation
variable {s s' : BlockState} {destFrom destTo : Destination} {amount : UInt256} {nTransferType : UInt8}
  {stateFrom stateTo : DestState}

theorem lowerDestState_of_unknown {dest : Destination} (unknown : s.getDestState dest = none) :
    s.lowerDestState dest = none := by
  unfold getDestState at unknown
  split at unknown
  · split_ifs at unknown
    exact unknown
  · exact unknown

theorem getDestState_paid (same : s.SameMoney s') (dest : Destination) :
    (s'.paid destFrom destTo amount nTransferType stateFrom stateTo).getDestState dest =
      if dest = destTo then s.settled dest (stateTo.incBalance amount)
      else if dest = destFrom then s.settled dest (stateFrom.decBalance amount)
      else s.getDestState dest := by
  have moved : (s'.paid destFrom destTo amount nTransferType stateFrom stateTo).getDestState =
      ((s'.setCacheDestState destFrom (stateFrom.decBalance amount)).setCacheDestState destTo
        (stateTo.incBalance amount)).getDestState := rfl
  rw [moved, getDestState_setCacheDestState, getDestState_setCacheDestState]
  simp only [settled, lowerDestState_setCacheDestState, same.accounts, same.lower]

theorem moneyOf_settled_incBalance {dest : Destination} {state : DestState}
    (known : s.getDestState dest = some state ∨ s.getDestState dest = none ∧ state.nBalance = 0)
    (fits : s.balance dest + amount.toNat < 2 ^ 256) :
    moneyOf (s.settled dest (state.incBalance amount)) = s.balance dest + amount.toNat := by
  have had : s.balance dest = state.nBalance.toNat := by
    unfold balance
    rcases known with read | ⟨unknown, fresh⟩
    · rw [read, moneyOf]
    · simp [unknown, fresh, moneyOf]
  have sum : (state.nBalance + amount).toNat = state.nBalance.toNat + amount.toNat := by
    rw [BitVec.toNat_add, Nat.mod_eq_of_lt (had ▸ fits)]
  rw [had, settled]
  by_cases null : (state.incBalance amount).isNull = true
  · -- a null sum means there was nothing before and nothing came
    obtain ⟨blank, zero⟩ := ((state.incBalance amount).isNull_iff).mp null
    have nothing : state.nBalance.toNat + amount.toNat = 0 := by
      rw [← sum]
      exact congrArg BitVec.toNat zero
    rw [if_pos null]
    rcases known with read | ⟨unknown, fresh⟩
    · have empty : state.isNull = true :=
        state.isNull_iff.mpr ⟨blank, BitVec.eq_of_toNat_eq (by simp; omega)⟩
      have lower : s.lowerDestState dest = some state := by
        unfold getDestState at read
        split at read
        · split_ifs at read with cached
          · exact read
          · cases read
            exact absurd empty cached
        · exact read
      rw [lower, moneyOf]
      omega
    · rw [lowerDestState_of_unknown unknown]
      exact nothing.symm
  · rw [if_neg null]
    exact sum

def Drained (s : BlockState) (destFrom : Destination) (amount : UInt256) : Prop :=
  ∃ stateFrom, s.getDestState destFrom = some stateFrom ∧ stateFrom.Blank ∧ stateFrom.nBalance = amount

theorem balance_paid_from (same : s.SameMoney s') (read : s.getDestState destFrom = some stateFrom)
    (enough : amount ≤ stateFrom.nBalance) (apart : destFrom ≠ destTo) :
    (s'.paid destFrom destTo amount nTransferType stateFrom stateTo).balance destFrom + amount.toNat =
        s.balance destFrom ↔
      (s.Drained destFrom amount → s.lowerBalance destFrom = 0) := by
  have rest : (stateFrom.nBalance - amount).toNat = stateFrom.nBalance.toNat - amount.toNat :=
    BitVec.toNat_sub_of_le enough
  have le : amount.toNat ≤ stateFrom.nBalance.toNat := enough
  have before : s.balance destFrom = stateFrom.nBalance.toNat := by simp [balance, read, moneyOf]
  rw [balance, getDestState_paid same, if_neg apart, if_pos rfl, settled, before]
  by_cases null : (stateFrom.decBalance amount).isNull = true
  · obtain ⟨blank, zero⟩ := ((stateFrom.decBalance amount).isNull_iff).mp null
    have all : stateFrom.nBalance = amount := by
      have : (stateFrom.nBalance - amount).toNat = 0 := congrArg BitVec.toNat zero
      exact BitVec.eq_of_toNat_eq (by omega)
    have drained : s.Drained destFrom amount := ⟨stateFrom, read, blank, all⟩
    have equal : amount.toNat = stateFrom.nBalance.toNat := by rw [all]
    rw [if_pos null]
    simp only [lowerBalance, drained, true_implies]
    omega
  · have kept : ¬s.Drained destFrom amount := by
      rintro ⟨stateFrom', read', blank, all⟩
      cases read.symm.trans read'
      exact null ((stateFrom.decBalance amount).isNull_iff.mpr ⟨blank, by simp [DestState.decBalance, all]⟩)
    rw [if_neg null]
    simp only [kept, false_implies, iff_true]
    change (stateFrom.nBalance - amount).toNat + amount.toNat = stateFrom.nBalance.toNat
    omega

theorem balance_paid_other (same : s.SameMoney s') {dest : Destination} (notFrom : dest ≠ destFrom)
    (notTo : dest ≠ destTo) :
    (s'.paid destFrom destTo amount nTransferType stateFrom stateTo).balance dest = s.balance dest := by
  rw [balance, getDestState_paid same, if_neg notTo, if_neg notFrom, balance]

structure Conserves (s s' : BlockState) (destFrom destTo : Destination) (amount : UInt256) : Prop where
  total : total s'.balance = total s.balance
  moved : destFrom ≠ destTo →
    s'.balance destFrom + amount.toNat = s.balance destFrom ∧ s'.balance destTo = s.balance destTo + amount.toNat
  alone : destFrom = destTo → s'.balance = s.balance

/-- A transfer conserves money exactly when nobody pays themself and no drained payer has an
older balance below the cache. -/
theorem contract_transfer_conserves_iff (s : BlockState) (destFrom destTo : Destination) (amount : UInt256)
    (nGasLeft : UInt64) (ctxToAddress : AddressContext) (nTransferType : UInt8)
    (done : (s.contractTransfer destFrom destTo amount nGasLeft ctxToAddress nTransferType).1 = true)
    (fits : s.balance destTo + amount.toNat < 2 ^ 256) :
    s.Conserves (s.contractTransfer destFrom destTo amount nGasLeft ctxToAddress nTransferType).2.2 destFrom destTo
        amount ↔
      (destFrom = destTo → amount = 0) ∧
        (destFrom ≠ destTo → s.Drained destFrom amount → s.lowerBalance destFrom = 0) := by
  rcases s.contractTransfer_cases destFrom destTo amount nGasLeft ctxToAddress nTransferType with
    ⟨_, refused, _⟩ | ⟨_, stateFrom, stateTo, s', read, enough, receiving, same, outcome⟩
  · rw [refused] at done
    cases done
  rw [outcome]
  dsimp only
  have received : (s'.paid destFrom destTo amount nTransferType stateFrom stateTo).balance destTo =
      s.balance destTo + amount.toNat := by
    rw [balance, getDestState_paid same, if_pos rfl]
    exact moneyOf_settled_incBalance receiving fits
  by_cases alone : destFrom = destTo
  · subst alone
    simp only [ne_eq, not_true_eq_false, false_implies, and_true, true_implies]
    constructor
    · intro conserves
      have kept := congrFun (conserves.alone rfl) destFrom
      exact BitVec.eq_of_toNat_eq (by simp; omega)
    · intro nothing
      subst nothing
      have kept : (s'.paid destFrom destFrom 0 nTransferType stateFrom stateTo).balance = s.balance := by
        funext dest
        by_cases away : dest = destFrom
        · rw [away, received]
          simp
        · exact balance_paid_other same away away
      exact ⟨by rw [kept], fun apart => absurd rfl apart, fun _ => kept⟩
  · simp only [alone, ne_eq, not_false_eq_true, true_implies, false_implies, true_and]
    rw [← balance_paid_from same read enough alone]
    constructor
    · exact fun conserves => (conserves.moved alone).1
    · intro paid
      have pays : Pays s.balance (s'.paid destFrom destTo amount nTransferType stateFrom stateTo).balance destFrom
          destTo amount.toNat :=
        ⟨fun _ => paid, fun _ => received, fun dest notFrom notTo => balance_paid_other same notFrom notTo,
          fun same => absurd same alone⟩
      exact ⟨pays.total_eq, fun _ => ⟨paid, received⟩, fun same => absurd same alone⟩

end Conservation
end BlockState

namespace Sample

def base : BlockBase where
  retrieveDestState _ := none
  retrieveContractKvValue _ _ := none
  retrieveAddressContext _ := some (.pubkey [])
  getAddressLockedAmount _ _ _ := some 0
  verifyAddressPledgeVote _ := true
  getBlockIndexHashByNumber _ := none
  verifyFhxHeightBranch001 _ := true
  verifyFhxHeightBranch002 _ := true

def blockOf (accounts : Destination → Option DestState) : BlockState where
  dbBlockBase := base
  nBlockHeight := 1
  nPrevHeight := 0
  mapCacheContractData _ := none
  mapCacheAddressContext _ := none
  mapCacheContractCreateCodeContext _ := none
  mapCacheContractRunCodeContext _ := none
  vCacheContractTransfer := []
  mapCacheOwnerDestCodeGasUsed _ := 0
  mapCacheContractDestCodeGasUsed _ := .new
  mapCacheTransientStorage _ _ := none
  mapBlockRewardLocked _ := none
  mapBlockState := accounts
  mapContractKvState _ _ := none
  mapBlockAddressContext _ := none

def holder (nBalance : UInt256) : DestState := ⟨packType destTypePubkey 0, 0, nBalance, 0, 0, false⟩

def purse : BlockState := blockOf fun dest => if dest = 1 then some (holder 10) else none

/-- Paying oneself four coins makes four coins. -/
theorem transfer_to_self_mints :
    (purse.contractTransfer 1 1 4 5000 (.pubkey []) ctContract).1 = true ∧ purse.balance 1 = 10 ∧
      (purse.contractTransfer 1 1 4 5000 (.pubkey []) ctContract).2.2.balance 1 = 14 ∧
      ¬purse.Conserves (purse.contractTransfer 1 1 4 5000 (.pubkey []) ctContract).2.2 1 1 4 := by
  have minted : (purse.contractTransfer 1 1 4 5000 (.pubkey []) ctContract).2.2.balance 1 = 14 := by decide
  refine ⟨by decide, by decide, minted, fun conserves => ?_⟩
  have kept := congrFun (conserves.alone rfl) 1
  rw [minted] at kept
  revert kept
  decide

theorem contract_transfer_conserves_iff_purse :
    purse.Conserves (purse.contractTransfer 1 2 4 5000 (.pubkey []) ctContract).2.2 1 2 4 := by
  refine (BlockState.contract_transfer_conserves_iff purse 1 2 4 5000 (.pubkey []) ctContract (by decide)
    (by decide)).mpr ⟨fun same => absurd same (by decide), fun _ drained => ?_⟩
  obtain ⟨stateFrom, read, _, all⟩ := drained
  have held : purse.getDestState 1 = some (holder 10) := by decide
  cases held.symm.trans read
  exact absurd all (by decide)

/-- Nobody has a context, and the money of address 1 is locked. -/
def hoard : BlockState :=
  { purse with
    dbBlockBase := { base with
      retrieveAddressContext := fun dest => if dest = 1 then some (.pubkey []) else none
      getAddressLockedAmount := fun _ _ _ => some 10 } }

/-- The refused transfer has made address 2 a contract. -/
theorem refused_transfer_makes_contract :
    (hoard.contractTransfer 1 2 4 5000 (.contract []) ctContract).1 = false ∧ hoard.isContractAddress 2 = false ∧
      (hoard.contractTransfer 1 2 4 5000 (.contract []) ctContract).2.2.isContractAddress 2 = true := by
  decide

theorem refused_traceless_iff_purse :
    purse.SameAnswers (purse.contractTransfer 1 2 11 5000 (.pubkey []) ctContract).2.2 :=
  (purse.refused_traceless_iff 1 2 11 5000 (.pubkey []) ctContract (by decide)).mpr (Or.inl (by decide))

end Sample
end HashAhead.State

import HashAhead.Reward.IndexTree
import HashAhead.Vote.DayVote
import HashAhead.Stake.StakeBlock
import HashAhead.Foundation.Accrual

/-! The vote rewards of a day. The rewards of its blocks are collected by height. Those of a height
are cut into the shares of the project party and of the foundation, the commission of the delegate that
minted, and parts for the votes that the delegate had at the height before. What the reward rate of a vote
leaves of its part goes to the surplus address, and what rounding leaves goes to the first of the votes. -/

namespace HashAhead.Reward
open Foundation State Chain Vote

def txStake : UInt16 := 0x04

def rewardDistributionRatioEnable : Bool := true

def rewardDistributionRatioProjectParty : UInt256 := 4200

def rewardDistributionRatioFoundation : UInt256 := 4000

def rewardDistributionPer : UInt256 := 10000

def mintRewardPer : UInt256 := 10000

def pledgeRewardPer : UInt32 := 10000

/-- What a day vote walker is called with: a height, and by delegate the votes and their total. -/
abbrev DayVoteCall := UInt32 × (Destination → Option DelegateVote)

/-- What the calculation takes from its surroundings. The mint type `TX_WORK` has no number in the source. -/
structure RewardBase extends IndexTree where
  voteRewardDistributeHeight : UInt32
  pledgeSurplusRewardAddress : Destination
  projectPartyRewardToAddress : Destination
  foundationRewardToAddress : Destination
  txWork : UInt16
  /-- `GetDelegateMintRewardRatio`, by the primary block and the delegate -/
  getDelegateMintRewardRatio : UInt256 → Destination → Option UInt32
  /-- `GetBlockHashByHeightSlot` for the genesis fork -/
  getBlockHashByHeightSlot : UInt32 → UInt16 → Option UInt256
  /-- `WalkThroughDayVote`, with the calls of the walker if it succeeds -/
  walkThroughDayVote : UInt256 → UInt256 → Option (List DayVoteCall)

/-- `CCalcBlock`: the reward of a height and who minted there. -/
structure CalcBlock where
  hashPrimaryBlock : UInt256
  destMint : Destination
  nRewardRation : UInt32
  nRewardAmount : UInt256

def heightOrder : Comparator UInt32 := .ofKey UInt32.toNat fun _ _ => UInt32.toNat_inj.1

abbrev CalcMap := SortedMap UInt32 CalcBlock heightOrder

/-- `mapVoteReward`: by vote address, the address that is rewarded and the amount. -/
abbrev RewardMap := SortedMap Destination (Destination × UInt256) destOrder

def credit (mapVoteReward : RewardMap) (key destReward : Destination) (nAmount : UInt256) : RewardMap :=
  mapVoteReward.insert key (destReward, ((mapVoteReward.find key).map Prod.snd).getD 0 + nAmount)

def creditSelf (mapVoteReward : RewardMap) (dest : Destination) (nAmount : UInt256) : RewardMap :=
  if nAmount > 0 then credit mapVoteReward dest dest nAmount else mapVoteReward

/-- `mapVoteReward`, with a note of whether more was taken from an amount than there was. -/
structure VoteReward where
  mapVoteReward : RewardMap
  underflow : Bool

section Collect

def RewardIndex.isStaked (index : RewardIndex) : Bool :=
  (index.nType.isPrimary && index.nMintType = txStake) ||
    (!index.nType.isPrimary && (index.nType = .subsidiary || index.nType = .extended))

def RewardBase.isWorked (base : RewardBase) (index : RewardIndex) : Bool :=
  index.nType.isPrimary && index.nMintType = base.txWork

variable (base : RewardBase)

def primaryIndex (index : RewardIndex) : Option RewardIndex :=
  if index.nType.isPrimary then some index else (base.retrieveIndex index.hashRefBlock).head?

def openCalcBlock (index : RewardIndex) (calcBlock : CalcBlock) : Option CalcBlock :=
  (primaryIndex base index).bind fun primary =>
    if !index.nType.isPrimary && primary.destMint ≠ index.destMint then none
    else (base.getDelegateMintRewardRatio primary.hashBlock index.destMint).map fun nRewardRation =>
      { calcBlock with hashPrimaryBlock := primary.hashBlock, destMint := index.destMint, nRewardRation }

def calcBlockOf (mapCalcBlock : CalcMap) (index : RewardIndex) : Option CalcBlock :=
  let calcBlock := (mapCalcBlock.find index.getBlockHeight).getD ⟨0, 0, 0, 0⟩
  if calcBlock.hashPrimaryBlock = 0 then openCalcBlock base index calcBlock else some calcBlock

def collectBlock (state : CalcMap × RewardMap) (index : RewardIndex) : Option (CalcMap × RewardMap) :=
  if index.isStaked then
    (calcBlockOf base state.1 index).map fun calcBlock =>
      (state.1.insert index.getBlockHeight
        { calcBlock with nRewardAmount := calcBlock.nRewardAmount + index.nBlockReward }, state.2)
  else if base.isWorked index then
    some (state.1, creditSelf state.2 base.pledgeSurplusRewardAddress index.nBlockReward)
  else some state

def beginHeight (tail : RewardIndex) : UInt32 := tail.getBlockHeight - base.voteRewardDistributeHeight + 1

/-- The blocks of the day, from the last one back. There are none if the last one has none before it. -/
def dayBlocks (tail : RewardIndex) (prevs : List RewardIndex) : List RewardIndex :=
  if prevs = [] then []
  else (tail :: prevs).takeWhile fun index => !index.nType.isOrigin && index.getBlockHeight ≥ beginHeight base tail

def dayVotes (tail : RewardIndex) (prevs : List RewardIndex) : Option (List DayVoteCall) := do
  let hashPrimaryTailBlock ← (if tail.nType.isPrimary then prevs.head?.map RewardIndex.hashBlock
    else base.getBlockHashByHeightSlot (tail.getBlockHeight - 1) 0 : Option UInt256)
  let hashPrimaryBeginBlock ← base.getBlockHashByHeightSlot (beginHeight base tail - 1) 0
  base.walkThroughDayVote hashPrimaryBeginBlock hashPrimaryTailBlock

end Collect

section Share

structure Cut where
  reward : VoteReward
  nBlockReward : UInt256

def Cut.take (cut : Cut) (mapVoteReward : RewardMap) (nAmount : UInt256) : Cut :=
  ⟨⟨mapVoteReward, cut.reward.underflow || cut.nBlockReward < nAmount⟩, cut.nBlockReward - nAmount⟩

def takeParties (base : RewardBase) (cut : Cut) : Cut :=
  if rewardDistributionRatioEnable then
    let nProjectPartyReward := cut.nBlockReward * rewardDistributionRatioProjectParty / rewardDistributionPer
    let nFoundationReward := cut.nBlockReward * rewardDistributionRatioFoundation / rewardDistributionPer
    cut.take (creditSelf (creditSelf cut.reward.mapVoteReward base.projectPartyRewardToAddress nProjectPartyReward)
      base.foundationRewardToAddress nFoundationReward) (nProjectPartyReward + nFoundationReward)
  else cut

def takeCommission (calcBlock : CalcBlock) (cut : Cut) : Cut :=
  if calcBlock.nRewardRation ≠ 0 then
    let nMintCommissionReward := cut.nBlockReward * BitVec.ofNat 256 calcBlock.nRewardRation.toNat / mintRewardPer
    cut.take (creditSelf cut.reward.mapVoteReward calcBlock.destMint nMintCommissionReward) nMintCommissionReward
  else cut

structure VoteTurn where
  reward : VoteReward
  nDistributeTotalReward : UInt256
  nDestroyTotalReward : UInt256

def rewardAddress (kv : Destination × VoteContext) : Destination :=
  if kv.2.getRewardModeFlag = VoteContext.rewardModeVote then kv.1 else kv.2.destOwner

/-- A turn of the loop over the votes. An address has an entry as soon as it has a vote. -/
def rewardVote (nBlockReward nDelegateTotalVoteAmount : UInt256) (turn : VoteTurn) (kv : Destination × VoteContext) :
    VoteTurn :=
  if kv.2.nVoteAmount > 0 then
    let nDestReward := nBlockReward * kv.2.nVoteAmount / nDelegateTotalVoteAmount
    let fPart := kv.2.nRewardRate.toUInt32 < pledgeRewardPer
    let nUserReward := if fPart then
        nDestReward * BitVec.ofNat 256 kv.2.nRewardRate.toNat / BitVec.ofNat 256 pledgeRewardPer.toNat
      else nDestReward
    { reward.mapVoteReward := credit turn.reward.mapVoteReward kv.1 (rewardAddress kv) nUserReward
      reward.underflow := turn.reward.underflow || (fPart && nDestReward < nUserReward)
      nDistributeTotalReward := turn.nDistributeTotalReward + nDestReward
      nDestroyTotalReward :=
        if fPart then turn.nDestroyTotalReward + (nDestReward - nUserReward) else turn.nDestroyTotalReward }
  else turn

/-- Gives what rounding has left to the first vote address that has an entry. If there is none, it goes
to the first entry, and to a new one for the first vote if the map is empty. -/
def giveRemainder (mapDestVote : VoteMap) (nRemainder : UInt256) (mapVoteReward : RewardMap) : RewardMap :=
  match mapDestVote.entries.findSome? fun kv => (mapVoteReward.find kv.1).map (kv.1, ·) with
  | some (dest, entry) => credit mapVoteReward dest entry.1 nRemainder
  | none =>
    match mapVoteReward.entries, mapDestVote.entries with
    | [], kv :: _ => credit mapVoteReward kv.1 (rewardAddress kv) nRemainder
    | (dest, entry) :: _, _ => credit mapVoteReward dest entry.1 nRemainder
    | [], [] => mapVoteReward

def rewardVotes (base : RewardBase) (voteDelegate : DelegateVote) (cut : Cut) : VoteReward :=
  if voteDelegate.total > 0 then
    let turn := voteDelegate.votes.entries.foldl (rewardVote cut.nBlockReward voteDelegate.total) ⟨cut.reward, 0, 0⟩
    let mapVoteReward := creditSelf turn.reward.mapVoteReward base.pledgeSurplusRewardAddress turn.nDestroyTotalReward
    -- the last subtraction stands behind the comparison of its operands
    if voteDelegate.votes.entries.length > 0 ∧ cut.nBlockReward > turn.nDistributeTotalReward then
      ⟨giveRemainder voteDelegate.votes (cut.nBlockReward - turn.nDistributeTotalReward) mapVoteReward,
        turn.reward.underflow⟩
    else ⟨mapVoteReward, turn.reward.underflow⟩
  else cut.reward

def walk (base : RewardBase) (mapCalcBlock : CalcMap) (reward : VoteReward) (call : DayVoteCall) : VoteReward :=
  match mapCalcBlock.find (call.1 + 1) with
  | none => reward
  | some calcBlock =>
    if calcBlock.nRewardAmount = 0 then reward
    else
      let cut := takeCommission calcBlock (takeParties base ⟨reward, calcBlock.nRewardAmount⟩)
      if cut.nBlockReward = 0 then cut.reward
      else match call.2 calcBlock.destMint with
        | none => cut.reward
        | some voteDelegate => rewardVotes base voteDelegate cut

end Share

def calcDistributeVoteReward (base : RewardBase) (hashCalcEndBlock : UInt256) : Option VoteReward :=
  if getBlockHeightByHash hashCalcEndBlock % base.voteRewardDistributeHeight ≠ 0 then none
  else match base.retrieveIndex hashCalcEndBlock with
    | [] => none
    | tail :: prevs => do
      let (mapCalcBlock, mapVoteReward) ← (dayBlocks base tail prevs).foldlM (collectBlock base) (.empty, .empty)
      let calls ← dayVotes base tail prevs
      some (calls.foldl (walk base mapCalcBlock) ⟨mapVoteReward, false⟩)

end HashAhead.Reward

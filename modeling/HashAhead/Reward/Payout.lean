import HashAhead.Reward.IndexTree
import HashAhead.Vote.DayVote

/-! The payment of vote rewards. The rewards of the period that ends with a block are cut into lists, and
the blocks that follow up to the next multiple of the distribution height take one list each. On the
primary fork the list follows from the height, on other forks from the number of blocks so far that are
not vacant. The lists are kept by fork and by the block that ends the period. -/

namespace HashAhead.Reward
open Foundation State Chain Vote

def maxSnapshotStateHeight : UInt32 := 10

def maxCacheDistributeVoteRewardBlockCount : Nat := 8

/-- The arguments of `CBlockChain::CalcEndVoteReward`. -/
structure CalcEndCall where
  hashPrev : UInt256
  nBlockType : BlockType
  nBlockHeight : UInt32
  nBlockTime : UInt32
  hashFork : UInt256
  hashCalcEndBlock : UInt256
  hashCalcEndMainChainRefBlock : UInt256

structure PayoutBase (Tx : Type) extends IndexTree where
  voteRewardDistributeHeight : UInt32
  calcEndVoteReward : CalcEndCall → Option (List (List Tx))

abbrev ForkRewards (Tx : Type) := SortedMap UInt256 (List (List Tx)) blockHashOrder

/-- `mapCacheDistributeVoteReward` -/
abbrev RewardCache (Tx : Type) := UInt256 → ForkRewards Tx

/-- Removes a number of entries from the front, but not that of the block. -/
def eraseOthers {V : Type} (hashCalcEndBlock : UInt256) : Nat → List (UInt256 × V) → List (UInt256 × V)
  | 0, entries => entries
  | _ + 1, [] => []
  | nCount + 1, e :: rest =>
    if e.1 ≠ hashCalcEndBlock then eraseOthers hashCalcEndBlock nCount rest
    else e :: eraseOthers hashCalcEndBlock (nCount + 1) rest

theorem eraseOthers_sublist {V : Type} (hashCalcEndBlock : UInt256) (nCount : Nat) (entries : List (UInt256 × V)) :
    (eraseOthers hashCalcEndBlock nCount entries).Sublist entries := by
  fun_induction eraseOthers with
  | case1 => exact List.Sublist.refl _
  | case2 => exact List.Sublist.refl _
  | case3 nCount e rest apart ih => exact ih.cons e
  | case4 nCount e rest same ih => exact ih.cons_cons e

section Payout
variable {Tx : Type}

def trimRewards (hashCalcEndBlock : UInt256) (rewards : ForkRewards Tx) : ForkRewards Tx where
  entries := eraseOthers hashCalcEndBlock (rewards.entries.length - maxCacheDistributeVoteRewardBlockCount) rewards.entries
  sorted := rewards.sorted.sublist (eraseOthers_sublist _ _ _)

def rewardLists (base : PayoutBase Tx) (cache : RewardCache Tx) (call : CalcEndCall) :
    Option (List (List Tx)) × RewardCache Tx :=
  let rewards := trimRewards call.hashCalcEndBlock (cache call.hashFork)
  match rewards.find call.hashCalcEndBlock with
  | some vRewardList => (some vRewardList, Function.update cache call.hashFork rewards)
  | none =>
    match base.calcEndVoteReward call with
    | none => (none, Function.update cache call.hashFork rewards)
    | some vRewardList =>
      (some vRewardList, Function.update cache call.hashFork (rewards.insert call.hashCalcEndBlock vRewardList))

variable (base : PayoutBase Tx)

def periodHeight (index : RewardIndex) : UInt32 := index.getBlockHeight % base.voteRewardDistributeHeight

/-- The previous block is not among the first of its period and has not paid anything. -/
def isPaidOut (prev : RewardIndex) : Bool :=
  periodHeight base prev > maxSnapshotStateHeight / 2 &&
    match base.retrieveIndex prev.hashPrev with
    | [] => false
    | prevPrev :: _ => prevPrev.nRewardTxCount = prev.nRewardTxCount

def txListIndex (prev : RewardIndex) (prevs : List RewardIndex) : Nat :=
  if prev.nType.isPrimary then (periodHeight base prev).toNat
  else ((prev :: prevs).takeWhile fun index => periodHeight base index > 0).countP fun index => index.nType ≠ .vacant

structure PayoutCall where
  hashPrev : UInt256
  nBlockType : BlockType
  nBlockHeight : UInt32
  nBlockTime : UInt32

def calcBlockVoteRewardTx (cache : RewardCache Tx) (call : PayoutCall) : Option (List Tx) × RewardCache Tx :=
  if getBlockHeightByHash call.hashPrev < base.voteRewardDistributeHeight ∨
      call.nBlockHeight % base.voteRewardDistributeHeight = 0 ∨ call.nBlockType.isOrigin ∨ call.nBlockType = .vacant then
    (some [], cache)
  else match base.retrieveIndex call.hashPrev with
    | [] => (none, cache)
    | prev :: prevs =>
      if isPaidOut base prev then (some [], cache)
      else match (prev :: prevs).dropWhile fun index => periodHeight base index > 0 with
        | [] => (none, cache)
        | calcEnd :: _ =>
          if calcEnd.hashOrigin ≠ prev.hashOrigin then (some [], cache)
          else
            let lists := rewardLists base cache ⟨call.hashPrev, call.nBlockType, call.nBlockHeight, call.nBlockTime,
              prev.hashOrigin, calcEnd.hashBlock, calcEnd.hashRefBlock⟩
            (lists.1.map fun vRewardList => (vRewardList[txListIndex base prev prevs]?).getD [], lists.2)

def payoutCall (prev index : RewardIndex) : PayoutCall :=
  ⟨prev.hashBlock, index.nType, index.getBlockHeight, index.nTimeStamp.toUInt32⟩

/-- The reward transactions that the blocks after another one have to carry, each asked for with its own cache. -/
def requiredTxs (cacheOf : RewardIndex → RewardCache Tx) (prev : RewardIndex) :
    List RewardIndex → Option (List (List Tx))
  | [] => some []
  | index :: rest => do
    let vVoteRewardTx ← (calcBlockVoteRewardTx base (cacheOf index) (payoutCall prev index)).1
    let others ← requiredTxs cacheOf index rest
    some (vVoteRewardTx :: others)

inductive Reached : RewardCache Tx → Prop
  | empty : Reached fun _ => .empty
  | call {cache : RewardCache Tx} (before : Reached cache) (call : PayoutCall) :
    Reached (calcBlockVoteRewardTx base cache call).2

end Payout

end HashAhead.Reward

import HashAhead.Core.Spending
import Mathlib.Algebra.Order.BigOperators.Group.List
import Mathlib.Algebra.Order.Group.Nat
import Mathlib.Algebra.Group.Action.Defs

/-! How long pledges and vote rewards stay locked. The final height of a pledge is formed in 32 bits, so it is the promised
one as long as that fits. A vote reward is locked whole on its first day and becomes free by one share a day. -/

namespace HashAhead.State.TemplatePledge
open Core Chain
variable (param : NetworkParam) (pledge : TemplatePledge) (nHeight : UInt32)

/-- `CTemplatePledge::ValidateParam`. For `CTemplate::IsTxSpendable` every address is spendable. -/
def validateParam : Bool :=
  pledge.destDelegate ≠ 0 && pledge.destOwner ≠ 0 && pledge.nPledgeType ≠ 0 && pledge.nCycles ≤ 10000

def getPledgeDays : UInt32 := ((findRule param pledge nHeight).map Prod.fst).getD 0

/-- What `CBlockBase::UpdateVote` puts into `mapAddPledgeFinalHeight` for a pledge without a vote: the final height and
the height of the pledge. -/
def addPledgeFinalHeight : Option (UInt32 × UInt32) :=
  if (getRewardRate param pledge nHeight).toUInt16 = 0 then none
  else (getPledgeFinalHeight param pledge nHeight).map fun nFinalHeight => (nFinalHeight, nHeight)

/-- The end of the pledge over the integers. -/
def promisedHeight : ℕ :=
  nHeight.toNat + (getPledgeDays param pledge nHeight).toNat * param.dayHeight.toNat * pledge.nCycles.toNat

/-- The final height is the promised one, and the one recorded for an accepted pledge lies above the height of the
pledge and above that of the same pledge for fewer cycles. -/
structure Promised : Prop where
  exact : ∀ nFinalHeight, getPledgeFinalHeight mainnet pledge nHeight = some nFinalHeight →
    nFinalHeight.toNat = promisedHeight mainnet pledge nHeight
  recorded : ∀ (base : ChainBase) (tx : Transaction) (hashFork hashPrevBlock : UInt256) (btToData : Trie.Bytes),
    base.param = mainnet → base.importTemplate btToData = some (.pledge pledge) →
      getBlockHeightByHash hashPrevBlock + 1 = nHeight → base.verifyPledgeTx tx hashFork hashPrevBlock btToData = .ok () →
        ∃ nFinalHeight, addPledgeFinalHeight mainnet pledge nHeight = some (nFinalHeight, nHeight) ∧
          nHeight < nFinalHeight ∧ ∀ nCycles, 0 < nCycles → nCycles < pledge.nCycles →
            ∃ nFewer, addPledgeFinalHeight mainnet { pledge with nCycles } nHeight = some (nFewer, nHeight) ∧
              nFewer < nFinalHeight

variable {param pledge nHeight} {rule : UInt32 × UInt32}

theorem toNat_pledgeFinalHeight (cycles : pledge.nCycles ≠ 0) {nFinalHeight : UInt32}
    (found : getPledgeFinalHeight param pledge nHeight = some nFinalHeight) :
    nFinalHeight.toNat = promisedHeight param pledge nHeight % 2 ^ 32 := by
  unfold getPledgeFinalHeight at found
  obtain ⟨rule, ruled, found⟩ := Option.map_eq_some_iff.1 found
  rw [if_neg cycles] at found
  simp [← found, promisedHeight, getPledgeDays, ruled, UInt32.toNat_add, UInt32.toNat_mul, Nat.add_mod, Nat.mul_mod]

theorem rule_mainnet (found : findRule mainnet pledge nHeight = some rule) : 0 < rule.1 ∧ rule.2.toUInt16 ≠ 0 := by
  have begun : getRule mainnet nHeight = some [(1, 365, 10000), (2, 180, 9000), (3, 90, 8000), (4, 30, 7000),
      (5, 7, 6000)] := by
    simp [getRule, mainnet]
  rw [findRule, begun, Option.bind_some, List.lookup_eq_some_iff] at found
  obtain ⟨before, after, table, -⟩ := found
  have every : ∀ entry ∈ before ++ (pledge.nPledgeType.toUInt16, rule) :: after, 0 < entry.2.1 ∧ entry.2.2.toUInt16 ≠ 0 := by
    rw [← table]
    simp
  exact every (pledge.nPledgeType.toUInt16, rule) (by simp)

/-- With a rule the final height is recorded, and it is the promised one if that is a height. -/
theorem recorded_of_rule (ruled : findRule mainnet pledge nHeight = some rule) (cycles : pledge.nCycles ≠ 0)
    (fits : promisedHeight mainnet pledge nHeight < 2 ^ 32) :
    ∃ nFinalHeight, addPledgeFinalHeight mainnet pledge nHeight = some (nFinalHeight, nHeight) ∧
      nFinalHeight.toNat = promisedHeight mainnet pledge nHeight := by
  obtain ⟨nFinalHeight, found⟩ : ∃ nFinalHeight, getPledgeFinalHeight mainnet pledge nHeight = some nFinalHeight :=
    ⟨_, congrArg (Option.map _) ruled⟩
  refine ⟨nFinalHeight, ?_, (toNat_pledgeFinalHeight cycles found).trans (Nat.mod_eq_of_lt fits)⟩
  simp [addPledgeFinalHeight, getRewardRate, ruled, (rule_mainnet ruled).2, found]

/-- A pledge is as long as promised if and only if its promised end is a height. -/
theorem promised_iff_fits (cycles : pledge.nCycles ≠ 0) :
    pledge.Promised nHeight ↔ promisedHeight mainnet pledge nHeight < 2 ^ 32 := by
  constructor
  · intro kept
    cases ruled : findRule mainnet pledge nHeight with
    | none => simpa [promisedHeight, getPledgeDays, ruled] using nHeight.toNat_lt
    | some rule =>
      rw [← kept.exact _ (by rw [getPledgeFinalHeight, ruled, Option.map_some])]
      exact UInt32.toNat_lt _
  intro fits
  refine ⟨fun _ found => (toNat_pledgeFinalHeight cycles found).trans (Nat.mod_eq_of_lt fits), ?_⟩
  intro base tx hashFork hashPrevBlock btToData network imported height accepted
  have listed : (getPledgeFinalHeight mainnet pledge nHeight).isSome := by
    simp only [ChainBase.verifyPledgeTx, then_eq_ok, imported, refuseIf_eq_ok, height, network] at accepted
    simpa using accepted.2.2.2.2.2.1
  obtain ⟨_, found⟩ := Option.isSome_iff_exists.1 listed
  obtain ⟨rule, ruled, -⟩ := Option.map_eq_some_iff.1 found
  have days : 0 < (getPledgeDays mainnet pledge nHeight).toNat * mainnet.dayHeight.toNat := by
    rw [getPledgeDays, ruled]
    exact Nat.mul_pos (rule_mainnet ruled).1 (by decide)
  obtain ⟨nFinalHeight, recorded, promised⟩ := recorded_of_rule ruled cycles fits
  refine ⟨nFinalHeight, recorded, ?_, fun nCycles more fewer => ?_⟩
  · rw [UInt32.lt_iff_toNat_lt, promised, promisedHeight]
    exact Nat.lt_add_of_pos_right (Nat.mul_pos days (UInt32.pos_iff_ne_zero.2 cycles))
  · have grows : promisedHeight mainnet { pledge with nCycles } nHeight < promisedHeight mainnet pledge nHeight :=
      Nat.add_lt_add_left (Nat.mul_lt_mul_of_pos_left fewer days) _
    obtain ⟨nFewer, less, promised'⟩ := recorded_of_rule (show findRule mainnet { pledge with nCycles } nHeight = some rule from ruled)
      (UInt32.pos_iff_ne_zero.1 more) (grows.trans fits)
    exact ⟨nFewer, less, by rwa [UInt32.lt_iff_toNat_lt, promised, promised']⟩

namespace Sample

def yearPledge (nCycles : UInt32) : TemplatePledge := ⟨0xD1, 0xA2, 1, nCycles, 0⟩

theorem promised_iff_fits_year : (yearPledge 1).Promised 100 ↔ promisedHeight mainnet (yearPledge 1) 100 < 2 ^ 32 :=
  promised_iff_fits (by decide)

/-- A pledge of 8172 years at height 1 ends at height 235905, before a pledge of one year. -/
theorem long_pledge_short : (yearPledge 8172).validateParam = true ∧
    getPledgeFinalHeight mainnet (yearPledge 8172) 1 = some 235905 ∧
    getPledgeFinalHeight mainnet (yearPledge 1) 1 = some 525601 ∧ ¬(yearPledge 8172).Promised 1 := by
  refine ⟨by decide, by decide, by decide, fun kept => ?_⟩
  have end_ := kept.exact 235905 (by decide)
  revert end_
  decide

end Sample

end HashAhead.State.TemplatePledge

namespace HashAhead.Core
open Chain State List

/-- `CVoteDB::ListVoteReward`: the walk over the rewards of an address stops after so many of them. -/
def listVoteReward (nGetCount : UInt32) (rewards : List (UInt32 × UInt256)) : List (UInt32 × UInt256) :=
  if nGetCount > 0 then rewards.take nGetCount.toNat else rewards

namespace ChainBase
variable {base : ChainBase} {hashFork hashPrevBlock : UInt256} {dest : Destination} {nHeight : UInt32}

abbrev lockDays (base : ChainBase) : ℕ := base.param.voteRewardLockDays.toNat

/-- What is locked of a reward at a height, over the integers. -/
def lockedShare (base : ChainBase) (nHeight : UInt32) (reward : UInt32 × UInt256) : ℕ :=
  reward.2.toNat * (base.lockDays - (nHeight.toNat - reward.1.toNat) / base.param.dayHeight.toNat) / base.lockDays

theorem lockedShare_le (reward : UInt32 × UInt256) : base.lockedShare nHeight reward ≤ reward.2.toNat := by
  apply Nat.div_le_of_le_mul
  rw [mul_comm]
  exact Nat.mul_le_mul_right _ (Nat.sub_le _ _)

section Vesting
variable (days : 0 < base.lockDays) (next : (getBlockHeightByHash hashPrevBlock).toNat + 1 = nHeight.toNat)
include days next

theorem toNat_rewardLocked {reward : UInt32 × UInt256} (past : reward.1 ≤ nHeight)
    (small : reward.2.toNat * base.lockDays < 2 ^ 256) :
    (base.rewardLocked (getBlockHeightByHash hashPrevBlock) reward).toNat = base.lockedShare nHeight reward := by
  have height : getBlockHeightByHash hashPrevBlock + 1 = nHeight := by
    apply UInt32.toNat_inj.1
    rw [UInt32.toNat_add, ← next]
    exact Nat.mod_eq_of_lt (next ▸ nHeight.toNat_lt)
  have elapsed : ((nHeight - reward.1) / base.param.dayHeight).toNat =
      (nHeight.toNat - reward.1.toNat) / base.param.dayHeight.toNat := by
    rw [UInt32.toNat_div, UInt32.toNat_sub_of_le _ _ past]
  have few : base.lockDays < 2 ^ 256 := base.param.voteRewardLockDays.toNat_lt.trans (by decide)
  unfold rewardLocked lockedShare
  simp only [height, ← elapsed]
  split_ifs with first locked
  · rw [first, UInt32.toNat_zero, Nat.sub_zero, Nat.mul_div_cancel _ days]
  · have product := (Nat.mul_le_mul_left reward.2.toNat (Nat.sub_le base.lockDays
      ((nHeight - reward.1) / base.param.dayHeight).toNat)).trans_lt small
    rw [BitVec.toNat_udiv, BitVec.toNat_mul, BitVec.toNat_ofNat, BitVec.toNat_ofNat,
      UInt32.toNat_sub_of_le _ _ (UInt32.le_of_lt locked), Nat.mod_eq_of_lt few,
      Nat.mod_eq_of_lt ((Nat.sub_le _ _).trans_lt few), Nat.mod_eq_of_lt product]
  · rw [UInt32.lt_iff_toNat_lt, not_lt] at locked
    rw [Nat.sub_eq_zero_of_le locked, Nat.mul_zero, Nat.zero_div]
    rfl

theorem getVoteRewardLockedAmount_eq_sum {rewards : List (UInt32 × UInt256)} (few : rewards.length ≤ base.lockDays)
    (listed : base.listVoteReward hashFork hashPrevBlock dest = some rewards)
    (past : ∀ reward ∈ rewards, reward.1 ≤ nHeight)
    (small : ∀ reward ∈ rewards, reward.2.toNat * base.lockDays < 2 ^ 256) :
    ∃ nLockedAmount, base.getVoteRewardLockedAmount hashFork hashPrevBlock dest = some nLockedAmount ∧
      nLockedAmount.toNat = (rewards.map (base.lockedShare nHeight)).sum := by
  have shares : rewards.map (fun reward => (base.rewardLocked (getBlockHeightByHash hashPrevBlock) reward).toNat) =
      rewards.map (base.lockedShare nHeight) :=
    map_congr_left fun reward mem => toNat_rewardLocked days next (past reward mem) (small reward mem)
  have bound : (rewards.map (base.lockedShare nHeight)).sum ≤ rewards.length * ((2 ^ 256 - 1) / base.lockDays) := by
    rw [← length_map (base.lockedShare nHeight), ← smul_eq_mul]
    apply sum_le_card_nsmul
    intro share shared
    obtain ⟨reward, mem, rfl⟩ := mem_map.1 shared
    exact (lockedShare_le reward).trans ((Nat.le_div_iff_mul_le days).2 (Nat.le_sub_one_of_lt (small reward mem)))
  have total : (rewards.map (base.lockedShare nHeight)).sum < 2 ^ 256 := by
    have whole := bound.trans ((Nat.mul_le_mul_right _ few).trans (Nat.mul_div_le (2 ^ 256 - 1) _))
    omega
  rw [getVoteRewardLockedAmount, listed]
  refine ⟨_, rfl, ?_⟩
  rw [toNat_foldl_add _ _ _ (by rw [shares]; exact (Nat.zero_add _).trans_lt total), shares]
  exact Nat.zero_add _

end Vesting

/-- The locked amount is the sum over the rewards and at most that of their amounts, and never grows. A reward is locked
whole for a day and not at all after the lock days. -/
theorem voteReward_vests (day : 0 < base.param.dayHeight.toNat) (days : 0 < base.lockDays)
    (next : (getBlockHeightByHash hashPrevBlock).toNat + 1 = nHeight.toNat) {stored rewards : List (UInt32 × UInt256)}
    (taken : rewards = Core.listVoteReward base.param.voteRewardLockDays stored)
    (listed : base.listVoteReward hashFork hashPrevBlock dest = some rewards)
    (past : ∀ reward ∈ rewards, reward.1 ≤ nHeight)
    (small : ∀ reward ∈ rewards, reward.2.toNat * base.lockDays < 2 ^ 256) :
    ∃ nLockedAmount, base.getVoteRewardLockedAmount hashFork hashPrevBlock dest = some nLockedAmount ∧
      nLockedAmount.toNat = (rewards.map fun reward =>
        (base.rewardLocked (getBlockHeightByHash hashPrevBlock) reward).toNat).sum ∧
      nLockedAmount.toNat ≤ (rewards.map fun reward => reward.2.toNat).sum ∧
      (∀ reward ∈ rewards, nHeight.toNat < reward.1.toNat + base.param.dayHeight.toNat →
        base.rewardLocked (getBlockHeightByHash hashPrevBlock) reward = reward.2) ∧
      (∀ reward ∈ rewards, reward.1.toNat + base.lockDays * base.param.dayHeight.toNat ≤ nHeight.toNat →
        base.rewardLocked (getBlockHeightByHash hashPrevBlock) reward = 0) ∧
      ∀ hashLater nLater, (getBlockHeightByHash hashLater).toNat + 1 = nLater.toNat → nHeight ≤ nLater →
        base.listVoteReward hashFork hashLater dest = some rewards →
          ∃ nLess, base.getVoteRewardLockedAmount hashFork hashLater dest = some nLess ∧ nLess ≤ nLockedAmount := by
  have few : rewards.length ≤ base.lockDays := by
    rw [taken, Core.listVoteReward, if_pos (show base.param.voteRewardLockDays > 0 from days)]
    exact length_take_le _ _
  obtain ⟨nLockedAmount, locked, sum⟩ := getVoteRewardLockedAmount_eq_sum days next few listed past small
  have share := fun reward (mem : reward ∈ rewards) => toNat_rewardLocked days next (past reward mem) (small reward mem)
  refine ⟨nLockedAmount, locked, ?_, ?_, ?_, ?_, ?_⟩
  · rw [sum, map_congr_left share]
  · rw [sum]
    exact sum_le_sum fun reward _ => lockedShare_le reward
  · intro reward mem first
    have within : nHeight.toNat - reward.1.toNat < base.param.dayHeight.toNat := by omega
    apply BitVec.toNat_inj.1
    rw [share reward mem, lockedShare, Nat.div_eq_of_lt within, Nat.sub_zero, Nat.mul_div_cancel _ days]
  · intro reward mem old
    have elapsed : base.lockDays ≤ (nHeight.toNat - reward.1.toNat) / base.param.dayHeight.toNat := by
      rw [Nat.le_div_iff_mul_le day]
      omega
    apply BitVec.toNat_inj.1
    rw [share reward mem, lockedShare, Nat.sub_eq_zero_of_le elapsed, Nat.mul_zero, Nat.zero_div]
    rfl
  · intro hashLater nLater later grows listed'
    obtain ⟨nLess, less, sum'⟩ := getVoteRewardLockedAmount_eq_sum days later few listed'
      (fun reward mem => UInt32.le_trans (past reward mem) grows) small
    refine ⟨nLess, less, ?_⟩
    rw [BitVec.le_def, sum, sum']
    apply sum_le_sum
    intro reward _
    unfold lockedShare
    gcongr
    exact grows

end ChainBase

namespace Sample

def rewardBase : ChainBase := { chainBase with listVoteReward := fun _ _ _ => some [(2, 300), (1, 500)] }

/-- Two rewards of the first day are locked whole. -/
theorem voteReward_vests_first : ∃ nLockedAmount, rewardBase.getVoteRewardLockedAmount 1 (createBlockHash 1 9 0 5) 7 =
    some nLockedAmount ∧ nLockedAmount.toNat ≤ 800 := by
  have small : ∀ reward ∈ [((2 : UInt32), (300 : UInt256)), (1, 500)], reward.1 ≤ 10 ∧
      reward.2.toNat * rewardBase.lockDays < 2 ^ 256 := by
    simp only [forall_mem_cons]
    exact ⟨by decide, by decide, nofun⟩
  obtain ⟨nLockedAmount, locked, _, le, _⟩ := @ChainBase.voteReward_vests rewardBase 1 (createBlockHash 1 9 0 5) 7 10
    (by decide) (by decide) (by decide) [(2, 300), (1, 500)] _ rfl rfl (fun reward mem => (small reward mem).1)
    fun reward mem => (small reward mem).2
  exact ⟨nLockedAmount, locked, le⟩

end Sample

end HashAhead.Core

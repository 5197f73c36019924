import HashAhead.Reward.Distribute
import HashAhead.Vote.DayTally

/-! The distribution keeps the money together: no more is given than the blocks of the day have
earned, and all of it is given if the delegates that minted have votes. -/

namespace HashAhead.Reward
open Foundation State Chain Vote List Option SortedMap

def paidTotal (mapVoteReward : RewardMap) : Nat := mapVoteReward.sumOf fun entry => entry.2.toNat

abbrev Gives (before after : RewardMap) (amount : Nat) : Prop :=
  Accrues (2 ^ 256) (paidTotal before) (paidTotal after) amount

section Credit
variable (rewards : RewardMap)

theorem credit_gives (key destReward : Destination) (nAmount : UInt256) :
    Gives rewards (credit rewards key destReward nAmount) nAmount.toNat := by
  apply rewards.insert_accrues
  rw [BitVec.toNat_add]
  congr 2
  unfold weightAt
  cases rewards.find key <;> rfl

theorem creditSelf_gives (dest : Destination) (nAmount : UInt256) :
    Gives rewards (creditSelf rewards dest nAmount) nAmount.toNat := by
  unfold creditSelf
  split_ifs with some
  · exact credit_gives rewards dest dest nAmount
  · have zero : nAmount.toNat = 0 := Nat.eq_zero_of_not_pos some
    rw [zero]
    exact Accrues.refl

theorem giveRemainder_gives (nRemainder : UInt256) {mapDestVote : VoteMap} (votes : mapDestVote.entries ≠ []) :
    Gives rewards (giveRemainder mapDestVote nRemainder rewards) nRemainder.toNat := by
  unfold giveRemainder
  split
  next => exact credit_gives rewards _ _ nRemainder
  next =>
    split
    next => exact credit_gives rewards _ _ nRemainder
    next => exact credit_gives rewards _ _ nRemainder
    next none => exact absurd none votes

end Credit

section Cuts

/-- What a cut is less by has been given, and no more was taken than there was. -/
def Spends (before after : Cut) : Prop :=
  ∃ spent, Gives before.reward.mapVoteReward after.reward.mapVoteReward spent ∧
    after.nBlockReward.toNat + spent = before.nBlockReward.toNat ∧ after.reward.underflow = before.reward.underflow

theorem Spends.refl (cut : Cut) : Spends cut cut := ⟨0, Accrues.refl, rfl, rfl⟩

theorem Spends.trans {a b c : Cut} (first : Spends a b) (second : Spends b c) : Spends a c := by
  obtain ⟨spent, gives, rest, same⟩ := first
  obtain ⟨spent', gives', rest', same'⟩ := second
  exact ⟨spent + spent', gives.trans gives', by omega, same'.trans same⟩

theorem take_spends {cut : Cut} {rewards : RewardMap} {nAmount : UInt256} (fits : nAmount ≤ cut.nBlockReward)
    (gives : Gives cut.reward.mapVoteReward rewards nAmount.toNat) : Spends cut (cut.take rewards nAmount) := by
  have enough : ¬cut.nBlockReward < nAmount := BitVec.not_lt.2 fits
  refine ⟨nAmount.toNat, gives, ?_, by simp [Cut.take, enough]⟩
  show (cut.nBlockReward - nAmount).toNat + nAmount.toNat = cut.nBlockReward.toNat
  rw [BitVec.toNat_sub_of_le fits]
  exact Nat.sub_add_cancel fits

theorem share_le (nReward nRatio nPer : UInt256) :
    (nReward * nRatio / nPer).toNat ≤ nReward.toNat * nRatio.toNat / nPer.toNat := by
  rw [BitVec.toNat_udiv, BitVec.toNat_mul]
  exact Nat.div_le_div_right (Nat.mod_le _ _)

theorem share_le_self (nReward nPer : UInt256) {n : Nat} (ratio : n ≤ nPer.toNat) :
    (nReward * BitVec.ofNat 256 n / nPer).toNat ≤ nReward.toNat := by
  apply (share_le _ _ _).trans
  apply Nat.div_le_of_le_mul
  rw [Nat.mul_comm]
  exact Nat.mul_le_mul_right _ ((Nat.mod_le _ _).trans ratio)

theorem takeParties_spends (base : RewardBase) (cut : Cut) : Spends cut (takeParties base cut) := by
  unfold takeParties
  rw [if_pos (show rewardDistributionRatioEnable = true from rfl)]
  dsimp only
  have project := share_le cut.nBlockReward rewardDistributionRatioProjectParty rewardDistributionPer
  have foundation := share_le cut.nBlockReward rewardDistributionRatioFoundation rewardDistributionPer
  rw [show rewardDistributionRatioProjectParty.toNat = 4200 from rfl] at project
  rw [show rewardDistributionRatioFoundation.toNat = 4000 from rfl] at foundation
  rw [show rewardDistributionPer.toNat = 10000 from rfl] at project foundation
  generalize cut.nBlockReward * rewardDistributionRatioProjectParty / rewardDistributionPer = nProjectPartyReward
    at project
  generalize cut.nBlockReward * rewardDistributionRatioFoundation / rewardDistributionPer = nFoundationReward
    at foundation
  have small := cut.nBlockReward.isLt
  have sum : (nProjectPartyReward + nFoundationReward).toNat = nProjectPartyReward.toNat + nFoundationReward.toNat :=
    BitVec.toNat_add_of_lt (by omega)
  apply take_spends
  · rw [BitVec.le_def, sum]
    omega
  · rw [sum]
    exact (creditSelf_gives _ _ _).trans (creditSelf_gives _ _ _)

theorem takeCommission_spends {block : CalcBlock} (ratio : block.nRewardRation.toNat ≤ mintRewardPer.toNat)
    (cut : Cut) : Spends cut (takeCommission block cut) := by
  unfold takeCommission
  split_ifs with some
  · exact take_spends (share_le_self cut.nBlockReward _ ratio) (creditSelf_gives _ _ _)
  · exact Spends.refl cut

end Cuts

section Votes
variable {reward nTotal : UInt256} {start : VoteReward}

def votePart (nBlockReward nTotal : UInt256) (kv : Destination × VoteContext) : Nat :=
  (nBlockReward * kv.2.nVoteAmount / nTotal).toNat

def voteSum (votes : List (Destination × VoteContext)) : Nat := (votes.map fun kv => kv.2.nVoteAmount.toNat).sum

theorem sum_votePart_le (reward nTotal : UInt256) (votes : List (Destination × VoteContext)) :
    (votes.map (votePart reward nTotal)).sum ≤ reward.toNat * voteSum votes / nTotal.toNat := by
  induction votes with
  | nil => exact Nat.zero_le _
  | cons kv rest ih =>
    have first : votePart reward nTotal kv ≤ reward.toNat * kv.2.nVoteAmount.toNat / nTotal.toNat :=
      share_le _ _ _
    calc (votePart reward nTotal kv :: rest.map (votePart reward nTotal)).sum
        ≤ reward.toNat * kv.2.nVoteAmount.toNat / nTotal.toNat + reward.toNat * voteSum rest / nTotal.toNat :=
          Nat.add_le_add first ih
      _ ≤ (reward.toNat * kv.2.nVoteAmount.toNat + reward.toNat * voteSum rest) / nTotal.toNat :=
          Nat.div_add_div_le_add_div
      _ = reward.toNat * voteSum (kv :: rest) / nTotal.toNat := by
          rw [← Nat.mul_add]
          rfl

/-- Some parts have been given, to the votes and to the amount that is to be destroyed. -/
def Spread (start : VoteReward) (turn : VoteTurn) (parts : Nat) : Prop :=
  turn.nDistributeTotalReward.toNat = parts ∧ turn.reward.underflow = start.underflow ∧
    ∃ given, Gives start.mapVoteReward turn.reward.mapVoteReward given ∧ given + turn.nDestroyTotalReward.toNat = parts

theorem rewardVote_spread {turn : VoteTurn} {parts : Nat} (spread : Spread start turn parts)
    (kv : Destination × VoteContext) (fits : parts + votePart reward nTotal kv < 2 ^ 256) :
    Spread start (rewardVote reward nTotal turn kv) (parts + votePart reward nTotal kv) := by
  obtain ⟨distributed, same, given, gives, sum⟩ := spread
  unfold rewardVote
  split_ifs with vote
  · dsimp only
    unfold votePart at fits ⊢
    generalize reward * kv.2.nVoteAmount / nTotal = nDestReward at fits ⊢
    have total : (turn.nDistributeTotalReward + nDestReward).toNat = parts + nDestReward.toNat := by
      rw [BitVec.toNat_add_of_lt (by omega), distributed]
    by_cases part : kv.2.nRewardRate.toUInt32 < pledgeRewardPer
    · simp only [part, if_true, decide_true, Bool.true_and]
      have rate : kv.2.nRewardRate.toNat < 10000 := part
      have least := share_le_self nDestReward (BitVec.ofNat 256 pledgeRewardPer.toNat) rate.le
      generalize nDestReward * BitVec.ofNat 256 kv.2.nRewardRate.toNat / BitVec.ofNat 256 pledgeRewardPer.toNat =
        nUserReward at least ⊢
      have enough : ¬nDestReward < nUserReward := BitVec.not_lt.2 least
      have cut : (nDestReward - nUserReward).toNat = nDestReward.toNat - nUserReward.toNat :=
        BitVec.toNat_sub_of_le least
      have destroyed : (turn.nDestroyTotalReward + (nDestReward - nUserReward)).toNat =
          turn.nDestroyTotalReward.toNat + (nDestReward.toNat - nUserReward.toNat) := by
        rw [BitVec.toNat_add_of_lt (by omega), cut]
      refine ⟨total, by simp [enough, same], given + nUserReward.toNat, gives.trans (credit_gives _ _ _ _), ?_⟩
      rw [destroyed]
      omega
    · simp only [part, if_false, decide_false, Bool.false_and, Bool.or_false]
      refine ⟨total, same, given + nDestReward.toNat, gives.trans (credit_gives _ _ _ _), ?_⟩
      show given + nDestReward.toNat + turn.nDestroyTotalReward.toNat = parts + nDestReward.toNat
      omega
  · have zero : kv.2.nVoteAmount = 0#256 := BitVec.eq_of_toNat_eq (Nat.eq_zero_of_not_pos vote)
    have nothing : votePart reward nTotal kv = 0 := by
      rw [votePart, zero, BitVec.mul_zero, BitVec.zero_udiv]
      rfl
    rw [nothing, Nat.add_zero]
    exact ⟨distributed, same, given, gives, sum⟩

theorem rewardVotes_spread (start : VoteReward) {votes : List (Destination × VoteContext)}
    (fits : (votes.map (votePart reward nTotal)).sum < 2 ^ 256) :
    Spread start (votes.foldl (rewardVote reward nTotal) ⟨start, 0, 0⟩)
      (votes.map (votePart reward nTotal)).sum := by
  induction votes using List.reverseRecOn with
  | nil => exact ⟨rfl, rfl, 0, Accrues.refl, rfl⟩
  | append_singleton votes kv ih =>
    rw [map_append, sum_append_nat, map_singleton, sum_singleton] at fits ⊢
    rw [foldl_append]
    exact rewardVote_spread (ih (by omega)) kv fits

theorem rewardVotes_gives (base : RewardBase) {vote : DelegateVote} (cut : Cut)
    (tallied : vote.total.toNat = voteSum vote.votes.entries) (voted : 0 < vote.total.toNat) :
    Gives cut.reward.mapVoteReward (rewardVotes base vote cut).mapVoteReward cut.nBlockReward.toNat ∧
      (rewardVotes base vote cut).underflow = cut.reward.underflow := by
  have whole : (vote.votes.entries.map (votePart cut.nBlockReward vote.total)).sum ≤
      cut.nBlockReward.toNat := by
    apply (sum_votePart_le _ _ _).trans
    rw [← tallied, Nat.mul_div_cancel _ voted]
  have some : vote.votes.entries ≠ [] := by
    intro none
    rw [tallied, none] at voted
    exact absurd voted (Nat.lt_irrefl 0)
  have spread := rewardVotes_spread cut.reward
    (whole.trans_lt cut.nBlockReward.isLt)
  unfold rewardVotes
  rw [if_pos (show vote.total > 0 from voted)]
  dsimp only
  generalize vote.votes.entries.foldl (rewardVote cut.nBlockReward vote.total) ⟨cut.reward, 0, 0⟩ = turn
    at spread ⊢
  obtain ⟨distributed, same, given, gives, sum⟩ := spread
  have paid := gives.trans (creditSelf_gives turn.reward.mapVoteReward base.pledgeSurplusRewardAddress
    turn.nDestroyTotalReward)
  rw [sum, ← distributed] at paid
  rw [← distributed] at whole
  split_ifs with rest
  · refine ⟨?_, same⟩
    have last := paid.trans (giveRemainder_gives _ (cut.nBlockReward - turn.nDistributeTotalReward) some)
    rw [BitVec.toNat_sub_of_le whole, Nat.add_sub_cancel' whole] at last
    exact last
  · refine ⟨?_, same⟩
    have all : cut.nBlockReward.toNat = turn.nDistributeTotalReward.toNat := by
      apply Nat.le_antisymm _ whole
      apply Nat.le_of_not_lt
      intro more
      exact rest ⟨length_pos_of_ne_nil some, more⟩
    rw [all]
    exact paid

end Votes

section Walk
variable {blocks : CalcMap} {call : DayVoteCall}

def Tallied (call : DayVoteCall) : Prop :=
  ∀ {delegate voteDelegate}, call.2 delegate = some voteDelegate →
    voteDelegate.total.toNat = voteSum voteDelegate.votes.entries

def Voted (call : DayVoteCall) (delegate : Destination) : Prop :=
  ∃ voteDelegate, call.2 delegate = some voteDelegate ∧ 0 < voteDelegate.total.toNat

def Rated (mapCalcBlock : CalcMap) : Prop :=
  ∀ {nHeight calcBlock}, mapCalcBlock.find nHeight = some calcBlock → calcBlock.nRewardRation.toNat ≤ mintRewardPer.toNat

def collected (mapCalcBlock : CalcMap) (nHeight : UInt32) : Nat :=
  mapCalcBlock.weightAt (fun calcBlock => calcBlock.nRewardAmount.toNat) nHeight

def GivesUpTo (before after : VoteReward) (amount : Nat) (all : Prop) : Prop :=
  after.underflow = before.underflow ∧
    ∃ given ≤ amount, Gives before.mapVoteReward after.mapVoteReward given ∧ (all → given = amount)

theorem walk_gives (base : RewardBase) (rated : Rated blocks) (tallied : Tallied call) (reward : VoteReward) :
    GivesUpTo reward (walk base blocks reward call) (collected blocks (call.1 + 1))
      (∀ block, blocks.find (call.1 + 1) = some block → Voted call block.destMint) := by
  unfold walk collected weightAt
  cases found : blocks.find (call.1 + 1) with
  | none => exact ⟨rfl, 0, le_rfl, Accrues.refl, fun _ => rfl⟩
  | some block =>
    rw [map_some, getD_some]
    dsimp only
    by_cases nothing : block.nRewardAmount = 0
    · rw [if_pos nothing, nothing]
      exact ⟨rfl, 0, le_rfl, Accrues.refl, fun _ => rfl⟩
    · rw [if_neg nothing]
      have spends := (takeParties_spends base ⟨reward, block.nRewardAmount⟩).trans
        (takeCommission_spends (rated found) _)
      generalize takeCommission block (takeParties base ⟨reward, block.nRewardAmount⟩) = cut at spends ⊢
      obtain ⟨spent, gives, rest, same⟩ := spends
      change cut.nBlockReward.toNat + spent = block.nRewardAmount.toNat at rest
      by_cases empty : cut.nBlockReward = 0
      · rw [if_pos empty]
        rw [empty, show (0 : UInt256).toNat = 0 from rfl, Nat.zero_add] at rest
        exact ⟨same, spent, rest.le, gives, fun _ => rest⟩
      · rw [if_neg empty]
        cases votes : call.2 block.destMint with
        | none =>
          refine ⟨same, spent, by omega, gives, fun voted => ?_⟩
          obtain ⟨voteDelegate, here, _⟩ := voted block rfl
          rw [votes] at here
          cases here
        | some voteDelegate =>
          dsimp only
          by_cases positive : 0 < voteDelegate.total.toNat
          · obtain ⟨gives', same'⟩ := rewardVotes_gives base cut (tallied votes) positive
            exact ⟨same'.trans same, spent + cut.nBlockReward.toNat, by omega, gives.trans gives', fun _ => by omega⟩
          · rw [rewardVotes, if_neg (show ¬voteDelegate.total > 0 from positive)]
            refine ⟨same, spent, by omega, gives, fun voted => ?_⟩
            obtain ⟨voteDelegate', here, positive'⟩ := voted block rfl
            rw [votes] at here
            cases here
            exact absurd positive' positive

theorem walks_give (base : RewardBase) (rated : Rated blocks) {calls : List DayVoteCall} (tallied : ∀ call ∈ calls, Tallied call)
    (reward : VoteReward) :
    GivesUpTo reward (calls.foldl (walk base blocks) reward)
      (calls.map fun call => collected blocks (call.1 + 1)).sum
      (∀ call ∈ calls, ∀ block, blocks.find (call.1 + 1) = some block → Voted call block.destMint) := by
  induction calls generalizing reward with
  | nil => exact ⟨rfl, 0, le_rfl, Accrues.refl, fun _ => rfl⟩
  | cons call rest ih =>
    obtain ⟨same, given, bound, gives, all⟩ := walk_gives base rated (tallied call mem_cons_self) reward
    obtain ⟨same', given', bound', gives', all'⟩ := ih (fun call mem => tallied call (mem_cons_of_mem _ mem))
      (walk base blocks reward call)
    refine ⟨same'.trans same, given + given', Nat.add_le_add bound bound', gives.trans gives', fun voted => ?_⟩
    rw [all (voted call mem_cons_self), all' fun call mem => voted call (mem_cons_of_mem _ mem)]
    rfl

end Walk

section Collect
variable {base : RewardBase} {blocks : List RewardIndex} {state state' : CalcMap × RewardMap} {index : RewardIndex}

def countedReward (base : RewardBase) (index : RewardIndex) : Nat :=
  if index.isStaked || base.isWorked index then index.nBlockReward.toNat else 0

def calcTotal (mapCalcBlock : CalcMap) : Nat := mapCalcBlock.sumOf fun calcBlock => calcBlock.nRewardAmount.toNat

def RatioBounded (base : RewardBase) : Prop :=
  ∀ {hash delegate nRewardRation}, base.getDelegateMintRewardRatio hash delegate = some nRewardRation →
    nRewardRation.toNat ≤ mintRewardPer.toNat

def Minted (blocks : List RewardIndex) (mapCalcBlock : CalcMap) : Prop :=
  ∀ {nHeight calcBlock}, mapCalcBlock.find nHeight = some calcBlock →
    ∃ index ∈ blocks, index.isStaked ∧ index.getBlockHeight = nHeight ∧ index.destMint = calcBlock.destMint

theorem collectBlock_staked (staked : index.isStaked) (done : collectBlock base state index = some state') :
    ∃ block, block.nRewardAmount.toNat = collected state.1 index.getBlockHeight ∧
      state' = (state.1.insert index.getBlockHeight
        { block with nRewardAmount := block.nRewardAmount + index.nBlockReward }, state.2) ∧
      (state.1.find index.getBlockHeight = some block ∨ block.destMint = index.destMint ∧
        ∃ hash, base.getDelegateMintRewardRatio hash index.destMint = some block.nRewardRation) := by
  rw [collectBlock, if_pos staked] at done
  obtain ⟨block, chosen, rfl⟩ := map_eq_some_iff.1 done
  refine ⟨block, ?_⟩
  have amount : (((state.1.find index.getBlockHeight).getD ⟨0, 0, 0, 0⟩).nRewardAmount).toNat =
      collected state.1 index.getBlockHeight := by
    unfold collected weightAt
    cases state.1.find index.getBlockHeight <;> rfl
  unfold calcBlockOf at chosen
  dsimp only at chosen
  split_ifs at chosen with fresh
  · obtain ⟨primary, _, chosen⟩ := bind_eq_some_iff.1 chosen
    split_ifs at chosen
    obtain ⟨nRewardRation, ratio, rfl⟩ := map_eq_some_iff.1 chosen
    exact ⟨amount, rfl, Or.inr ⟨rfl, primary.hashBlock, ratio⟩⟩
  · cases chosen
    refine ⟨amount, rfl, Or.inl ?_⟩
    cases found : state.1.find index.getBlockHeight with
    | none =>
      rw [found] at fresh
      exact absurd rfl fresh
    | some block => rfl

theorem collectBlock_other (other : ¬index.isStaked) (done : collectBlock base state index = some state') :
    state'.1 = state.1 ∧ Gives state.2 state'.2 (countedReward base index) := by
  rw [collectBlock, if_neg other] at done
  unfold countedReward
  rw [Bool.eq_false_of_not_eq_true other, Bool.false_or]
  split_ifs at done ⊢ with worked
  · cases done
    exact ⟨rfl, creditSelf_gives _ _ _⟩
  · cases done
    exact ⟨rfl, Accrues.refl⟩

theorem collectBlock_accrues (done : collectBlock base state index = some state') :
    Accrues (2 ^ 256) (calcTotal state.1 + paidTotal state.2) (calcTotal state'.1 + paidTotal state'.2)
      (countedReward base index) := by
  by_cases staked : index.isStaked
  · obtain ⟨block, amount, rfl, _⟩ := collectBlock_staked staked done
    rw [countedReward, staked, Bool.true_or, if_pos rfl]
    apply Accrues.add_right
    apply state.1.insert_accrues
    rw [BitVec.toNat_add, amount]
    rfl
  · obtain ⟨same, gives⟩ := collectBlock_other staked done
    rw [same]
    exact gives.add_left

theorem collectBlock_kept (bounded : RatioBounded base) (rated : Rated state.1) (minted : Minted blocks state.1)
    (done : collectBlock base state index = some state') :
    Rated state'.1 ∧ Minted (blocks ++ [index]) state'.1 := by
  have before : Minted (blocks ++ [index]) state.1 := by
    intro nHeight calcBlock found
    obtain ⟨block, mem, rest⟩ := minted found
    exact ⟨block, mem_append_left _ mem, rest⟩
  by_cases staked : index.isStaked
  · obtain ⟨chosen, _, rfl, origin⟩ := collectBlock_staked staked done
    constructor
    · intro nHeight calcBlock found
      rw [find_insert] at found
      split_ifs at found with here
      · cases found
        rcases origin with old | ⟨_, hash, ratio⟩
        · show chosen.nRewardRation.toNat ≤ _
          exact rated old
        · exact bounded ratio
      · exact rated found
    · intro nHeight calcBlock found
      rw [find_insert] at found
      split_ifs at found with here
      · cases found
        rcases origin with old | ⟨minter, _⟩
        · rw [here]
          show ∃ block ∈ blocks ++ [index], _ ∧ _ ∧ block.destMint = chosen.destMint
          exact before old
        · exact ⟨index, by simp, staked, here.symm, minter.symm⟩
      · exact before found
  · rw [(collectBlock_other staked done).1]
    exact ⟨rated, before⟩

theorem collectBlocks_spec (bounded : RatioBounded base) (blocks : List RewardIndex)
    (done : blocks.foldlM (collectBlock base) (.empty, .empty) = some state) :
    Accrues (2 ^ 256) 0 (calcTotal state.1 + paidTotal state.2) (blocks.map (countedReward base)).sum ∧
      Rated state.1 ∧ Minted blocks state.1 := by
  induction blocks using List.reverseRecOn generalizing state with
  | nil =>
    cases Option.some.inj done
    exact ⟨Accrues.refl, nofun, nofun⟩
  | append_singleton blocks index ih =>
    rw [foldlM_append] at done
    obtain ⟨middle, front, last⟩ := bind_eq_some_iff.1 done
    simp only [foldlM_cons, foldlM_nil, bind_pure] at last
    obtain ⟨accrues, rated, minted⟩ := ih front
    rw [map_append, sum_append_nat, map_singleton, sum_singleton]
    exact ⟨accrues.trans (collectBlock_accrues last), collectBlock_kept bounded rated minted last⟩

end Collect

section Day
variable {base : RewardBase} {hashCalcEndBlock : UInt256} {tail : RewardIndex} {prevs : List RewardIndex}

/-- The walker is called exactly once for every height of the day, by the height before it. -/
def OncePerHeight (base : RewardBase) (tail : RewardIndex) (calls : List DayVoteCall) : Prop :=
  ∀ nHeight, beginHeight base tail ≤ nHeight → nHeight ≤ tail.getBlockHeight →
    (calls.map fun call => call.1 + 1).count nHeight = 1

def dayReward (base : RewardBase) (tail : RewardIndex) (prevs : List RewardIndex) : Nat :=
  ((dayBlocks base tail prevs).map (countedReward base)).sum

/-- Every delegate that minted a block of the day has a positive total at the height before. -/
def MintersVoted (base : RewardBase) (tail : RewardIndex) (prevs : List RewardIndex) (calls : List DayVoteCall) : Prop :=
  ∀ call ∈ calls, ∀ index ∈ dayBlocks base tail prevs, index.isStaked → index.getBlockHeight = call.1 + 1 →
    Voted call index.destMint

theorem deliveries_once (day : DayVote) {begins tail nHeight : UInt32} (ordered : begins ≤ tail)
    (room : tail.toNat + 1 < 2 ^ 32) (low : begins.toNat < nHeight.toNat)
    (high : nHeight.toNat ≤ tail.toNat + 1) :
    ((day.deliveries begins tail).map fun call => call.1 + 1).count nHeight = 1 := by
  rw [UInt32.le_iff_toNat_le] at ordered
  have firsts : (day.deliveries begins tail).map Prod.fst =
      (List.range' begins.toNat (tail.toNat - begins.toNat + 1)).map UInt32.ofNat := by
    rw [DayVote.deliveries, map_cons, map_fst_later, laterHeights, range'_succ, map_cons,
      UInt32.ofNat_toNat]
  have heights : (day.deliveries begins tail).map (fun call => call.1 + 1) =
      (List.range' begins.toNat (tail.toNat - begins.toNat + 1)).map fun n => UInt32.ofNat n + 1 :=
    calc (day.deliveries begins tail).map (fun call => call.1 + 1)
      _ = ((day.deliveries begins tail).map Prod.fst).map (· + 1) := by
        rw [List.map_map]
        rfl
      _ = _ := by
        rw [firsts, List.map_map]
        rfl
  have next : ∀ n, n ≤ tail.toNat → (UInt32.ofNat n + 1).toNat = n + 1 := by
    intro n small
    rw [UInt32.toNat_add, UInt32.toNat_ofNat_of_lt' (by unfold UInt32.size; omega)]
    exact Nat.mod_eq_of_lt (by rw [show UInt32.toNat 1 = 1 from rfl]; omega)
  rw [heights]
  apply count_eq_one_of_mem
  · apply List.Nodup.map_on _ nodup_range'
    intro a memberA b memberB same
    rw [mem_range'_1] at memberA memberB
    have equal := congrArg UInt32.toNat same
    rw [next a (by omega), next b (by omega)] at equal
    exact Nat.succ.inj equal
  · refine List.mem_map.2 ⟨nHeight.toNat - 1, ?_, ?_⟩
    · rw [mem_range'_1]
      omega
    · apply UInt32.toNat_inj.1
      rw [next _ (by omega)]
      omega

theorem height_of_dayBlock (found : base.retrieveIndex hashCalcEndBlock = tail :: prevs) {index : RewardIndex}
    (mem : index ∈ dayBlocks base tail prevs) :
    beginHeight base tail ≤ index.getBlockHeight ∧ index.getBlockHeight ≤ tail.getBlockHeight := by
  unfold dayBlocks at mem
  split_ifs at mem with alone
  · cases mem
  · constructor
    · have inside := mem_takeWhile_imp mem
      simp only [Bool.and_eq_true, decide_eq_true_eq] at inside
      exact inside.2
    · have falling := base.falling hashCalcEndBlock
      rw [found] at falling
      rcases mem_cons.1 ((takeWhile_sublist _).subset mem) with rfl | before
      · exact UInt32.le_refl _
      · exact (pairwise_cons.1 falling).1 index before

/-- No more is given than the blocks of the day have earned, and all of it if the delegates that
minted have votes. -/
theorem rewards_conserved (bounded : RatioBounded base) {calls : List DayVoteCall}
    (found : base.retrieveIndex hashCalcEndBlock = tail :: prevs) (walked : dayVotes base tail prevs = some calls)
    (once : OncePerHeight base tail calls) (tallied : ∀ call ∈ calls, Tallied call) {reward : VoteReward}
    (done : calcDistributeVoteReward base hashCalcEndBlock = some reward) :
    paidTotal reward.mapVoteReward ≤ dayReward base tail prevs ∧
      (MintersVoted base tail prevs calls → dayReward base tail prevs < 2 ^ 256 →
        paidTotal reward.mapVoteReward = dayReward base tail prevs) ∧
      reward.underflow = false := by
  unfold calcDistributeVoteReward at done
  split_ifs at done
  rw [found] at done
  obtain ⟨⟨mapCalcBlock, mapVoteReward⟩, collect, done⟩ := bind_eq_some_iff.1 done
  obtain ⟨calls', walked', done⟩ := bind_eq_some_iff.1 done
  rw [walked] at walked'
  cases walked'
  cases done
  obtain ⟨accrues, rated, minted⟩ := collectBlocks_spec bounded _ collect
  obtain ⟨same, given, bound, gives, all⟩ := walks_give base rated tallied ⟨mapVoteReward, false⟩
  have sum : (calls.map fun call => collected mapCalcBlock (call.1 + 1)).sum = calcTotal mapCalcBlock := by
    rw [calcTotal, ← SortedMap.sum_weightAt mapCalcBlock _, List.map_map]
    · rfl
    · intro entry member
      obtain ⟨index, inside, _, height, _⟩ := minted ((mapCalcBlock.find_eq_some_iff entry.1 entry.2).2 member)
      obtain ⟨low, high⟩ := height_of_dayBlock found inside
      rw [← height]
      exact once _ low high
  rw [sum] at bound all
  have collectLe := accrues.le
  have collectEq := accrues.eq
  have giveLe := gives.le
  have giveEq := gives.eq
  refine ⟨?_, fun voted small => ?_, same⟩
  · unfold dayReward
    dsimp only at collectLe giveLe ⊢
    omega
  · have whole := all fun call member calcBlock here => by
      obtain ⟨index, inside, staked, height, minter⟩ := minted here
      rw [← minter]
      exact voted call member index inside staked height
    unfold dayReward at small ⊢
    dsimp only at collectEq giveEq ⊢
    omega

end Day

namespace Sample

def primaryHash (nHeight : UInt32) : UInt256 := createBlockHash 1 nHeight 0 0

/-- A primary block minted by the delegate `0xD`, for 1001. -/
def primaryBlock (nHeight : UInt32) : RewardIndex :=
  ⟨primaryHash nHeight, primaryHash (nHeight - 1), primaryHash 0, 0, .primary, txStake, 0xD, 0, 1001, 0⟩

def genesisBlock : RewardIndex := ⟨primaryHash 0, 0, primaryHash 0, 0, .genesis, 1, 0, 0, 0, 0⟩

theorem primaryChain_linked : Linked [primaryBlock 2, primaryBlock 1, genesisBlock] where
  steps := by decide
  distinct := by decide
  first := by decide
  falling := by decide

def firstVotes : VoteMap :=
  (SortedMap.empty.insert 0xA1 ⟨0xD, 0, 0, 3, 10000, 0⟩).insert 0xA2 ⟨0xD, 0xA3, 1, 4, 6000, 0⟩

def voteDay : DayVote := ⟨fun delegate => if delegate = 0xD then some firstVotes else none, fun _ => none⟩

def rewardBase : RewardBase where
  toIndexTree := primaryChain_linked.tree
  voteRewardDistributeHeight := 2
  pledgeSurplusRewardAddress := 0xB1
  projectPartyRewardToAddress := 0xB2
  foundationRewardToAddress := 0xB3
  txWork := 7
  getDelegateMintRewardRatio _ _ := some 500
  getBlockHashByHeightSlot nHeight _ := some (primaryHash nHeight)
  walkThroughDayVote _ _ := some ((voteDay.deliveries 0 1).map fun call => (call.1, call.2.full))

def rewardCalls : List DayVoteCall := (voteDay.deliveries 0 1).map fun call => (call.1, call.2.full)

theorem rewardCalls_once : OncePerHeight rewardBase (primaryBlock 2) rewardCalls := by
  intro nHeight low high
  have first : beginHeight rewardBase (primaryBlock 2) = 1 := by decide
  have last : (primaryBlock 2).getBlockHeight = 2 := by decide
  rw [first, UInt32.le_iff_toNat_le] at low
  rw [last, UInt32.le_iff_toNat_le] at high
  rw [rewardCalls, List.map_map]
  exact deliveries_once voteDay (by decide) (by decide) low high

theorem rewardCalls_first : ∀ call ∈ rewardCalls, call.2 = (Tally.first voteDay.mapFirstFullVote).full := by
  simp [rewardCalls, DayVote.deliveries, laterHeights, Tally.later, voteDay, empty]

theorem rewardCalls_tallied : ∀ call ∈ rewardCalls, Tallied call := by
  intro call mem delegate voteDelegate found
  rw [rewardCalls_first call mem] at found
  obtain ⟨votes, known, rfl⟩ := map_eq_some_iff.1 found
  simp only [voteDay, ite_none_right_eq_some, Option.some.injEq] at known
  rw [← known.2]
  decide

theorem rewardCalls_voted :
    MintersVoted rewardBase (primaryBlock 2) [primaryBlock 1, genesisBlock] rewardCalls := by
  intro call mem index inside _ _
  have minter : ∀ index ∈ dayBlocks rewardBase (primaryBlock 2) [primaryBlock 1, genesisBlock], index.destMint = 0xD := by
    decide
  rw [minter index inside, Voted, rewardCalls_first call mem]
  exact ⟨_, rfl, by decide⟩

/-- All of what two blocks have earned is given. -/
theorem rewards_conserved_twoBlocks : ∃ reward, calcDistributeVoteReward rewardBase (primaryHash 2) = some reward ∧
    paidTotal reward.mapVoteReward = 2002 ∧ reward.underflow = false := by
  have succeeds : (calcDistributeVoteReward rewardBase (primaryHash 2)).isSome := by decide
  obtain ⟨reward, done⟩ := isSome_iff_exists.1 succeeds
  have earned : dayReward rewardBase (primaryBlock 2) [primaryBlock 1, genesisBlock] = 2002 := by decide
  have bounded : RatioBounded rewardBase := by
    intro hash delegate nRewardRation ratio
    cases ratio
    decide
  have found : rewardBase.retrieveIndex (primaryHash 2) = [primaryBlock 2, primaryBlock 1, genesisBlock] := by decide
  obtain ⟨_, all, sound⟩ := rewards_conserved bounded found rfl rewardCalls_once rewardCalls_tallied done
  refine ⟨reward, done, ?_, sound⟩
  rw [all rewardCalls_voted (by rw [earned]; decide), earned]

end Sample

end HashAhead.Reward

import HashAhead.Block.Header
import HashAhead.Vote.DayVote

/-! The numbers in front of a block hash, and the order of block hashes by them. -/

namespace HashAhead.Block
open State Chain

/-- `CustomBlockHashCompare` -/
def customBlockHashCompare (a b : UInt256) : Bool :=
  if getBlockHeightByHash a < getBlockHeightByHash b then true
  else if getBlockHeightByHash a = getBlockHeightByHash b then
    if getBlockSlotByHash a < getBlockSlotByHash b then true
    else if getBlockSlotByHash a = getBlockSlotByHash b then
      if getBlockChainIdByHash a < getBlockChainIdByHash b then true
      else getBlockChainIdByHash a = getBlockChainIdByHash b ∧ a < b
    else false
  else false

theorem customBlockHashCompare_iff (a b : UInt256) : customBlockHashCompare a b = true ↔
    Vote.blockHashKey a < Vote.blockHashKey b := by
  simp only [Vote.blockHashKey, Prod.Lex.toLex_lt_toLex, ← UInt32.lt_iff_toNat_lt, ← UInt16.lt_iff_toNat_lt,
    UInt32.toNat_inj, UInt16.toNat_inj, ← BitVec.lt_def]
  unfold customBlockHashCompare
  split_ifs with height sameHeight slot sameSlot chainId
  all_goals simp_all

/-- A block hash gives back the numbers that it was made of. The comparison of block hashes is a strict total order, and
height and slot decide it where they differ. -/
theorem block_hash_round_trip_and_order :
    (∀ (nChainId : ChainId) (nHeight : UInt32) (nSlot : UInt16) (n : UInt256),
      getBlockChainIdByHash (createBlockHash nChainId nHeight nSlot n) = nChainId ∧
      getBlockHeightByHash (createBlockHash nChainId nHeight nSlot n) = nHeight ∧
      getBlockSlotByHash (createBlockHash nChainId nHeight nSlot n) = nSlot) ∧
    (∀ a, customBlockHashCompare a a = false) ∧
    (∀ a b c, customBlockHashCompare a b = true → customBlockHashCompare b c = true → customBlockHashCompare a c = true) ∧
    (∀ a b, a ≠ b → customBlockHashCompare a b = true ∨ customBlockHashCompare b a = true) ∧
    ∀ a b, (getBlockHeightByHash a, getBlockSlotByHash a) ≠ (getBlockHeightByHash b, getBlockSlotByHash b) →
      (customBlockHashCompare a b = true ↔ getBlockHeightByHash a < getBlockHeightByHash b ∨
        getBlockHeightByHash a = getBlockHeightByHash b ∧ getBlockSlotByHash a < getBlockSlotByHash b) := by
  refine ⟨fun nChainId nHeight nSlot n => ⟨by simp, by simp, by simp⟩, fun a => ?_, fun a b c => ?_, fun a b => ?_,
    fun a b differ => ?_⟩
  · rw [← Bool.not_eq_true, customBlockHashCompare_iff]
    exact lt_irrefl _
  · simp only [customBlockHashCompare_iff]
    exact lt_trans
  · simp only [customBlockHashCompare_iff]
    intro other
    exact lt_or_gt_of_ne (Vote.blockHashKey_injective.ne other)
  · rw [Ne, Prod.mk.injEq] at differ
    unfold customBlockHashCompare
    split_ifs with height sameHeight slot sameSlot chainId
    all_goals simp_all

end HashAhead.Block

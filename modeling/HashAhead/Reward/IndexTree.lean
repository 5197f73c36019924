import HashAhead.Chain.BlockHash
import Mathlib.Data.List.TakeWhile
import Mathlib.Data.List.Chain

/-! The indexes of blocks as rewards are calculated from them, each with those before it. -/

namespace HashAhead.Reward
open State Chain List

/-- `CBlockIndex`, as far as rewards are concerned. The count of reward transactions, which runs along
the chain, is a natural number in place of a 64-bit word. -/
structure RewardIndex where
  hashBlock : UInt256
  hashPrev : UInt256
  hashOrigin : UInt256
  hashRefBlock : UInt256
  nType : BlockType
  nMintType : UInt16
  destMint : Destination
  nTimeStamp : UInt64
  nBlockReward : UInt256
  nRewardTxCount : Nat
deriving DecidableEq

def RewardIndex.getBlockHeight (index : RewardIndex) : UInt32 := getBlockHeightByHash index.hashBlock

/-- The indexed blocks. An index comes with those before it, nearest first, and null is the empty
list. A previous block is not higher. -/
structure IndexTree where
  retrieveIndex : UInt256 → List RewardIndex
  hash_eq : ∀ {hash index rest}, retrieveIndex hash = index :: rest → index.hashBlock = hash
  linked : ∀ {hash index rest}, retrieveIndex hash = index :: rest → retrieveIndex index.hashPrev = rest
  falling : ∀ hash, (retrieveIndex hash).Pairwise fun index prev => prev.getBlockHeight ≤ index.getBlockHeight

theorem IndexTree.retrieve_of_before (tree : IndexTree) {front rest : List RewardIndex} {index : RewardIndex} :
    ∀ {hash}, tree.retrieveIndex hash = front ++ index :: rest → tree.retrieveIndex index.hashBlock = index :: rest := by
  induction front with
  | nil =>
    intro hash found
    rw [tree.hash_eq found]
    exact found
  | cons last front ih => exact fun found => ih (tree.linked found)

/-- The blocks of a chain, from the last one back. The first block of the chain has none before it. -/
structure Linked (chain : List RewardIndex) : Prop where
  steps : chain.IsChain fun index prev => index.hashPrev = prev.hashBlock
  distinct : (chain.map RewardIndex.hashBlock).Nodup
  first : ∀ index ∈ chain.getLast?, index.hashPrev ∉ chain.map RewardIndex.hashBlock
  falling : chain.Pairwise fun index prev => prev.getBlockHeight ≤ index.getBlockHeight

section Chain
variable {chain : List RewardIndex}

def indexOf (chain : List RewardIndex) (hash : UInt256) : List RewardIndex :=
  chain.dropWhile fun index => index.hashBlock ≠ hash

theorem indexOf_of_not_mem {hash : UInt256} (absent : hash ∉ chain.map RewardIndex.hashBlock) :
    indexOf chain hash = [] := by
  apply dropWhile_eq_nil_iff.2
  intro index mem
  have apart : index.hashBlock ≠ hash := fun same => absent (same ▸ List.mem_map_of_mem mem)
  simpa using apart

theorem split_of_indexOf {hash : UInt256} {index : RewardIndex} {rest : List RewardIndex}
    (found : indexOf chain hash = index :: rest) : index.hashBlock = hash ∧ ∃ front, chain = front ++ index :: rest := by
  constructor
  · have stop := List.head?_dropWhile_not (fun index => decide (RewardIndex.hashBlock index ≠ hash)) chain
    rw [show chain.dropWhile (fun index => decide (RewardIndex.hashBlock index ≠ hash)) = index :: rest from found] at stop
    simpa using stop
  · refine ⟨chain.takeWhile fun index => index.hashBlock ≠ hash, ?_⟩
    rw [← found]
    exact takeWhile_append_dropWhile.symm

def Linked.tree (linked : Linked chain) : IndexTree where
  retrieveIndex := indexOf chain
  hash_eq found := (split_of_indexOf found).1
  linked {hash index rest} found := by
    obtain ⟨_, front, rfl⟩ := split_of_indexOf found
    cases rest with
    | nil => exact indexOf_of_not_mem (linked.first index (by simp))
    | cons prev rest =>
      have step : index.hashPrev = prev.hashBlock :=
        (isChain_cons_cons.1 (isChain_append.1 linked.steps).2.1).1
      have distinct := linked.distinct
      rw [append_cons, map_append, nodup_append] at distinct
      rw [step, append_cons, indexOf, dropWhile_append_of_pos]
      · simp
      · intro other mem
        simpa using distinct.2.2 _ (List.mem_map_of_mem mem) _ (by simp)
  falling hash := linked.falling.sublist (dropWhile_sublist _)

end Chain

end HashAhead.Reward

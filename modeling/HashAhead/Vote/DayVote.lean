import HashAhead.Vote.VoteDb
import HashAhead.Foundation.Exhaust
import Mathlib.Data.Prod.Lex

/-! The votes of a day. They are counted from the votes that stand at the first block and the votes
that the later blocks record, and what is read for the counting is kept by the last block of the
day. A reading that fails leaves behind what it has got so far, and the next count takes it. -/

namespace HashAhead.Vote
open Foundation State Chain

abbrev VoteMap := SortedMap Destination VoteContext destOrder

/-- The amount that an address has in the votes, nothing if it is not there. -/
def VoteMap.amount (votes : VoteMap) (dest : Destination) : UInt256 :=
  ((votes.find dest).map VoteContext.nVoteAmount).getD 0

/-- `CustomBlockHashCompare`: by height, slot, chain id and hash. -/
def blockHashKey (hash : UInt256) : ℕ ×ₗ ℕ ×ₗ ℕ ×ₗ ℕ :=
  toLex ((getBlockHeightByHash hash).toNat, toLex ((getBlockSlotByHash hash).toNat,
    toLex ((getBlockChainIdByHash hash).toNat, hash.toNat)))

theorem blockHashKey_injective : Function.Injective blockHashKey := by
  intro a b same
  simp only [blockHashKey, EmbeddingLike.apply_eq_iff_eq, Prod.mk.injEq] at same
  exact BitVec.eq_of_toNat_eq same.2.2.2

def blockHashOrder : Comparator UInt256 := .ofKey blockHashKey blockHashKey_injective

/-- `CCacheCalcVoteRewardContext` -/
structure DayVote where
  mapFirstFullVote : Destination → Option VoteMap
  mapIncVote : UInt32 → Option VoteMap

structure VoteDb where
  roots : TrieRoots
  mapCacheCalcVote : SortedMap UInt256 DayVote blockHashOrder

def putVote {Key : Type} [DecidableEq Key] (key : Key) (destVote : Destination) (ctxtVote : VoteContext)
    (votes : Key → Option VoteMap) : Key → Option VoteMap :=
  Function.update votes key (some (((votes key).getD .empty).insert destVote ctxtVote))

/-- `CListAllVoteTrieDBWalker::Walk` over the entries of a walk. -/
def listAllVote (mapDelegateVote : Destination → Option VoteMap) :
    List (VoteKey × VoteValue) → Destination → Option VoteMap
  | [] => mapDelegateVote
  | (.address destVote, .vote ctxtVote) :: rest =>
    listAllVote (if ctxtVote.nVoteAmount > 0 then putVote ctxtVote.destDelegate destVote ctxtVote mapDelegateVote
      else mapDelegateVote) rest
  | _ :: rest => listAllVote mapDelegateVote rest

/-- `CListMoreIncVoteTrieDBWalker::Walk` over the entries of a walk, with whether it has ended the walk. -/
def listMoreIncVote (nEndHeight : UInt32) (mapIncVote : UInt32 → Option VoteMap) :
    List (VoteKey × VoteValue) → (UInt32 → Option VoteMap) × Bool
  | [] => (mapIncVote, false)
  | (.heightAddress nBlockHeight destVote, .vote ctxtVote) :: rest =>
    if nBlockHeight ≥ nEndHeight then
      listMoreIncVote nEndHeight (putVote nBlockHeight destVote ctxtVote mapIncVote) rest
    else (mapIncVote, true)
  | _ :: rest => listMoreIncVote nEndHeight mapIncVote rest

/-- `CVoteDB::RetrieveAllDelegateVote`: what has been read, and whether the call succeeds. -/
def retrieveAllDelegateVote (trie : VoteTrie) (roots : TrieRoots) (hashBlock : UInt256) :
    (Destination → Option VoteMap) × Bool :=
  if hashBlock = 0 then (fun _ => none, true)
  else match roots.readTrieRoot hashBlock with
    | none => (fun _ => none, false)
    | some hashTrieRoot =>
      let walk := trie.walkThroughTrie hashTrieRoot .address false
      (listAllVote (fun _ => none) walk.1, walk.2)

/-- `CVoteDB::GetMoreIncVote`: what has been read, and whether the call succeeds. -/
def getMoreIncVote (trie : VoteTrie) (roots : TrieRoots) (hashBeginBlock hashTailBlock : UInt256) :
    (UInt32 → Option VoteMap) × Bool :=
  if hashBeginBlock = 0 ∨ hashTailBlock = 0 then (fun _ => none, false)
  else match roots.readTrieRoot hashTailBlock with
    | none => (fun _ => none, false)
    | some hashTrieRoot =>
      let walk := trie.walkThroughTrie hashTrieRoot .heightAddress true
      let listed := listMoreIncVote (getBlockHeightByHash hashBeginBlock + 1) (fun _ => none) walk.1
      (listed.1, listed.2 || walk.2)

def voteUserVoteCacheSize : Nat := 8

/-- `CVoteDB::GetCalcDayVote`. The entry of the tail block is made first and filled as the reading goes. -/
def getCalcDayVote (trie : VoteTrie) (db : VoteDb) (hashBeginBlock hashTailBlock : UInt256) : Bool × VoteDb :=
  let cache := db.mapCacheCalcVote.drop (db.mapCacheCalcVote.entries.length + 1 - voteUserVoteCacheSize)
  let first := retrieveAllDelegateVote trie db.roots hashBeginBlock
  if !first.2 then (false, { db with mapCacheCalcVote := cache.insert hashTailBlock ⟨first.1, fun _ => none⟩ })
  else
    let more := getMoreIncVote trie db.roots hashBeginBlock hashTailBlock
    (more.2, { db with mapCacheCalcVote := cache.insert hashTailBlock ⟨first.1, more.1⟩ })

structure DelegateVote where
  votes : VoteMap
  total : UInt256

/-- `mapFullVote`, with a note of whether a total was less than what was taken off it. -/
structure Tally where
  full : Destination → Option DelegateVote
  underflow : Bool

namespace Tally

def first (mapFirstFullVote : Destination → Option VoteMap) : Tally where
  full delegate := (mapFirstFullVote delegate).map fun votes =>
    ⟨votes, votes.entries.foldl (fun total kv => total + kv.2.nVoteAmount) 0⟩
  underflow := false

/-- A vote is counted in the place of the one that the address had for the delegate. -/
def addVote (tally : Tally) (kv : Destination × VoteContext) : Tally :=
  let voteDelegate := (tally.full kv.2.destDelegate).getD ⟨.empty, 0⟩
  let nOldAmount := VoteMap.amount voteDelegate.votes kv.1
  let nNewAmount := kv.2.nVoteAmount
  let total := if nOldAmount ≤ nNewAmount then voteDelegate.total + (nNewAmount - nOldAmount)
    else voteDelegate.total - (nOldAmount - nNewAmount)
  { full := Function.update tally.full kv.2.destDelegate (some ⟨voteDelegate.votes.insert kv.1 kv.2, total⟩)
    underflow := tally.underflow || (nNewAmount < nOldAmount && voteDelegate.total < nOldAmount - nNewAmount) }

def later (mapIncVote : UInt32 → Option VoteMap) : Tally → List UInt32 → List (UInt32 × Tally)
  | _, [] => []
  | tally, nHeight :: rest =>
    let tally := ((mapIncVote nHeight).getD .empty).entries.foldl addVote tally
    (nHeight, tally) :: later mapIncVote tally rest

end Tally

/-- The heights after the first one up to the last, which is below the largest 32-bit number. -/
def laterHeights (nBeginHeight nTailHeight : UInt32) : List UInt32 :=
  (List.range' (nBeginHeight.toNat + 1) (nTailHeight.toNat - nBeginHeight.toNat)).map UInt32.ofNat

def DayVote.deliveries (day : DayVote) (nBeginHeight nTailHeight : UInt32) : List (UInt32 × Tally) :=
  (nBeginHeight, Tally.first day.mapFirstFullVote) ::
    Tally.later day.mapIncVote (Tally.first day.mapFirstFullVote) (laterHeights nBeginHeight nTailHeight)

/-- `CVoteDB::WalkThroughDayVote`, with the calls of the walker if it succeeds. -/
def walkThroughDayVote (trie : VoteTrie) (nDayHeight : UInt32) (db : VoteDb) (hashBeginBlock hashTailBlock : UInt256) :
    Option (List (UInt32 × Tally)) × VoteDb :=
  let nBeginHeight := getBlockHeightByHash hashBeginBlock
  let nTailHeight := getBlockHeightByHash hashTailBlock
  if nBeginHeight + nDayHeight - 1 ≠ nTailHeight then (none, db)
  else match db.mapCacheCalcVote.find hashTailBlock with
    | some day => (some (day.deliveries nBeginHeight nTailHeight), db)
    | none =>
      let result := getCalcDayVote trie db hashBeginBlock hashTailBlock
      if !result.1 then (none, result.2)
      else ((result.2.mapCacheCalcVote.find hashTailBlock).map (·.deliveries nBeginHeight nTailHeight), result.2)

inductive VoteCall where
  | add (block : BlockVote)
  | walk (hashBeginBlock hashTailBlock : UInt256)

namespace VoteDb

def start : VoteDb := ⟨fun _ => none, .empty⟩

def step (trie : VoteTrie) (nDayHeight : UInt32) (db : VoteDb) : VoteCall → VoteDb
  | .add block => ((db.roots.addBlockVote trie block).map fun added => { db with roots := added.2 }).getD db
  | .walk hashBeginBlock hashTailBlock => (walkThroughDayVote trie nDayHeight db hashBeginBlock hashTailBlock).2

def run (trie : VoteTrie) (nDayHeight : UInt32) (calls : List VoteCall) : VoteDb :=
  calls.foldl (step trie nDayHeight) start

end VoteDb

end HashAhead.Vote

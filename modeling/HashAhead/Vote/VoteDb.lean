import HashAhead.Chain.BlockHash

/-! The database of user votes. Each block of the primary chain has a trie, made from the one of
the previous block and the votes and pledges of the block. A trie can be verified by a link record
to the root before it, and the link is written only into the trie of a first block that has nothing
else to record. -/

namespace HashAhead.Vote
open Trie State Chain List Option Function

structure VoteContext where
  destDelegate : Destination
  destOwner : Destination
  nVoteFlag : UInt8
  nVoteAmount : UInt256
  nRewardRate : UInt16
  nFinalHeight : UInt32
deriving DecidableEq

def VoteContext.getStopReVoteFlag (ctxVote : VoteContext) : Bool := ctxVote.nVoteFlag &&& 0x08 > 0

def VoteContext.rewardModeVote : UInt8 := 0

def VoteContext.getRewardModeFlag (ctxVote : VoteContext) : UInt8 := ctxVote.nVoteFlag &&& 0x03

/-- The keys of a user vote trie, `DB_VOTE_ROOT_TYPE_USER_VOTE` with `DB_VOTE_KEY_ID_PREVROOT` and the
`DB_VOTE_KEY_TYPE_USER_VOTE` types. A height stands in them with its most significant byte first. -/
inductive VoteKey where
  | prevRoot
  | address (dest : Destination)
  | heightAddress (nHeight : UInt32) (dest : Destination)
  | finalHeightAddress (nFinalHeight : UInt32) (dest : Destination)
  | pledgeVote (dest : Destination)
deriving DecidableEq

inductive VoteValue where
  | link (hashPrevRoot hashBlock : UInt256)
  | vote (ctxtVote : VoteContext)
  | pledgeHeight (nPledgeHeight : UInt32)
  | pledge (ctxPledgeVote : Bytes)
deriving DecidableEq

inductive VotePrefix where
  | address
  | heightAddress
deriving DecidableEq

/-- What `CVoteDB` calls of `CTrieDB`. -/
structure VoteTrie where
  /-- `AddNewTrie`: the new root of the entries over a previous root -/
  addNewTrie : UInt256 → List (VoteKey × VoteValue) → Option UInt256
  retrieve : UInt256 → VoteKey → Option VoteValue
  checkTrieNode : UInt256 → Bool
  /-- `WalkThroughTrie`: the entries under a prefix, in reverse order if asked, and whether the walk
  came to its end -/
  walkThroughTrie : UInt256 → VotePrefix → Bool → List (VoteKey × VoteValue) × Bool

/-- The arguments of `CVoteDB::AddBlockVote`. A pledge vote is there as it is written. -/
structure BlockVote where
  hashPrev : UInt256
  hashBlock : UInt256
  mapBlockVote : List (Destination × VoteContext)
  mapAddPledgeFinalHeight : List (Destination × UInt32 × UInt32)
  mapRemovePledgeFinalHeight : List (Destination × UInt32)
  mapPledgeVote : List (Destination × Bytes)

namespace BlockVote

def nHeight (block : BlockVote) : UInt32 := getBlockHeightByHash block.hashBlock

/-- The votes of a block, under the keys of their addresses and under those of its height. -/
def voteEntries (nHeight : UInt32) (votes : List (Destination × VoteContext)) : List (VoteKey × VoteValue) :=
  votes.flatMap fun kv => [(.address kv.1, .vote kv.2), (.heightAddress nHeight kv.1, .vote kv.2)]

/-- The entries that the block puts into `mapKv`. `insert` keeps the first one of a key. -/
def entries (block : BlockVote) : List (VoteKey × VoteValue) :=
  voteEntries block.nHeight block.mapBlockVote
    ++ block.mapAddPledgeFinalHeight.map (fun kv => (.finalHeightAddress kv.2.1 kv.1, .pledgeHeight kv.2.2))
    ++ block.mapRemovePledgeFinalHeight.map (fun kv => (.finalHeightAddress kv.2 kv.1, .pledgeHeight 0))
    ++ block.mapPledgeVote.map (fun kv => (.pledgeVote kv.1, .pledge kv.2))

def IsEmpty (block : BlockVote) : Prop :=
  block.mapBlockVote = [] ∧ block.mapAddPledgeFinalHeight = [] ∧ block.mapRemovePledgeFinalHeight = [] ∧
    block.mapPledgeVote = []

theorem entries_eq_nil {block : BlockVote} : block.entries = [] ↔ block.IsEmpty := by
  cases votes : block.mapBlockVote with
  | nil => simp [entries, voteEntries, IsEmpty, votes]
  | cons first rest => simp [entries, voteEntries, IsEmpty, votes]

theorem lookup_prevRoot_entries (block : BlockVote) : block.entries.lookup .prevRoot = none := by
  rw [lookup_eq_none_iff]
  intro kv member
  simp only [entries, voteEntries, mem_append, mem_flatMap, List.mem_map, mem_cons, not_mem_nil,
    or_false] at member
  rcases member with ((⟨_, _, rfl | rfl⟩ | ⟨_, _, rfl⟩) | ⟨_, _, rfl⟩) | ⟨_, _, rfl⟩ <;> rfl

/-- `mapKv` as it goes to the trie: the link is added only to an empty map over the empty root. -/
def mapKv (block : BlockVote) (hashPrevRoot : UInt256) : List (VoteKey × VoteValue) :=
  if hashPrevRoot = 0 ∧ block.entries = [] then [(.prevRoot, .link hashPrevRoot block.hashBlock)]
  else block.entries

end BlockVote

/-- The roots of the tries by block, as `ReadTrieRoot` and `WriteTrieRoot` keep them. -/
abbrev TrieRoots := UInt256 → Option UInt256

namespace TrieRoots

def readTrieRoot (roots : TrieRoots) (hashBlock : UInt256) : Option UInt256 :=
  if hashBlock = 0 then some 0 else roots hashBlock

def prevTrieRoot (roots : TrieRoots) (hashPrev : UInt256) : Option UInt256 :=
  if hashPrev ≠ 0 then roots.readTrieRoot hashPrev else some 0

/-- `CVoteDB::AddBlockVote`, with the root that it returns. -/
def addBlockVote (trie : VoteTrie) (roots : TrieRoots) (block : BlockVote) : Option (UInt256 × TrieRoots) := do
  let hashPrevRoot ← roots.prevTrieRoot block.hashPrev
  let hashVoteRoot ← trie.addNewTrie hashPrevRoot (block.mapKv hashPrevRoot)
  some (hashVoteRoot, Function.update roots block.hashBlock (some hashVoteRoot))

def getPrevRoot (trie : VoteTrie) (hashRoot : UInt256) : Option (UInt256 × UInt256) :=
  match trie.retrieve hashRoot .prevRoot with
  | some (.link hashPrevRoot hashBlock) => some (hashPrevRoot, hashBlock)
  | _ => none

/-- `CVoteDB::VerifyVote`, with the root that it finds. -/
def verifyVote (trie : VoteTrie) (roots : TrieRoots) (hashPrevBlock hashBlock : UInt256) (fVerifyAllNode : Bool) :
    Option UInt256 :=
  (roots.readTrieRoot hashBlock).bind fun hashRoot =>
    if fVerifyAllNode && !trie.checkTrieNode hashRoot then none
    else (roots.prevTrieRoot hashPrevBlock).bind fun hashPrevRoot =>
      (getPrevRoot trie hashRoot).bind fun (hashRootPrevDb, hashBlockLocalDb) =>
        if hashRootPrevDb ≠ hashPrevRoot ∨ hashBlockLocalDb ≠ hashBlock then none else some hashRoot

def addBlocks (trie : VoteTrie) : TrieRoots → List BlockVote → Option (List UInt256 × TrieRoots)
  | roots, [] => some ([], roots)
  | roots, block :: rest => do
    let (hashVoteRoot, roots) ← roots.addBlockVote trie block
    let (later, roots) ← addBlocks trie roots rest
    some (hashVoteRoot :: later, roots)

end TrieRoots

def IsChain : UInt256 → List BlockVote → Prop
  | _, [] => True
  | hashPrev, block :: rest => block.hashPrev = hashPrev ∧ block.hashBlock ≠ 0 ∧ IsChain block.hashBlock rest

theorem IsChain.zero_not_mem : ∀ {hashPrev : UInt256} {blocks : List BlockVote}, IsChain hashPrev blocks →
    0 ∉ blocks.map BlockVote.hashBlock
  | _, [], _ => not_mem_nil
  | _, block :: rest, ⟨_, present, later⟩ => by
    rw [map_cons, mem_cons, not_or]
    exact ⟨present.symm, later.zero_not_mem⟩

structure VoteTrie.Honest (trie : VoteTrie) : Prop where
  empty : ∀ key, trie.retrieve 0 key = none
  written : ∀ hashPrevRoot mapKv hashRoot key value, trie.addNewTrie hashPrevRoot mapKv = some hashRoot →
    trie.retrieve hashRoot key = some value →
      mapKv.lookup key = some value ∨ trie.retrieve hashPrevRoot key = some value
  nonzero : ∀ hashPrevRoot mapKv hashRoot, trie.addNewTrie hashPrevRoot mapKv = some hashRoot →
    hashPrevRoot ≠ 0 ∨ mapKv ≠ [] → hashRoot ≠ 0
  first : ∀ key value hashRoot, trie.addNewTrie 0 [(key, value)] = some hashRoot →
    trie.retrieve hashRoot key = some value ∧ trie.checkTrieNode hashRoot = true

/-- The tries of a chain: each root comes from the one before it and the entries of the block. -/
def Built (trie : VoteTrie) : UInt256 → List BlockVote → List UInt256 → Prop
  | _, [], [] => True
  | hashPrevRoot, block :: rest, hashRoot :: later =>
    trie.addNewTrie hashPrevRoot (block.mapKv hashPrevRoot) = some hashRoot ∧ Built trie hashRoot rest later
  | _, _, _ => False

namespace TrieRoots
variable {trie : VoteTrie} {roots : TrieRoots} {hashPrev hashBlock hashPrevRoot hashRoot : UInt256}

theorem readTrieRoot_of_ne_zero (present : hashBlock ≠ 0) : roots.readTrieRoot hashBlock = roots hashBlock :=
  if_neg present

theorem readTrieRoot_update (roots : TrieRoots) (hash hashRoot hashBlock : UInt256) :
    readTrieRoot (Function.update roots hash (some hashRoot)) hashBlock =
      if hashBlock = hash ∧ hashBlock ≠ 0 then some hashRoot else roots.readTrieRoot hashBlock := by
  unfold readTrieRoot
  rw [Function.update_apply]
  split_ifs <;> simp_all

theorem prevTrieRoot_eq (roots : TrieRoots) (hashPrev : UInt256) :
    roots.prevTrieRoot hashPrev = roots.readTrieRoot hashPrev := by
  unfold prevTrieRoot readTrieRoot
  split_ifs <;> trivial

theorem getPrevRoot_eq_some : getPrevRoot trie hashRoot = some (hashPrevRoot, hashBlock) ↔
    trie.retrieve hashRoot .prevRoot = some (.link hashPrevRoot hashBlock) := by
  unfold getPrevRoot
  split <;> simp_all

theorem verifyVote_eq_some {all : Bool} :
    roots.verifyVote trie hashPrev hashBlock all = some hashRoot ↔
      roots.readTrieRoot hashBlock = some hashRoot ∧ (all = true → trie.checkTrieNode hashRoot = true) ∧
      ∃ hashPrevRoot, roots.readTrieRoot hashPrev = some hashPrevRoot ∧
        trie.retrieve hashRoot .prevRoot = some (.link hashPrevRoot hashBlock) := by
  simp only [verifyVote, prevTrieRoot_eq, bind_eq_some_iff, ite_none_left_eq_some,
    ← getPrevRoot_eq_some, Prod.exists, some_inj]
  constructor
  · rintro ⟨found, read, checked, hashPrevRoot, readPrev, hashRootPrevDb, hashBlockLocalDb, link, same, rfl⟩
    obtain ⟨rfl, rfl⟩ : hashRootPrevDb = hashPrevRoot ∧ hashBlockLocalDb = hashBlock := by simpa [not_or] using same
    exact ⟨read, by simpa using checked, hashRootPrevDb, readPrev, link⟩
  · rintro ⟨read, checked, hashPrevRoot, readPrev, link⟩
    exact ⟨hashRoot, read, by simpa using checked, hashPrevRoot, readPrev, hashPrevRoot, hashBlock, link, by simp, rfl⟩

end TrieRoots

/-- A chain of blocks whose tries are built over a root and recorded by block. -/
structure Recorded (trie : VoteTrie) (roots : TrieRoots) (hashPrev hashPrevRoot : UInt256) (blocks : List BlockVote)
    (voteRoots : List UInt256) : Prop where
  chain : IsChain hashPrev blocks
  distinct : (hashPrev :: blocks.map BlockVote.hashBlock).Nodup
  built : Built trie hashPrevRoot blocks voteRoots
  read : roots.readTrieRoot hashPrev = some hashPrevRoot
  recorded : ∀ p ∈ blocks.zip voteRoots, roots p.1.hashBlock = some p.2

section Chain
variable {trie : VoteTrie} {roots roots' : TrieRoots} {block : BlockVote} {blocks : List BlockVote}
  {hashPrev hashPrevRoot hashRoot : UInt256} {voteRoots : List UInt256}

theorem Recorded.next (whole : Recorded trie roots hashPrev hashPrevRoot (block :: blocks) (hashRoot :: voteRoots)) :
    Recorded trie roots block.hashBlock hashRoot blocks voteRoots := by
  obtain ⟨⟨_, present, chain⟩, distinct, ⟨_, built⟩, _, recorded⟩ := whole
  rw [zip_cons_cons, forall_mem_cons] at recorded
  refine ⟨chain, (nodup_cons.1 distinct).2, built, ?_, recorded.2⟩
  rw [TrieRoots.readTrieRoot_of_ne_zero present, recorded.1]

theorem addBlocks_recorded : ∀ {blocks : List BlockVote} {voteRoots : List UInt256} {hashPrev prior : UInt256}
    {roots : TrieRoots}, IsChain hashPrev blocks → (hashPrev :: blocks.map BlockVote.hashBlock).Nodup →
    roots.readTrieRoot hashPrev = some prior → roots.addBlocks trie blocks = some (voteRoots, roots') →
      Recorded trie roots' hashPrev prior blocks voteRoots ∧
      ∀ hash, hash ∉ blocks.map BlockVote.hashBlock → roots' hash = roots hash := by
  intro blocks
  induction blocks with
  | nil =>
    intro voteRoots hashPrev prior roots chain distinct read added
    cases added
    exact ⟨⟨chain, distinct, trivial, read, fun _ member => absurd member (by simp)⟩, fun _ _ => rfl⟩
  | cons block rest ih =>
    intro voteRoots hashPrev prior roots chain distinct read added
    obtain ⟨rfl, present, later⟩ := chain
    simp only [TrieRoots.addBlocks, bind_eq_bind, bind_eq_some_iff, Prod.exists, some_inj,
      Prod.mk.injEq] at added
    obtain ⟨_, middle, first, _, last, others, rfl, rfl⟩ := added
    simp only [TrieRoots.addBlockVote, TrieRoots.prevTrieRoot_eq, bind_eq_bind, bind_eq_some_iff, some_inj,
      Prod.mk.injEq] at first
    obtain ⟨_, readPrev, hashRoot, made, rfl, rfl⟩ := first
    cases read.symm.trans readPrev
    have apart := (nodup_cons.1 distinct).2
    have readNow := (roots.readTrieRoot_update block.hashBlock hashRoot block.hashBlock).trans (if_pos ⟨rfl, present⟩)
    obtain ⟨after, untouched⟩ := ih later apart readNow others
    have kept : ∀ hash, hash ∉ (block :: rest).map BlockVote.hashBlock → last hash = roots hash := by
      intro hash away
      rw [map_cons, mem_cons, not_or] at away
      rw [untouched hash away.2, update_of_ne away.1]
    refine ⟨⟨⟨rfl, present, later⟩, distinct, ⟨made, after.built⟩, ?_, ?_⟩, kept⟩
    · rw [← read]
      unfold TrieRoots.readTrieRoot
      rw [kept _ (nodup_cons.1 distinct).1]
    · rw [zip_cons_cons, forall_mem_cons]
      refine ⟨?_, after.recorded⟩
      rw [untouched _ (nodup_cons.1 apart).1, update_self]

theorem BlockVote.mapKv_ne_nil (block : BlockVote) : block.mapKv 0 ≠ [] := by
  unfold BlockVote.mapKv
  split_ifs with bare
  · exact cons_ne_nil _ _
  · intro none
    exact bare ⟨rfl, none⟩

section
variable (honest : trie.Honest) (made : trie.addNewTrie hashPrevRoot (block.mapKv hashPrevRoot) = some hashRoot)
include honest made

theorem VoteTrie.Honest.root_ne_zero : hashRoot ≠ 0 := by
  apply honest.nonzero _ _ _ made
  by_cases first : hashPrevRoot = 0
  · rw [first]
    exact Or.inr block.mapKv_ne_nil
  · exact Or.inl first

theorem VoteTrie.Honest.link_cases {hashLinked hash : UInt256}
    (found : trie.retrieve hashRoot .prevRoot = some (.link hashLinked hash)) :
    (hashPrevRoot = 0 ∧ block.entries = []) ∧ hash = block.hashBlock ∨
      trie.retrieve hashPrevRoot .prevRoot = some (.link hashLinked hash) := by
  rcases honest.written _ _ _ _ _ made found with own | old
  · left
    unfold BlockVote.mapKv at own
    split_ifs at own with bare
    · simp only [lookup_cons_self, some_inj, VoteValue.link.injEq] at own
      exact ⟨bare, own.2.symm⟩
    · rw [block.lookup_prevRoot_entries] at own
      cases own
  · exact Or.inr old

end

/-- A block verifies if it is the first and has no entries, provided that the trie before it has no
link to the block. -/
theorem verifyVote_first_iff (honest : trie.Honest) (all : Bool) {root : UInt256}
    (whole : Recorded trie roots hashPrev hashPrevRoot (block :: blocks) (root :: voteRoots))
    (zero : hashPrevRoot = 0 ↔ hashPrev = 0)
    (unlinked : ∀ hashLinked, trie.retrieve hashPrevRoot .prevRoot ≠ some (.link hashLinked block.hashBlock)) :
    roots.verifyVote trie block.hashPrev block.hashBlock all = some root ↔
      block.hashPrev = 0 ∧ block.IsEmpty := by
  have readNow := whole.next.read
  obtain ⟨⟨rfl, _, _⟩, _, ⟨made, _⟩, read, _⟩ := whole
  rw [TrieRoots.verifyVote_eq_some, ← BlockVote.entries_eq_nil, ← zero]
  constructor
  · rintro ⟨_, _, hashLinked, _, found⟩
    rcases honest.link_cases made found with ⟨bare, _⟩ | old
    · exact bare
    · exact absurd old (unlinked _)
  · intro bare
    unfold BlockVote.mapKv at made
    rw [if_pos bare, bare.1] at made
    obtain ⟨found, checked⟩ := honest.first _ _ _ made
    rw [bare.1] at read
    exact ⟨readNow, fun _ => checked, 0, read, found⟩

/-- In a recorded chain the blocks that verify are the first one if it has no entries, and no other. -/
theorem verifyVote_recorded_iff (honest : trie.Honest) (all : Bool) :
    ∀ {blocks : List BlockVote} {voteRoots : List UInt256} {hashPrev prior : UInt256},
      Recorded trie roots hashPrev prior blocks voteRoots → (prior = 0 ↔ hashPrev = 0) →
      (∀ hashLinked hash, trie.retrieve prior .prevRoot = some (.link hashLinked hash) →
        hash ∉ blocks.map BlockVote.hashBlock) →
      ∀ p ∈ blocks.zip voteRoots, roots.verifyVote trie p.1.hashPrev p.1.hashBlock all = some p.2 ↔
        p.1.hashPrev = 0 ∧ p.1.IsEmpty := by
  intro blocks
  induction blocks with
  | nil => simp
  | cons block rest ih =>
    intro voteRoots hashPrev prior whole zero stale
    cases voteRoots with
    | nil => simp
    | cons hashRoot later =>
      rw [zip_cons_cons, forall_mem_cons]
      have made := whole.built.1
      constructor
      · apply verifyVote_first_iff honest all whole zero
        intro hashLinked found
        exact stale _ _ found mem_cons_self
      · apply ih whole.next (iff_of_false (honest.root_ne_zero made) whole.chain.2.1)
        intro hashLinked hash found
        rcases honest.link_cases made found with ⟨_, rfl⟩ | old
        · exact (nodup_cons.1 whole.next.distinct).1
        · exact fun later => stale _ _ old (mem_cons_of_mem _ later)

end Chain

/-- Of the blocks of a chain that has been added, those verify with their roots that are the first
block of the chain and have neither votes nor pledges. -/
theorem verifyVote_iff (trie : VoteTrie) (honest : trie.Honest) (roots roots' : TrieRoots) (blocks : List BlockVote)
    (voteRoots : List UInt256) (chain : IsChain 0 blocks) (distinct : (blocks.map BlockVote.hashBlock).Nodup)
    (added : roots.addBlocks trie blocks = some (voteRoots, roots')) (fVerifyAllNode : Bool) :
    ∀ p ∈ blocks.zip voteRoots, roots'.verifyVote trie p.1.hashPrev p.1.hashBlock fVerifyAllNode = some p.2 ↔
      p.1.hashPrev = 0 ∧ p.1.IsEmpty := by
  have apart : (0 :: blocks.map BlockVote.hashBlock).Nodup := nodup_cons.2 ⟨chain.zero_not_mem, distinct⟩
  obtain ⟨recorded, _⟩ := addBlocks_recorded chain apart rfl added
  apply verifyVote_recorded_iff honest fVerifyAllNode recorded Iff.rfl
  intro hashLinked hash found
  rw [honest.empty] at found
  cases found

namespace Sample

def quietBlock : BlockVote where
  hashPrev := 0
  hashBlock := createBlockHash 100 1 0 0xA1
  mapBlockVote := []
  mapAddPledgeFinalHeight := []
  mapRemovePledgeFinalHeight := []
  mapPledgeVote := []

def vote500 : VoteContext where
  destDelegate := 0xDE1
  destOwner := 0xB0B
  nVoteFlag := 0
  nVoteAmount := 500
  nRewardRate := 5000
  nFinalHeight := 0

/-- The next block, at the height that ends the day, with a vote of 500 for a delegate. -/
def votingBlock : BlockVote where
  hashPrev := quietBlock.hashBlock
  hashBlock := createBlockHash 100 72 0 0xA2
  mapBlockVote := [(0xB0B, vote500)]
  mapAddPledgeFinalHeight := []
  mapRemovePledgeFinalHeight := []
  mapPledgeVote := []

def voteKey : VotePrefix → VoteKey
  | .address => .address 0xB0B
  | .heightAddress => .heightAddress 72 0xB0B

def twoTries : VoteTrie where
  addNewTrie hashPrevRoot mapKv :=
    if hashPrevRoot = 0 ∧ mapKv = quietBlock.mapKv 0 then some 1
    else if hashPrevRoot = 1 ∧ mapKv = votingBlock.mapKv 1 then some 2 else none
  retrieve hashRoot key :=
    if hashRoot = 1 then (quietBlock.mapKv 0).lookup key
    else if hashRoot = 2 then (votingBlock.mapKv 1).lookup key <|> (quietBlock.mapKv 0).lookup key else none
  checkTrieNode hashRoot := hashRoot = 1 ∨ hashRoot = 2
  walkThroughTrie hashRoot under _ :=
    (if hashRoot = 2 then [(voteKey under, .vote vote500)] else [], hashRoot = 1 ∨ hashRoot = 2)

theorem twoTries_cases {prior root : UInt256} {mapKv : List (VoteKey × VoteValue)}
    (made : twoTries.addNewTrie prior mapKv = some root) :
    prior = 0 ∧ mapKv = quietBlock.mapKv 0 ∧ root = 1 ∨
      prior = 1 ∧ mapKv = votingBlock.mapKv 1 ∧ root = 2 := by
  unfold twoTries at made
  dsimp only at made
  split_ifs at made with first second <;> cases made
  · exact Or.inl ⟨first.1, first.2, rfl⟩
  · exact Or.inr ⟨second.1, second.2, rfl⟩

theorem twoTries_honest : twoTries.Honest := by
  constructor
  · intro key
    rfl
  · intro hashPrevRoot mapKv hashRoot key value made found
    rcases twoTries_cases made with ⟨rfl, rfl, rfl⟩ | ⟨rfl, rfl, rfl⟩
    · exact Or.inl found
    · rcases (orElse_eq_some _ _ _).1 found with own | ⟨_, old⟩
      exacts [Or.inl own, Or.inr old]
  · intro hashPrevRoot mapKv hashRoot made _
    rcases twoTries_cases made with ⟨_, _, rfl⟩ | ⟨_, _, rfl⟩ <;> decide
  · intro key value hashRoot made
    rcases twoTries_cases made with ⟨_, same, rfl⟩ | ⟨root, _, _⟩
    · refine ⟨?_, rfl⟩
      show (quietBlock.mapKv 0).lookup key = some value
      rw [← same, lookup_cons_self]
    · exact absurd root (by decide)

/-- The first block of the chain verifies, since it has no votes. -/
theorem verifyVote_iff_quiet : ∃ voteRoots roots',
    TrieRoots.addBlocks twoTries (fun _ => none) [quietBlock, votingBlock] = some (voteRoots, roots') ∧
      roots'.verifyVote twoTries 0 quietBlock.hashBlock true = some 1 := by
  refine ⟨_, _, rfl, ?_⟩
  exact (verifyVote_iff twoTries twoTries_honest (fun _ => none) _ [quietBlock, votingBlock] [1, 2]
    ⟨rfl, by decide, rfl, by decide, trivial⟩ (by decide) rfl true (quietBlock, 1) mem_cons_self).2
    ⟨rfl, rfl, rfl, rfl, rfl⟩

/-- The second block does not verify with the root that was returned for it. -/
theorem voting_block_unverified : twoTries.Honest ∧ ∃ voteRoots roots',
    TrieRoots.addBlocks twoTries (fun _ => none) [quietBlock, votingBlock] = some (voteRoots, roots') ∧
      voteRoots = [1, 2] ∧ roots' votingBlock.hashBlock = some 2 ∧
      roots'.verifyVote twoTries votingBlock.hashPrev votingBlock.hashBlock true = none := by
  exact ⟨twoTries_honest, _, _, rfl, rfl, by decide, by decide⟩

end Sample

end HashAhead.Vote

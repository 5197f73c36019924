import HashAhead.Vote.DayRead

/-! The tallies of a day. What is read from the tries of its first and its last block makes tallies
that count the votes up to each height. The day is read once and kept, and what is kept is right
unless a call for the same last block has come too early or for another first block. A reading that fails leaves what
it has read, and later walks take it until other tail blocks push it out. -/

namespace HashAhead.Vote
open Foundation State Chain List Option

section Day
variable {blocks : List BlockVote} {begins : UInt32} {day : DayVote} {delegateOf : Destination → Destination}

/-- No two heights that follow each other have votes that together exceed a 256-bit number. -/
def Bounded (blocks : List BlockVote) (nBeginHeight nTailHeight : Nat) : Prop :=
  ∀ nHeight, nBeginHeight ≤ nHeight → nHeight ≤ nTailHeight →
    total (fun dest => max (amountAt blocks nHeight dest) (amountAt blocks (nHeight + 1) dest)) < 2 ^ 256

def Steady (blocks : List BlockVote) (delegateOf : Destination → Destination) : Prop :=
  ∀ block ∈ blocks, ∀ dest ctxtVote, block.mapBlockVote.lookup dest = some ctxtVote →
    ctxtVote.destDelegate = delegateOf dest

theorem Steady.fits (steady : Steady blocks delegateOf) {cap : Destination → Nat} {height : Nat} {dest : Destination}
    {ctxtVote : VoteContext} (le : amountAt blocks height dest ≤ cap dest)
    (found : voteAt blocks height dest = some ctxtVote) : Fits delegateOf cap dest ctxtVote := by
  obtain ⟨block, mem, vote⟩ := exists_of_lastVote found
  refine ⟨steady block (mem_of_mem_filter mem) dest ctxtVote vote, ?_⟩
  simpa [amountAt, found] using le

section
variable (reads : day.Reads blocks begins) (steady : Steady blocks delegateOf)
  (rising : blocks.Pairwise fun a b => a.nHeight < b.nHeight)
include reads steady rising

theorem DayVote.Reads.later {tail : Nat} (bounded : Bounded blocks begins.toNat tail)
    (small : tail < 2 ^ 32) (count : Nat) :
    ∀ {height : Nat} {tally : Tally}, begins.toNat ≤ height → height + count ≤ tail →
      tally.Counts (voteAt blocks height) →
      ∀ p ∈ Tally.later day.mapIncVote tally ((List.range' (height + 1) count).map UInt32.ofNat),
        p.2.Counts (voteAt blocks p.1.toNat) := by
  induction count with
  | zero => simp [Tally.later]
  | succ count ih =>
    intro height tally low high counts
    have toNat : (UInt32.ofNat (height + 1)).toNat = height + 1 :=
      UInt32.toNat_ofNat_of_lt' (by unfold UInt32.size; omega)
    have above : begins < UInt32.ofNat (height + 1) := by
      rw [UInt32.lt_iff_toNat_lt, toNat]
      omega
    have found : ∀ dest, ((day.mapIncVote (UInt32.ofNat (height + 1))).getD .empty).find dest =
        lastVote (blocks.filter fun block => block.nHeight.toNat = height + 1) dest := by
      intro dest
      have read := reads.more _ above dest
      simp only [← UInt32.toNat_inj, toNat] at read
      rw [← read, voteIn]
      cases day.mapIncVote (UInt32.ofNat (height + 1)) <;> rfl
    have next : ((day.mapIncVote (UInt32.ofNat (height + 1))).getD .empty).entries.foldl recordVote
        (voteAt blocks height) = voteAt blocks (height + 1) := by
      funext dest
      rw [foldl_recordVote _ (SortedMap.keys_nodup _), voteAt_succ rising, ← found]
      rfl
    have counted := Tally.Counts.addVotes ((day.mapIncVote (UInt32.ofNat (height + 1))).getD .empty).entries counts
      (bounded height low (by omega)) (fun dest ctxtVote found => steady.fits (le_max_left _ _) found) ?_
    · rw [next] at counted
      rw [range'_succ, map_cons, Tally.later, forall_mem_cons]
      exact ⟨toNat.symm ▸ counted, ih (by omega) (by omega) counted⟩
    · intro kv mem
      apply steady.fits (le_max_right _ _)
      rw [voteAt_succ rising, ← found, (SortedMap.find_eq_some_iff _ _ _).2 mem]
      rfl

theorem DayVote.Reads.deliveries {tail : UInt32}
    (bounded : Bounded blocks begins.toNat tail.toNat) (order : begins ≤ tail) :
    ∀ p ∈ day.deliveries begins tail, p.2.Counts (voteAt blocks p.1.toNat) := by
  have le := UInt32.le_iff_toNat_le.1 order
  have first := Tally.counts_first (bounded _ le_rfl le)
    (fun dest ctxtVote found => steady.fits (le_max_left _ _) found) reads.first
  rw [DayVote.deliveries, forall_mem_cons]
  refine ⟨first, ?_⟩
  apply reads.later steady rising bounded tail.toNat_lt _ le_rfl (by omega) first

end

theorem map_fst_later (mapIncVote : UInt32 → Option VoteMap) (heights : List UInt32) :
    ∀ tally, (Tally.later mapIncVote tally heights).map Prod.fst = heights := by
  induction heights with
  | nil => exact fun _ => rfl
  | cons height rest ih =>
    intro tally
    rw [Tally.later, map_cons, ih]

end Day

/-- Each earlier walk for a tail block is for one first block, and finds both blocks recorded as they
are in the end. -/
def Settled (trie : VoteTrie) (nDayHeight : UInt32) (hashBeginBlock hashTailBlock : UInt256) (final : TrieRoots)
    (calls : List VoteCall) : Prop :=
  Throughout (fun before call => ∀ hashBlock, call = .walk hashBlock hashTailBlock → hashBlock = hashBeginBlock ∧
    (VoteDb.run trie nDayHeight before).roots hashBeginBlock = final hashBeginBlock ∧
    (VoteDb.run trie nDayHeight before).roots hashTailBlock = final hashTailBlock) calls

section Cache
variable {trie : VoteTrie} {nDayHeight : UInt32} {db : VoteDb} {hBegin tail : UInt256}
  {rootA rootB : UInt256}

theorem getCalcDayVote_eq (begins : hBegin ≠ 0) (ends : tail ≠ 0)
    (beginRoot : db.roots hBegin = some rootA) (tailRoot : db.roots tail = some rootB)
    (first : (trie.walkThroughTrie rootA .address false).2 = true)
    (more : (trie.walkThroughTrie rootB .heightAddress true).2 = true) :
    (getCalcDayVote trie db hBegin tail).1 = true ∧
      (getCalcDayVote trie db hBegin tail).2.mapCacheCalcVote.find tail =
        some (dayOf trie (getBlockHeightByHash hBegin) rootA rootB) := by
  have readFirst : retrieveAllDelegateVote trie db.roots hBegin =
      (listAllVote (fun _ => none) (trie.walkThroughTrie rootA .address false).1, true) := by
    rw [retrieveAllDelegateVote, if_neg begins, TrieRoots.readTrieRoot_of_ne_zero begins, beginRoot]
    dsimp only
    rw [first]
  have readMore : getMoreIncVote trie db.roots hBegin tail =
      ((dayOf trie (getBlockHeightByHash hBegin) rootA rootB).mapIncVote, true) := by
    rw [getMoreIncVote, if_neg (not_or.2 ⟨begins, ends⟩), TrieRoots.readTrieRoot_of_ne_zero ends, tailRoot]
    dsimp only
    rw [more, Bool.or_true]
    rfl
  unfold getCalcDayVote
  rw [readFirst, readMore]
  simp [SortedMap.find_insert]
  rfl

def CacheHas (db : VoteDb) (hashTailBlock : UInt256) (day : DayVote) : Prop :=
  ∀ kept, db.mapCacheCalcVote.find hashTailBlock = some kept → kept = day

theorem CacheHas.walk_other {day : DayVote} (has : CacheHas db tail day) {hashBlock hashOther : UInt256}
    (apart : hashOther ≠ tail) :
    CacheHas (walkThroughDayVote trie nDayHeight db hashBlock hashOther).2 tail day := by
  have calc_keeps : CacheHas (getCalcDayVote trie db hashBlock hashOther).2 tail day := by
    intro kept found
    apply has
    unfold getCalcDayVote at found
    dsimp only at found
    split_ifs at found <;> rw [SortedMap.find_insert, if_neg apart.symm] at found <;>
      exact SortedMap.find_of_drop found
  unfold walkThroughDayVote
  dsimp only
  split
  · exact has
  · split
    · exact has
    · split <;> exact calc_keeps

theorem walkThroughDayVote_eq (begins : hBegin ≠ 0) (ends : tail ≠ 0)
    (beginRoot : db.roots hBegin = some rootA) (tailRoot : db.roots tail = some rootB)
    (first : (trie.walkThroughTrie rootA .address false).2 = true)
    (more : (trie.walkThroughTrie rootB .heightAddress true).2 = true)
    (has : CacheHas db tail (dayOf trie (getBlockHeightByHash hBegin) rootA rootB)) :
    CacheHas (walkThroughDayVote trie nDayHeight db hBegin tail).2 tail
        (dayOf trie (getBlockHeightByHash hBegin) rootA rootB) ∧
      (getBlockHeightByHash hBegin + nDayHeight - 1 = getBlockHeightByHash tail →
        (walkThroughDayVote trie nDayHeight db hBegin tail).1 =
          some ((dayOf trie (getBlockHeightByHash hBegin) rootA rootB).deliveries
            (getBlockHeightByHash hBegin) (getBlockHeightByHash tail))) := by
  obtain ⟨done, kept⟩ := getCalcDayVote_eq begins ends beginRoot tailRoot first more
  unfold walkThroughDayVote
  dsimp only
  split
  next wrong => exact ⟨has, fun right => absurd right wrong⟩
  next =>
    cases found : db.mapCacheCalcVote.find tail with
    | some day =>
      obtain rfl := has day found
      exact ⟨has, fun _ => rfl⟩
    | none =>
      dsimp only
      rw [done, kept]
      refine ⟨?_, fun _ => rfl⟩
      intro day here
      exact some_inj.1 (here.symm.trans kept)

theorem step_add_cache (db : VoteDb) (block : BlockVote) :
    (db.step trie nDayHeight (.add block)).mapCacheCalcVote = db.mapCacheCalcVote := by
  unfold VoteDb.step
  dsimp only
  cases db.roots.addBlockVote trie block <;> rfl

theorem Settled.cacheHas (begins : hBegin ≠ 0) (ends : tail ≠ 0) {final : TrieRoots}
    (beginRoot : final hBegin = some rootA) (tailRoot : final tail = some rootB)
    (first : (trie.walkThroughTrie rootA .address false).2 = true)
    (more : (trie.walkThroughTrie rootB .heightAddress true).2 = true) {calls : List VoteCall}
    (settled : Settled trie nDayHeight hBegin tail final calls) :
    CacheHas (VoteDb.run trie nDayHeight calls) tail
      (dayOf trie (getBlockHeightByHash hBegin) rootA rootB) := by
  induction calls using List.reverseRecOn with
  | nil =>
    intro kept found
    cases found
  | append_singleton before call ih =>
    have has := ih settled.init
    rw [VoteDb.run, foldl_append, ← VoteDb.run, foldl_cons, foldl_nil]
    cases call with
    | add block =>
      intro kept found
      rw [step_add_cache] at found
      exact has kept found
    | walk hashBlock hashOther =>
      by_cases same : hashOther = tail
      · subst same
        obtain ⟨rfl, rootNow, tailNow⟩ := settled.last hashBlock rfl
        exact (walkThroughDayVote_eq begins ends (rootNow.trans beginRoot) (tailNow.trans tailRoot) first more has).1
      · exact has.walk_other same

end Cache

/-- The day's tallies on a recorded chain: at each height from the first block to the last one the
walker gets every delegate's votes as the blocks up to that height have left them, with their sum. -/
theorem dayVote_counts (trie : VoteTrie) (keeps : trie.Keeps) (nDayHeight : UInt32) (calls : List VoteCall)
    (blocks : List BlockVote) (voteRoots : List UInt256)
    (recorded : Recorded trie (VoteDb.run trie nDayHeight calls).roots 0 0 blocks voteRoots)
    (rising : blocks.Pairwise fun a b => a.nHeight < b.nHeight) (first tail : BlockVote) (begins : first ∈ blocks)
    (ends : blocks.getLast? = some tail) (day : first.nHeight + nDayHeight - 1 = tail.nHeight)
    (small : tail.nHeight.toNat + 1 < 2 ^ 32) (delegateOf : Destination → Destination)
    (steady : Steady blocks delegateOf) (bounded : Bounded blocks first.nHeight.toNat tail.nHeight.toNat)
    (settled : Settled trie nDayHeight first.hashBlock tail.hashBlock (VoteDb.run trie nDayHeight calls).roots calls) :
    ∃ deliveries, (walkThroughDayVote trie nDayHeight (VoteDb.run trie nDayHeight calls) first.hashBlock
        tail.hashBlock).1 = some deliveries ∧
      deliveries.map Prod.fst = first.nHeight :: laterHeights first.nHeight tail.nHeight ∧
      ∀ p ∈ deliveries, p.2.Counts (voteAt blocks p.1.toNat) := by
  obtain ⟨before, after, rfl⟩ := append_of_mem begins
  obtain ⟨front, same⟩ := List.getLast?_eq_some_iff.1 ends
  obtain ⟨hashBeginRoot, beginMember, beginMade, atBegin⟩ := Built.retrieve keeps recorded.built
  have builtTail := recorded.built
  rw [same] at builtTail
  obtain ⟨hashTailRoot, tailMember, tailMade, atTail⟩ := Built.retrieve keeps builtTail
  rw [← same] at tailMember atTail
  have order : first.nHeight ≤ tail.nHeight := by
    rw [same] at begins rising
    rcases mem_append.1 begins with member | member
    · exact UInt32.le_of_lt ((pairwise_append.1 rising).2.2 _ member _ mem_cons_self)
    · rw [mem_singleton.1 member]
      exact UInt32.le_refl _
  have reads := dayOf_reads keeps rising beginMade tailMade
    (fun key vote => by rw [atBegin key vote, keeps.empty]; rfl)
    (fun key vote => by rw [atTail key vote, keeps.empty]; rfl)
    (lt_of_le_of_lt (Nat.succ_le_succ (UInt32.le_iff_toNat_le.1 order)) small)
  obtain ⟨_, _, beginMade⟩ := beginMade
  obtain ⟨_, _, tailMade⟩ := tailMade
  have beginRoot := recorded.recorded _ beginMember
  have tailRoot := recorded.recorded _ tailMember
  have hasBegin := recorded.chain.hashBlock_ne_zero begins
  have hasTail := recorded.chain.hashBlock_ne_zero (mem_of_getLast? ends)
  have firstEnds := keeps.ended beginMade .address false
  have moreEnds := keeps.ended tailMade .heightAddress true
  have has := settled.cacheHas hasBegin hasTail beginRoot tailRoot firstEnds moreEnds
  have walk := (walkThroughDayVote_eq hasBegin hasTail beginRoot tailRoot firstEnds moreEnds has).2 day
  refine ⟨_, walk, ?_, reads.deliveries steady rising bounded order⟩
  rw [DayVote.deliveries, map_cons, map_fst_later]
  rfl

theorem Tally.later_quiet (heights : List UInt32) (tally : Tally) :
    Tally.later (fun _ => none) tally heights = heights.map fun height => (height, tally) := by
  induction heights with
  | nil => rfl
  | cons height rest ih => exact congrArg (_ :: ·) ih

namespace Sample

section
variable (under : VotePrefix) (fReverse : Bool) (key : VoteKey) (value : VoteValue)

theorem twoTries_walked_first :
    (key, value) ∈ (twoTries.walkThroughTrie 1 under fReverse).1 ↔
      key.inPrefix under ∧ twoTries.retrieve 1 key = some value := by
  refine iff_of_false not_mem_nil ?_
  rintro ⟨inPrefix, stored⟩
  cases key with
  | prevRoot => cases under <;> exact inPrefix
  | _ => cases stored

theorem twoTries_walked_second :
    (key, value) ∈ (twoTries.walkThroughTrie 2 under fReverse).1 ↔
      key.inPrefix under ∧ twoTries.retrieve 2 key = some value := by
  have listed : (twoTries.walkThroughTrie 2 under fReverse).1 = [(voteKey under, .vote vote500)] := rfl
  have stored : twoTries.retrieve 2 key = ([(VoteKey.address 0xB0B, VoteValue.vote vote500),
      (.heightAddress 72 0xB0B, .vote vote500), (.prevRoot, .link 0 quietBlock.hashBlock)]).lookup key := by
    show ((votingBlock.mapKv 1).lookup key <|> (quietBlock.mapKv 0).lookup key) =
      (votingBlock.mapKv 1 ++ quietBlock.mapKv 0).lookup key
    rw [lookup_append]
    cases (votingBlock.mapKv 1).lookup key <;> rfl
  rw [listed, stored, lookup_cons_ite, lookup_cons_ite, lookup_cons_ite, mem_singleton]
  cases key <;> cases under <;> simp [VoteKey.inPrefix, voteKey, eq_comm]

end

theorem twoTries_keeps : twoTries.Keeps := by
  constructor
  · intro key
    rfl
  · intro prior mapKv hashRoot made key
    rcases twoTries_cases made with ⟨rfl, rfl, rfl⟩ | ⟨rfl, rfl, rfl⟩
    · show (quietBlock.mapKv 0).lookup key = ((quietBlock.mapKv 0).lookup key <|> none)
      cases (quietBlock.mapKv 0).lookup key <;> rfl
    · rfl
  · intro prior mapKv hashRoot made under fReverse
    rcases twoTries_cases made with ⟨rfl, rfl, rfl⟩ | ⟨rfl, rfl, rfl⟩ <;> rfl
  · intro prior mapKv hashRoot made under fReverse key value
    rcases twoTries_cases made with ⟨rfl, rfl, rfl⟩ | ⟨rfl, rfl, rfl⟩
    · exact twoTries_walked_first under fReverse key value
    · exact twoTries_walked_second under fReverse key value
  · intro prior mapKv hashRoot made under fReverse
    rcases twoTries_cases made with ⟨rfl, rfl, rfl⟩ | ⟨rfl, rfl, rfl⟩
    · exact nodup_nil
    · exact nodup_singleton _
  · intro prior mapKv hashRoot made
    rcases twoTries_cases made with ⟨rfl, rfl, rfl⟩ | ⟨rfl, rfl, rfl⟩
    · exact List.Pairwise.nil
    · exact pairwise_singleton _ _

def timelyWalk : List VoteCall :=
  [.add quietBlock, .add votingBlock, .walk quietBlock.hashBlock votingBlock.hashBlock]

theorem vote_cases {block : BlockVote} (mem : block ∈ [quietBlock, votingBlock]) {dest : Destination}
    {ctxtVote : VoteContext} (vote : block.mapBlockVote.lookup dest = some ctxtVote) :
    dest = 0xB0B ∧ ctxtVote = vote500 := by
  rcases mem_pair.1 mem with rfl | rfl
  · cases vote
  · rw [votingBlock, lookup_cons_ite, lookup_nil, ite_none_right_eq_some] at vote
    exact ⟨vote.1, (some_inj.1 vote.2).symm⟩

theorem amountAt_le (height : Nat) (dest : Destination) :
    amountAt [quietBlock, votingBlock] height dest ≤ if dest = 0xB0B then 500 else 0 := by
  unfold amountAt
  cases found : voteAt [quietBlock, votingBlock] height dest with
  | none => exact Nat.zero_le _
  | some ctxtVote =>
    obtain ⟨block, mem, vote⟩ := exists_of_lastVote found
    obtain ⟨rfl, rfl⟩ := vote_cases (mem_of_mem_filter mem) vote
    exact le_rfl

theorem bounded_timelyWalk : Bounded [quietBlock, votingBlock] 1 72 := by
  intro height _ _
  calc total (fun dest => max (amountAt [quietBlock, votingBlock] height dest)
        (amountAt [quietBlock, votingBlock] (height + 1) dest))
      ≤ ∑ dest : Destination, if dest = 0xB0B then 500 else 0 :=
        Finset.sum_le_sum fun dest _ => max_le (amountAt_le height dest) (amountAt_le (height + 1) dest)
    _ = 500 := by rw [Finset.sum_ite_eq', if_pos (Finset.mem_univ _)]
    _ < 2 ^ 256 := by decide

theorem steady_timelyWalk : Steady [quietBlock, votingBlock] fun _ => 0xDE1 := by
  intro block mem dest ctxtVote vote
  rw [(vote_cases mem vote).2]
  rfl

theorem settled_timelyWalk : Settled twoTries 72 quietBlock.hashBlock votingBlock.hashBlock
    (VoteDb.run twoTries 72 timelyWalk).roots timelyWalk := by
  show Throughout _ ([] ++ [VoteCall.add quietBlock] ++ [.add votingBlock] ++ [.walk quietBlock.hashBlock _])
  refine ((Throughout.nil.snoc ?_).snoc ?_).snoc ?_
  · intro hashBlock same
    cases same
  · intro hashBlock same
    cases same
  · intro hashBlock same
    cases same
    exact ⟨rfl, rfl, rfl⟩

/-- The second walk of the day takes what the first one has kept, and counts the votes at every height. -/
theorem dayVote_counts_timely : ∃ deliveries,
    (walkThroughDayVote twoTries 72 (VoteDb.run twoTries 72 timelyWalk) quietBlock.hashBlock votingBlock.hashBlock).1
      = some deliveries ∧
    ∀ p ∈ deliveries, p.2.Counts (voteAt [quietBlock, votingBlock] p.1.toNat) := by
  have added : TrieRoots.addBlocks twoTries (fun _ => none) [quietBlock, votingBlock] =
      some ([1, 2], (VoteDb.run twoTries 72 timelyWalk).roots) := rfl
  have chain : IsChain 0 [quietBlock, votingBlock] := ⟨rfl, by decide, rfl, by decide, trivial⟩
  have recorded := (addBlocks_recorded chain (by decide) rfl added).1
  obtain ⟨deliveries, walked, _, counts⟩ := dayVote_counts twoTries twoTries_keeps 72 timelyWalk _ _ recorded (by decide)
    quietBlock votingBlock mem_cons_self rfl rfl (by decide) _ steady_timelyWalk bounded_timelyWalk settled_timelyWalk
  exact ⟨deliveries, walked, counts⟩

def earlyWalk : List VoteCall :=
  [.add quietBlock, .walk quietBlock.hashBlock votingBlock.hashBlock, .add votingBlock]

/-- The early walk fails, and the walk after the block has been recorded succeeds without the vote of the block. -/
theorem early_walk_loses_vote : twoTries.Keeps ∧ (VoteDb.run twoTries 72 earlyWalk).roots votingBlock.hashBlock = some 2 ∧
    ∃ deliveries,
    (walkThroughDayVote twoTries 72 (VoteDb.run twoTries 72 earlyWalk) quietBlock.hashBlock votingBlock.hashBlock).1
      = some deliveries ∧
    ∃ p ∈ deliveries, ¬p.2.Counts (voteAt [quietBlock, votingBlock] p.1.toNat) := by
  refine ⟨twoTries_keeps, rfl, ?_⟩
  refine ⟨(DayVote.mk (fun _ => none) (fun _ => none)).deliveries 1 72, rfl, (72, Tally.first fun _ => none), ?_, ?_⟩
  · rw [DayVote.deliveries, Tally.later_quiet]
    apply mem_cons_of_mem
    apply List.mem_map_of_mem
    decide
  · intro counts
    obtain ⟨entry, none, _⟩ := (counts.votes 0xDE1 0xB0B vote500 (by decide)).2 ⟨rfl, rfl⟩
    cases none

end Sample

/-- What `CVoteDB::GetCalcDayVote` leaves in the cache. -/
def leftBehind (trie : VoteTrie) (roots : TrieRoots) (hashBeginBlock hashTailBlock : UInt256) : DayVote :=
  let first := retrieveAllDelegateVote trie roots hashBeginBlock
  ⟨first.1, if first.2 then (getMoreIncVote trie roots hashBeginBlock hashTailBlock).1 else fun _ => none⟩

variable {trie : VoteTrie} {nDayHeight : UInt32} {db : VoteDb} {begins tail : UInt256} {day : DayVote}

theorem CacheHas.later (has : CacheHas db tail day) {calls : List VoteCall}
    (others : ∀ hashBlock, VoteCall.walk hashBlock tail ∉ calls) :
    CacheHas (calls.foldl (VoteDb.step trie nDayHeight) db) tail day := by
  induction calls generalizing db with
  | nil => exact has
  | cons call rest ih =>
    apply ih _ fun hashBlock mem => others hashBlock (mem_cons_of_mem _ mem)
    cases call with
    | add block =>
      unfold CacheHas
      rwa [step_add_cache]
    | walk hashBlock hashOther =>
      apply has.walk_other
      rintro rfl
      exact others hashBlock mem_cons_self

theorem cacheHas_failed (fits : getBlockHeightByHash begins + nDayHeight - 1 = getBlockHeightByHash tail)
    (failed : (walkThroughDayVote trie nDayHeight db begins tail).1 = none) :
    CacheHas (walkThroughDayVote trie nDayHeight db begins tail).2 tail (leftBehind trie db.roots begins tail) := by
  intro entry here
  unfold walkThroughDayVote at failed here
  simp only [fits, ne_eq, not_true_eq_false, if_false] at failed here
  cases cached : db.mapCacheCalcVote.find tail with
  | some _ => simp [cached] at failed
  | none =>
    have found : (getCalcDayVote trie db begins tail).2.mapCacheCalcVote.find tail = some entry := by
      simp only [cached] at here
      split_ifs at here <;> exact here
    unfold getCalcDayVote at found
    unfold leftBehind
    cases first : (retrieveAllDelegateVote trie db.roots begins).2 <;> simp_all [SortedMap.find_insert]

namespace Sample

/-- The tries of the two blocks when a kind of walk breaks off. -/
def cut (under : VotePrefix) (entries : List (VoteKey × VoteValue) → List (VoteKey × VoteValue)) : VoteTrie :=
  { twoTries with walkThroughTrie := fun hashRoot asked fReverse =>
      let walk := twoTries.walkThroughTrie hashRoot asked fReverse
      if asked = under then (entries walk.1, false) else walk }

def recordedDb : VoteDb := VoteDb.run twoTries 72 [.add quietBlock, .add votingBlock]

def lastVotes (walk : Option (List (UInt32 × Tally)) × VoteDb) : Option Nat :=
  walk.1.bind fun deliveries => deliveries.getLast?.map fun p => ((p.2.full 0xDE1).map (·.total.toNat)).getD 0

end Sample

end HashAhead.Vote

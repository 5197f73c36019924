import HashAhead.Vote.Content

/-! What is read for a day. The walkers take the votes of the first trie by delegate and those of
the last trie by height, and so the day has the votes that stand at its first height and the votes
of each height after it. -/

namespace HashAhead.Vote
open Foundation State List Option

section Listing
variable {Key : Type} [DecidableEq Key]

def voteIn (votes : Key → Option VoteMap) (key : Key) (dest : Destination) : Option VoteContext :=
  (votes key).bind (·.find dest)

def putVotes (listed : List (Key × Destination × VoteContext)) (votes : Key → Option VoteMap) : Key → Option VoteMap :=
  listed.foldl (fun votes e => putVote e.1 e.2.1 e.2.2 votes) votes

theorem voteIn_putVote (key : Key) (dest : Destination) (vote : VoteContext) (votes : Key → Option VoteMap)
    (key' : Key) (dest' : Destination) : voteIn (putVote key dest vote votes) key' dest' =
      if key' = key ∧ dest' = dest then some vote else voteIn votes key' dest' := by
  unfold voteIn putVote
  by_cases same : key' = key
  · subst same
    rw [Function.update_self, bind_some, SortedMap.find_insert]
    cases votes key' <;> simp [SortedMap.find_empty]
  · simp [same]

theorem voteIn_putVotes (listed : List (Key × Destination × VoteContext))
    (distinct : (listed.map fun e => (e.1, e.2.1)).Nodup) (key : Key) (dest : Destination) (vote : VoteContext) :
    voteIn (putVotes listed fun _ => none) key dest = some vote ↔ (key, dest, vote) ∈ listed := by
  induction listed using List.reverseRecOn with
  | nil => simp [putVotes, voteIn]
  | append_singleton front e ih =>
    rw [map_append, nodup_append] at distinct
    have before := ih distinct.1
    have apart : (e.1, e.2.1) ∉ front.map fun e => (e.1, e.2.1) :=
      fun mem => distinct.2.2 _ mem _ mem_cons_self rfl
    unfold putVotes at before ⊢
    rw [foldl_append, foldl_cons, foldl_nil, voteIn_putVote, mem_append, mem_singleton]
    split_ifs with own
    · obtain ⟨rfl, rfl⟩ := own
      have absent : (e.1, e.2.1, vote) ∉ front := fun mem => apart (List.mem_map.2 ⟨_, mem, rfl⟩)
      simp [absent, Prod.ext_iff, eq_comm]
    · rw [before]
      have other : (key, dest, vote) ≠ e := by
        rintro rfl
        exact own ⟨rfl, rfl⟩
      simp [other]

/-- What `CListAllVoteTrieDBWalker` takes of an entry. -/
def allVote : VoteKey × VoteValue → Option (Destination × Destination × VoteContext)
  | (.address destVote, .vote ctxtVote) =>
    if ctxtVote.nVoteAmount > 0 then some (ctxtVote.destDelegate, destVote, ctxtVote) else none
  | _ => none

/-- What `CListMoreIncVoteTrieDBWalker` takes of an entry. -/
def incVote : VoteKey × VoteValue → Option (UInt32 × Destination × VoteContext)
  | (.heightAddress nBlockHeight destVote, .vote ctxtVote) => some (nBlockHeight, destVote, ctxtVote)
  | _ => none

theorem listAllVote_eq (entries : List (VoteKey × VoteValue)) (votes : Destination → Option VoteMap) :
    listAllVote votes entries = putVotes (entries.filterMap allVote) votes := by
  fun_induction listAllVote votes entries with
  | case1 => rfl
  | case2 votes destVote ctxtVote rest ih =>
    by_cases positive : ctxtVote.nVoteAmount > 0 <;> simp_all [allVote, putVotes]
  | case3 votes e rest other ih =>
    rw [ih, filterMap_cons_none]
    unfold allVote
    split
    · exact absurd rfl (other _ _ )
    · rfl

theorem listMoreIncVote_eq (top : UInt32) (entries : List (VoteKey × VoteValue)) (votes : UInt32 → Option VoteMap) :
    (listMoreIncVote top votes entries).1 =
      putVotes ((entries.filterMap incVote).takeWhile fun e => top ≤ e.1) votes := by
  fun_induction listMoreIncVote top votes entries with
  | case1 => rfl
  | case2 votes nBlockHeight destVote ctxtVote rest late ih =>
    rw [ih, filterMap_cons_some (rfl : incVote _ = some _), takeWhile_cons_of_pos (by simpa using late)]
    rfl
  | case3 votes nBlockHeight destVote ctxtVote rest early =>
    rw [filterMap_cons_some (rfl : incVote _ = some _), takeWhile_cons_of_neg (by simpa using early)]
    rfl
  | case4 votes e rest other ih =>
    rw [ih, filterMap_cons_none]
    unfold incVote
    split
    · exact absurd rfl (other _ _ _)
    · rfl

theorem mem_takeWhile_of_falling {top : UInt32} {listed : List (UInt32 × Destination × VoteContext)}
    (falling : listed.Pairwise fun a b => b.1 ≤ a.1) (e : UInt32 × Destination × VoteContext) :
    e ∈ listed.takeWhile (fun e => top ≤ e.1) ↔ e ∈ listed ∧ top ≤ e.1 := by
  induction listed with
  | nil => simp
  | cons head rest ih =>
    obtain ⟨first, falling'⟩ := pairwise_cons.1 falling
    by_cases late : top ≤ head.1
    · rw [takeWhile_cons_of_pos (by simpa using late), mem_cons, ih falling', mem_cons]
      constructor
      · rintro (rfl | mem)
        exacts [⟨Or.inl rfl, late⟩, ⟨Or.inr mem.1, mem.2⟩]
      · rintro ⟨rfl | mem, high⟩
        exacts [Or.inl rfl, Or.inr ⟨mem, high⟩]
    · rw [takeWhile_cons_of_neg (by simpa using late)]
      constructor
      · intro mem
        cases mem
      · rintro ⟨mem, high⟩
        rcases mem_cons.1 mem with rfl | mem
        · exact absurd high late
        · exact absurd (UInt32.le_trans high (first e mem)) late

end Listing

section Day
variable {trie : VoteTrie}

/-- What has been read for a day: the votes that stand at its first height, and those of each height after it. -/
structure DayVote.Reads (day : DayVote) (blocks : List BlockVote) (nBeginHeight : UInt32) : Prop where
  first : ∀ delegate dest ctxtVote, voteIn day.mapFirstFullVote delegate dest = some ctxtVote ↔
    voteAt blocks nBeginHeight.toNat dest = some ctxtVote ∧ ctxtVote.destDelegate = delegate ∧ 0 < ctxtVote.nVoteAmount
  more : ∀ nHeight, nBeginHeight < nHeight → ∀ dest,
    voteIn day.mapIncVote nHeight dest = lastVote (blocks.filter fun block => block.nHeight = nHeight) dest

theorem allVote_eq_some {e : VoteKey × VoteValue} {delegate dest : Destination} {vote : VoteContext} :
    allVote e = some (delegate, dest, vote) ↔
      e = (.address dest, .vote vote) ∧ vote.destDelegate = delegate ∧ 0 < vote.nVoteAmount := by
  unfold allVote
  split
  · simp only [ite_none_right_eq_some, some_inj, Prod.mk.injEq, VoteKey.address.injEq, VoteValue.vote.injEq]
    constructor
    · rintro ⟨positive, rfl, rfl, rfl⟩
      exact ⟨⟨rfl, rfl⟩, rfl, positive⟩
    · rintro ⟨⟨rfl, rfl⟩, rfl, positive⟩
      exact ⟨positive, rfl, rfl, rfl⟩
  · rename_i other
    refine iff_of_false (by simp) ?_
    rintro ⟨rfl, _⟩
    exact other _ _ rfl

theorem incVote_eq_some {e : VoteKey × VoteValue} {nHeight : UInt32} {dest : Destination} {vote : VoteContext} :
    incVote e = some (nHeight, dest, vote) ↔ e = (.heightAddress nHeight dest, .vote vote) := by
  unfold incVote
  split
  · simp only [some_inj, Prod.mk.injEq, VoteKey.heightAddress.injEq, VoteValue.vote.injEq]
    exact and_assoc.symm
  · rename_i other
    refine iff_of_false (by simp) ?_
    rintro rfl
    exact other _ _ _ rfl

def dayOf (trie : VoteTrie) (nBeginHeight : UInt32) (hashBeginRoot hashTailRoot : UInt256) : DayVote where
  mapFirstFullVote := listAllVote (fun _ => none) (trie.walkThroughTrie hashBeginRoot .address false).1
  mapIncVote := (listMoreIncVote (nBeginHeight + 1) (fun _ => none)
    (trie.walkThroughTrie hashTailRoot .heightAddress true).1).1

section
variable (keeps : trie.Keeps) {prior hashRoot : UInt256} {mapKv : List (VoteKey × VoteValue)}
  (made : trie.addNewTrie prior mapKv = some hashRoot)
include keeps made

theorem voteIn_listAllVote (delegate dest : Destination) (vote : VoteContext) :
    voteIn (listAllVote (fun _ => none) (trie.walkThroughTrie hashRoot .address false).1) delegate dest = some vote ↔
      trie.retrieve hashRoot (.address dest) = some (.vote vote) ∧ vote.destDelegate = delegate ∧
        0 < vote.nVoteAmount := by
  rw [listAllVote_eq, voteIn_putVotes, mem_filterMap]
  · constructor
    · rintro ⟨e, mem, taken⟩
      obtain ⟨rfl, facts⟩ := allVote_eq_some.1 taken
      exact ⟨((keeps.walked made _ _ _ _).1 mem).2, facts⟩
    · rintro ⟨stored, facts⟩
      have listed := (keeps.walked made .address false (.address dest) (.vote vote)).2 ⟨trivial, stored⟩
      exact ⟨_, listed, allVote_eq_some.2 ⟨rfl, facts⟩⟩
  · apply pairwise_map.2
    apply (pairwise_map.1 (keeps.once made .address false)).filterMap
    rintro a a' apart ⟨_, dest, _⟩ own ⟨_, dest', _⟩ own' same
    obtain ⟨rfl, _⟩ := allVote_eq_some.1 own
    obtain ⟨rfl, _⟩ := allVote_eq_some.1 own'
    exact apart (congrArg VoteKey.address (congrArg Prod.snd same))

theorem voteIn_listMoreIncVote {top nHeight : UInt32} (late : top ≤ nHeight) (dest : Destination)
    (vote : VoteContext) :
    voteIn (listMoreIncVote top (fun _ => none) (trie.walkThroughTrie hashRoot .heightAddress true).1).1 nHeight dest
      = some vote ↔ trie.retrieve hashRoot (.heightAddress nHeight dest) = some (.vote vote) := by
  have falling : ((trie.walkThroughTrie hashRoot .heightAddress true).1.filterMap incVote).Pairwise
      fun a b => b.1 ≤ a.1 := by
    apply (keeps.falling made).filterMap
    rintro a a' order ⟨nHeight, _, _⟩ own ⟨nHeight', _, _⟩ own'
    obtain rfl := incVote_eq_some.1 own
    obtain rfl := incVote_eq_some.1 own'
    exact order
  rw [listMoreIncVote_eq, voteIn_putVotes, mem_takeWhile_of_falling falling, and_iff_left late, mem_filterMap]
  · simp only [incVote_eq_some, exists_eq_right]
    exact (keeps.walked made _ _ _ _).trans (and_iff_right trivial)
  · apply List.Nodup.sublist ((takeWhile_sublist _).map _)
    apply pairwise_map.2
    apply (pairwise_map.1 (keeps.once made .heightAddress true)).filterMap
    rintro a a' apart ⟨nHeight, dest, _⟩ own ⟨nHeight', dest', _⟩ own' same
    obtain rfl := incVote_eq_some.1 own
    obtain rfl := incVote_eq_some.1 own'
    simp only [Prod.mk.injEq] at same
    apply apart
    rw [same.1, same.2]

end

theorem dayOf_reads (keeps : trie.Keeps) {before after : List BlockVote} {first : BlockVote}
    (rising : (before ++ first :: after).Pairwise fun a b => a.nHeight < b.nHeight)
    {rootA hashTailRoot : UInt256}
    (begins : ∃ prior mapKv, trie.addNewTrie prior mapKv = some rootA)
    (ends : ∃ prior mapKv, trie.addNewTrie prior mapKv = some hashTailRoot)
    (atBegin : ∀ key, key ≠ .prevRoot → trie.retrieve rootA key = lastEntry (before ++ [first]) key)
    (atTail : ∀ key, key ≠ .prevRoot → trie.retrieve hashTailRoot key = lastEntry (before ++ first :: after) key)
    (small : first.nHeight.toNat + 1 < 2 ^ 32) :
    (dayOf trie first.nHeight rootA hashTailRoot).Reads (before ++ first :: after) first.nHeight := by
  obtain ⟨_, _, begins⟩ := begins
  obtain ⟨_, _, ends⟩ := ends
  constructor
  · intro delegate dest ctxtVote
    rw [dayOf, voteIn_listAllVote keeps begins, atBegin _ (by simp), lastEntry_address, voteAt_block rising]
    simp
  · intro nHeight above dest
    have late : first.nHeight + 1 ≤ nHeight := by
      have lt := UInt32.lt_iff_toNat_lt.1 above
      rw [UInt32.le_iff_toNat_le, UInt32.toNat_add, UInt32.toNat_one, Nat.mod_eq_of_lt small]
      exact lt
    ext ctxtVote
    rw [dayOf, voteIn_listMoreIncVote keeps ends late, atTail _ (by simp), lastEntry_heightAddress]
    simp

end Day

end HashAhead.Vote

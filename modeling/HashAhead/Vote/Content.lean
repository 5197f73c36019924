import HashAhead.Vote.Tally

/-! What the tries of a chain have: under the key of an address its last vote, and under the keys of
a height the votes of the block of that height. -/

namespace HashAhead.Vote
open State List Option BlockVote

def VoteKey.inPrefix : VoteKey → VotePrefix → Prop
  | .address _, .address => True
  | .heightAddress _ _, .heightAddress => True
  | _, _ => False

def VoteKey.nHeight : VoteKey → UInt32
  | .heightAddress nHeight _ => nHeight
  | _ => 0

/-- A trie has what has been written over what was there before, and a walk comes to each entry
under the prefix once, in reverse from the largest height down. -/
structure VoteTrie.Keeps (trie : VoteTrie) : Prop where
  empty : ∀ key, trie.retrieve 0 key = none
  added : ∀ {hashPrevRoot mapKv hashRoot}, trie.addNewTrie hashPrevRoot mapKv = some hashRoot → ∀ key,
    trie.retrieve hashRoot key = (mapKv.lookup key <|> trie.retrieve hashPrevRoot key)
  ended : ∀ {hashPrevRoot mapKv hashRoot}, trie.addNewTrie hashPrevRoot mapKv = some hashRoot →
    ∀ under fReverse, (trie.walkThroughTrie hashRoot under fReverse).2 = true
  walked : ∀ {hashPrevRoot mapKv hashRoot}, trie.addNewTrie hashPrevRoot mapKv = some hashRoot →
    ∀ under fReverse key value, (key, value) ∈ (trie.walkThroughTrie hashRoot under fReverse).1 ↔
      key.inPrefix under ∧ trie.retrieve hashRoot key = some value
  once : ∀ {hashPrevRoot mapKv hashRoot}, trie.addNewTrie hashPrevRoot mapKv = some hashRoot →
    ∀ under fReverse, ((trie.walkThroughTrie hashRoot under fReverse).1.map Prod.fst).Nodup
  falling : ∀ {hashPrevRoot mapKv hashRoot}, trie.addNewTrie hashPrevRoot mapKv = some hashRoot →
    (trie.walkThroughTrie hashRoot .heightAddress true).1.Pairwise fun a b => b.1.nHeight ≤ a.1.nHeight

theorem IsChain.hashBlock_ne_zero {hashPrev : UInt256} {blocks : List BlockVote} (chain : IsChain hashPrev blocks)
    {block : BlockVote} (mem : block ∈ blocks) : block.hashBlock ≠ 0 :=
  fun zero => chain.zero_not_mem (zero ▸ List.mem_map_of_mem mem)

section Content
variable {trie : VoteTrie} {root : UInt256} {block : BlockVote} {before after blocks : List BlockVote}

theorem lookup_cons_ite {K V : Type} [DecidableEq K] (key key' : K) (value : V) (rest : List (K × V)) :
    ((key', value) :: rest).lookup key = if key = key' then some value else rest.lookup key := by
  rw [lookup_cons]
  split_ifs with same
  · rw [same, beq_self_eq_true]
  · rw [beq_false_of_ne same]

theorem lookup_voteEntries (nHeight : UInt32) (votes : List (Destination × VoteContext)) (key : VoteKey) :
    (voteEntries nHeight votes).lookup key = match key with
      | .address dest => (votes.lookup dest).map .vote
      | .heightAddress nHeight' dest => if nHeight' = nHeight then (votes.lookup dest).map .vote else none
      | _ => none := by
  induction votes with
  | nil => cases key <;> simp [voteEntries]
  | cons kv rest ih =>
    obtain ⟨voter, ctxtVote⟩ := kv
    unfold voteEntries at ih
    simp only [voteEntries, flatMap_cons, cons_append, nil_append, lookup_cons_ite, ih]
    cases key with
    | address dest =>
      simp only [VoteKey.address.injEq, reduceCtorEq, if_false]
      split_ifs <;> rfl
    | heightAddress nHeight' dest =>
      simp only [VoteKey.heightAddress.injEq, reduceCtorEq, if_false]
      by_cases height : nHeight' = nHeight
      · simp only [height, true_and, if_true]
        split_ifs <;> rfl
      · simp [height]
    | _ => rfl

variable {key : VoteKey}

theorem lookup_map_none {A : Type} {entry : A → VoteKey × VoteValue} (apart : ∀ a, key ≠ (entry a).1) (l : List A)
    : (l.map entry).lookup key = none := by
  rw [lookup_eq_none_iff]
  intro kv mem
  obtain ⟨a, _, rfl⟩ := List.mem_map.1 mem
  simpa using apart a

theorem BlockVote.lookup_entries (block : BlockVote) {under : VotePrefix} (vote : key.inPrefix under) :
    block.entries.lookup key = (voteEntries block.nHeight block.mapBlockVote).lookup key := by
  unfold entries
  rw [lookup_append, lookup_append, lookup_append, lookup_map_none, lookup_map_none, lookup_map_none,
    or_none, or_none, or_none]
  all_goals
    rintro kv rfl
    cases under <;> exact vote

theorem BlockVote.lookup_mapKv (block : BlockVote) (prior : UInt256) (vote : key ≠ .prevRoot) :
    (block.mapKv prior).lookup key = block.entries.lookup key := by
  unfold mapKv
  split_ifs with bare
  · rw [bare.2, lookup_cons_ite, if_neg vote]
  · rfl

def lastEntry (blocks : List BlockVote) (key : VoteKey) : Option VoteValue :=
  blocks.foldl (fun last block => block.entries.lookup key <|> last) none

theorem Built.retrieve (keeps : trie.Keeps) : ∀ {before : List BlockVote} {prior : UInt256}
    {voteRoots : List UInt256}, Built trie prior (before ++ block :: after) voteRoots →
    ∃ root, (block, root) ∈ (before ++ block :: after).zip voteRoots ∧
      (∃ hashOldRoot mapKv, trie.addNewTrie hashOldRoot mapKv = some root) ∧
      ∀ key, key ≠ .prevRoot → trie.retrieve root key =
        (before ++ [block]).foldl (fun last block => block.entries.lookup key <|> last)
          (trie.retrieve prior key) := by
  intro before
  induction before with
  | nil =>
    intro prior voteRoots built
    cases voteRoots with
    | nil => cases built
    | cons root later =>
      refine ⟨root, mem_cons_self, ⟨_, _, built.1⟩, ?_⟩
      intro key vote
      rw [keeps.added built.1, block.lookup_mapKv prior vote]
      rfl
  | cons first rest ih =>
    intro prior voteRoots built
    cases voteRoots with
    | nil => cases built
    | cons root later =>
      obtain ⟨found, mem, made, content⟩ := ih built.2
      refine ⟨found, mem_cons_of_mem _ mem, made, ?_⟩
      intro key vote
      rw [content key vote, keeps.added built.1, first.lookup_mapKv prior vote]
      rfl

theorem lastEntry_address (blocks : List BlockVote) (dest : Destination) :
    lastEntry blocks (.address dest) = (lastVote blocks dest).map .vote := by
  show blocks.foldl _ (Option.map VoteValue.vote none) = _
  apply foldl_hom (Option.map VoteValue.vote)
  intro last block
  rw [block.lookup_entries (show (VoteKey.address dest).inPrefix .address from trivial), lookup_voteEntries]
  dsimp only
  cases block.mapBlockVote.lookup dest <;> rfl

theorem lastEntry_heightAddress (blocks : List BlockVote) (nHeight : UInt32) (dest : Destination) :
    lastEntry blocks (.heightAddress nHeight dest) =
      (lastVote (blocks.filter fun block => block.nHeight = nHeight) dest).map .vote := by
  unfold lastVote
  rw [foldl_filter]
  show blocks.foldl _ (Option.map VoteValue.vote none) = _
  apply foldl_hom (Option.map VoteValue.vote)
  intro last block
  rw [block.lookup_entries (show (VoteKey.heightAddress nHeight dest).inPrefix .heightAddress from trivial),
    lookup_voteEntries]
  dsimp only
  by_cases own : block.nHeight = nHeight
  · rw [if_pos own.symm, if_pos (by simpa using own)]
    cases block.mapBlockVote.lookup dest <;> rfl
  · rw [if_neg (Ne.symm own), if_neg (by simpa using own)]
    rfl

theorem lastVote_append (first second : List BlockVote) (dest : Destination) :
    lastVote (first ++ second) dest = (lastVote second dest <|> lastVote first dest) := by
  unfold lastVote
  rw [foldl_append]
  generalize first.foldl _ none = known
  induction second using List.reverseRecOn with
  | nil => cases known <;> rfl
  | append_singleton front block ih =>
    rw [foldl_append, foldl_append, ih]
    simp only [foldl_cons, foldl_nil]
    cases block.mapBlockVote.lookup dest <;> rfl

section
variable (rising : blocks.Pairwise fun a b => a.nHeight < b.nHeight) (nHeight : Nat)
include rising

theorem filter_succ :
    (blocks.filter fun block => block.nHeight.toNat ≤ nHeight + 1) =
      (blocks.filter fun block => block.nHeight.toNat ≤ nHeight) ++
        blocks.filter fun block => block.nHeight.toNat = nHeight + 1 := by
  induction blocks with
  | nil => rfl
  | cons first rest ih =>
    obtain ⟨above, rising'⟩ := pairwise_cons.1 rising
    have later := ih rising'
    rcases Nat.lt_trichotomy first.nHeight.toNat (nHeight + 1) with low | here | high
    · rw [filter_cons_of_pos (by simp; omega), filter_cons_of_pos (by simp; omega),
        filter_cons_of_neg (by simp; omega), later, cons_append]
    · have none_lower : (rest.filter fun block => block.nHeight.toNat ≤ nHeight) = [] := by
        rw [filter_eq_nil_iff]
        intro block mem
        have lt := UInt32.lt_iff_toNat_lt.1 (above block mem)
        simp only [decide_eq_true_eq]
        omega
      rw [filter_cons_of_pos (by simp; omega), filter_cons_of_neg (by simp; omega),
        filter_cons_of_pos (by simp; omega), later, none_lower, nil_append, nil_append]
    · rw [filter_cons_of_neg (by simp; omega), filter_cons_of_neg (by simp; omega),
        filter_cons_of_neg (by simp; omega), later]

theorem voteAt_succ (dest : Destination) :
    voteAt blocks (nHeight + 1) dest =
      (lastVote (blocks.filter fun block => block.nHeight.toNat = nHeight + 1) dest <|> voteAt blocks nHeight dest) := by
  unfold voteAt
  rw [filter_succ rising, lastVote_append]

end

theorem exists_of_lastVote {dest : Destination} {ctxtVote : VoteContext} (found : lastVote blocks dest = some ctxtVote) :
    ∃ block ∈ blocks, block.mapBlockVote.lookup dest = some ctxtVote := by
  induction blocks using List.reverseRecOn with
  | nil => cases found
  | append_singleton front block ih =>
    rw [lastVote_append] at found
    rcases (orElse_eq_some _ _ _).1 found with own | ⟨_, old⟩
    · refine ⟨block, by simp, ?_⟩
      simpa [lastVote] using own
    · obtain ⟨block', mem, vote⟩ := ih old
      exact ⟨block', mem_append_left _ mem, vote⟩

theorem voteAt_block (rising : (before ++ block :: after).Pairwise fun a b => a.nHeight < b.nHeight) (dest : Destination) :
    voteAt (before ++ block :: after) block.nHeight.toNat dest = lastVote (before ++ [block]) dest := by
  obtain ⟨_, later, earlier⟩ := pairwise_append.1 rising
  have front : (before.filter fun b => b.nHeight.toNat ≤ block.nHeight.toNat) = before := by
    rw [filter_eq_self]
    intro b mem
    have lt := UInt32.lt_iff_toNat_lt.1 (earlier b mem block mem_cons_self)
    simpa using lt.le
  have back : (after.filter fun b => b.nHeight.toNat ≤ block.nHeight.toNat) = [] := by
    rw [filter_eq_nil_iff]
    intro b mem
    have lt := UInt32.lt_iff_toNat_lt.1 ((pairwise_cons.1 later).1 b mem)
    simpa using lt
  unfold voteAt
  rw [filter_append, front, filter_cons_of_pos (by simp), back]

end Content

end HashAhead.Vote

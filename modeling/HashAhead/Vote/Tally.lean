import HashAhead.Vote.DayVote
import HashAhead.Foundation.Ledger

/-! What a tally counts. The votes of a delegate are the last votes of the addresses that vote for
it, and the total is their sum. Counting the votes of a block keeps that, as long as the amounts of
the addresses add up to a 256-bit number all the while. -/

namespace HashAhead.Vote
open Foundation State List Option Function

def lastVote (blocks : List BlockVote) (dest : Destination) : Option VoteContext :=
  blocks.foldl (fun last block => block.mapBlockVote.lookup dest <|> last) none

def voteAt (blocks : List BlockVote) (nHeight : Nat) (dest : Destination) : Option VoteContext :=
  lastVote (blocks.filter fun block => block.nHeight.toNat ≤ nHeight) dest

def amountAt (blocks : List BlockVote) (nHeight : Nat) (dest : Destination) : Nat :=
  ((voteAt blocks nHeight dest).map fun ctxtVote => ctxtVote.nVoteAmount.toNat).getD 0

def VoteMap.sum (votes : VoteMap) : Nat := (votes.entries.map fun kv => kv.2.nVoteAmount.toNat).sum

/-- The votes that carry an amount are the last ones of their addresses, each with its delegate. -/
def VotesOf (full : Destination → Option DelegateVote) (last : Destination → Option VoteContext) : Prop :=
  ∀ delegate dest ctxtVote, 0 < ctxtVote.nVoteAmount →
    ((∃ entry, full delegate = some entry ∧ entry.votes.find dest = some ctxtVote) ↔
      last dest = some ctxtVote ∧ ctxtVote.destDelegate = delegate)

/-- Every total is the sum over its votes, the votes are the last ones of their addresses, and no
total was less than what was taken off it. -/
structure Tally.Counts (tally : Tally) (last : Destination → Option VoteContext) : Prop where
  totals : ∀ delegate entry, tally.full delegate = some entry → entry.total.toNat = VoteMap.sum entry.votes
  votes : VotesOf tally.full last
  exact : tally.underflow = false

/-- A last vote of an address is for its delegate and carries no more than its cap. -/
def Fits (delegateOf : Destination → Destination) (cap : Destination → Nat) (dest : Destination)
    (ctxtVote : VoteContext) : Prop :=
  ctxtVote.destDelegate = delegateOf dest ∧ ctxtVote.nVoteAmount.toNat ≤ cap dest

section Counting
variable {delegateOf : Destination → Destination} {cap : Destination → Nat} {last : Destination → Option VoteContext}
  {votes : VoteMap} {tally : Tally} {full : Destination → Option DelegateVote} {dest : Destination}
  {vote : VoteContext}

theorem VoteMap.sum_le (capped : ∀ dest vote, votes.find dest = some vote →
    vote.nVoteAmount.toNat ≤ cap dest) : VoteMap.sum votes ≤ total cap := by
  have each : ∀ kv ∈ votes.entries, kv.2.nVoteAmount.toNat ≤ cap kv.1 := by
    intro kv mem
    exact capped _ _ ((votes.find_eq_some_iff _ _).2 mem)
  calc VoteMap.sum votes ≤ (votes.entries.map fun kv => cap kv.1).sum := sum_le_sum each
    _ = ((votes.entries.map Prod.fst).map cap).sum := by rw [List.map_map]; rfl
    _ = ∑ dest ∈ (votes.entries.map Prod.fst).toFinset, cap dest := (sum_toFinset cap votes.keys_nodup).symm
    _ ≤ total cap := Finset.sum_le_sum_of_subset (Finset.subset_univ _)

theorem VoteMap.sum_insert (votes : VoteMap) (dest : Destination) (vote : VoteContext) :
    VoteMap.sum (votes.insert dest vote) + (VoteMap.amount votes dest).toNat =
      VoteMap.sum votes + vote.nVoteAmount.toNat := by
  have moved := SortedMap.sum_insert votes dest vote fun vote => vote.nVoteAmount.toNat
  have amount : (VoteMap.amount votes dest).toNat =
      ((votes.find dest).map fun vote => vote.nVoteAmount.toNat).getD 0 := by
    unfold VoteMap.amount
    cases votes.find dest <;> rfl
  rw [amount]
  exact moved

theorem moved_total {nTotal nOld nNew : UInt256} {sum sum' : Nat} (before : nTotal.toNat = sum)
    (moved : sum' + nOld.toNat = sum + nNew.toNat) (lt : sum' < 2 ^ 256) :
    (if nOld ≤ nNew then nTotal + (nNew - nOld) else nTotal - (nOld - nNew)).toNat = sum' ∧
      (nNew < nOld && nTotal < nOld - nNew) = false := by
  split_ifs with raised
  · have kept : ¬nNew < nOld := by bv_omega
    refine ⟨?_, by simp [kept]⟩
    rw [BitVec.toNat_add, BitVec.toNat_sub_of_le raised]
    have le := BitVec.le_def.1 raised
    rw [Nat.mod_eq_of_lt] <;> omega
  · have lowered : nNew ≤ nOld := by bv_omega
    have le := BitVec.le_def.1 lowered
    have diff := BitVec.toNat_sub_of_le lowered
    have enough : nOld - nNew ≤ nTotal := by
      rw [BitVec.le_def, diff]
      omega
    refine ⟨?_, by simp [enough]⟩
    rw [BitVec.toNat_sub_of_le enough, diff]
    omega

/-- Votes that are the last ones of their addresses add up without overflow if the last votes do. -/
theorem VotesOf.sum_lt (holds : VotesOf full last) (bounded : total cap < 2 ^ 256)
    (fits : ∀ dest vote, last dest = some vote → Fits delegateOf cap dest vote)
    {delegate : Destination} {entry : DelegateVote} (there : full delegate = some entry) :
    VoteMap.sum entry.votes < 2 ^ 256 := by
  apply lt_of_le_of_lt (VoteMap.sum_le _) bounded
  intro dest vote found
  by_cases positive : 0 < vote.nVoteAmount
  · exact (fits _ _ ((holds delegate dest vote positive).1 ⟨entry, there, found⟩).1).2
  · have none : vote.nVoteAmount.toNat = 0 := by bv_omega
    omega

theorem VotesOf.addVote (holds : VotesOf tally.full last)
    (steady : ∀ old, last dest = some old → old.destDelegate = vote.destDelegate) :
    VotesOf (tally.addVote (dest, vote)).full (Function.update last dest (some vote)) := by
  intro delegate dest' other positive
  have before := holds delegate dest' other positive
  unfold Tally.addVote
  dsimp only
  by_cases own : delegate = vote.destDelegate
  · subst own
    rw [update_self]
    by_cases same : dest' = dest
    · subst same
      simp only [update_self, some_inj, exists_eq_left', SortedMap.find_insert, if_true]
      exact ⟨fun eq => ⟨eq, congrArg _ eq.symm⟩, fun eq => eq.1⟩
    · rw [update_of_ne same, ← before]
      simp only [some_inj, exists_eq_left', SortedMap.find_insert, if_neg same]
      cases tally.full vote.destDelegate with
      | none => simp [SortedMap.find_empty]
      | some entry => simp
  · rw [update_of_ne own, before]
    by_cases same : dest' = dest
    · subst same
      rw [update_self]
      constructor
      · rintro ⟨found, rfl⟩
        exact absurd (steady _ found) own
      · rintro ⟨found, rfl⟩
        cases found
        exact absurd rfl own
    · rw [update_of_ne same]

theorem fits_update (fits : ∀ dest vote, last dest = some vote → Fits delegateOf cap dest vote)
    (new : Fits delegateOf cap dest vote) :
    ∀ dest' other, Function.update last dest (some vote) dest' = some other → Fits delegateOf cap dest' other := by
  intro dest' other found
  by_cases same : dest' = dest
  · subst same
    rw [update_self] at found
    cases found
    exact new
  · rw [update_of_ne same] at found
    exact fits _ _ found

theorem Tally.Counts.addVote (counts : tally.Counts last) (bounded : total cap < 2 ^ 256)
    (fits : ∀ dest vote, last dest = some vote → Fits delegateOf cap dest vote)
    (new : Fits delegateOf cap dest vote) :
    (tally.addVote (dest, vote)).Counts (Function.update last dest (some vote)) := by
  have holds := counts.votes.addVote fun old found => (fits _ _ found).1.trans new.1.symm
  have before : ((tally.full vote.destDelegate).getD ⟨.empty, 0⟩).total.toNat =
      VoteMap.sum ((tally.full vote.destDelegate).getD ⟨.empty, 0⟩).votes := by
    cases there : tally.full vote.destDelegate with
    | none => rfl
    | some entry => exact counts.totals _ _ there
  have lt := holds.sum_lt bounded (fits_update fits new) (update_self ..)
  obtain ⟨totalNow, enough⟩ := moved_total before (VoteMap.sum_insert _ dest vote) lt
  refine ⟨?_, holds, ?_⟩
  · intro delegate entry there
    by_cases own : delegate = vote.destDelegate
    · subst own
      cases (update_self ..).symm.trans there
      exact totalNow
    · exact counts.totals delegate entry ((update_of_ne own ..).symm.trans there)
  · show (tally.underflow || _) = false
    rw [counts.exact, Bool.false_or]
    exact enough

def recordVote (last : Destination → Option VoteContext) (kv : Destination × VoteContext) :
    Destination → Option VoteContext := Function.update last kv.1 (some kv.2)

theorem Tally.Counts.addVotes (more : List (Destination × VoteContext)) : ∀ {tally : Tally}
    {last : Destination → Option VoteContext}, tally.Counts last → total cap < 2 ^ 256 →
    (∀ dest vote, last dest = some vote → Fits delegateOf cap dest vote) →
    (∀ kv ∈ more, Fits delegateOf cap kv.1 kv.2) →
    (more.foldl Tally.addVote tally).Counts (more.foldl recordVote last) := by
  induction more with
  | nil => exact fun counts _ _ _ => counts
  | cons kv rest ih =>
    intro tally last counts bounded fits new
    rw [forall_mem_cons] at new
    exact ih (counts.addVote bounded fits new.1) bounded (fits_update fits new.1) new.2

theorem foldl_recordVote (entries : List (Destination × VoteContext)) (distinct : (entries.map Prod.fst).Nodup)
    (last : Destination → Option VoteContext) (dest : Destination) :
    entries.foldl recordVote last dest = ((entries.find? fun kv => kv.1 = dest).map Prod.snd <|> last dest) := by
  rw [SortedMap.read_foldl (fun last => last) (fun _ ctxtVote _ => some ctxtVote) _ distinct]
  · cases (entries.find? fun kv => kv.1 = dest).map Prod.snd <;> rfl
  · exact fun last kv dest => update_apply last kv.1 (some kv.2) dest

theorem Tally.counts_first {mapFirstFullVote : Destination → Option VoteMap} (bounded : total cap < 2 ^ 256)
    (fits : ∀ dest vote, last dest = some vote → Fits delegateOf cap dest vote)
    (listed : ∀ delegate dest vote, (mapFirstFullVote delegate).bind (·.find dest) = some vote ↔
      last dest = some vote ∧ vote.destDelegate = delegate ∧ 0 < vote.nVoteAmount) :
    (Tally.first mapFirstFullVote).Counts last := by
  have holds : VotesOf (Tally.first mapFirstFullVote).full last := by
    intro delegate dest vote positive
    have found := listed delegate dest vote
    rw [bind_eq_some_iff] at found
    simp only [Tally.first, map_eq_some_iff]
    constructor
    · rintro ⟨entry, ⟨votes, there, rfl⟩, here⟩
      have facts := found.1 ⟨votes, there, here⟩
      exact ⟨facts.1, facts.2.1⟩
    · rintro ⟨known, own⟩
      obtain ⟨votes, there, here⟩ := found.2 ⟨known, own, positive⟩
      exact ⟨_, ⟨votes, there, rfl⟩, here⟩
  refine ⟨?_, holds, rfl⟩
  intro delegate entry there
  have lt := holds.sum_lt bounded fits there
  obtain ⟨votes, _, rfl⟩ := map_eq_some_iff.1 there
  exact (toNat_foldl_add _ votes.entries 0 (by simpa [VoteMap.sum] using lt)).trans (Nat.zero_add _)

end Counting

end HashAhead.Vote

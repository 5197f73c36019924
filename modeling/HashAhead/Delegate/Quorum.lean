import HashAhead.Delegate.Replay
import HashAhead.Mpvss.Commitment

/-! What stands behind a proof that passes. Shares count as different if their words differ, while the check
of a share looks at its residue. A participant that publishes two words for one share counts twice, and the
dealer's secret comes out wrong. -/

namespace HashAhead.Delegate
open Foundation State Chain Mpvss List Option DelegateVote SortedMap

section Published

def sharesOf (s : SecretShare) (nIdent : UInt256) (vPublish : List DelegateData) : List (UInt32 × UInt256) :=
  vPublish.flatMap fun data => ((s.getParticipantRange data.nIdentFrom).bind fun range =>
    (data.mapShare.find nIdent).map (SecretShare.withIndex range.1)).getD []

def publishers (nIdent : UInt256) (vPublish : List DelegateData) : Finset UInt256 :=
  ((vPublish.filter fun data => (data.mapShare.find nIdent).isSome).map DelegateData.nIdentFrom).toFinset

def weightOf (s : SecretShare) (nIdent : UInt256) : ℕ := ((s.getParticipantRange nIdent).map Prod.snd).getD 0

/-- The first different words that are published of a dealer, as many as are needed, are for different
indexes. -/
def Unambiguous (s : SecretShare) (vPublish : List DelegateData) (nIdent : UInt256) : Prop :=
  0 < weightOf s nIdent → s.nThresh ≤ (firstSeen (sharesOf s nIdent vPublish)).length →
    (((firstSeen (sharesOf s nIdent vPublish)).take s.nThresh).map Prod.fst).Nodup

structure Collected (curve : Curve) (wire : Wire) (start s : SecretShare) (vPublish : List DelegateData) : Prop where
  same : s = { start with mapOpenedShare := s.mapOpenedShare }
  opened : ∀ nIdent, (s.mapOpenedShare.find nIdent).getD [] =
    (firstSeen (sharesOf start nIdent vPublish)).take start.nThresh
  checked : ∀ data ∈ vPublish, ∃ range, start.getParticipantRange data.nIdentFrom = some range ∧
    ∀ nIdent vShare, data.mapShare.find nIdent = some vShare →
      start.verifyPublished curve range.1 range.2 (nIdent, vShare) = true
  signed : ∀ data ∈ vPublish, start.verifySignature curve data.nIdentFrom (wire.shareHash data.mapShare) data.nR data.nS =
    true

variable {curve : Curve} {wire : Wire} {start s s' : SecretShare} {sent : List DelegateData} {data : DelegateData}

theorem collect_eq_true {nIdentFrom : UInt256} {mapShare : ShareMap} {once : Bool}
    (collected : s.collect curve nIdentFrom mapShare once = (true, s')) :
    ∃ range, s.getParticipantRange nIdentFrom = some range ∧
      mapShare.entries.all (s.verifyPublished curve range.1 range.2) = true ∧
      s' = { s with mapOpenedShare := s.openAll range.1 once mapShare } := by
  unfold SecretShare.collect at collected
  cases found : s.getParticipantRange nIdentFrom with
  | none =>
    rw [found] at collected
    cases collected
  | some range =>
    rw [found] at collected
    simp only at collected
    split_ifs at collected with checked
    · cases collected
      exact ⟨range, rfl, checked, rfl⟩
    · cases collected

theorem Collected.step (before : Collected curve wire start s sent)
    (signature : s.verifySignature curve data.nIdentFrom (wire.shareHash data.mapShare) data.nR data.nS = true)
    (collected : s.collect curve data.nIdentFrom data.mapShare true = (true, s')) :
    Collected curve wire start s' (sent ++ [data]) := by
  obtain ⟨range, found, checked, rfl⟩ := collect_eq_true collected
  have same := before.same
  rw [same] at found checked signature
  have found' : start.getParticipantRange data.nIdentFrom = some range := found
  have nThresh : s.nThresh = start.nThresh := by rw [same]
  refine ⟨?_, fun id => ?_, ?_, ?_⟩
  · rw [same]
  · rw [SecretShare.find_openAll, before.opened, nThresh, sharesOf, sharesOf, flatMap_append, flatMap_singleton, found',
      bind_some]
    cases given : data.mapShare.find id with
    | none =>
      rw [map_none, map_none, none_or, getD_none, append_nil]
      exact before.opened id
    | some vShare =>
      rw [map_some, map_some, some_or, getD_some, getD_some]
      exact fill_once _ _ _
  · intro other mem
    rcases mem_append.1 mem with inside | last
    · exact before.checked other inside
    · cases mem_singleton.1 last
      refine ⟨range, found', fun id vShare given => ?_⟩
      exact List.all_eq_true.1 checked (id, vShare) ((find_eq_some_iff _ _ _).1 given)
  · intro other mem
    rcases mem_append.1 mem with inside | last
    · exact before.signed other inside
    · cases mem_singleton.1 last
      exact signature

theorem Collected.loop {rest : List DelegateData} {vote after : DelegateVote}
    (before : Collected curve wire start vote.witness sent)
    (collected : collectAll curve wire true rest vote = (true, after)) :
    Collected curve wire start after.witness (sent ++ rest) := by
  induction rest generalizing vote sent with
  | nil =>
    cases collected
    rw [append_nil]
    exact before
  | cons data rest ih =>
    rw [collectAll] at collected
    split_ifs at collected with unsigned
    · cases collected
    · simp only at collected
      split_ifs at collected with accepted
      · rw [append_cons]
        apply ih (before.step (by simpa [verifySignature] using unsigned) (Prod.ext accepted rfl)) collected
      · cases collected

section
variable (collected : Collected curve wire start s sent) (some : 0 < start.nThresh) (nIdent : UInt256)
include collected some

theorem Collected.find_opened (enough : start.nThresh ≤ (firstSeen (sharesOf start nIdent sent)).length) :
    s.mapOpenedShare.find nIdent = .some ((firstSeen (sharesOf start nIdent sent)).take start.nThresh) :=
  SecretShare.find_opened (collected.opened nIdent) some enough

theorem Collected.find_reconstruct : s.reconstruct.find nIdent =
    if 0 < weightOf start nIdent ∧ start.nThresh ≤ (firstSeen (sharesOf start nIdent sent)).length then
      .some (mpNewton ((firstSeen (sharesOf start nIdent sent)).take start.nThresh), weightOf start nIdent)
    else none := by
  have nThresh : s.nThresh = start.nThresh := by rw [collected.same]
  have range : s.getParticipantRange nIdent = start.getParticipantRange nIdent := by
    rw [collected.same]
    rfl
  rw [SecretShare.find_reconstruct, nThresh, range]
  by_cases enough : start.nThresh ≤ (firstSeen (sharesOf start nIdent sent)).length
  · rw [collected.find_opened some nIdent enough, bind_some, if_pos (length_take_of_le enough)]
    simp only [enough, and_true, weightOf]
    cases start.getParticipantRange nIdent <;> rfl
  · rw [if_neg fun both => enough both.2]
    cases here : s.mapOpenedShare.find nIdent with
    | none => rfl
    | some vShare =>
      have opened := collected.opened nIdent
      rw [here, getD_some] at opened
      rw [bind_some, if_neg]
      rw [opened, length_take]
      omega

end

theorem mem_sharesOf {id : UInt256} {share : UInt32 × UInt256} (mem : share ∈ sharesOf start id sent) :
    ∃ data ∈ sent, ∃ range vShare, start.getParticipantRange data.nIdentFrom = some range ∧
      data.mapShare.find id = some vShare ∧ ∃ i < vShare.length, share.1 = .ofNat (range.1 + i) ∧
        vShare[i]? = some share.2 := by
  obtain ⟨data, inside, here⟩ := mem_flatMap.1 mem
  cases known : start.getParticipantRange data.nIdentFrom with
  | none => simp [known] at here
  | some range =>
    cases given : data.mapShare.find id with
    | none => simp [known, given] at here
    | some vShare =>
      rw [known, bind_some, given, map_some, getD_some, SecretShare.withIndex] at here
      obtain ⟨⟨value, i⟩, listed, rfl⟩ := List.mem_map.1 here
      have entry : vShare[i]? = some value := mem_zipIdx_iff_getElem?.1 listed
      obtain ⟨less, _⟩ := List.getElem?_eq_some_iff.1 entry
      exact ⟨data, inside, range, vShare, known, given, i, less, rfl, entry⟩

/-- Different indexes need as much weight. -/
theorem Collected.quorum (collected : Collected curve wire start s sent) {id : UInt256}
    {used : List (UInt32 × UInt256)} (members : ∀ share ∈ used, share ∈ sharesOf start id sent)
    (distinct : (used.map Prod.fst).Nodup) : used.length ≤ ∑ p ∈ publishers id sent, weightOf start p := by
  let taken (p : UInt256) : Finset UInt32 :=
    (Finset.range (weightOf start p)).image fun i => .ofNat (((start.getParticipantRange p).map Prod.fst).getD 0 + i)
  have inside : (used.map Prod.fst).toFinset ⊆ (publishers id sent).biUnion taken := by
    intro x mem
    rw [List.mem_toFinset] at mem
    obtain ⟨share, chosen, rfl⟩ := List.mem_map.1 mem
    obtain ⟨data, given, range, vShare, known, found, i, less, index, _⟩ := mem_sharesOf (members share chosen)
    obtain ⟨range', known', checked⟩ := collected.checked data given
    rw [known] at known'
    cases known'
    have length : vShare.length = range.2 := by
      have passed := checked id vShare found
      rw [SecretShare.verifyPublished, Bool.and_eq_true] at passed
      exact of_decide_eq_true passed.1
    apply Finset.mem_biUnion.2
    refine ⟨data.nIdentFrom, ?_, ?_⟩
    · rw [publishers, List.mem_toFinset]
      apply List.mem_map_of_mem
      rw [mem_filter, found]
      exact ⟨given, rfl⟩
    · simp only [taken, weightOf, known, map_some, getD_some]
      exact Finset.mem_image.2 ⟨i, Finset.mem_range.2 (length ▸ less), index.symm⟩
  calc used.length
    _ = (used.map Prod.fst).toFinset.card := by rw [toFinset_card_of_nodup distinct, length_map]
    _ ≤ ((publishers id sent).biUnion taken).card := Finset.card_le_card inside
    _ ≤ ∑ p ∈ publishers id sent, (taken p).card := Finset.card_biUnion_le
    _ ≤ ∑ p ∈ publishers id sent, weightOf start p := by
      apply Finset.sum_le_sum
      intro p _
      exact Finset.card_image_le.trans_eq (Finset.card_range _)

end Published

section Enrolled
variable {curve : Curve} {wire : Wire} {start s : SecretShare} {sent : List DelegateData}
variable {candidates : List Candidate}

theorem ownShares_eq_none {nIndexIn nCount : ℕ} (empty : start.myBox.vCoeff = []) (some : 0 < nCount) :
    start.ownShares nIndexIn nCount = none := by
  have nothing : ∀ nX, start.myBox.polynomial start.nThresh nX = none := by
    intro nX
    rw [OpenedBox.polynomial, if_pos (Or.inl (by simp [OpenedBox.isNull, empty]))]
  obtain ⟨n, rfl⟩ := Nat.exists_eq_succ_of_ne_zero some.ne'
  rw [SecretShare.ownShares, range_succ_eq_map, mapM_cons, nothing]
  rfl

section
variable {id : UInt256} {share : UInt32 × UInt256} (enrolled : Enrolled curve 0 ⟨[], 0⟩ candidates start)
include enrolled

theorem verified_of_collected (collected : Collected curve wire start s sent)
    (mem : share ∈ sharesOf start id sent) : ∃ p, start.mapParticipant.find id = some p ∧
      p.candidate.sBox.verifyPolynomial curve share.1 share.2 = true := by
  obtain ⟨data, given, range, vShare, known, found, i, less, index, value⟩ := mem_sharesOf mem
  obtain ⟨range', known', checked⟩ := collected.checked data given
  rw [known] at known'
  cases known'
  have passed := checked id vShare found
  rw [SecretShare.verifyPublished, Bool.and_eq_true] at passed
  have passed := passed.2
  split_ifs at passed with own
  · rw [ownShares_eq_none (by rw [enrolled.myBox]) (Nat.zero_lt_of_lt less)] at passed
    cases of_decide_eq_true passed
  · cases entry : start.mapParticipant.find id with
    | none =>
      rw [entry] at passed
      cases passed
    | some p =>
      rw [entry] at passed
      have all := List.all_eq_true.1 passed (share.2, i) (mem_zipIdx_iff_getElem?.2 value)
      rw [← index] at all
      exact ⟨p, rfl, all⟩

section
variable (fresh : ∀ c ∈ candidates, c.sBox.vEncryptedShare = []) (collected : Collected curve wire start s sent)
include fresh collected

theorem fits_of_collected (mem : share ∈ sharesOf start id sent) :
    ∃ p, start.mapParticipant.find id = some p ∧ InTable share.1 ∧
      ∑ i ∈ Finset.range start.nThresh, share.1.toNat ^ i • p.candidate.sBox.coeffPoint curve i =
        share.2.toNat • curve.base := by
  obtain ⟨p, found, verified⟩ := verified_of_collected enrolled collected mem
  refine ⟨p, found, ?_⟩
  by_cases listed : id ∈ candidates.map Candidate.nIdent
  · obtain ⟨c, inside, rfl⟩ := List.mem_map.1 listed
    rw [enrolled.entry c inside] at found
    obtain ⟨q, assigned, rfl⟩ := map_eq_some_iff.1 found
    unfold assignedEntry at assigned
    split_ifs at assigned with new
    cases assigned
    have few : start.nThresh ≤ 1 → lastIndex curve 0 candidates ≤ 52 := by
      have word : lastIndex curve 0 candidates < 2 ^ 64 := Nat.mod_lt _ (by decide)
      rw [enrolled.nThresh, enrollThresh]
      omega
    have positive : 0 < start.nThresh := by
      rw [enrolled.nThresh]
      exact Nat.succ_pos _
    have fit := fits_of_verified (fresh c inside) positive few (enrolled.readable c inside new) verified
    exact fit
  · rw [enrolled.other id listed] at found
    cases found

/-- Shares at different indexes give the secret that their dealer has committed to. -/
theorem commits_of_collected {used : List (UInt32 × UInt256)}
    (members : ∀ share ∈ used, share ∈ sharesOf start id sent) (length : used.length = start.nThresh)
    (distinct : (used.map Prod.fst).Nodup) :
    ∃ p, start.mapParticipant.find id = some p ∧ Commits curve (p.candidate.sBox.coeffPoint curve 0) (mpNewton used) := by
  have positive : 0 < used.length := by
    rw [length, enrolled.nThresh]
    exact Nat.succ_pos _
  obtain ⟨p, found, _⟩ := fits_of_collected enrolled fresh collected (members _ (getElem_mem positive))
  have fits : ∀ share ∈ used, InTable share.1 ∧
      ∑ i ∈ Finset.range start.nThresh, share.1.toNat ^ i • p.candidate.sBox.coeffPoint curve i =
        share.2.toNat • curve.base := by
    intro share chosen
    obtain ⟨q, found', fit⟩ := fits_of_collected enrolled fresh collected (members share chosen)
    rw [found] at found'
    cases found'
    exact fit
  refine ⟨p, found, ?_⟩
  apply commits_of_fitting (C := fun i => p.candidate.sBox.coeffPoint curve i) positive
    (fun share chosen => (fits share chosen).1) distinct
  rw [length]
  exact fun share chosen => (fits share chosen).2

end

end

end Enrolled

section Verifier
variable {curve : Curve} {wire : Wire}

theorem toHash_injective : Function.Injective toHash := by
  intro a b same
  have value := congrArg BitVec.toNat same
  have small := a.isLt
  have small' := b.isLt
  simp only [toHash, BitVec.toNat_shiftLeft, BitVec.toNat_setWidth, Nat.shiftLeft_eq] at value
  apply BitVec.eq_of_toNat_eq
  omega

theorem map_filterMap_sublist {α β γ : Type} {f : α → Option β} {g : β → γ} {h : α → γ} {l : List α}
    (named : ∀ x y, f x = some y → g y = h x) : ((l.filterMap f).map g).Sublist (l.map h) := by
  induction l with
  | nil => exact List.Sublist.refl _
  | cons x l ih =>
    cases made : f x with
    | none =>
      rw [filterMap_cons_none made, map_cons]
      exact ih.cons _
    | some y =>
      rw [filterMap_cons_some made, map_cons, map_cons, named x y made]
      exact ih.cons_cons _

theorem candidates_distinct {wire : Wire} (mapWeight : DestMap ℕ) (mapEnrollData : DestMap wire.Bytes) :
    ((candidates wire mapWeight mapEnrollData).map Candidate.nIdent).Nodup := by
  have idents : ((candidates wire mapWeight mapEnrollData).map Candidate.nIdent).Sublist
      ((mapWeight.entries.map Prod.fst).map toHash) := by
    rw [List.map_map, candidates]
    apply map_filterMap_sublist
    intro kv c made
    obtain ⟨data, _, made⟩ := bind_eq_some_iff.1 made
    obtain ⟨parts, _, rfl⟩ := map_eq_some_iff.1 made
    rfl
  exact (mapWeight.keys_nodup.map toHash_injective).sublist idents

theorem candidates_fresh (wire : Wire) (mapWeight : DestMap ℕ) (mapEnrollData : DestMap wire.Bytes) :
    ∀ c ∈ candidates wire mapWeight mapEnrollData, c.sBox.vEncryptedShare = [] := by
  intro c mem
  obtain ⟨kv, _, made⟩ := mem_filterMap.1 mem
  obtain ⟨data, _, made⟩ := bind_eq_some_iff.1 made
  obtain ⟨parts, _, rfl⟩ := map_eq_some_iff.1 made
  rfl

def proofData (wire : Wire) (nProofWeight : UInt8) (nProofAgreement : UInt256) (btProofDelegateData : wire.Bytes) :
    List DelegateData :=
  if nProofWeight = 0 ∧ nProofAgreement = 0 then [] else (wire.readProof btProofDelegateData).getD []

/-- What a secret of the agreement should have behind it: shares at different indexes, publishers of enough
weight, and a dealer that has committed to it. -/
structure Backed (curve : Curve) (verifier after : SecretShare) (vPublish : List DelegateData) (nIdent secret : UInt256) :
    Prop where
  indexes : ∀ vShare, after.mapOpenedShare.find nIdent = some vShare → (vShare.map Prod.fst).Nodup
  quorum : verifier.nThresh ≤ ∑ p ∈ publishers nIdent vPublish, weightOf verifier p
  committed : ∃ p, verifier.mapParticipant.find nIdent = some p ∧
    Commits curve (p.candidate.sBox.coeffPoint curve 0) secret

theorem collected_of_verified {peer after : DelegateVote} {nProofWeight : UInt8} {nProofAgreement : UInt256}
    {proof : wire.Bytes} {agreement : Option Agreement} (empty : peer.witness.mapOpenedShare = .empty)
    (verified : peer.verifyProof curve wire nProofWeight nProofAgreement proof true =
      (true, agreement, after)) : Collected curve wire peer.witness after.witness
        (proofData wire nProofWeight nProofAgreement proof) := by
  have start : Collected curve wire peer.witness peer.witness [] := by
    refine ⟨rfl, fun id => ?_, nofun, nofun⟩
    rw [empty]
    exact (take_nil (i := peer.witness.nThresh)).symm
  unfold verifyProof at verified
  unfold proofData
  split_ifs at verified ⊢ with zero
  · cases verified
    exact start
  · cases read : wire.readProof proof with
    | none =>
      rw [read] at verified
      cases verified
    | some sent =>
      rw [read] at verified
      simp only at verified
      split_ifs at verified with accepted
      · have end' : (collectAll curve wire true sent peer).2 = after :=
          congrArg (fun result => result.2.2) verified
        have loop := start.loop (Prod.ext accepted rfl : collectAll curve wire true sent peer =
          (true, (collectAll curve wire true sent peer).2))
        rw [end'] at loop
        exact loop
      · cases verified

end Verifier

/-- A proof that passes with the repeat check on has a quorum and the committed secret behind each secret of
the agreement if and only if the first different words published of a dealer, as many as are needed, are for
different indexes. All publications are signed by their senders. -/
theorem proof_backed_iff (curve : Curve) (wire : Wire) (mapDelegate : DestMap SecretShare) (mapWeight : DestMap ℕ)
    (mapEnrollData : DestMap wire.Bytes) (verifier : DelegateVote)
    (enrolled : (DelegateVote.create mapDelegate).enroll curve wire mapWeight mapEnrollData = some verifier)
    (nProofWeight : UInt8) (nProofAgreement : UInt256) (btProofDelegateData : wire.Bytes) (agreement : Option Agreement)
    (after : DelegateVote)
    (verified : verifier.verifyProof curve wire nProofWeight nProofAgreement btProofDelegateData true =
      (true, agreement, after)) :
    ((∀ nIdent secret nWeight, after.witness.reconstruct.find nIdent = some (secret, nWeight) →
        Backed curve verifier.witness after.witness (proofData wire nProofWeight nProofAgreement btProofDelegateData)
          nIdent secret) ↔
      ∀ nIdent, Unambiguous verifier.witness (proofData wire nProofWeight nProofAgreement btProofDelegateData) nIdent) ∧
    ∀ data ∈ proofData wire nProofWeight nProofAgreement btProofDelegateData,
      verifier.verifySignature curve wire data = true := by
  have witness : Enrolled curve 0 ⟨[], 0⟩ (candidates wire mapWeight mapEnrollData) verifier.witness := by
    obtain ⟨witness, enrolls, rest⟩ := bind_eq_some_iff.1 enrolled
    obtain ⟨delegates, _, rfl⟩ := map_eq_some_iff.1 rest
    exact ((enroll_succeeds (candidates_distinct mapWeight mapEnrollData)).of_some enrolls).2
  have fresh := candidates_fresh wire mapWeight mapEnrollData
  have collected := collected_of_verified witness.opened verified
  generalize proofData wire nProofWeight nProofAgreement btProofDelegateData = vPublish at collected ⊢
  have some : 0 < verifier.witness.nThresh := by
    rw [witness.nThresh]
    exact Nat.succ_pos _
  refine ⟨⟨fun backed nIdent positive enough => ?_, fun unambiguous nIdent secret nWeight found => ?_⟩, collected.signed⟩
  · have found := (collected.find_reconstruct some nIdent).trans (if_pos ⟨positive, enough⟩)
    exact (backed nIdent _ _ found).indexes _ (collected.find_opened some nIdent enough)
  · rw [collected.find_reconstruct some] at found
    split_ifs at found with both
    cases found
    obtain ⟨positive, enough⟩ := both
    have distinct := unambiguous nIdent positive enough
    have length := length_take_of_le enough
    have members : ∀ share ∈ (firstSeen (sharesOf verifier.witness nIdent vPublish)).take verifier.witness.nThresh,
        share ∈ sharesOf verifier.witness nIdent vPublish :=
      fun share chosen => mem_firstSeen.1 (mem_of_mem_take chosen)
    refine ⟨fun vShare here => ?_, ?_, commits_of_collected witness fresh collected members length distinct⟩
    · rw [collected.find_opened some nIdent enough] at here
      cases here
      exact distinct
    · have quorum := collected.quorum members distinct
      rw [length] at quorum
      exact quorum

namespace Sample

def first : Dealer := Mpvss.Sample.dealer (toHash 1) ⟨[3, 5], 7⟩

def second : Dealer := Mpvss.Sample.dealer (toHash 2) ⟨[4, 6], 9⟩

def pairWeight : DestMap ℕ := (SortedMap.empty.insert 1 1).insert 2 1

def pairEnrollData : DestMap wire.Bytes :=
  (SortedMap.empty.insert 1 (enrollBytes first.sealed)).insert 2 (enrollBytes second.sealed)

theorem pair_honest : Honest residueCurve [first, second] :=
  Mpvss.Sample.pair_honest (by decide) (by decide) (by decide)

theorem candidates_pair (box box' : OpenedBox) : candidates wire pairWeight
      ((SortedMap.empty.insert 1 (enrollBytes (Mpvss.Sample.dealer (toHash 1) box).sealed)).insert 2
        (enrollBytes (Mpvss.Sample.dealer (toHash 2) box').sealed)) =
    candidatesOf [Mpvss.Sample.dealer (toHash 1) box, Mpvss.Sample.dealer (toHash 2) box'] := by
  have entries : pairWeight.entries = [(1, 1), (2, 1)] := rfl
  have apart : (1 : Destination) ≠ 2 := by decide
  rw [candidates, entries]
  simp only [filterMap_cons, filterMap_nil, find_insert, apart, if_true, if_false]
  rfl

theorem sharesFor_first : sharesFor [first, second] first first = [8] := by
  have index : sharesFor [first, second] first first = [shareAt [first, second] first 1] := rfl
  have value : shareAt [first, second] first 1 = toWord (∑ i ∈ Finset.range 2, ofWord ([3, 5].getD i 0) * node 1 ^ i) :=
    congrArg toWord (OpenedBox.eval_secretPolynomial _ _ _)
  rw [index, value, Finset.sum_range_succ, Finset.sum_range_one, pow_zero, pow_one, mul_one]
  decide +kernel

theorem verifyProof_of_recovered {peer after : DelegateVote} {sent : List DelegateData} {id : UInt256}
    {secret : UInt256 × ℕ} (collected : collectAll residueCurve wire true sent peer = (true, after))
    (recovered : after.witness.reconstruct.find id = some secret) :
    peer.verifyProof residueCurve wire 1 1 (wire.writeProof sent) true =
      (true, some (after.getAgreement wire), after) := by
  have nonzero : ¬((1 : UInt8) = 0 ∧ (1 : UInt256) = 0) := by decide
  rw [verifyProof, if_neg nonzero, wire.read_write]
  simp only [collected, if_true, agreement_eq_one recovered, decide_true]

/-- The share of the first dealer at its own index, and another word for it. -/
def word (again : Bool) : UInt256 := if again then 8 + BitVec.ofNat 256 groupOrder else 8

def share (again : Bool) : ShareMap := SortedMap.empty.insert first.nIdent [word again]

def twice : List DelegateData := [published first (share false), published first (share true)]

theorem collect_share {s : SecretShare} (stands : Stands residueCurve [first, second] 0 [] s)
    (opened : SortedMap UInt256 (List (UInt32 × UInt256)) identOrder) (again : Bool) :
    ({ s with mapOpenedShare := opened } : SecretShare).collect residueCurve first.nIdent (share again) true =
      (true, { s with
        mapOpenedShare := ({ s with mapOpenedShare := opened } : SecretShare).openAll 1 true (share again) }) := by
  obtain ⟨vShare, _, found⟩ := stands.entry first mem_cons_self (by decide)
  have range : ({ s with mapOpenedShare := opened } : SecretShare).getParticipantRange first.nIdent = some (1, 1) :=
    stands.range first mem_cons_self
  have same : ofWord (word again) = ofWord 8 := by cases again <;> decide +kernel
  have verified := pair_honest.verifyShare_eq s.myBox vShare mem_cons_self mem_cons_self
  rw [sharesFor_first] at verified
  have passes : (share again).entries.all
      (({ s with mapOpenedShare := opened } : SecretShare).verifyPublished residueCurve 1 1) = true := by
    have entries : (share again).entries = [(first.nIdent, [word again])] := rfl
    have away : first.nIdent ≠ s.nIdent := by
      rw [stands.nIdent]
      decide
    rw [entries, all_cons, all_nil, Bool.and_true, SecretShare.verifyPublished]
    simp only [away, found, if_false, length_cons, length_nil, decide_true, Bool.true_and]
    rw [Participant.verifyShare, zipIdx_singleton, all_cons, all_nil, Bool.and_true] at verified ⊢
    rw [SealedBox.verifyPolynomial, Curve.mpEccPubkey_eq] at verified ⊢
    rwa [same]
  rw [SecretShare.collect, range]
  simp only [passes, if_true]

def openedTwice (s : SecretShare) : SortedMap UInt256 (List (UInt32 × UInt256)) identOrder :=
  ({ s with mapOpenedShare := s.openAll 1 true (share false) } : SecretShare).openAll 1 true (share true)

theorem collectAll_twice {peer : DelegateVote} (stands : Stands residueCurve [first, second] 0 [] peer.witness) :
    collectAll residueCurve wire true twice peer =
      (true, { peer with
        witness := { peer.witness with mapOpenedShare := openedTwice peer.witness } }) := by
  have signed (again : Bool) (opened : SortedMap UInt256 (List (UInt32 × UInt256)) identOrder) :
      ({ peer with witness := { peer.witness with mapOpenedShare := opened } } : DelegateVote).verifySignature
        residueCurve wire (published first (share again)) = true :=
    published_signed pair_honest stands mem_cons_self (share again)
  have one := collect_share stands peer.witness.mapOpenedShare false
  have two := collect_share stands (peer.witness.openAll 1 true (share false)) true
  rw [twice, collectAll_cons (signed false peer.witness.mapOpenedShare) one, collectAll_cons (signed true _) two,
    collectAll]
  rfl

theorem find_openedTwice {s : SecretShare} (empty : s.mapOpenedShare = .empty) (two : s.nThresh = 2) :
    (openedTwice s).find first.nIdent = some [(1, 8), (1, 8 + BitVec.ofNat 256 groupOrder)] := by
  have found (again : Bool) : (share again).find first.nIdent = some [word again] := by
    rw [share, find_insert, if_pos rfl]
  rw [openedTwice, SecretShare.find_openAll, found, SecretShare.find_openAll, found, empty, two, find_empty]
  decide +kernel

/-- The dealer has weight 1 where 2 is needed, and its secret is 3. Its share is used twice and 8 comes out. -/
theorem proof_backed_twice : ∃ verifier after : DelegateVote,
    (DelegateVote.create .empty).enroll residueCurve wire pairWeight pairEnrollData = some verifier ∧
    verifier.verifyProof residueCurve wire 1 1 (wire.writeProof twice) true = (true, some (after.getAgreement wire), after) ∧
    after.witness.reconstruct.find first.nIdent = some (8, 1) ∧ first.box.vCoeff.head? = some 3 ∧
    verifier.witness.nThresh = 2 ∧ ∑ p ∈ publishers first.nIdent twice, weightOf verifier.witness p = 1 ∧
    ¬Backed residueCurve verifier.witness after.witness (proofData wire 1 1 (wire.writeProof twice)) first.nIdent 8 := by
  obtain ⟨verifier, enrolled, _, empty, stands⟩ := enroll_honest pair_honest (candidates_pair _ _)
  have two : verifier.witness.nThresh = 2 := stands.nThresh.trans (Mpvss.Sample.threshold_pair _ _ _ _)
  have range : verifier.witness.getParticipantRange first.nIdent = some (1, 1) := stands.range first mem_cons_self
  have weight : ∑ p ∈ publishers first.nIdent twice, weightOf verifier.witness p = 1 := by
    have self : publishers first.nIdent twice = {first.nIdent} := by decide +kernel
    rw [self, Finset.sum_singleton, weightOf, range]
    rfl
  let after : DelegateVote := { verifier with
    witness := { verifier.witness with mapOpenedShare := openedTwice verifier.witness } }
  have secret : after.witness.reconstruct.find first.nIdent = some (8, 1) := by
    have range' : after.witness.getParticipantRange first.nIdent = some (1, 1) := range
    have value : mpNewton [(1, 8), (1, 8 + BitVec.ofNat 256 groupOrder)] = 8 := by decide +kernel
    have full : [((1 : UInt32), (8 : UInt256)), (1, 8 + BitVec.ofNat 256 groupOrder)].length = after.witness.nThresh :=
      two.symm
    rw [SecretShare.find_reconstruct, find_openedTwice empty two, bind_some, range', bind_some, if_pos full,
      if_pos Nat.one_pos, value]
  refine ⟨verifier, after, enrolled, verifyProof_of_recovered (collectAll_twice stands) secret, secret, rfl, two, weight,
    fun backed => ?_⟩
  have quorum : verifier.witness.nThresh ≤ ∑ p ∈ publishers first.nIdent twice, weightOf verifier.witness p :=
    backed.quorum
  omega

/-- A delegate that is alone publishes its share. -/
theorem proof_backed_alone : ∃ verifier after : DelegateVote,
    (DelegateVote.create .empty).enroll residueCurve wire mapWeight mapEnrollData = some verifier ∧
    verifier.verifyProof residueCurve wire 1 1 (wire.writeProof [data]) true =
      (true, some (after.getAgreement wire), after) ∧
    Backed residueCurve verifier.witness after.witness (proofData wire 1 1 (wire.writeProof [data])) (toHash 1) 3 := by
  obtain ⟨verifier, enrolled, _, _, stands⟩ := enroll_honest only_honest candidates_only
  obtain ⟨s, collects, secret⟩ := collect_only stands
  have signed : verifier.verifySignature residueCurve wire data = true :=
    published_signed only_honest stands mem_cons_self _
  have collected : DelegateVote.collectAll residueCurve wire true [data] verifier =
      (true, { verifier with witness := s }) := by
    rw [collectAll_cons signed collects, DelegateVote.collectAll]
  have verified := verifyProof_of_recovered collected secret
  refine ⟨verifier, _, enrolled, verified, ?_⟩
  apply (proof_backed_iff residueCurve wire .empty mapWeight mapEnrollData verifier enrolled 1 1 _ _ _ verified).1.2 _ _ _ _
    secret
  intro nIdent _ _
  have one : verifier.witness.nThresh = 1 := stands.nThresh
  rw [one]
  -- a single share cannot repeat an index
  cases firstSeen (sharesOf verifier.witness nIdent (proofData wire 1 1 (wire.writeProof [data]))) with
  | nil => exact nodup_nil
  | cons share rest => exact nodup_singleton _

end Sample

end HashAhead.Delegate

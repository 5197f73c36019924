import HashAhead.Delegate.Quorum

/-! Whether the shares of an enrolled dealer can be checked. The threshold comes from all candidates that are kept,
while a dealer may bring any number of coefficients. With fewer than the threshold the check reads past them. -/

namespace HashAhead.Delegate
open Foundation State Chain Mpvss List DelegateVote

/-- `PrecalcPolynomial` finds all coefficients and all powers that it reads, and the values that shares are compared
with are those of the dealer's own polynomial. -/
structure Checkable (curve : Curve) (box : SealedBox) (nThresh nLastIndex : ℕ) : Prop where
  coefficients : nThresh ≤ box.vEncryptedCoeff.length
  table : ∀ nX i, 1 ≤ nX → nX < nLastIndex → 1 ≤ i → i < nThresh → nX - 1 < 51 ∧ i - 1 < 26
  values : ∀ nX, 1 ≤ nX → nX < nLastIndex →
    (box.precalcPolynomial curve nThresh nLastIndex).vEncryptedShare[nX]? =
      some (curve.pack (∑ i ∈ Finset.range nThresh, nX ^ i • box.coeffPoint curve i))

theorem checkable_iff {curve : Curve} {box : SealedBox} {nThresh nLastIndex : ℕ} (positive : 0 < nThresh)
    (low : nThresh ≤ 27) (few : nLastIndex ≤ 52) :
    Checkable curve box nThresh nLastIndex ↔ nThresh ≤ box.vEncryptedCoeff.length := by
  refine ⟨Checkable.coefficients, fun enough => ⟨enough, by omega, fun nX one inside => ?_⟩⟩
  have first : box.coeffPoint curve 0 = nX ^ 0 • box.coeffPoint curve 0 := by rw [pow_zero, one_smul]
  rw [SealedBox.precalcPolynomial, List.getElem?_map, List.getElem?_range inside, Option.map_some, if_neg (by omega),
    first, foldl_range'_eq_sum (g := fun i => nX ^ i • box.coeffPoint curve i) positive]
  intro i lowI highI
  rw [naturalPowTable_eq one (by omega) lowI (by omega)]

section Selected
variable {wire : Wire} {mapWeight : DestMap ℕ} (mapEnrollData : DestMap wire.Bytes)

theorem totalWeight_of_ones {candidates : List Candidate} (ones : ∀ c ∈ candidates, c.nWeight = 1) :
    totalWeight candidates = candidates.length := by
  rw [totalWeight, map_congr_left ones, map_const', sum_replicate, smul_eq_mul, mul_one]

theorem candidates_weight (ones : ∀ kv ∈ mapWeight.entries, kv.2 = 1) :
    ∀ c ∈ candidates wire mapWeight mapEnrollData, c.nWeight = 1 := by
  intro c mem
  obtain ⟨kv, inside, made⟩ := mem_filterMap.1 mem
  obtain ⟨data, _, made⟩ := Option.bind_eq_some_iff.1 made
  obtain ⟨parts, _, rfl⟩ := Option.map_eq_some_iff.1 made
  exact ones kv inside

end Selected

/-- The dealers that are kept can be checked if and only if each brings half as many coefficients as candidates are
kept, and one more. Nobody is kept if the node misreads a candidate as itself. -/
theorem kept_checkable_iff (curve : Curve) (wire : Wire) (mapWeight : DestMap ℕ) (mapEnrollData : DestMap wire.Bytes)
    (few : mapWeight.entries.length ≤ 21) (ones : ∀ kv ∈ mapWeight.entries, kv.2 = 1) (me : UInt256) (box : OpenedBox) :
    (∀ turn, (SecretShare.setup me box).assignIndexes curve (candidates wire mapWeight mapEnrollData) = some turn →
      ∀ nIdent ∈ turn.kept, ∃ p, turn.share.mapParticipant.find nIdent = some p ∧
        Checkable curve p.candidate.sBox (enrollThresh turn.nLastIndex) turn.nLastIndex) ↔
    (∃ c ∈ candidates wire mapWeight mapEnrollData, Misread curve me box c) ∨
      ∀ c ∈ candidates wire mapWeight mapEnrollData, joins curve me c = true →
        ((candidates wire mapWeight mapEnrollData).filter (keeps curve me)).length / 2 + 1 ≤
          c.sBox.vEncryptedCoeff.length := by
  have nodup := candidates_distinct mapWeight mapEnrollData
  have ones := candidates_weight mapEnrollData ones
  have few : (candidates wire mapWeight mapEnrollData).length ≤ 21 := (length_filterMap_le _ _).trans few
  generalize candidates wire mapWeight mapEnrollData = vCandidate at *
  have kept := (filter_sublist (p := keeps curve me) (l := vCandidate)).length_le
  have weight := totalWeight_of_ones fun c mem => ones c (mem_of_mem_filter (p := keeps curve me) mem)
  have succeeds : Succeeds (∀ c ∈ vCandidate, ¬Misread curve me box c) (Assigned curve me box vCandidate) _ :=
    assignIndexes_succeeds nodup
  rcases succeeds with ⟨read, turn, assigns, assigned⟩ | ⟨misread, fails⟩
  · have last : turn.nLastIndex = 1 + (vCandidate.filter (keeps curve me)).length := by
      rw [assigned.last, weight]
      omega
    have thresh : enrollThresh turn.nLastIndex = (vCandidate.filter (keeps curve me)).length / 2 + 1 := by
      rw [last, enrollThresh]
      omega
    have checkable (c : Candidate) : Checkable curve c.sBox (enrollThresh turn.nLastIndex) turn.nLastIndex ↔ _ :=
      checkable_iff (by omega) (by omega) (by omega)
    rw [or_iff_right (by simpa using read), ← thresh]
    constructor
    · intro all c mem new
      obtain ⟨p, found, checks⟩ := all turn assigns _ ((assigned.mem_kept nodup mem).2 new)
      rw [assigned.entry_of_joins mem new] at found
      cases found
      exact checks.coefficients
    · intro enough turn' assigns' nIdent listed
      cases assigns.symm.trans assigns'
      rw [assigned.kept] at listed
      obtain ⟨c, inside, rfl⟩ := List.mem_map.1 listed
      obtain ⟨mem, new⟩ := mem_filter.1 inside
      exact ⟨_, assigned.entry_of_joins mem new, (checkable c).2 (enough c mem new)⟩
  · refine iff_of_true (fun turn assigns => ?_) (.inl (by simpa using misread))
    rw [fails] at assigns
    cases assigns

namespace Sample

def shortEnrollData : DestMap wire.Bytes :=
  (SortedMap.empty.insert 1 (enrollBytes only.sealed)).insert 2 (enrollBytes second.sealed)

/-- Two dealers are kept and the threshold is 2, but the first one has brought one coefficient. -/
theorem kept_not_checkable : ∃ turn p,
    (SecretShare.setup 0 ⟨[], 0⟩).assignIndexes residueCurve (candidates wire pairWeight shortEnrollData) = some turn ∧
    toHash 1 ∈ turn.kept ∧ turn.share.mapParticipant.find (toHash 1) = some p ∧ enrollThresh turn.nLastIndex = 2 ∧
    p.candidate.sBox.vEncryptedCoeff.length = 1 := by
  have listed : candidates wire pairWeight shortEnrollData = candidatesOf [only, second] := candidates_pair _ _
  have one : only.candidate.verify residueCurve = true := only_honest.verify mem_cons_self
  have two : second.candidate.verify residueCurve = true := pair_honest.verify (mem_cons_of_mem _ mem_cons_self)
  have joined : ∀ c ∈ candidatesOf [only, second], joins residueCurve 0 c = true :=
    List.forall_mem_map.2 (Mpvss.Sample.forall_two (Bool.and_eq_true_iff.2 ⟨by decide, one⟩)
      (Bool.and_eq_true_iff.2 ⟨by decide, two⟩))
  have read : ∀ c ∈ candidatesOf [only, second], ¬Misread residueCurve 0 ⟨[], 0⟩ c :=
    List.forall_mem_map.2 (Mpvss.Sample.forall_two (fun misread => sharedKey_ne_zero _ misread.2.2)
      fun misread => sharedKey_ne_zero _ misread.2.2)
  have nodup := candidates_distinct pairWeight shortEnrollData
  rw [listed] at nodup ⊢
  obtain ⟨turn, assigns, assigned⟩ := (assignIndexes_succeeds nodup).result read
  have weight : totalWeight ((candidatesOf [only, second]).filter (keeps residueCurve 0)) = 2 := by
    rw [filter_eq_self.2 fun c mem => keeps_of_joins (joined c mem)]
    rfl
  have member : only.candidate ∈ candidatesOf [only, second] := mem_cons_self
  have new := joined _ member
  have thresh : enrollThresh turn.nLastIndex = 2 := by
    rw [assigned.last, weight, enrollThresh]
    omega
  exact ⟨turn, _, assigns, (assigned.mem_kept nodup member).2 new, assigned.entry_of_joins member new, thresh, rfl⟩

theorem kept_checkable_iff_pair : ∃ turn,
    (SecretShare.setup 0 ⟨[], 0⟩).assignIndexes residueCurve (candidates wire pairWeight pairEnrollData) = some turn ∧
      ∀ nIdent ∈ turn.kept, ∃ p, turn.share.mapParticipant.find nIdent = some p ∧
        Checkable residueCurve p.candidate.sBox (enrollThresh turn.nLastIndex) turn.nLastIndex := by
  have checkable := kept_checkable_iff residueCurve wire pairWeight pairEnrollData (by decide) (by decide) 0 ⟨[], 0⟩
  have listed : candidates wire pairWeight pairEnrollData = candidatesOf [first, second] := candidates_pair _ _
  obtain ⟨s, enrolled, _⟩ := pair_honest.enroll_eq 0 ⟨[], 0⟩
  obtain ⟨turn, assigns, _⟩ := Option.bind_eq_some_iff.1 enrolled
  rw [listed] at checkable ⊢
  refine ⟨turn, assigns, checkable.mpr (.inr ?_) turn assigns⟩
  have kept := (filter_sublist (p := keeps residueCurve 0) (l := candidatesOf [first, second])).length_le
  have two : (candidatesOf [first, second]).length = 2 := rfl
  refine List.forall_mem_map.2 (Mpvss.Sample.forall_two (fun _ => ?_) fun _ => ?_)
  · show _ ≤ 2
    omega
  · show _ ≤ 2
    omega

end Sample

end HashAhead.Delegate

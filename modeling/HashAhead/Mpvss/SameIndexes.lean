import HashAhead.Mpvss.Enrolled

/-! Whether two nodes that enroll the same candidates count with the same indexes. A candidate whose public
key gives no shared key is taken by the node for itself. Without such a candidate all nodes agree. -/

namespace HashAhead.Mpvss
open State List Option Candidate

def indexes (range : ℕ × ℕ) : Finset ℕ := (Finset.range range.2).image fun i => (range.1 + i) % 2 ^ 64

theorem mem_indexes {range : ℕ × ℕ} {index : ℕ} :
    index ∈ indexes range ↔ ∃ i < range.2, (range.1 + i) % 2 ^ 64 = index := by
  simp [indexes]

theorem card_indexes (start : ℕ) {count : ℕ} (fits : count ≤ 2 ^ 64) : (indexes (start, count)).card = count := by
  rw [indexes, Finset.card_image_of_injOn, Finset.card_range]
  intro i low j low' same
  have bound : i < count := by simpa using low
  have bound' : j < count := by simpa using low'
  have equal : (start + i) % 2 ^ 64 = (start + j) % 2 ^ 64 := same
  omega

structure Node where
  nIdent : UInt256
  box : OpenedBox

namespace Node
variable (curve : Curve) (node : Node) (candidates : List Candidate)

/-- What is listed for the node is a sound box with the public key of the node. -/
def Valid : Prop := ∀ c ∈ candidates, c.nIdent = node.nIdent →
  c.verify curve = true ∧ c.sBox.nPubKey = curve.mpEccPubkey node.box.nPrivKey

/-- The node when `Enroll` has assigned the indexes. -/
def assigned : Option SecretShare :=
  ((SecretShare.setup node.nIdent node.box).assignIndexes curve candidates).map EnrollTurn.share

/-- The node after `Enroll`. -/
def enrolled : Option SecretShare := (SecretShare.setup node.nIdent node.box).enroll curve candidates

end Node

def Separate (s : SecretShare) : Prop := ∀ nIdent nIdent' range range', nIdent ≠ nIdent' →
  s.getParticipantRange nIdent = some range → s.getParticipantRange nIdent' = some range' →
    Disjoint (indexes range) (indexes range')

structure Agree (candidates : List Candidate) (a b : SecretShare) : Prop where
  separate : Separate a
  separate' : Separate b
  same : ∀ c ∈ candidates, a.getParticipantRange c.nIdent = b.getParticipantRange c.nIdent
  own : ∀ c ∈ candidates, c.nIdent = a.nIdent → b.getParticipantRange c.nIdent = some (a.nIndex, c.nWeight)
  own' : ∀ c ∈ candidates, c.nIdent = b.nIdent → a.getParticipantRange c.nIdent = some (b.nIndex, c.nWeight)

section Ranges
variable {curve : Curve} {node other : Node} {all : List Candidate} {turn : EnrollTurn}

theorem Node.Valid.keeps_eq (valid : node.Valid curve all) {c : Candidate} (mem : c ∈ all) :
    keeps curve node.nIdent c = c.verify curve := by
  rw [keeps]
  by_cases own : c.nIdent = node.nIdent
  · rw [(valid c mem own).1, Bool.or_true]
  · rw [decide_eq_false own, Bool.false_or]

theorem Node.Valid.filter_keeps (valid : node.Valid curve all) :
    all.filter (keeps curve node.nIdent) = all.filter (verify curve) :=
  filter_congr fun _ mem => valid.keeps_eq mem

theorem range_cases (assigned : Assigned curve node.nIdent node.box all turn)
    (valid : node.Valid curve all) (nodup : (all.map Candidate.nIdent).Nodup) {id : UInt256}
    {range : ℕ × ℕ} (found : turn.share.getParticipantRange id = some range) :
    range = (0, 0) ∨ ∃ c ∈ all.filter (verify curve), c.nIdent = id ∧
      range = (startIndex id 1 (all.filter (verify curve)) % 2 ^ 64, c.nWeight) := by
  by_cases listed : id ∈ all.map Candidate.nIdent
  · obtain ⟨c, mem, rfl⟩ := List.mem_map.1 listed
    rw [assigned.range nodup mem, valid.keeps_eq mem, valid.filter_keeps] at found
    split_ifs at found with sound
    exact Or.inr ⟨c, mem_filter.2 ⟨mem, sound⟩, rfl, (Option.some.inj found).symm⟩
  · rw [assigned.range_other listed] at found
    split_ifs at found
    exact Or.inl (Option.some.inj found).symm

section
variable (assigned : Assigned curve node.nIdent node.box all turn)
include assigned

section
variable (valid : node.Valid curve all) (nodup : (all.map Candidate.nIdent).Nodup)
include valid nodup

theorem separate_of_fits (fits : totalWeight (all.filter (verify curve)) ≤ 2 ^ 64) : Separate turn.share := by
  intro id nIdent' range range' apart found found'
  have distinct' : ((all.filter (verify curve)).map Candidate.nIdent).Nodup :=
    nodup.sublist (filter_sublist.map _)
  rcases range_cases assigned valid nodup found with rfl | ⟨c, mem, rfl, rfl⟩
  · exact Finset.disjoint_left.2 fun index inside => by simp [indexes] at inside
  rcases range_cases assigned valid nodup found' with rfl | ⟨d, mem', rfl, rfl⟩
  · exact Finset.disjoint_right.2 fun index inside => by simp [indexes] at inside
  have order := startIndex_separate distinct' mem mem' (fun same => apart (congrArg _ same)) 1
  have low := le_startIndex c.nIdent 1 (all.filter (verify curve))
  have low' := le_startIndex d.nIdent 1 (all.filter (verify curve))
  have high := startIndex_add_le distinct' mem 1
  have high' := startIndex_add_le distinct' mem' 1
  apply Finset.disjoint_left.2
  intro index inside inside'
  obtain ⟨i, less, here⟩ := mem_indexes.1 inside
  obtain ⟨j, less', there⟩ := mem_indexes.1 inside'
  rw [Nat.mod_add_mod] at here there
  omega

theorem fits_of_separate (word : ∀ c ∈ all, c.nWeight < 2 ^ 64) (separate : Separate turn.share) :
    totalWeight (all.filter (verify curve)) ≤ 2 ^ 64 := by
  have distinct' : ((all.filter (verify curve)).map Candidate.nIdent).Nodup :=
    nodup.sublist (filter_sublist.map _)
  let taken (id : UInt256) : Finset ℕ := ((turn.share.getParticipantRange id).map indexes).getD ∅
  have size : ∀ c ∈ all.filter (verify curve), c.nWeight = (taken c.nIdent).card := by
    intro c inside
    obtain ⟨mem, sound⟩ := mem_filter.1 inside
    have found := assigned.range nodup mem
    rw [valid.keeps_eq mem, if_pos sound] at found
    simp only [taken, found, map_some, getD_some]
    exact (card_indexes _ (word c mem).le).symm
  have apart : Set.PairwiseDisjoint
      (((all.filter (verify curve)).map Candidate.nIdent).toFinset : Set UInt256) taken := by
    intro id _ nIdent' _ differ
    simp only [Function.onFun, taken]
    cases found : turn.share.getParticipantRange id with
    | none => exact Finset.disjoint_empty_left _
    | some range =>
      cases found' : turn.share.getParticipantRange nIdent' with
      | none => exact Finset.disjoint_empty_right _
      | some range' => exact separate _ _ _ _ differ found found'
  have inside : ((all.filter (verify curve)).map Candidate.nIdent).toFinset.biUnion taken ⊆
      Finset.range (2 ^ 64) := by
    intro index mem
    obtain ⟨id, _, here⟩ := Finset.mem_biUnion.1 mem
    simp only [taken] at here
    cases found : turn.share.getParticipantRange id with
    | none => simp [found] at here
    | some range =>
      rw [found, map_some, getD_some, mem_indexes] at here
      obtain ⟨i, _, rfl⟩ := here
      exact Finset.mem_range.2 (Nat.mod_lt _ (by decide))
  calc totalWeight (all.filter (verify curve))
    _ = ((all.filter (verify curve)).map fun c => (taken c.nIdent).card).sum := by
      rw [totalWeight, map_congr_left size]
    _ = ((all.filter (verify curve)).map Candidate.nIdent).toFinset.sum
        fun id => (taken id).card := by
      rw [sum_toFinset _ distinct', List.map_map]
      rfl
    _ = (((all.filter (verify curve)).map Candidate.nIdent).toFinset.biUnion taken).card :=
      (Finset.card_biUnion apart).symm
    _ ≤ (Finset.range (2 ^ 64)).card := Finset.card_le_card inside
    _ = 2 ^ 64 := Finset.card_range _

end

theorem assigned_own (nodup : (all.map Candidate.nIdent).Nodup) {c : Candidate} (mem : c ∈ all)
    (own : c.nIdent = turn.share.nIdent) :
    turn.share.getParticipantRange c.nIdent = some (turn.share.nIndex, c.nWeight) := by
  rw [SecretShare.getParticipantRange, if_pos own, assigned.nWeight, ← assigned.nIdent, ← own,
    ownWeight_of_mem nodup mem]

theorem agree_of_read {turn' : EnrollTurn} (assigned' : Assigned curve other.nIdent other.box all turn')
    (valid : node.Valid curve all) (valid' : other.Valid curve all)
    (nodup : (all.map Candidate.nIdent).Nodup)
    (fits : totalWeight (all.filter (verify curve)) ≤ 2 ^ 64) :
    Agree all turn.share turn'.share := by
  have same : ∀ c ∈ all, turn.share.getParticipantRange c.nIdent = turn'.share.getParticipantRange c.nIdent := by
    intro c mem
    rw [assigned.range nodup mem, assigned'.range nodup mem, valid.filter_keeps, valid'.filter_keeps,
      valid.keeps_eq mem, valid'.keeps_eq mem]
  refine ⟨separate_of_fits assigned valid nodup fits, separate_of_fits assigned' valid' nodup fits, same, ?_, ?_⟩
  · intro c mem own
    rw [← same c mem]
    exact assigned_own assigned nodup mem own
  · intro c mem own
    rw [same c mem]
    exact assigned_own assigned' nodup mem own

end

theorem assigned_of_some (nodup : (all.map Candidate.nIdent).Nodup) {s : SecretShare}
    (result : node.assigned curve all = some s) :
    (∀ c ∈ all, ¬Misread curve node.nIdent node.box c) ∧
      ∃ turn, Assigned curve node.nIdent node.box all turn ∧ turn.share = s := by
  obtain ⟨turn, indexes, rfl⟩ := map_eq_some_iff.1 result
  obtain ⟨read, assigned⟩ := (assignIndexes_succeeds nodup).of_some indexes
  exact ⟨read, turn, assigned, rfl⟩

end Ranges

/-- Nodes that enroll the same candidates, with sound boxes of their own, count with the same indexes if and
only if none of them has a candidate that it takes for itself and the indexes can be counted. -/
theorem nodes_agree_iff (curve : Curve) (node other : Node) (candidates : List Candidate)
    (distinct : (candidates.map Candidate.nIdent).Nodup) (word : ∀ c ∈ candidates, c.nWeight < 2 ^ 64)
    (valid : node.Valid curve candidates) (valid' : other.Valid curve candidates) :
    ((∃ a b, node.assigned curve candidates = some a ∧ other.assigned curve candidates = some b ∧ Agree candidates a b) ↔
      (∀ c ∈ candidates, ¬Misread curve node.nIdent node.box c ∧ ¬Misread curve other.nIdent other.box c) ∧
        totalWeight (candidates.filter (Candidate.verify curve)) ≤ 2 ^ 64) ∧
    ∀ s, node.enrolled curve candidates = some s → ∃ t, node.assigned curve candidates = some t ∧ s.nIndex = t.nIndex ∧
      s.getParticipantRange = t.getParticipantRange := by
  refine ⟨⟨?_, ?_⟩, fun s result => ?_⟩
  · rintro ⟨a, b, first, second, agree⟩
    obtain ⟨read, turn, assigned, rfl⟩ := assigned_of_some distinct first
    have read' := (assigned_of_some distinct second).1
    exact ⟨fun c member => ⟨read c member, read' c member⟩, fits_of_separate assigned valid distinct word agree.separate⟩
  · rintro ⟨read, fits⟩
    obtain ⟨turn, result, assigned⟩ := (assignIndexes_succeeds distinct).result fun c member => (read c member).1
    obtain ⟨turn', result', assigned'⟩ := (assignIndexes_succeeds distinct).result fun c member => (read c member).2
    refine ⟨turn.share, turn'.share, ?_, ?_, agree_of_read assigned assigned' valid valid' distinct fits⟩
    · rw [Node.assigned, result, map_some]
    · rw [Node.assigned, result', map_some]
  · obtain ⟨turn, indexes, prepared⟩ := bind_eq_some_iff.1 result
    obtain ⟨read, assigned⟩ := (assignIndexes_succeeds distinct).of_some indexes
    refine ⟨turn.share, ?_, ((assigned.prepare_succeeds distinct read).of_some prepared).2.2⟩
    rw [Node.assigned, indexes, map_some]

namespace Sample

def box : OpenedBox := ⟨[3, 5], 7⟩

/-- What `MakeSealedBox` makes of the box. -/
def sealed : SealedBox :=
  ⟨box.vCoeff.map residueCurve.mpEccPubkey, [], residueCurve.mpEccPubkey box.nPrivKey, residueCurve.mpEccPubkey 2,
    mpEccSign box.nPrivKey 2 1⟩

theorem sealed_made : box.makeSealedBox residueCurve 1 2 = some sealed := if_neg (by decide)

def candidate : Candidate := ⟨1, 1, sealed⟩

def stranger : Candidate := ⟨2, 1, { sealed with nPubKey := BitVec.allOnes 256 }⟩

def node : Node := ⟨1, box⟩

def witness : Node := ⟨0, ⟨[], 0⟩⟩

theorem candidate_verify : candidate.verify residueCurve = true := by
  have nonzero : ∀ coeff ∈ box.vCoeff, coeff.toNat % groupOrder ≠ 0 := by
    intro coeff mem
    fin_cases mem <;> decide +kernel
  exact verifySignature_of_made sealed_made fun coeff mem => ofWord_ne_zero (nonzero coeff mem)

theorem node_valid {others : List Candidate} (apart : ∀ c ∈ others, c.nIdent ≠ 1) :
    node.Valid residueCurve (candidate :: others) := by
  intro c mem own
  rcases mem_cons.1 mem with rfl | inside
  · exact ⟨candidate_verify, rfl⟩
  · exact absurd own (apart c inside)

theorem witness_valid {candidates : List Candidate} (named : ∀ c ∈ candidates, c.nIdent ≠ 0) :
    witness.Valid residueCurve candidates := fun c mem own => absurd own (named c mem)

/-- A node and a witness agree on the node. -/
theorem nodes_agree_alone : ∃ a b, node.assigned residueCurve [candidate] = some a ∧
    witness.assigned residueCurve [candidate] = some b ∧ Agree [candidate] a b := by
  have word : ∀ c ∈ [candidate], c.nWeight < 2 ^ 64 := by simp [candidate]
  have named : ∀ c ∈ [candidate], c.nIdent ≠ 0 := by simp [candidate]
  apply (nodes_agree_iff residueCurve node witness [candidate] (nodup_singleton _) word
    (node_valid nofun) (witness_valid named)).1.2
  refine ⟨fun c member => ?_, ?_⟩
  · cases mem_singleton.1 member
    exact ⟨fun misread => misread.1 rfl, fun misread => sharedKey_ne_zero _ misread.2.2⟩
  · rw [filter_singleton, candidate_verify]
    decide

theorem misread_stranger : Misread residueCurve node.nIdent node.box stranger := by
  refine ⟨by decide, ?_, by decide +kernel⟩
  simp [SealedBox.isNull, stranger, sealed, box]

/-- A candidate whose public key is no point is taken for the node itself. -/
theorem nodes_disagree_stranger : node.Valid residueCurve [candidate, stranger] ∧
    witness.Valid residueCurve [candidate, stranger] ∧
    ¬∃ a b, node.assigned residueCurve [candidate, stranger] = some a ∧
      witness.assigned residueCurve [candidate, stranger] = some b ∧ Agree [candidate, stranger] a b := by
  have distinct : ([candidate, stranger].map Candidate.nIdent).Nodup := by decide
  have listed : stranger ∈ [candidate, stranger] := mem_cons_of_mem _ mem_cons_self
  refine ⟨node_valid (by simp [stranger]), witness_valid (by simp [candidate, stranger]), ?_⟩
  rintro ⟨a, b, first, _⟩
  exact (assigned_of_some distinct first).1 stranger listed misread_stranger

end Sample

end HashAhead.Mpvss

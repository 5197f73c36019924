import HashAhead.Mpvss.Recovery
import HashAhead.Chain.AddressTxInfo

/-! The vote of the delegates for a block. A node runs secret sharing for its own delegates and collects what
all delegates publish as a witness. The recovered secrets make the agreement, and what was collected is the
proof of it that goes into the block. Who enrolls the same delegates collects it again and comes to the same agreement. -/

namespace HashAhead.Delegate
open Foundation State Chain Mpvss List Option

structure DelegateData where
  nIdentFrom : UInt256
  mapShare : ShareMap
  nR : UInt256
  nS : UInt256

/-- The serialized forms, with nothing where reading throws, and the hashes. A proof that was written is read
back. -/
structure Wire where
  Bytes : Type
  readEnroll : Bytes → Option (UInt256 × List UInt256 × UInt256 × UInt256)
  readData : Bytes → Option DelegateData
  readProof : Bytes → Option (List DelegateData)
  writeProof : List DelegateData → Bytes
  read_write : ∀ vCollected, readProof (writeProof vCollected) = some vCollected
  shareHash : ShareMap → UInt256
  secretHash : List UInt256 → UInt256

/-- `DestFromIdentUInt256` -/
def destFromIdent (nIdent : UInt256) : Destination := (nIdent >>> 96).setWidth 160

structure DelegateVote where
  mapDelegate : DestMap SecretShare
  witness : SecretShare
  vCollected : List DelegateData

structure Agreement where
  nAgreement : UInt256
  nWeight : ℕ
  mapBallot : DestMap ℕ

namespace DelegateVote
variable (curve : Curve) (wire : Wire) (vote : DelegateVote)

/-- The state after the constructor, with the delegates that `CreateDelegate` and `Setup` have made. -/
def create (mapDelegate : DestMap SecretShare) : DelegateVote := ⟨mapDelegate, .setup 0 ⟨[], 0⟩, []⟩

def candidates (mapWeight : DestMap ℕ) (mapEnrollData : DestMap wire.Bytes) : List Candidate :=
  mapWeight.entries.filterMap fun kv => (mapEnrollData.find kv.1).bind fun data =>
    (wire.readEnroll data).map fun (nPubKey, vEncryptedCoeff, nR, nS) =>
      ⟨toHash kv.1, kv.2, ⟨vEncryptedCoeff, [], nPubKey, nR, nS⟩⟩

def enroll (mapWeight : DestMap ℕ) (mapEnrollData : DestMap wire.Bytes) : Option DelegateVote :=
  let vCandidate := candidates wire mapWeight mapEnrollData
  (vote.witness.enroll curve vCandidate).bind fun witness =>
    (vote.mapDelegate.entries.foldlM (fun mapDelegate (kv : Destination × SecretShare) =>
      (kv.2.enroll curve vCandidate).map (mapDelegate.insert kv.1)) vote.mapDelegate).map fun mapDelegate =>
        { vote with mapDelegate, witness }

def verifySignature (data : DelegateData) : Bool :=
  vote.witness.verifySignature curve data.nIdentFrom (wire.shareHash data.mapShare) data.nR data.nS

def acceptEach (data : DelegateData) : List (Destination × SecretShare) → DestMap SecretShare → Bool × DestMap SecretShare
  | [], mapDelegate => (true, mapDelegate)
  | (dest, delegate) :: rest, mapDelegate =>
    if delegate.nIndex = 0 then acceptEach data rest mapDelegate
    else match data.mapShare.find delegate.nIdent with
      | none => acceptEach data rest mapDelegate
      | some vShare =>
        let accepted := delegate.accept curve data.nIdentFrom vShare
        if accepted.1 then acceptEach data rest (mapDelegate.insert dest accepted.2)
        else (false, mapDelegate.insert dest accepted.2)

def accept (destFrom : Destination) (vchDistributeData : wire.Bytes) : Bool × DelegateVote :=
  match wire.readData vchDistributeData with
  | none => (false, vote)
  | some data =>
    if data.nIdentFrom ≠ toHash destFrom ∨ !vote.verifySignature curve wire data then (false, vote)
    else
      let accepted := acceptEach curve data vote.mapDelegate.entries vote.mapDelegate
      (accepted.1, { vote with mapDelegate := accepted.2 })

/-- `CDelegateVote::Collect`, with `fCompleted` before and after. -/
def collect (destFrom : Destination) (vchPublishData : wire.Bytes) (fCompleted : Bool) : Bool × Bool × DelegateVote :=
  match wire.readData vchPublishData with
  | none => (false, fCompleted, vote)
  | some data =>
    if data.nIdentFrom = toHash destFrom ∧ vote.verifySignature curve wire data then
      if vote.vCollected.any fun collected => collected.nIdentFrom = data.nIdentFrom then (true, fCompleted, vote)
      else if vote.witness.isCollectCompleted then (true, true, vote)
      else
        let collected := vote.witness.collect curve data.nIdentFrom data.mapShare true
        if collected.1 then
          (true, collected.2.isCollectCompleted, { vote with
            witness := collected.2
            vCollected := vote.vCollected ++ [data] })
        else (false, false, vote)
    else (false, fCompleted, vote)

def getAgreement : Agreement :=
  let mapSecret := vote.witness.reconstruct
  if mapSecret.entries = [] then ⟨0, 0, .empty⟩
  else {
    nAgreement := wire.secretHash (mapSecret.entries.map fun kv => kv.2.1)
    nWeight := (mapSecret.entries.map fun kv => kv.2.2).sum % 2 ^ 64
    mapBallot := mapSecret.entries.foldl (fun mapBallot kv =>
      if (mapBallot.find (destFromIdent kv.1)).isSome then mapBallot
      else mapBallot.insert (destFromIdent kv.1) kv.2.2) .empty }

def getProof : wire.Bytes := wire.writeProof vote.vCollected

def collectAll (fCheckRepeated : Bool) : List DelegateData → DelegateVote → Bool × DelegateVote
  | [], vote => (true, vote)
  | data :: rest, vote =>
    if !vote.verifySignature curve wire data then (false, vote)
    else
      let collected := vote.witness.collect curve data.nIdentFrom data.mapShare fCheckRepeated
      if collected.1 then collectAll fCheckRepeated rest { vote with witness := collected.2 }
      else (false, { vote with witness := collected.2 })

/-- `CDelegateVerify::VerifyProof`. The agreement is none where it is not written. -/
def verifyProof (nProofWeight : UInt8) (nProofAgreement : UInt256) (btProofDelegateData : wire.Bytes)
    (fCheckRepeated : Bool) : Bool × Option Agreement × DelegateVote :=
  if nProofWeight = 0 ∧ nProofAgreement = 0 then (true, none, vote)
  else match wire.readProof btProofDelegateData with
    | none => (false, none, vote)
    | some vPublish =>
      let collected := collectAll curve wire fCheckRepeated vPublish vote
      if collected.1 then
        let agreement := collected.2.getAgreement wire
        (agreement.nAgreement = nProofAgreement, some agreement, collected.2)
      else (false, none, collected.2)

end DelegateVote

open DelegateVote

section Replays
variable {curve : Curve} {wire : Wire}

inductive Call (wire : Wire) where
  | accept (destFrom : Destination) (vchDistributeData : wire.Bytes)
  | collect (destFrom : Destination) (vchPublishData : wire.Bytes) (fCompleted : Bool)

def DelegateVote.call (curve : Curve) (vote : DelegateVote) : Call wire → DelegateVote
  | .accept destFrom vchDistributeData => (vote.accept curve wire destFrom vchDistributeData).2
  | .collect destFrom vchPublishData fCompleted => (vote.collect curve wire destFrom vchPublishData fCompleted).2.2

def DelegateVote.run (curve : Curve) (vote : DelegateVote) (calls : List (Call wire)) : DelegateVote :=
  calls.foldl (DelegateVote.call curve) vote

/-- Collecting the proof again from the enrolled witness leads to the witness of the node. -/
def Replays (curve : Curve) (wire : Wire) (enrolled : SecretShare) (vote : DelegateVote) : Prop :=
  ∀ verifier : DelegateVote, verifier.witness = enrolled → ∃ after, after.witness = vote.witness ∧
    DelegateVote.collectAll curve wire true vote.vCollected verifier = (true, after)

variable {vote : DelegateVote}

theorem collectAll_cons {once : Bool} {data : DelegateData} {rest : List DelegateData} {s : SecretShare}
    (signed : vote.verifySignature curve wire data = true)
    (collected : vote.witness.collect curve data.nIdentFrom data.mapShare once = (true, s)) :
    collectAll curve wire once (data :: rest) vote =
      collectAll curve wire once rest { vote with witness := s } := by
  simp only [collectAll, signed, collected, Bool.not_true, Bool.false_eq_true, if_false, if_true]

theorem collectAll_append {once : Bool} {first rest : List DelegateData} {middle : DelegateVote}
    (collected : collectAll curve wire once first vote = (true, middle)) :
    collectAll curve wire once (first ++ rest) vote = collectAll curve wire once rest middle := by
  induction first generalizing vote with
  | nil =>
    cases collected
    rfl
  | cons data first ih =>
    rw [collectAll] at collected
    rw [cons_append, collectAll]
    split_ifs at collected ⊢ with unsigned
    · cases collected
    · simp only at collected ⊢
      split_ifs at collected ⊢ with accepted
      · exact ih collected
      · cases collected

variable (curve) in
/-- What a call of `Collect` leaves: the vote as it was, or one more signed and collected publication. -/
theorem collect_cases (vote : DelegateVote) (destFrom : Destination) (data : wire.Bytes) (fCompleted : Bool) :
    (vote.collect curve wire destFrom data fCompleted).2.2 = vote ∨
      ∃ published witness, vote.verifySignature curve wire published = true ∧
        vote.witness.collect curve published.nIdentFrom published.mapShare true = (true, witness) ∧
        (vote.collect curve wire destFrom data fCompleted).2.2 =
          { vote with witness, vCollected := vote.vCollected ++ [published] } := by
  unfold DelegateVote.collect
  cases wire.readData data with
  | none => exact Or.inl rfl
  | some published =>
    simp only
    split_ifs with signed known complete accepted
    · exact Or.inl rfl
    · exact Or.inl rfl
    · exact Or.inr ⟨published, _, signed.2, Prod.ext accepted rfl, rfl⟩
    · exact Or.inl rfl
    · exact Or.inl rfl

theorem Replays.call {enrolled : SecretShare} (replays : Replays curve wire enrolled vote) (call : Call wire)
    : Replays curve wire enrolled (vote.call curve call) := by
  cases call with
  | accept destFrom data =>
    intro verifier start
    rw [DelegateVote.call, DelegateVote.accept]
    cases wire.readData data with
    | none => exact replays verifier start
    | some data =>
      simp only
      split_ifs <;> exact replays verifier start
  | collect destFrom data fCompleted =>
    rw [DelegateVote.call]
    rcases collect_cases curve vote destFrom data fCompleted with same | ⟨published, witness, signed, accepted, next⟩
    · rw [same]
      exact replays
    · rw [next]
      intro verifier start
      obtain ⟨after, reached, collected⟩ := replays verifier start
      refine ⟨{ after with witness }, rfl, ?_⟩
      have signed' : after.verifySignature curve wire published = true := by
        rw [verifySignature, reached]
        exact signed
      rw [← reached] at accepted
      rw [collectAll_append collected, collectAll_cons signed' accepted, collectAll]

theorem Replays.run {enrolled : SecretShare} (replays : Replays curve wire enrolled vote) (calls : List (Call wire))
    : Replays curve wire enrolled (vote.run curve calls) := by
  induction calls generalizing vote with
  | nil => exact replays
  | cons call calls ih => exact ih (replays.call call)

theorem getAgreement_congr {other : DelegateVote} (same : vote.witness = other.witness) :
    vote.getAgreement wire = other.getAgreement wire := by
  rw [getAgreement, getAgreement, same]

/-- The witness of a vote is enrolled as that of every other vote with the same delegates. -/
theorem enroll_witness {mapDelegate : DestMap SecretShare} {mapWeight : DestMap ℕ}
    {mapEnrollData : DestMap wire.Bytes}
    (enrolled : (create mapDelegate).enroll curve wire mapWeight mapEnrollData = some vote) :
    vote.vCollected = [] ∧ (create .empty).enroll curve wire mapWeight mapEnrollData =
      some ⟨.empty, vote.witness, []⟩ := by
  obtain ⟨witness, enrolls, rest⟩ := bind_eq_some_iff.1 enrolled
  obtain ⟨delegates, _, rfl⟩ := map_eq_some_iff.1 rest
  refine ⟨rfl, ?_⟩
  rw [enroll]
  exact bind_eq_some_iff.2 ⟨witness, enrolls, rfl⟩

end Replays

/-- A non-zero agreement of a node is confirmed by everyone who enrolls the same delegates. -/
theorem proof_verifies (curve : Curve) (wire : Wire) (mapDelegate : DestMap SecretShare) (mapWeight : DestMap ℕ)
    (mapEnrollData : DestMap wire.Bytes) (vote : DelegateVote)
    (enrolled : (DelegateVote.create mapDelegate).enroll curve wire mapWeight mapEnrollData = some vote)
    (calls : List (Call wire)) (agreed : ((vote.run curve calls).getAgreement wire).nAgreement ≠ 0) (nProofWeight : UInt8) :
    ∃ verifier, (DelegateVote.create .empty).enroll curve wire mapWeight mapEnrollData = some verifier ∧
      ∃ after, verifier.verifyProof curve wire nProofWeight ((vote.run curve calls).getAgreement wire).nAgreement
        ((vote.run curve calls).getProof wire) true =
          (true, some ((vote.run curve calls).getAgreement wire), after) := by
  obtain ⟨empty, enrolls⟩ := enroll_witness enrolled
  have start : Replays curve wire vote.witness vote := by
    intro verifier same
    rw [empty]
    exact ⟨verifier, same, rfl⟩
  obtain ⟨after, reached, collected⟩ := start.run calls ⟨.empty, vote.witness, []⟩ rfl
  refine ⟨_, enrolls, after, ?_⟩
  have nonzero : ¬(nProofWeight = 0 ∧ ((vote.run curve calls).getAgreement wire).nAgreement = 0) := fun none => agreed none.2
  rw [DelegateVote.verifyProof, if_neg nonzero, DelegateVote.getProof, wire.read_write]
  simp only [collected, if_true]
  rw [getAgreement_congr reached, decide_eq_true rfl]

namespace Sample

inductive Message where
  | enroll (sealed : SealedBox)
  | data (data : DelegateData)
  | proof (vCollected : List DelegateData)

/-- Messages that need no bytes, and hashes that do not depend on what is hashed. -/
def wire : Wire where
  Bytes := Message
  readEnroll
    | .enroll sealed => some (sealed.nPubKey, sealed.vEncryptedCoeff, sealed.nR, sealed.nS)
    | _ => none
  readData
    | .data data => some data
    | _ => none
  readProof
    | .proof vCollected => some vCollected
    | _ => none
  writeProof := .proof
  read_write _ := rfl
  shareHash _ := 0
  secretHash _ := 1

def enrollBytes (sealed : SealedBox) : wire.Bytes := Message.enroll sealed

def dataBytes (data : DelegateData) : wire.Bytes := Message.data data

/-- What a dealer publishes. The hash is 0, so the signature is the private key. -/
def published (d : Dealer) (mapShare : ShareMap) : DelegateData :=
  ⟨d.nIdent, mapShare, residueCurve.mpEccPubkey 2, d.box.nPrivKey⟩

variable {vote : DelegateVote}

theorem published_signed {dealers : List Dealer} {past : List Event} {d : Dealer}
    (honest : Honest residueCurve dealers) (stands : Stands residueCurve dealers 0 past vote.witness)
    (mem : d ∈ dealers) (mapShare : ShareMap)
    : vote.verifySignature residueCurve wire (published d mapShare) = true := by
  obtain ⟨vShare, _, found⟩ := stands.entry d mem (honest.ident d mem)
  have verified := honest.verify mem
  rw [Candidate.verify, SealedBox.verifySignature, Bool.and_eq_true, Bool.and_eq_true] at verified
  have named : (published d mapShare).nIdentFrom ≠ vote.witness.nIdent := by
    rw [stands.nIdent]
    exact honest.ident d mem
  rw [verifySignature, SecretShare.verifySignature, if_neg named]
  simp only [published, found]
  rw [Bool.and_eq_true]
  refine ⟨verified.1.1, ?_⟩
  show residueCurve.mpEccVerify d.sealed.nPubKey _ _ _ = true
  rw [honest.nPubKey_eq mem, Curve.mpEccVerify, unpack_mpEccPubkey, unpack_mpEccPubkey]
  apply decide_eq_true
  show _ = _ + (0 : ℕ) • (_ : residueCurve.Point)
  rw [zero_nsmul, add_zero]

theorem agreement_eq_one {nIdent : UInt256} {secret : UInt256 × ℕ}
    (recovered : vote.witness.reconstruct.find nIdent = some secret) : (vote.getAgreement wire).nAgreement = 1 := by
  have some : vote.witness.reconstruct.entries ≠ [] := by
    intro none
    rw [SortedMap.find_eq_some_iff, none] at recovered
    cases recovered
  rw [getAgreement]
  simp only [some, if_false]
  rfl

def only : Dealer := Mpvss.Sample.dealer (toHash 1) ⟨[3], 7⟩

theorem only_honest : Honest residueCurve [only] where
  distinct := by decide
  ident := forall_mem_singleton.2 (by decide)
  weight := forall_mem_singleton.2 (by decide)
  total := by decide
  key := forall_mem_singleton.2 (by decide)
  enough := forall_mem_singleton.2 (by decide)
  nonzero := forall_mem_singleton.2 (forall_mem_singleton.2 (by decide +kernel))
  made := forall_mem_singleton.2 (if_neg (by decide))

def mapWeight : DestMap ℕ := SortedMap.empty.insert 1 1

def mapEnrollData : DestMap wire.Bytes := SortedMap.empty.insert 1 (enrollBytes only.sealed)

def data : DelegateData := published only (SortedMap.empty.insert (toHash 1) [3])

theorem sharesFor_only : sharesFor [only] only only = [3] := by
  have index : sharesFor [only] only only = [shareAt [only] only 1] := rfl
  have value : shareAt [only] only 1 = toWord (∑ i ∈ Finset.range 1, ofWord ([3].getD i 0) * node 1 ^ i) :=
    congrArg toWord (OpenedBox.eval_secretPolynomial _ _ _)
  rw [index, value, Finset.sum_range_one, pow_zero, mul_one]
  decide +kernel

theorem candidates_only : candidates wire mapWeight mapEnrollData = candidatesOf [only] := by
  have entries : mapWeight.entries = [(1, 1)] := rfl
  have found : mapEnrollData.find 1 = some (enrollBytes only.sealed) := by
    rw [mapEnrollData, SortedMap.find_insert, if_pos rfl]
  rw [candidates, entries, filterMap_cons_some, filterMap_nil]
  · rfl
  · simp only [found]
    rfl

theorem enroll_honest {dealers : List Dealer} (honest : Honest residueCurve dealers) {weight : DestMap ℕ}
    {bytes : DestMap wire.Bytes} (same : candidates wire weight bytes = candidatesOf dealers) :
    ∃ vote, (create .empty).enroll residueCurve wire weight bytes = some vote ∧ vote.vCollected = [] ∧
      vote.witness.mapOpenedShare = .empty ∧ Stands residueCurve dealers 0 [] vote.witness := by
  obtain ⟨s, enrolls, enrolled⟩ := honest.enroll_eq 0 ⟨[], 0⟩
  rw [← same] at enrolls
  refine ⟨⟨.empty, s, []⟩, ?_, rfl, enrolled.opened,
    honest.stands enrolled fun d mem same => absurd same (honest.ident d mem)⟩
  rw [enroll]
  exact bind_eq_some_iff.2 ⟨s, enrolls, rfl⟩

theorem collect_only (stands : Stands residueCurve [only] 0 [] vote.witness) :
    ∃ s, vote.witness.collect residueCurve (toHash 1) data.mapShare true = (true, s) ∧
      s.reconstruct.find (toHash 1) = some (3, 1) := by
  have known : ∀ nIdent vShare, data.mapShare.find nIdent = some vShare ↔
      ∃ d ∈ [only], d.nIdent = nIdent ∧ vShare = sharesFor [only] d only := by
    intro nIdent vShare
    rw [data, published, SortedMap.find_insert, SortedMap.find_empty]
    simp only [mem_singleton, exists_eq_left, sharesFor_only]
    split_ifs with here
    · exact ⟨fun same => ⟨here.symm, (Option.some.inj same).symm⟩, fun same => congrArg some same.2.symm⟩
    · exact ⟨nofun, fun same => absurd same.1.symm here⟩
  obtain ⟨s, collects, stands⟩ := stands.collect_eq only_honest true mem_cons_self (nodup_singleton only)
    (fun _ inside => inside) known
  refine ⟨s, collects, ?_⟩
  exact (stands.reconstruct_eq only_honest (nodup_singleton only) (fun _ inside => inside) (by decide) _ _).2
    ⟨only, mem_cons_self, rfl, by decide +kernel⟩

/-- A delegate that is alone agrees with itself, and everyone confirms it. -/
theorem proof_verifies_alone : ∃ vote verifier,
    (DelegateVote.create .empty).enroll residueCurve wire mapWeight mapEnrollData = some vote ∧
    ((vote.run residueCurve [Call.collect 1 (dataBytes data) false]).getAgreement wire).nAgreement = 1 ∧
    (DelegateVote.create .empty).enroll residueCurve wire mapWeight mapEnrollData = some verifier ∧
    (verifier.verifyProof residueCurve wire 1 1 (wire.writeProof [data]) true).1 = true := by
  obtain ⟨vote, enrolled, empty, unopened, stands⟩ := enroll_honest only_honest candidates_only
  obtain ⟨s, collects, secret⟩ := collect_only stands
  have run : vote.run residueCurve [Call.collect 1 (dataBytes data) false] =
      { vote with witness := s, vCollected := [data] } := by
    have open' : vote.witness.isCollectCompleted = false := by
      rw [SecretShare.isCollectCompleted, unopened]
      rfl
    have signed : vote.verifySignature residueCurve wire data = true :=
      published_signed only_honest stands mem_cons_self _
    have read : wire.readData (dataBytes data) = some data := rfl
    have named : data.nIdentFrom = toHash 1 := rfl
    simp only [DelegateVote.run, foldl_cons, foldl_nil, DelegateVote.call, DelegateVote.collect, read, named,
      signed, empty, open', collects, any_nil, true_and, if_true, Bool.false_eq_true, if_false, nil_append]
  have agreed : ((vote.run residueCurve [Call.collect 1 (dataBytes data) false]).getAgreement wire).nAgreement = 1 := by
    rw [run]
    exact agreement_eq_one secret
  obtain ⟨verifier, enrolled', after, verified⟩ := proof_verifies residueCurve wire .empty mapWeight mapEnrollData vote
    enrolled [Call.collect 1 (dataBytes data) false] (by rw [agreed]; decide) 1
  rw [agreed, run] at verified
  exact ⟨vote, verifier, enrolled, agreed, enrolled', congrArg Prod.fst verified⟩

end Sample

end HashAhead.Delegate

import HashAhead.Mpvss.Box
import HashAhead.Foundation.Packing

/-! Secret sharing among weighted participants. Everyone enrolls the same candidates and gives each as many
indexes as it has weight. A dealer distributes the values of its polynomial at the indexes, encrypted with
a key that it shares with the receiver, and the receivers publish them later. Who has collected enough
values interpolates the secrets. -/

namespace HashAhead.Mpvss
open Foundation State Option

def identOrder : Comparator UInt256 := .ofKey BitVec.toNat word_injective

/-- `CMPCandidate` -/
structure Candidate where
  nIdent : UInt256
  nWeight : ℕ
  sBox : SealedBox

/-- `CMPParticipant` -/
structure Participant where
  candidate : Candidate
  nIndex : ℕ
  nSharedKey : UInt256
  vShare : List UInt256

abbrev ShareMap := SortedMap UInt256 (List UInt256) identOrder

/-- `CMPSecretShare` -/
structure SecretShare where
  nIdent : UInt256
  myBox : OpenedBox
  nWeight : ℕ
  nIndex : ℕ
  nThresh : ℕ
  mapParticipant : SortedMap UInt256 Participant identOrder
  mapOpenedShare : SortedMap UInt256 (List (UInt32 × UInt256)) identOrder

def Candidate.verify (curve : Curve) (c : Candidate) : Bool := c.sBox.verifySignature curve c.nIdent

namespace Participant
variable (curve : Curve) (p : Participant)

def encrypt (data : UInt256) : UInt256 := p.nSharedKey ^^^ data

def decrypt (cipher : UInt256) : UInt256 := p.nSharedKey ^^^ cipher

def verifyShare (nIndexIn : ℕ) (vShare : List UInt256) : Bool :=
  vShare.zipIdx.all fun share => p.candidate.sBox.verifyPolynomial curve (.ofNat (nIndexIn + share.2)) share.1

def acceptShare (nIndexIn : ℕ) (vEncryptedShare : List UInt256) : Bool × Participant :=
  if p.vShare.length = vEncryptedShare.length then (true, p)
  else
    let vShare := vEncryptedShare.map p.decrypt
    if p.verifyShare curve nIndexIn vShare then (true, { p with vShare }) else (false, { p with vShare := [] })

def prepareVerification (nThresh nLastIndex : ℕ) : Participant :=
  { p with candidate.sBox := p.candidate.sBox.precalcPolynomial curve nThresh nLastIndex }

end Participant

/-- A pointer of `Enroll`: to the node itself, to a participant, or null. -/
inductive Slot where
  | null
  | self
  | participant (nIdent : UInt256)

/-- What the second loop of `Enroll` keeps. -/
structure EnrollTurn where
  share : SecretShare
  nLastIndex : ℕ
  kept : List UInt256

namespace SecretShare
variable (curve : Curve) (s : SecretShare)

/-- The state after `Setup` with an opened box. -/
def setup (nIdent : UInt256) (myBox : OpenedBox) : SecretShare := ⟨nIdent, myBox, 0, 0, 0, .empty, .empty⟩

def setupWitness : SecretShare := ⟨0, ⟨[], s.myBox.nPrivKey⟩, 0, 0, 0, .empty, .empty⟩

/-- The first loop of `Enroll`. A box without a public key throws. -/
def openSlot (state : SecretShare × List (Candidate × Slot)) (candidate : Candidate) :
    SecretShare × List (Candidate × Slot) :=
  if candidate.nIdent = state.1.nIdent then
    ({ state.1 with nWeight := candidate.nWeight }, state.2 ++ [(candidate, .self)])
  else if (state.1.mapParticipant.find candidate.nIdent).isSome then (state.1, state.2 ++ [(candidate, .null)])
  else match candidate.sBox.pubKey with
    | none => (state.1, state.2 ++ [(candidate, .null)])
    | some pubkey =>
      let participant : Participant := ⟨candidate, 2 ^ 64 - 1, state.1.myBox.sharedKey curve pubkey, []⟩
      ({ state.1 with mapParticipant := state.1.mapParticipant.insert candidate.nIdent participant },
        state.2 ++ [(candidate, .participant candidate.nIdent)])

def assignSelf (turn : EnrollTurn) (candidate : Candidate) : EnrollTurn :=
  { turn with share.nIndex := turn.nLastIndex, nLastIndex := (turn.nLastIndex + candidate.nWeight) % 2 ^ 64 }

/-- The second loop of `Enroll`. A participant without a shared key is taken for the node itself and deleted
although the map holds it: nothing is known of the node then. -/
def assignIndex (turn : EnrollTurn) (entry : Candidate × Slot) : Option EnrollTurn :=
  match entry.2 with
  | .null => some turn
  | .self => some (assignSelf turn entry.1)
  | .participant nIdent =>
    match turn.share.mapParticipant.find nIdent with
    | none => some turn
    | some p =>
      if p.nSharedKey = 0 then none
      else if p.candidate.verify curve then
        some { turn with
          share.mapParticipant := turn.share.mapParticipant.insert nIdent { p with nIndex := turn.nLastIndex }
          nLastIndex := (turn.nLastIndex + p.candidate.nWeight) % 2 ^ 64
          kept := turn.kept ++ [nIdent] }
      else some { turn with share.mapParticipant := turn.share.mapParticipant.erase nIdent }

/-- `Enroll` as far as it assigns the indexes. -/
def assignIndexes (vCandidate : List Candidate) : Option EnrollTurn :=
  let opened := vCandidate.foldl (openSlot curve) (s, [])
  opened.2.foldlM (assignIndex curve) ⟨opened.1, 1, []⟩

/-- The last loop of `Enroll`. Nothing if it reads outside of the coefficients or of the powers. -/
def prepareParticipant (nThresh nLastIndex : ℕ) (mapParticipant : SortedMap UInt256 Participant identOrder)
    (nIdent : UInt256) : Option (SortedMap UInt256 Participant identOrder) :=
  match mapParticipant.find nIdent with
  | none => some mapParticipant
  | some p =>
    if p.candidate.sBox.Readable nThresh nLastIndex then
      some (mapParticipant.insert nIdent (p.prepareVerification curve nThresh nLastIndex))
    else none

/-- `Enroll` from the indexes on. -/
def prepare (turn : EnrollTurn) : Option SecretShare :=
  let nThresh := (turn.nLastIndex + (2 ^ 64 - 1)) % 2 ^ 64 / 2 + 1
  (turn.kept.foldlM (prepareParticipant curve nThresh turn.nLastIndex) turn.share.mapParticipant).map
    fun mapParticipant => { turn.share with nThresh, mapParticipant }

/-- `CMPSecretShare::Enroll`, nothing if it does what has no meaning. -/
def enroll (vCandidate : List Candidate) : Option SecretShare :=
  (s.assignIndexes curve vCandidate).bind (prepare curve)

/-- The values of the own polynomial at some indexes, nothing if it throws. -/
def ownShares (nIndexIn nCount : ℕ) : Option (List UInt256) :=
  (List.range nCount).mapM fun i => s.myBox.polynomial s.nThresh (.ofNat (nIndexIn + i))

/-- `CMPSecretShare::Distribute`. The shares that throw stay empty. -/
def distribute : ShareMap :=
  s.mapParticipant.entries.foldl (fun mapShare kv =>
    mapShare.insert kv.1 (((s.ownShares kv.2.nIndex kv.2.candidate.nWeight).getD []).map kv.2.encrypt)) .empty

def accept (nIdentFrom : UInt256) (vEncryptedShare : List UInt256) : Bool × SecretShare :=
  if vEncryptedShare.length = s.nWeight then
    match s.mapParticipant.find nIdentFrom with
    | none => (false, s)
    | some p =>
      let accepted := p.acceptShare curve s.nIndex vEncryptedShare
      (accepted.1, { s with mapParticipant := s.mapParticipant.insert nIdentFrom accepted.2 })
  else (false, s)

def acceptedShares : ShareMap := s.mapParticipant.entries.foldl (fun mapShare kv =>
  if kv.2.vShare = [] then mapShare else mapShare.insert kv.1 kv.2.vShare) .empty

/-- `CMPSecretShare::Publish`, nothing if it throws. -/
def publish : Option ShareMap := (s.ownShares s.nIndex s.nWeight).map fun myShare =>
  s.acceptedShares.insert s.nIdent ((s.acceptedShares.find s.nIdent).getD [] ++ myShare)

def getParticipantRange (nIdentIn : UInt256) : Option (ℕ × ℕ) :=
  if nIdentIn = s.nIdent then some (s.nIndex, s.nWeight)
  else (s.mapParticipant.find nIdentIn).map fun p => (p.nIndex, p.candidate.nWeight)

/-- The checks of `Collect` on the shares of a dealer. A throw counts as a refusal. -/
def verifyPublished (nIndexFrom nWeightFrom : ℕ) (kv : UInt256 × List UInt256) : Bool :=
  kv.2.length = nWeightFrom &&
    if kv.1 = s.nIdent then s.ownShares nIndexFrom kv.2.length = some kv.2
    else match s.mapParticipant.find kv.1 with
      | none => false
      | some p => p.verifyShare curve nIndexFrom kv.2

/-- The loop of `Collect` that opens the shares of a dealer. -/
def openShares (nThresh nIndexFrom : ℕ) (fCheckRepeated : Bool) (vOpenedShare : List (UInt32 × UInt256))
    (vShare : List UInt256) : List (UInt32 × UInt256) :=
  vShare.zipIdx.foldl (fun vOpenedShare share =>
    let opened := (UInt32.ofNat (nIndexFrom + share.2), share.1)
    if vOpenedShare.length < nThresh ∧ (!fCheckRepeated ∨ opened ∉ vOpenedShare) then vOpenedShare ++ [opened]
    else vOpenedShare) vOpenedShare

/-- The last loop of `Collect`. -/
def openAll (nIndexFrom : ℕ) (fCheckRepeated : Bool) (mapShare : ShareMap) :
    SortedMap UInt256 (List (UInt32 × UInt256)) identOrder :=
  mapShare.entries.foldl (fun mapOpenedShare kv => mapOpenedShare.insert kv.1
    (openShares s.nThresh nIndexFrom fCheckRepeated ((mapOpenedShare.find kv.1).getD []) kv.2)) s.mapOpenedShare

def collect (nIdentFrom : UInt256) (mapShare : ShareMap) (fCheckRepeated : Bool) : Bool × SecretShare :=
  match s.getParticipantRange nIdentFrom with
  | none => (false, s)
  | some (nIndexFrom, nWeightFrom) =>
    if mapShare.entries.all (s.verifyPublished curve nIndexFrom nWeightFrom) then
      (true, { s with mapOpenedShare := s.openAll nIndexFrom fCheckRepeated mapShare })
    else (false, s)

def reconstruct : SortedMap UInt256 (UInt256 × ℕ) identOrder :=
  s.mapOpenedShare.entries.foldl (fun mapSecret kv =>
    if kv.2.length = s.nThresh then
      match s.getParticipantRange kv.1 with
      | none => mapSecret
      | some (_, nWeightRet) => if nWeightRet > 0 then mapSecret.insert kv.1 (mpNewton kv.2, nWeightRet) else mapSecret
    else mapSecret) .empty

def verifySignature (nIdentFrom hash nR nS : UInt256) : Bool :=
  if nIdentFrom = s.nIdent then curve.mpEccVerify (curve.mpEccPubkey s.myBox.nPrivKey) nR nS hash
  else match s.mapParticipant.find nIdentFrom with
    | none => false
    | some p => !p.candidate.sBox.isNull && curve.mpEccVerify p.candidate.sBox.nPubKey nR nS hash

def isCollectCompleted : Bool :=
  let nDistributedCount := (if s.nWeight > 0 then 1 else 0) + s.mapParticipant.entries.countP fun kv => kv.2.vShare.length > 0
  let nCollectedCount := s.mapOpenedShare.entries.countP fun kv => kv.2.length = s.nThresh
  if s.mapOpenedShare.entries.length = 0 then false
  else if nDistributedCount = 0 then nCollectedCount = s.mapOpenedShare.entries.length
  else nCollectedCount ≥ nDistributedCount

theorem find_acceptedShares (id : UInt256) : s.acceptedShares.find id =
    (s.mapParticipant.find id).bind fun p => if p.vShare = [] then none else some p.vShare := by
  apply SortedMap.find_foldl fun _ (p : Participant) => if p.vShare = [] then none else some p.vShare
  intro acc k p k'
  by_cases empty : p.vShare = []
  · simp [empty]
  · simp only [empty, if_false, SortedMap.find_insert, some_or]

/-- The shares that a sender has published of a dealer, with their indexes. -/
def withIndex (nIndexFrom : ℕ) (vShare : List UInt256) : List (UInt32 × UInt256) :=
  vShare.zipIdx.map fun share => (.ofNat (nIndexFrom + share.2), share.1)

theorem openShares_eq (nThresh nIndexFrom : ℕ) (once : Bool) (vOpenedShare : List (UInt32 × UInt256))
    (vShare : List UInt256) :
    openShares nThresh nIndexFrom once vOpenedShare vShare = fill nThresh once vOpenedShare (withIndex nIndexFrom vShare) := by
  rw [openShares, fill, withIndex, List.foldl_map]
  congr 1
  funext taken share
  simp only
  congr

theorem find_openAll (nIndexFrom : ℕ) (once : Bool) (mapShare : ShareMap) (id : UInt256) :
    (s.openAll nIndexFrom once mapShare).find id = ((mapShare.find id).map fun vShare =>
      fill s.nThresh once ((s.mapOpenedShare.find id).getD []) (withIndex nIndexFrom vShare)).or
        (s.mapOpenedShare.find id) := by
  simp only [← openShares_eq]
  exact SortedMap.find_foldl_update (fun opened vShare =>
    openShares s.nThresh nIndexFrom once (opened.getD []) vShare) mapShare s.mapOpenedShare id

/-- Enough shares have been seen of the dealer, and they are open. -/
theorem find_opened {s : SecretShare} {id : UInt256} {seen : List (UInt32 × UInt256)} {nThresh : ℕ}
    (opened : (s.mapOpenedShare.find id).getD [] = seen.take nThresh) (some : 0 < nThresh)
    (enough : nThresh ≤ seen.length) : s.mapOpenedShare.find id = .some (seen.take nThresh) := by
  cases here : s.mapOpenedShare.find id with
  | none =>
    have length := congrArg List.length opened
    rw [here, getD_none, List.length_take_of_le enough, List.length_nil] at length
    omega
  | some vShare =>
    rw [here, getD_some] at opened
    rw [opened]

theorem find_reconstruct (id : UInt256) : s.reconstruct.find id =
    (s.mapOpenedShare.find id).bind fun vShare => if vShare.length = s.nThresh then
      (s.getParticipantRange id).bind fun range => if range.2 > 0 then some (mpNewton vShare, range.2) else none
    else none := by
  apply SortedMap.find_foldl fun id (vShare : List (UInt32 × UInt256)) => if vShare.length = s.nThresh then
    (s.getParticipantRange id).bind fun range => if range.2 > 0 then some (mpNewton vShare, range.2) else none
    else none
  intro acc k vShare k'
  by_cases full : vShare.length = s.nThresh
  · simp only [if_pos full]
    cases s.getParticipantRange k with
    | none => simp
    | some range =>
      simp only [bind_some]
      by_cases positive : range.2 > 0
      · rw [if_pos positive, if_pos positive, SortedMap.find_insert, some_or]
      · simp [positive]
  · simp [if_neg full]

end SecretShare

end HashAhead.Mpvss

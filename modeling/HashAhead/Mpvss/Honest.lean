import HashAhead.Mpvss.Enrolled

/-! Candidates that have sealed their boxes themselves. Everyone enrolls all of them with the same indexes,
and the shares that they give out pass the checks of everyone. -/

namespace HashAhead.Mpvss
open State List

structure Dealer where
  nIdent : UInt256
  nWeight : ℕ
  box : OpenedBox
  r : UInt256
  sealed : SealedBox

def Dealer.candidate (d : Dealer) : Candidate := ⟨d.nIdent, d.nWeight, d.sealed⟩

def candidatesOf (dealers : List Dealer) : List Candidate := dealers.map Dealer.candidate

def threshold (dealers : List Dealer) : ℕ := totalWeight (candidatesOf dealers) / 2 + 1

/-- Candidates with distinct idents, positive weights that the tables are large enough for, and boxes that
they have sealed themselves. -/
structure Honest (curve : Curve) (dealers : List Dealer) : Prop where
  distinct : (dealers.map Dealer.nIdent).Nodup
  ident : ∀ d ∈ dealers, d.nIdent ≠ 0
  weight : ∀ d ∈ dealers, 0 < d.nWeight
  total : totalWeight (candidatesOf dealers) ≤ 50
  key : ∀ d ∈ dealers, d.box.nPrivKey ≠ 0
  enough : ∀ d ∈ dealers, threshold dealers ≤ d.box.vCoeff.length
  nonzero : ∀ d ∈ dealers, ∀ coeff ∈ d.box.vCoeff, coeff.toNat % groupOrder ≠ 0
  made : ∀ d ∈ dealers, d.box.makeSealedBox curve d.nIdent d.r = some d.sealed

def firstIndex (dealers : List Dealer) (d : Dealer) : ℕ := startIndex d.nIdent 1 (candidatesOf dealers)

noncomputable def shareAt (dealers : List Dealer) (d : Dealer) (x : UInt32) : UInt256 :=
  toWord ((d.box.secretPolynomial (threshold dealers)).eval (node x))

noncomputable def sharesFor (dealers : List Dealer) (d receiver : Dealer) : List UInt256 :=
  (List.range receiver.nWeight).map fun i => shareAt dealers d (.ofNat (firstIndex dealers receiver + i))

noncomputable def participantOf (curve : Curve) (dealers : List Dealer) (box : OpenedBox) (vShare : List UInt256)
    (d : Dealer) : Participant where
  candidate := { d.candidate with
    sBox := d.sealed.precalcPolynomial curve (threshold dealers) (1 + totalWeight (candidatesOf dealers)) }
  nIndex := firstIndex dealers d
  nSharedKey := box.sharedKey curve d.sealed.nPubKey
  vShare

theorem mapM_eq_some_map {α β : Type} {f : α → Option β} {g : α → β} {l : List α} (value : ∀ x ∈ l, f x = some (g x)) :
    l.mapM f = some (l.map g) := by
  induction l with
  | nil => rfl
  | cons x l ih =>
    rw [mapM_cons, value x mem_cons_self, ih fun y inside => value y (mem_cons_of_mem _ inside)]
    rfl

namespace Honest
variable {curve : Curve} {dealers : List Dealer} {d e receiver : Dealer}

theorem idents_eq (dealers : List Dealer) : (candidatesOf dealers).map Candidate.nIdent = dealers.map Dealer.nIdent := by
  rw [candidatesOf, List.map_map]
  rfl

theorem mem_candidatesOf (mem : d ∈ dealers) : d.candidate ∈ candidatesOf dealers := List.mem_map_of_mem mem

theorem length_sharesFor (d receiver : Dealer) : (sharesFor dealers d receiver).length = receiver.nWeight := by
  rw [sharesFor, length_map, length_range]

variable (honest : Honest curve dealers)
include honest

theorem distinct' : ((candidatesOf dealers).map Candidate.nIdent).Nodup := by
  rw [idents_eq]
  exact honest.distinct

theorem eq_of_nIdent (mem : d ∈ dealers) (mem' : e ∈ dealers) (same : d.nIdent = e.nIdent) : d = e :=
  inj_on_of_nodup_map honest.distinct mem mem' same

theorem usable (mem : d ∈ dealers) : d.box.Usable (threshold dealers) := by
  have total := honest.total
  refine ⟨honest.key d mem, Nat.succ_pos _, ?_, honest.enough d mem⟩
  rw [threshold]
  omega

theorem verify (mem : d ∈ dealers) : d.candidate.verify curve = true :=
  verifySignature_of_made (honest.made d mem) fun coeff inside => ofWord_ne_zero (honest.nonzero d mem coeff inside)

theorem nPubKey_eq (mem : d ∈ dealers) : d.sealed.nPubKey = curve.mpEccPubkey d.box.nPrivKey := by
  rw [(makeSealedBox_eq (honest.made d mem)).1]

theorem filter_keeps (me : UInt256) : (candidatesOf dealers).filter (keeps curve me) = candidatesOf dealers := by
  apply filter_eq_self.2
  intro c inside
  obtain ⟨d, mem, rfl⟩ := List.mem_map.1 inside
  rw [keeps, honest.verify mem, Bool.or_true]

theorem lastIndex_eq (me : UInt256) : lastIndex curve me (candidatesOf dealers) = 1 + totalWeight (candidatesOf dealers) := by
  have total := honest.total
  rw [lastIndex, honest.filter_keeps]
  omega

theorem enrollThresh_eq : enrollThresh (1 + totalWeight (candidatesOf dealers)) = threshold dealers := by
  have total := honest.total
  rw [enrollThresh, threshold]
  omega

theorem firstIndex_bounds (mem : d ∈ dealers) :
    1 ≤ firstIndex dealers d ∧ firstIndex dealers d + d.nWeight ≤ 1 + totalWeight (candidatesOf dealers) :=
  ⟨le_startIndex _ _ _, startIndex_add_le honest.distinct' (mem_candidatesOf mem) 1⟩

theorem toNat_index (mem : receiver ∈ dealers) {i : ℕ} (inside : i < receiver.nWeight) :
    (UInt32.ofNat (firstIndex dealers receiver + i)).toNat = firstIndex dealers receiver + i := by
  have total := honest.total
  have bounds := honest.firstIndex_bounds mem
  exact UInt32.toNat_ofNat_of_lt' (by rw [UInt32.size]; omega)

theorem inTable_index (mem : receiver ∈ dealers) {i : ℕ} (inside : i < receiver.nWeight) :
    InTable (UInt32.ofNat (firstIndex dealers receiver + i)) := by
  have total := honest.total
  have bounds := honest.firstIndex_bounds mem
  rw [InTable, honest.toNat_index mem inside]
  omega

theorem ownShares_eq {s : SecretShare} (box : s.myBox = d.box) (nThresh : s.nThresh = threshold dealers)
    (mem : d ∈ dealers) (mem' : receiver ∈ dealers) :
    s.ownShares (firstIndex dealers receiver) receiver.nWeight = some (sharesFor dealers d receiver) := by
  rw [SecretShare.ownShares, box, nThresh]
  apply mapM_eq_some_map
  intro i inside
  exact (honest.usable mem).polynomial_eq (honest.inTable_index mem' (mem_range.1 inside))

theorem verifyShare_eq (box : OpenedBox) (vShare : List UInt256) (mem : d ∈ dealers) (mem' : receiver ∈ dealers) :
    (participantOf curve dealers box vShare d).verifyShare curve (firstIndex dealers receiver)
      (sharesFor dealers d receiver) = true := by
  rw [Participant.verifyShare, List.all_eq_true]
  rintro ⟨share, i⟩ inside
  have value : (sharesFor dealers d receiver)[i]? = some share := mem_zipIdx_iff_getElem?.1 inside
  obtain ⟨less, rfl⟩ := List.getElem?_eq_some_iff.1 value
  simp only [sharesFor, getElem_map, getElem_range]
  rw [length_sharesFor] at less
  have bounds := honest.firstIndex_bounds mem'
  apply verifyPolynomial_of_made (honest.made d mem) (honest.usable mem) (honest.inTable_index mem' less)
  rw [honest.toNat_index mem' less]
  omega

theorem enroll_eq (me : UInt256) (box : OpenedBox) : ∃ s,
    (SecretShare.setup me box).enroll curve (candidatesOf dealers) = some s ∧
      Enrolled curve me box (candidatesOf dealers) s := by
  refine (enroll_succeeds honest.distinct').result ⟨?_, ?_⟩
  · intro c inside misread
    obtain ⟨d, mem, rfl⟩ := List.mem_map.1 inside
    have zero : box.sharedKey curve d.sealed.nPubKey = 0 := misread.2.2
    rw [honest.nPubKey_eq mem] at zero
    exact sharedKey_ne_zero _ zero
  · intro c inside _
    obtain ⟨d, mem, rfl⟩ := List.mem_map.1 inside
    have total := honest.total
    rw [honest.lastIndex_eq, honest.enrollThresh_eq]
    show d.sealed.Readable _ _
    rw [(makeSealedBox_eq (honest.made d mem)).1]
    refine ⟨?_, Or.inr (Or.inr ⟨by omega, ?_⟩)⟩
    · rw [length_map]
      exact honest.enough d mem
    · rw [threshold]
      omega

end Honest

end HashAhead.Mpvss

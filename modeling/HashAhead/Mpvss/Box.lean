import HashAhead.Mpvss.Interpolation

/-! The boxes of secret sharing. An opened box has the coefficients of a polynomial and a private key. The
sealed box has the points of both, signed by the private key, so that shares of the polynomial can be
checked without knowing it. -/

namespace HashAhead.Mpvss
open State Polynomial List Option

/-- The points of the curve and their 32-byte form. The base point has the group order, and none of its
multiples is written as 0. -/
structure Curve where
  Point : Type
  [group : AddCommGroup Point]
  [decidable : DecidableEq Point]
  pack : Point → UInt256
  unpack : UInt256 → Option Point
  unpack_pack : ∀ P, unpack (pack P) = some P
  base : Point
  order : ∀ n : ℕ, n • base = 0 ↔ groupOrder ∣ n
  pack_ne_zero : ∀ n : ℕ, pack (n • base) ≠ 0

attribute [instance] Curve.group Curve.decidable

namespace Curve
variable (curve : Curve)

def point (s : Scalar) : curve.Point := s.val • curve.base

theorem nsmul_base (n : ℕ) : n • curve.base = curve.point n := by
  have whole : (groupOrder * (n / groupOrder)) • curve.base = 0 := (curve.order _).2 (Nat.dvd_mul_right _ _)
  calc n • curve.base = (n % groupOrder + groupOrder * (n / groupOrder)) • curve.base := by rw [Nat.mod_add_div]
    _ = (n % groupOrder) • curve.base := by rw [add_nsmul, whole, add_zero]
    _ = curve.point n := by rw [point, ZMod.val_natCast]

theorem point_add (s t : Scalar) : curve.point (s + t) = curve.point s + curve.point t := by
  have sum := curve.nsmul_base (s.val + t.val)
  rw [add_nsmul, Nat.cast_add, ZMod.natCast_zmod_val, ZMod.natCast_zmod_val] at sum
  exact sum.symm

theorem nsmul_point (n : ℕ) (s : Scalar) : n • curve.point s = curve.point (n * s) := by
  have product := curve.nsmul_base (n * s.val)
  rw [mul_nsmul', Nat.cast_mul, ZMod.natCast_zmod_val] at product
  exact product

theorem point_eq_zero_iff (s : Scalar) : curve.point s = 0 ↔ s = 0 := by
  rw [point, curve.order, ← ZMod.natCast_eq_zero_iff, ZMod.natCast_zmod_val]

theorem point_sum (s : Finset ℕ) (f : ℕ → Scalar) : curve.point (∑ i ∈ s, f i) = ∑ i ∈ s, curve.point (f i) := by
  let hom : Scalar →+ curve.Point := ⟨⟨curve.point, (curve.point_eq_zero_iff 0).2 rfl⟩, curve.point_add⟩
  exact map_sum hom f s

def mpEccPubkey (s : UInt256) : UInt256 := curve.pack (s.toNat • curve.base)

theorem mpEccPubkey_eq (s : UInt256) : curve.mpEccPubkey s = curve.pack (curve.point (ofWord s)) := by
  rw [mpEccPubkey, nsmul_base]
  rfl

def mpEccPubkeyValidate (pubkey : UInt256) : Bool :=
  pubkey ≠ 0 && match curve.unpack pubkey with
    | none => false
    | some P => P ≠ 0

def mpEccVerify (pubkey rG signature hash : UInt256) : Bool :=
  match curve.unpack pubkey, curve.unpack rG with
  | some P, some R => signature.toNat • curve.base = P + hash.toNat • R
  | _, _ => false

def mpEccSharedKey (key other : UInt256) : UInt256 :=
  match curve.unpack other with
  | none => 0
  | some P => curve.pack (key.toNat • P)

end Curve

def residueCurve : Curve where
  Point := Scalar
  pack s := BitVec.ofNat 256 (s.val + 1)
  unpack w := if 0 < w.toNat ∧ w.toNat ≤ groupOrder then some ((w.toNat - 1 : ℕ) : Scalar) else none
  unpack_pack s := by
    have below := ZMod.val_lt s
    have small : groupOrder < 2 ^ 256 := by decide +kernel
    have value : (BitVec.ofNat 256 (s.val + 1)).toNat = s.val + 1 := by
      rw [BitVec.toNat_ofNat, Nat.mod_eq_of_lt (by omega)]
    rw [value, if_pos (by omega), Nat.add_sub_cancel, ZMod.natCast_zmod_val]
  base := 1
  order n := by rw [nsmul_one, ZMod.natCast_eq_zero_iff]
  pack_ne_zero n := by
    have below := ZMod.val_lt (n • (1 : Scalar))
    have small : groupOrder < 2 ^ 256 := by decide +kernel
    intro zero
    have value := congrArg BitVec.toNat zero
    rw [BitVec.toNat_ofNat, Nat.mod_eq_of_lt (by omega)] at value
    exact absurd value (Nat.succ_ne_zero _)

def mpEccSign (key r hash : UInt256) : UInt256 := toWord (ofWord key + ofWord r * ofWord hash)

/-- `CMPOpenedBox` -/
structure OpenedBox where
  vCoeff : List UInt256
  nPrivKey : UInt256

/-- `CMPSealedBox` -/
structure SealedBox where
  vEncryptedCoeff : List UInt256
  vEncryptedShare : List UInt256
  nPubKey : UInt256
  nR : UInt256
  nS : UInt256

namespace OpenedBox
variable (box : OpenedBox)

def isNull : Bool := box.vCoeff = [] || box.nPrivKey = 0

def validate : Bool := box.vCoeff.all (· ≠ 0) && box.vCoeff ≠ []

/-- `CMPOpenedBox::Polynomial`, nothing if it throws. -/
def polynomial (nThresh : ℕ) (nX : UInt32) : Option UInt256 :=
  if box.isNull ∨ nThresh > box.vCoeff.length then none
  else some (toWord ((List.range' 1 (nThresh - 1)).foldl
    (fun f i => f + ofWord (box.vCoeff.getD i 0) * naturalPowTable (nX - 1).toNat (i - 1))
    (ofWord (box.vCoeff.getD 0 0))))

/-- `CMPOpenedBox::MakeSealedBox`, nothing if it fails. -/
def makeSealedBox (curve : Curve) (nIdent r : UInt256) : Option SealedBox :=
  if !box.validate || r = 0 then none
  else some ⟨box.vCoeff.map curve.mpEccPubkey, [], curve.mpEccPubkey box.nPrivKey, curve.mpEccPubkey r,
    mpEccSign box.nPrivKey r nIdent⟩

def sharedKey (curve : Curve) (pubkey : UInt256) : UInt256 := curve.mpEccSharedKey box.nPrivKey pubkey

end OpenedBox

namespace SealedBox
variable (curve : Curve) (box : SealedBox)

def isNull : Bool := box.vEncryptedCoeff = [] || box.nPubKey = 0

/-- `CMPSealedBox::PubKey`, nothing if it throws. -/
def pubKey : Option UInt256 := if box.isNull then none else some box.nPubKey

/-- `CMPSealedBox::VerifySignature` for the box itself. -/
def verifySignature (nIdent : UInt256) : Bool :=
  !box.isNull && box.vEncryptedCoeff.all curve.mpEccPubkeyValidate &&
    curve.mpEccVerify box.nPubKey box.nR box.nS nIdent

def verifyPolynomial (nX : UInt32) (v : UInt256) : Bool :=
  match box.vEncryptedShare[nX.toNat]? with
  | none => false
  | some share => share = curve.mpEccPubkey v

def coeffPoint (i : ℕ) : curve.Point := ((box.vEncryptedCoeff[i]?).bind curve.unpack).getD 0

/-- Whether `PrecalcPolynomial` reads no coefficient and no power that is not there. -/
def Readable (nThresh nLastIndex : ℕ) : Prop :=
  nThresh ≤ box.vEncryptedCoeff.length ∧ (nThresh ≤ 1 ∨ nLastIndex ≤ 1 ∨ nLastIndex ≤ 52 ∧ nThresh ≤ 27)

instance (nThresh nLastIndex : ℕ) : Decidable (box.Readable nThresh nLastIndex) :=
  inferInstanceAs (Decidable (_ ∧ _))

def precalcPolynomial (nThresh nLastIndex : ℕ) : SealedBox where
  vEncryptedCoeff := box.vEncryptedCoeff
  vEncryptedShare := (List.range nLastIndex).map fun nX =>
    if nX = 0 then box.vEncryptedShare.getD 0 0
    else curve.pack ((List.range' 1 (nThresh - 1)).foldl
      (fun P i => P + naturalPowTable (nX - 1) (i - 1) • box.coeffPoint curve i) (box.coeffPoint curve 0))
  nPubKey := box.nPubKey
  nR := box.nR
  nS := box.nS

end SealedBox

section Secret

noncomputable def OpenedBox.secretPolynomial (box : OpenedBox) (nThresh : ℕ) : Scalar[X] :=
  ∑ i ∈ Finset.range nThresh, C (ofWord (box.vCoeff.getD i 0)) * X ^ i

theorem OpenedBox.degree_secretPolynomial_lt (box : OpenedBox) (nThresh : ℕ) :
    (box.secretPolynomial nThresh).degree < nThresh := by
  apply (degree_sum_le _ _).trans_lt
  apply (Finset.sup_lt_iff (WithBot.bot_lt_coe nThresh)).2
  intro i mem
  exact (degree_C_mul_X_pow_le i _).trans_lt (WithBot.coe_lt_coe.2 (Finset.mem_range.1 mem))

theorem OpenedBox.eval_secretPolynomial (box : OpenedBox) (nThresh : ℕ) (x : Scalar) :
    (box.secretPolynomial nThresh).eval x = ∑ i ∈ Finset.range nThresh, ofWord (box.vCoeff.getD i 0) * x ^ i := by
  simp [secretPolynomial, eval_finsetSum]

theorem OpenedBox.eval_zero_secretPolynomial (box : OpenedBox) {nThresh : ℕ} (positive : 0 < nThresh) :
    (box.secretPolynomial nThresh).eval 0 = ofWord (box.vCoeff.getD 0 0) := by
  rw [eval_secretPolynomial, Finset.sum_eq_single_of_mem 0 (Finset.mem_range.2 positive), pow_zero, mul_one]
  intro i _ other
  rw [zero_pow other, mul_zero]

theorem foldl_range'_eq_sum {M : Type} [AddCommMonoid M] {f g : ℕ → M} {n : ℕ} (positive : 0 < n)
    (same : ∀ i, 1 ≤ i → i < n → f i = g i) :
    (List.range' 1 (n - 1)).foldl (fun sum i => sum + f i) (g 0) = ∑ i ∈ Finset.range n, g i := by
  induction n with
  | zero => cases positive
  | succ n ih =>
    cases n with
    | zero => simp
    | succ n =>
      rw [Finset.sum_range_succ, ← ih (Nat.succ_pos n) fun i low high => same i low (by omega), Nat.add_sub_cancel,
        Nat.add_sub_cancel, range'_1_concat, foldl_append, foldl_cons, foldl_nil, Nat.add_comm 1 n,
        same (n + 1) (by omega) (by omega)]

theorem naturalPowTable_eq {nX i : ℕ} (low : 1 ≤ nX) (high : nX ≤ 51) (lowI : 1 ≤ i) (highI : i ≤ 26) :
    naturalPowTable (nX - 1) (i - 1) = nX ^ i := by
  rw [naturalPowTable, if_pos (by omega), Nat.sub_add_cancel low, Nat.sub_add_cancel lowI]

theorem InTable.toNat_sub_one {nX : UInt32} (reach : InTable nX) : (nX - 1).toNat = nX.toNat - 1 :=
  UInt32.toNat_sub_of_le nX 1 (UInt32.le_iff_toNat_le.2 reach.1)

variable {box : OpenedBox} {nThresh : ℕ} {nX : UInt32}

/-- The box has a private key, and a polynomial that the table of powers is large enough for. -/
structure OpenedBox.Usable (box : OpenedBox) (nThresh : ℕ) : Prop where
  key : box.nPrivKey ≠ 0
  positive : 0 < nThresh
  small : nThresh ≤ 27
  enough : nThresh ≤ box.vCoeff.length

theorem OpenedBox.Usable.polynomial_eq (usable : box.Usable nThresh) (reach : InTable nX) :
    box.polynomial nThresh nX = some (toWord ((box.secretPolynomial nThresh).eval (node nX))) := by
  have some : box.vCoeff ≠ [] := by
    intro none
    have enough := usable.enough
    have positive := usable.positive
    rw [none, length_nil] at enough
    omega
  have ready : ¬(box.isNull ∨ nThresh > box.vCoeff.length) := by
    simpa [isNull, some, usable.enough] using usable.key
  rw [polynomial, if_neg ready, eval_secretPolynomial]
  congr 2
  have first : ofWord (box.vCoeff.getD 0 0) = ofWord (box.vCoeff.getD 0 0) * node nX ^ 0 := by
    rw [pow_zero, mul_one]
  rw [first, reach.toNat_sub_one]
  apply foldl_range'_eq_sum (g := fun i => ofWord (box.vCoeff.getD i 0) * node nX ^ i) usable.positive
  intro i lowI highI
  have small := usable.small
  rw [naturalPowTable_eq reach.1 reach.2 lowI (by omega), Nat.cast_pow, node]

end Secret

theorem ofWord_ne_zero {w : UInt256} (nonzero : w.toNat % groupOrder ≠ 0) : ofWord w ≠ 0 := by
  rw [ofWord, Ne, ZMod.natCast_eq_zero_iff, Nat.dvd_iff_mod_eq_zero]
  exact nonzero

section Sealed
variable {curve : Curve} {box : OpenedBox} {id r : UInt256} {sealed : SealedBox} {nThresh nLastIndex : ℕ}
variable {nX : UInt32}

theorem makeSealedBox_eq (made : box.makeSealedBox curve id r = some sealed) :
    sealed = ⟨box.vCoeff.map curve.mpEccPubkey, [], curve.mpEccPubkey box.nPrivKey, curve.mpEccPubkey r,
      mpEccSign box.nPrivKey r id⟩ ∧ box.vCoeff ≠ [] := by
  unfold OpenedBox.makeSealedBox at made
  split_ifs at made with invalid
  rw [Bool.or_eq_true, not_or, Bool.not_eq_true', Bool.not_eq_false, OpenedBox.validate, Bool.and_eq_true] at invalid
  exact ⟨(Option.some.inj made).symm, of_decide_eq_true invalid.1.2⟩

theorem verifySignature_of_made (made : box.makeSealedBox curve id r = some sealed)
    (nonzero : ∀ coeff ∈ box.vCoeff, ofWord coeff ≠ 0) : sealed.verifySignature curve id = true := by
  obtain ⟨rfl, some⟩ := makeSealedBox_eq made
  have key : curve.mpEccPubkey box.nPrivKey ≠ 0 := curve.pack_ne_zero _
  have valid : ∀ coeff ∈ box.vCoeff.map curve.mpEccPubkey, curve.mpEccPubkeyValidate coeff = true := by
    intro coeff mem
    obtain ⟨c, inside, rfl⟩ := List.mem_map.1 mem
    have point : curve.mpEccPubkey c ≠ 0 := curve.pack_ne_zero _
    rw [Curve.mpEccPubkeyValidate, decide_eq_true point, curve.mpEccPubkey_eq, curve.unpack_pack]
    simpa [curve.point_eq_zero_iff] using nonzero c inside
  have signed : curve.mpEccVerify (curve.mpEccPubkey box.nPrivKey) (curve.mpEccPubkey r)
      (mpEccSign box.nPrivKey r id) id = true := by
    unfold Curve.mpEccVerify
    rw [curve.mpEccPubkey_eq, curve.mpEccPubkey_eq, curve.unpack_pack, curve.unpack_pack]
    apply decide_eq_true
    rw [curve.nsmul_base, mpEccSign, toNat_toWord, ZMod.natCast_zmod_val, curve.point_add, curve.nsmul_point, mul_comm]
    rfl
  have notNull : SealedBox.isNull ⟨box.vCoeff.map curve.mpEccPubkey, [], curve.mpEccPubkey box.nPrivKey,
      curve.mpEccPubkey r, mpEccSign box.nPrivKey r id⟩ = false := by
    simpa [SealedBox.isNull, some] using key
  rw [SealedBox.verifySignature, notNull, signed, List.all_eq_true.2 valid]
  rfl

theorem unpack_mpEccPubkey (key : UInt256) : curve.unpack (curve.mpEccPubkey key) = some (key.toNat • curve.base) :=
  curve.unpack_pack _

theorem sharedKey_ne_zero (key : UInt256) : box.sharedKey curve (curve.mpEccPubkey key) ≠ 0 := by
  rw [OpenedBox.sharedKey, Curve.mpEccSharedKey, unpack_mpEccPubkey]
  simp only
  rw [← mul_nsmul]
  exact curve.pack_ne_zero _

theorem verifyPolynomial_of_made (made : box.makeSealedBox curve id r = some sealed) (usable : box.Usable nThresh)
    (reach : InTable nX) (inside : nX.toNat < nLastIndex) :
    (sealed.precalcPolynomial curve nThresh nLastIndex).verifyPolynomial curve nX
      (toWord ((box.secretPolynomial nThresh).eval (node nX))) = true := by
  have coefficient : ∀ i < nThresh, sealed.coeffPoint curve i = curve.point (ofWord (box.vCoeff.getD i 0)) := by
    intro i less
    have inside := less.trans_le usable.enough
    obtain ⟨rfl, _⟩ := makeSealedBox_eq made
    rw [SealedBox.coeffPoint, List.getElem?_map, List.getElem?_eq_getElem inside, map_some, bind_some,
      curve.mpEccPubkey_eq, curve.unpack_pack, getD_some, getD_eq_getElem?_getD,
      List.getElem?_eq_getElem inside, getD_some]
  have value : (List.range' 1 (nThresh - 1)).foldl
      (fun P i => P + naturalPowTable (nX.toNat - 1) (i - 1) • sealed.coeffPoint curve i) (sealed.coeffPoint curve 0) =
      curve.point ((box.secretPolynomial nThresh).eval (node nX)) := by
    rw [OpenedBox.eval_secretPolynomial, curve.point_sum]
    have first : sealed.coeffPoint curve 0 = curve.point (ofWord (box.vCoeff.getD 0 0) * node nX ^ 0) := by
      rw [pow_zero, mul_one, coefficient 0 usable.positive]
    rw [first]
    apply foldl_range'_eq_sum (g := fun i => curve.point (ofWord (box.vCoeff.getD i 0) * node nX ^ i)) usable.positive
    intro i lowI highI
    have small := usable.small
    rw [naturalPowTable_eq reach.1 reach.2 lowI (by omega), coefficient i highI, curve.nsmul_point, Nat.cast_pow, mul_comm,
      node]
  have nonzero : nX.toNat ≠ 0 := Nat.one_le_iff_ne_zero.1 reach.1
  unfold SealedBox.verifyPolynomial SealedBox.precalcPolynomial
  rw [List.getElem?_map, List.getElem?_range inside, map_some]
  simp only [if_neg nonzero]
  rw [value, curve.mpEccPubkey_eq, ofWord_toWord, decide_eq_true rfl]

end Sealed

end HashAhead.Mpvss

import HashAhead.Mpvss.Box

/-! What the points of a sealed box say about the shares: shares at different indexes that fit the points
interpolate to the secret that the first point stands for. -/

namespace HashAhead.Mpvss
open Foundation State Polynomial List

section Commits
variable {curve : Curve} {P : curve.Point} {secret : UInt256}

/-- The point stands for the secret, up to a point that is killed by a number prime to the group order. -/
def Commits (curve : Curve) (P : curve.Point) (secret : UInt256) : Prop :=
  ∃ n : ℤ, IsCoprime n groupOrder ∧ n • (P - curve.point (ofWord secret)) = 0

end Commits

section Shares
variable {curve : Curve} {vShare : List (UInt32 × UInt256)}

section
variable (reaches : ∀ share ∈ vShare, InTable share.1) (distinct : (vShare.map Prod.fst).Nodup)
include reaches distinct

theorem nodup_node :
    Set.InjOn (fun share : UInt32 × UInt256 => node share.1) (vShare.toFinset : Set (UInt32 × UInt256)) := by
  intro a first b second same
  rw [Finset.mem_coe, List.mem_toFinset] at first second
  by_contra apart
  have differ : a.1 ≠ b.1 := fun equal => apart (inj_on_of_nodup_map distinct first second equal)
  exact node_ne (reaches a first).small (reaches b second).small differ same

theorem exists_polynomial :
    ∃ p : Scalar[X], p.degree < vShare.length ∧ ∀ share ∈ vShare, ofWord share.2 = p.eval (node share.1) := by
  have injective := nodup_node reaches distinct
  refine ⟨Lagrange.interpolate vShare.toFinset (fun share => node share.1) fun share => ofWord share.2, ?_, ?_⟩
  · apply (Lagrange.degree_interpolate_lt _ injective).trans_le
    exact_mod_cast vShare.toFinset_card_le
  · intro share mem
    rw [Lagrange.eval_interpolate_at_node _ injective (List.mem_toFinset.2 mem)]

end

theorem commits_of_fitting {C : ℕ → curve.Point} (some : 0 < vShare.length)
    (reaches : ∀ share ∈ vShare, InTable share.1) (distinct : (vShare.map Prod.fst).Nodup)
    (fits : ∀ share ∈ vShare,
      ∑ i ∈ Finset.range vShare.length, share.1.toNat ^ i • C i = share.2.toNat • curve.base) :
    Commits curve (C 0) (mpNewton vShare) := by
  obtain ⟨p, low, on⟩ := exists_polynomial reaches distinct
  rw [mpNewton_eq low reaches distinct on]
  have natLow : p.natDegree < vShare.length := by
    by_cases zero : p = 0
    · rw [zero, natDegree_zero]
      exact some
    · exact (natDegree_lt_iff_degree_lt zero).2 low
  let x (j : Fin vShare.length) : ℤ := (vShare.get j).1.toNat
  -- what the points have beyond the coefficients of the polynomial vanishes at all shares
  have vanish : ∀ j, ∑ i : Fin vShare.length, x j ^ (i : ℕ) • (C i - curve.point (p.coeff i)) = 0 := by
    intro j
    have mem : vShare.get j ∈ vShare := List.get_mem _ _
    have power : ∀ (i : ℕ) (Q : curve.Point), x j ^ i • Q = (vShare.get j).1.toNat ^ i • Q := by
      intro i Q
      rw [← natCast_zsmul, Nat.cast_pow]
    have value : ∑ i ∈ Finset.range vShare.length, (vShare.get j).1.toNat ^ i • curve.point (p.coeff i) =
        (vShare.get j).2.toNat • curve.base := by
      rw [curve.nsmul_base]
      show _ = curve.point (ofWord (vShare.get j).2)
      rw [on _ mem, eval_eq_sum_range' natLow, curve.point_sum]
      apply Finset.sum_congr rfl
      intro i _
      rw [curve.nsmul_point, Nat.cast_pow, mul_comm]
      rfl
    rw [Fin.sum_univ_eq_sum_range fun i => x j ^ i • (C i - curve.point (p.coeff i))]
    simp only [power, smul_sub]
    rw [Finset.sum_sub_distrib, fits _ mem, value, sub_self]
  have apart : Function.Injective fun j => (x j : Scalar) := by
    intro j k same
    have nodes : node (vShare.get j).1 = node (vShare.get k).1 := by simpa [x, node] using same
    by_contra differ
    have indexes : (vShare.get j).1 ≠ (vShare.get k).1 := by
      intro equal
      have injective := nodup_iff_injective_get.1 distinct
      have positions := @injective (Fin.cast (length_map _).symm j) (Fin.cast (length_map _).symm k)
        (by simpa using equal)
      exact differ (by simpa using positions)
    exact node_ne (reaches _ (List.get_mem _ _)).small (reaches _ (List.get_mem _ _)).small indexes nodes
  have kills := det_vandermonde_smul vanish ⟨0, some⟩
  refine ⟨_, det_vandermonde_coprime apart, ?_⟩
  rw [ofWord_toWord, ← coeff_zero_eq_eval_zero]
  exact kills

theorem fits_of_verified {box : SealedBox} {nThresh last : ℕ} {x : UInt32} {v : UInt256}
    (fresh : box.vEncryptedShare = []) (positive : 0 < nThresh) (few : nThresh ≤ 1 → last ≤ 52)
    (readable : box.Readable nThresh last)
    (verified : (box.precalcPolynomial curve nThresh last).verifyPolynomial curve x v = true) :
    InTable x ∧ ∑ i ∈ Finset.range nThresh, x.toNat ^ i • box.coeffPoint curve i = v.toNat • curve.base := by
  unfold SealedBox.verifyPolynomial SealedBox.precalcPolynomial at verified
  rw [List.getElem?_map] at verified
  rcases Nat.lt_or_ge x.toNat last with inside | outside
  · rw [List.getElem?_range inside, Option.map_some] at verified
    simp only [fresh] at verified
    split_ifs at verified with zero
    · -- the word at index 0 is never written, and it is the word of no point
      exact absurd (of_decide_eq_true verified).symm (curve.pack_ne_zero _)
    · have bounds : last ≤ 52 ∧ nThresh ≤ 27 := by
        obtain ⟨_, single | none | both⟩ := readable
        · exact ⟨few single, by omega⟩
        · omega
        · exact both
      refine ⟨⟨by omega, by omega⟩, ?_⟩
      have points := congrArg curve.unpack (of_decide_eq_true verified)
      rw [Curve.mpEccPubkey, curve.unpack_pack, curve.unpack_pack, Option.some.injEq] at points
      have first : box.coeffPoint curve 0 = x.toNat ^ 0 • box.coeffPoint curve 0 := by rw [pow_zero, one_smul]
      rw [← points, first]
      symm
      apply foldl_range'_eq_sum (g := fun i => x.toNat ^ i • box.coeffPoint curve i) positive
      intro i low high
      rw [naturalPowTable_eq (by omega) (by omega) low (by omega)]
  · rw [List.getElem?_eq_none (by simpa using outside)] at verified
    cases verified

end Shares

end HashAhead.Mpvss

import Mathlib.FieldTheory.Finite.Basic
import Mathlib.LinearAlgebra.Vandermonde

/-! Newton interpolation, where a divided difference of a polynomial is a value of its quotient by the factors
of the other nodes, and elimination in an abelian group, where members that the powers of enough numbers combine to 0
are killed by the product of the differences of the numbers. -/

namespace HashAhead.Foundation
open Polynomial List Matrix

section Quotient
variable {R : Type} [CommRing R]

variable (p : R[X])

theorem divByMonic_divByMonic {f g : R[X]} (monicF : f.Monic) (monicG : g.Monic) :
    p /ₘ f /ₘ g = p /ₘ (f * g) := by
  rcases subsingleton_or_nontrivial R with trivial | _
  · exact Subsingleton.elim _ _
  · have first := modByMonic_add_div p f
    have second := modByMonic_add_div (p /ₘ f) g
    have lowF := degree_modByMonic_lt p monicF
    have lowG := degree_modByMonic_lt (p /ₘ f) monicG
    symm
    refine (div_modByMonic_unique (p /ₘ f /ₘ g) (p %ₘ f + f * ((p /ₘ f) %ₘ g)) (monicF.mul monicG) ⟨?_, ?_⟩).1
    · rw [add_assoc, mul_assoc, ← mul_add, second, first]
    · rw [monicG.degree_mul]
      apply (degree_add_le _ _).trans_lt
      apply max_lt
      · exact lowF.trans_le (le_add_of_nonneg_right (zero_le_degree_iff.2 monicG.ne_zero))
      · rw [monicF.degree_mul_comm, monicF.degree_mul, add_comm]
        exact WithBot.add_lt_add_left (degree_ne_bot.2 monicF.ne_zero) lowG

noncomputable def nodeFactor (nodes : List R) : R[X] := (nodes.map fun a => X - C a).prod

theorem nodeFactor_monic (nodes : List R) : (nodeFactor nodes).Monic := by
  induction nodes with
  | nil => exact monic_one
  | cons a nodes ih => exact (monic_X_sub_C a).mul ih

noncomputable def nodeQuotient (p : R[X]) (nodes : List R) : R[X] := p /ₘ nodeFactor nodes

theorem nodeQuotient_nil : nodeQuotient p [] = p := divByMonic_one p

theorem nodeQuotient_cons (a : R) (nodes : List R) :
    nodeQuotient p (a :: nodes) = nodeQuotient p nodes /ₘ (X - C a) := by
  have factor : nodeFactor (a :: nodes) = nodeFactor nodes * (X - C a) := mul_comm _ _
  rw [nodeQuotient, factor, nodeQuotient, divByMonic_divByMonic p (nodeFactor_monic nodes) (monic_X_sub_C a)]

theorem nodeQuotient_divByMonic (a : R) (nodes : List R) :
    nodeQuotient (p /ₘ (X - C a)) nodes = nodeQuotient p (a :: nodes) :=
  divByMonic_divByMonic p (monic_X_sub_C a) (nodeFactor_monic nodes)

theorem eval_eq_add_divByMonic (a z : R) :
    p.eval z = p.eval a + (z - a) * (p /ₘ (X - C a)).eval z := by
  have divided := congrArg (eval z) (modByMonic_add_div p (X - C a))
  rw [modByMonic_X_sub_C_eq_C_eval, eval_add, eval_mul, eval_sub, eval_X, eval_C, eval_C] at divided
  exact divided.symm

theorem degree_nodeFactor [Nontrivial R] (nodes : List R) : (nodeFactor nodes).degree = nodes.length := by
  induction nodes with
  | nil => exact degree_one
  | cons a nodes ih =>
    have product : (nodeFactor (a :: nodes)).degree = (X - C a).degree + (nodeFactor nodes).degree :=
      (nodeFactor_monic nodes).degree_mul
    rw [product, degree_X_sub_C, ih, length_cons, Nat.cast_add, Nat.cast_one, add_comm]

theorem nodeQuotient_eq_zero [Nontrivial R] {p : R[X]} {nodes : List R} (low : p.degree < nodes.length) :
    nodeQuotient p nodes = 0 := by
  rw [nodeQuotient, divByMonic_eq_zero_iff (nodeFactor_monic nodes), degree_nodeFactor]
  exact low

noncomputable def differenceRow (x : R) : R[X] → List R → List R
  | p, [] => [p.eval x]
  | p, a :: nodes => p.eval x :: differenceRow x (p /ₘ (X - C a)) nodes

noncomputable def differenceDiagonal : R[X] → List R → List R
  | _, [] => []
  | p, a :: nodes => p.eval a :: differenceDiagonal (p /ₘ (X - C a)) nodes

theorem getLastD_differenceRow (x y : R) (p : R[X]) (nodes : List R) :
    (differenceRow x p nodes).getLastD y = (nodeQuotient p nodes).eval x := by
  induction nodes generalizing p y with
  | nil => rw [nodeQuotient_nil]; rfl
  | cons a nodes ih =>
    rw [differenceRow, getLastD_cons, ih, nodeQuotient_divByMonic]

end Quotient

section Field
variable {F : Type} [Field F]

variable {a : F}

theorem eval_divByMonic (p : F[X]) {b : F} (apart : b ≠ a) :
    (p /ₘ (X - C a)).eval b = (p.eval b - p.eval a) * (b - a)⁻¹ := by
  rw [eval_eq_add_divByMonic p a b, add_sub_cancel_left, mul_comm, ← mul_assoc, inv_mul_cancel₀ (sub_ne_zero.2 apart),
    one_mul]

theorem eval_divByMonic_comm (p : F[X]) {b : F} (apart : a ≠ b) :
    (p /ₘ (X - C a)).eval b = (p /ₘ (X - C b)).eval a := by
  rw [eval_divByMonic p apart.symm, eval_divByMonic p apart, ← neg_sub a b, inv_neg, mul_neg, ← neg_mul, neg_sub]

/-- The row of a node is the diagonal that starts with it: a divided difference does not depend on the
order of its nodes. -/
theorem differenceDiagonal_cons (p : F[X]) {nodes : List F} (apart : a ∉ nodes) :
    differenceDiagonal p (a :: nodes) = differenceRow a p nodes := by
  induction nodes generalizing p with
  | nil => rfl
  | cons b nodes ih =>
    rw [mem_cons, not_or] at apart
    have exchange : p /ₘ (X - C a) /ₘ (X - C b) = p /ₘ (X - C b) /ₘ (X - C a) := by
      rw [divByMonic_divByMonic p (monic_X_sub_C a) (monic_X_sub_C b), mul_comm,
        divByMonic_divByMonic p (monic_X_sub_C b) (monic_X_sub_C a)]
    have later := ih (p /ₘ (X - C b)) apart.2
    rw [differenceDiagonal] at later
    rw [differenceDiagonal, differenceDiagonal, differenceRow, eval_divByMonic_comm p apart.1, exchange, later]

end Field

variable {G : Type} [AddCommGroup G] {n : ℕ} {x : Fin n → ℤ}

theorem det_vandermonde_smul {E : Fin n → G} (vanish : ∀ j, ∑ i : Fin n, x j ^ (i : ℕ) • E i = 0) (k : Fin n) :
    (vandermonde x).det • E k = 0 := by
  have product : ∀ i, ((vandermonde x).adjugate * vandermonde x) k i = if k = i then (vandermonde x).det else 0 := by
    intro i
    rw [adjugate_mul, Matrix.smul_apply, one_apply, smul_eq_mul, mul_ite, mul_one, mul_zero]
  calc (vandermonde x).det • E k
    _ = ∑ i, ((vandermonde x).adjugate * vandermonde x) k i • E i := by
      simp [product, ite_smul]
    _ = ∑ i : Fin n, ∑ j, (vandermonde x).adjugate k j • x j ^ (i : ℕ) • E i := by
      apply Finset.sum_congr rfl
      intro i _
      rw [mul_apply, Finset.sum_smul]
      apply Finset.sum_congr rfl
      intro j _
      rw [vandermonde_apply, mul_smul]
    _ = ∑ j, (vandermonde x).adjugate k j • ∑ i : Fin n, x j ^ (i : ℕ) • E i := by
      rw [Finset.sum_comm]
      simp only [Finset.smul_sum]
    _ = 0 := by simp [vanish]

theorem det_vandermonde_coprime {p : ℕ} [prime : Fact p.Prime] (apart : Function.Injective fun i => (x i : ZMod p)) :
    IsCoprime (vandermonde x).det p := by
  rw [det_vandermonde]
  apply IsCoprime.prod_left
  intro i _
  apply IsCoprime.prod_left
  intro j above
  have irreducible := (Nat.prime_iff_prime_int.1 prime.out).irreducible
  apply IsCoprime.symm
  rw [irreducible.coprime_iff_not_dvd, ← ZMod.intCast_zmod_eq_zero_iff_dvd, Int.cast_sub, sub_eq_zero]
  intro same
  exact absurd (apart same) (Finset.mem_Ioi.1 above).ne'

end HashAhead.Foundation

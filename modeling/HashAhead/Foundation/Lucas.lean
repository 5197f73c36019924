import Mathlib.NumberTheory.LucasPrimality

/-! Primality from a primitive root and the prime factors of the number before. -/

namespace HashAhead.Foundation

/-- A power modulo a number by repeated squaring, for an exponent with at most so many bits. -/
def powMod (p : ℕ) : ℕ → ℕ → ℕ → ℕ
  | 0, _, _ => 1
  | bits + 1, a, e => a ^ (e % 2) * powMod p bits (a * a % p) (e / 2) % p

theorem cast_powMod (p bits a e : ℕ) (small : e < 2 ^ bits) : (powMod p bits a e : ZMod p) = (a : ZMod p) ^ e := by
  induction bits generalizing a e with
  | zero => simp [powMod, Nat.lt_one_iff.1 small]
  | succ bits ih =>
    rw [powMod, ZMod.natCast_mod, Nat.cast_mul, ih _ _ (by omega), ZMod.natCast_mod, Nat.cast_mul, ← pow_two, ← pow_mul,
      Nat.cast_pow, ← pow_add, Nat.mod_add_div]

/-- A number, the bits of an exponent below it, an element that has the order of the units, and the prime factors
of that order. -/
structure Certificate where
  number : ℕ
  bits : ℕ
  root : ℕ
  factors : List ℕ

/-- The power of the element by the order is one, and its powers by the order without one factor are not. -/
def Certificate.Primitive (c : Certificate) : Prop :=
  1 < c.number ∧ c.number < 2 ^ c.bits ∧ c.factors.prod = c.number - 1 ∧
    powMod c.number c.bits c.root (c.number - 1) = 1 ∧ ∀ f ∈ c.factors,
      powMod c.number c.bits c.root ((c.number - 1) / f) ≠ 1 ∧
        powMod c.number c.bits c.root ((c.number - 1) / f) < c.number

instance (c : Certificate) : Decidable c.Primitive :=
  inferInstanceAs (Decidable (_ ∧ _))

theorem Certificate.Primitive.prime {c : Certificate} (whole : c.Primitive) (primes : ∀ f ∈ c.factors, f.Prime) :
    c.number.Prime := by
  obtain ⟨p, bits, a, factors⟩ := c
  simp only [Certificate.Primitive] at whole
  obtain ⟨two, small, full, one, others⟩ := whole
  have power : ∀ f, ((a : ZMod p) ^ ((p - 1) / f)) = powMod p bits a ((p - 1) / f) := fun f =>
    (cast_powMod p bits a _ ((Nat.div_le_self _ _).trans_lt (by omega))).symm
  apply lucas_primality p (a : ZMod p)
  · rw [← cast_powMod p bits a _ (by omega), one, Nat.cast_one]
  intro f prime divides
  rw [← full] at divides
  obtain ⟨f', mem, divides⟩ := (Prime.dvd_prod_iff prime.prime).1 divides
  rw [(Nat.prime_dvd_prime_iff_eq prime (primes f' mem)).1 divides, power]
  intro same
  have equal := (ZMod.natCast_eq_natCast_iff' _ 1 p).1 (same.trans Nat.cast_one.symm)
  rw [Nat.mod_eq_of_lt (others f' mem).2, Nat.mod_eq_of_lt two] at equal
  exact (others f' mem).1 equal

/-- The factors of each certificate are known, or an earlier certificate is about them. -/
def Certified : List ℕ → List Certificate → Prop
  | _, [] => True
  | known, c :: later => c.factors ⊆ known ∧ c.Primitive ∧ Certified (c.number :: known) later

instance : ∀ known certificates, Decidable (Certified known certificates)
  | _, [] => inferInstanceAs (Decidable True)
  | known, c :: later =>
    have := instDecidableCertified (c.number :: known) later
    inferInstanceAs (Decidable (_ ∧ _))

theorem Certified.prime {known : List ℕ} {certificates : List Certificate} (whole : Certified known certificates)
    (primes : ∀ f ∈ known, f.Prime) : ∀ c ∈ certificates, c.number.Prime := by
  induction certificates generalizing known with
  | nil => simp
  | cons c later ih =>
    obtain ⟨factors, primitive, rest⟩ := whole
    have first := primitive.prime fun f mem => primes f (factors mem)
    exact List.forall_mem_cons.2 ⟨first, ih rest (List.forall_mem_cons.2 ⟨first, primes⟩)⟩

end HashAhead.Foundation

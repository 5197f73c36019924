import Mathlib.Algebra.Group.Nat.Defs
import Mathlib.Tactic.Common

/-! Fixed-width numbers as byte strings, lowest byte first. -/

namespace HashAhead.Foundation
open List

def littleEndian : Nat → Nat → List UInt8
  | 0, _ => []
  | size + 1, word => UInt8.ofNat word :: littleEndian size (word / 256)

def ofLittleEndian : List UInt8 → Nat
  | [] => 0
  | byte :: rest => byte.toNat + 256 * ofLittleEndian rest

@[simp] theorem length_littleEndian (size word : Nat) : (littleEndian size word).length = size := by
  induction size generalizing word with
  | zero => rfl
  | succ size ih => simp [littleEndian, ih]

theorem ofLittleEndian_littleEndian (size word : Nat) (fits : word < 256 ^ size) :
    ofLittleEndian (littleEndian size word) = word := by
  induction size generalizing word with
  | zero =>
    rw [pow_zero] at fits
    simp only [littleEndian, ofLittleEndian]
    omega
  | succ size ih =>
    have rest : word / 256 < 256 ^ size := by
      rw [pow_succ] at fits
      exact Nat.div_lt_of_lt_mul (by omega)
    simp only [littleEndian, ofLittleEndian, ih _ rest, UInt8.toNat_ofNat']
    omega

theorem littleEndian_ofLittleEndian (bytes : List UInt8) : littleEndian bytes.length (ofLittleEndian bytes) = bytes := by
  induction bytes with
  | nil => rfl
  | cons byte bytes ih =>
    have small : byte.toNat < 256 := byte.toNat_lt
    have low : UInt8.ofNat (byte.toNat + 256 * ofLittleEndian bytes) = byte := by
      apply UInt8.toNat_inj.1
      rw [UInt8.toNat_ofNat', Nat.add_mul_mod_self_left, Nat.mod_eq_of_lt small]
    have high : (byte.toNat + 256 * ofLittleEndian bytes) / 256 = ofLittleEndian bytes := by omega
    rw [ofLittleEndian, length_cons, littleEndian, low, high, ih]

theorem word_of_bytes (word : BitVec 256) : BitVec.ofNat 256 (ofLittleEndian (littleEndian 32 word.toNat)) = word := by
  have fits : word.toNat < 256 ^ 32 := lt_of_lt_of_eq word.isLt (by decide)
  rw [ofLittleEndian_littleEndian 32 word.toNat fits, BitVec.ofNat_toNat, BitVec.setWidth_eq]

section Trim

theorem ofLittleEndian_append (low high : List UInt8) :
    ofLittleEndian (low ++ high) = ofLittleEndian low + 256 ^ low.length * ofLittleEndian high := by
  induction low with
  | nil => simp [ofLittleEndian]
  | cons byte low ih =>
    rw [cons_append, ofLittleEndian, ofLittleEndian, ih, length_cons, pow_succ', mul_assoc, Nat.mul_add,
      ← add_assoc]

variable (bytes : List UInt8)

theorem ofLittleEndian_lt : ofLittleEndian bytes < 256 ^ bytes.length := by
  induction bytes with
  | nil => simp [ofLittleEndian]
  | cons byte bytes ih =>
    have small : byte.toNat < 256 := byte.toNat_lt
    rw [ofLittleEndian, length_cons, pow_succ]
    omega

theorem ofLittleEndian_eq_zero_iff : ofLittleEndian bytes = 0 ↔ ∀ byte ∈ bytes, byte = 0 := by
  induction bytes with
  | nil => simp [ofLittleEndian]
  | cons byte bytes ih =>
    have zero : byte.toNat = 0 ↔ byte = 0 := by rw [← UInt8.toNat_inj]; rfl
    rw [ofLittleEndian, forall_mem_cons, ← ih, ← zero]
    omega

/-- The bytes of a number, highest first, from the first that is not zero. -/
def trimBig (size word : Nat) : List UInt8 := (littleEndian size word).reverse.dropWhile (· = 0)

theorem ofLittleEndian_dropWhile :
    ofLittleEndian (bytes.dropWhile (· = 0)).reverse = ofLittleEndian bytes.reverse := by
  conv_rhs => rw [← takeWhile_append_dropWhile (p := (· = 0)) (l := bytes)]
  have zeros : ofLittleEndian (bytes.takeWhile (· = 0)).reverse = 0 := by
    rw [ofLittleEndian_eq_zero_iff]
    intro byte mem
    simpa using List.all_eq_true.1 all_takeWhile byte (mem_reverse.1 mem)
  rw [reverse_append, ofLittleEndian_append, zeros, Nat.mul_zero, Nat.add_zero]

theorem ofLittleEndian_trimBig {size word : Nat} (fits : word < 256 ^ size) :
    ofLittleEndian (trimBig size word).reverse = word := by
  rw [trimBig, ofLittleEndian_dropWhile, reverse_reverse, ofLittleEndian_littleEndian size word fits]

theorem length_trimBig_le (size word : Nat) : (trimBig size word).length ≤ size := by
  have shorter := (dropWhile_sublist (l := (littleEndian size word).reverse) (· = 0)).length_le
  rwa [length_reverse, length_littleEndian] at shorter

theorem trimBig_ne_nil {size word : Nat} (fits : word < 256 ^ size) (nonzero : word ≠ 0) : trimBig size word ≠ [] := by
  intro empty
  have value := ofLittleEndian_trimBig fits
  rw [empty] at value
  exact nonzero value.symm

end Trim

section Stream

def takeBytes (size : Nat) (stream : List UInt8) : Option (List UInt8 × List UInt8) :=
  if stream.length < size then none else some (stream.take size, stream.drop size)

theorem takeBytes_append {size : Nat} {front : List UInt8} (whole : front.length = size) (rest : List UInt8) :
    takeBytes size (front ++ rest) = some (front, rest) := by
  subst whole
  simp [takeBytes]

end Stream

end HashAhead.Foundation

import Mathlib.Data.List.Lex

/-! Trie keys are byte strings, and trie nodes address them by half-bytes. The flag
returned with a packed nibble string records whether its last byte carries one
nibble or two. -/

namespace HashAhead.Trie
open List

abbrev Bytes := List UInt8

/-- `CKeyNibble::Byte2Nibble`. Only the low half of the last byte depends on the flag. -/
def byte2Nibble : Bytes → UInt8 → Bytes
  | [], _ => []
  | [d], flag => d >>> 4 :: (if flag = 0 then [d &&& 0x0F] else [])
  | d :: e :: rest, flag => d >>> 4 :: (d &&& 0x0F) :: byte2Nibble (e :: rest) flag

/-- `CKeyNibble::Nibble2Byte`, the packed bytes together with the returned flag. -/
def nibble2Byte : Bytes → Bytes × UInt8
  | [] => ([], 0)
  | [a] => ([a <<< 4], 1)
  | a :: b :: rest => ((a <<< 4 ||| (b &&& 0x0F)) :: (nibble2Byte rest).1, (nibble2Byte rest).2)

def keyNibbles (key : Bytes) : Bytes := byte2Nibble key 0

def Nibbles (key : Bytes) : Prop := ∀ n ∈ key, n < 16

theorem Nibbles.tail {n : UInt8} {key : Bytes} (small : Nibbles (n :: key)) : Nibbles key :=
  fun m mem => small m (mem_cons_of_mem n mem)

theorem Nibbles.left {first second : Bytes} (small : Nibbles (first ++ second)) : Nibbles first :=
  fun m mem => small m (mem_append_left second mem)

theorem Nibbles.right {first second : Bytes} (small : Nibbles (first ++ second)) : Nibbles second :=
  fun m mem => small m (mem_append_right first mem)

theorem forall_byte {P : UInt8 → Prop} (all : ∀ n : Fin 256, P (UInt8.ofNat n.val)) (d : UInt8) :
    P d := by
  have here := all ⟨d.toNat, d.toNat_lt⟩
  simpa using here

private theorem forall_nibble {P : UInt8 → Prop} (all : ∀ n : Fin 16, P (UInt8.ofNat n.val)) (d : UInt8)
    (small : d < 16) : P d := by
  have bound : d.toNat < 16 := by simpa using UInt8.lt_iff_toNat_lt.mp small
  have here := all ⟨d.toNat, bound⟩
  simpa using here

private theorem high_lt (d : UInt8) : d >>> 4 < 16 :=
  forall_byte (P := fun d => d >>> 4 < 16) (by decide +kernel) d

private theorem low_lt (d : UInt8) : d &&& 0x0F < 16 :=
  forall_byte (P := fun d => d &&& 0x0F < 16) (by decide +kernel) d

private theorem pack_unpack (d : UInt8) : d >>> 4 <<< 4 ||| (d &&& 0x0F &&& 0x0F) = d :=
  forall_byte (P := fun d => d >>> 4 <<< 4 ||| (d &&& 0x0F &&& 0x0F) = d) (by decide +kernel) d

private theorem unpack_high (a b : UInt8) (first : a < 16) (second : b < 16) :
    (a <<< 4 ||| (b &&& 0x0F)) >>> 4 = a := by
  refine forall_nibble (P := fun a => (a <<< 4 ||| (b &&& 0x0F)) >>> 4 = a) ?_ a first
  intro n
  exact forall_nibble (P := fun b => (UInt8.ofNat n.val <<< 4 ||| (b &&& 0x0F)) >>> 4 = UInt8.ofNat n.val)
    (by revert n; decide) b second

private theorem unpack_low (a b : UInt8) (first : a < 16) (second : b < 16) :
    (a <<< 4 ||| (b &&& 0x0F)) &&& 0x0F = b := by
  refine forall_nibble (P := fun a => (a <<< 4 ||| (b &&& 0x0F)) &&& 0x0F = b) ?_ a first
  intro n
  exact forall_nibble (P := fun b => (UInt8.ofNat n.val <<< 4 ||| (b &&& 0x0F)) &&& 0x0F = b)
    (by revert n; decide) b second

private theorem unpack_odd (a : UInt8) (first : a < 16) : a <<< 4 >>> 4 = a :=
  forall_nibble (P := fun a => a <<< 4 >>> 4 = a) (by decide) a first

theorem nibbles_byte2Nibble (bt : Bytes) (flag : UInt8) : Nibbles (byte2Nibble bt flag) := by
  fun_induction byte2Nibble bt flag with
  | case1 => simp [Nibbles]
  | case2 d flag =>
    intro n mem
    rcases mem_cons.mp mem with rfl | later
    · exact high_lt d
    · split_ifs at later with even
      · rw [mem_singleton.mp later]
        exact low_lt d
      · simp at later
  | case3 d e rest flag ih =>
    intro n mem
    rcases mem_cons.mp mem with rfl | later
    · exact high_lt d
    · rcases mem_cons.mp later with rfl | tail
      · exact low_lt d
      · exact ih n tail

theorem nibbles_keyNibbles (key : Bytes) : Nibbles (keyNibbles key) := nibbles_byte2Nibble key 0

@[simp] theorem keyNibbles_nil : keyNibbles [] = [] := rfl

theorem keyNibbles_cons (d : UInt8) (rest : Bytes) :
    keyNibbles (d :: rest) = d >>> 4 :: (d &&& 0x0F) :: keyNibbles rest := by
  cases rest <;> simp [keyNibbles, byte2Nibble]

@[simp] theorem keyNibbles_eq_nil (key : Bytes) : keyNibbles key = [] ↔ key = [] := by
  cases key <;> simp [keyNibbles_cons]

theorem nibble2Byte_keyNibbles (key : Bytes) : nibble2Byte (keyNibbles key) = (key, 0) := by
  induction key with
  | nil => rfl
  | cons d rest ih =>
    rw [keyNibbles_cons]
    simp only [nibble2Byte, ih, pack_unpack]

theorem keyNibbles_injective : Function.Injective keyNibbles := by
  intro a b same
  have packed := congrArg nibble2Byte same
  rw [nibble2Byte_keyNibbles, nibble2Byte_keyNibbles] at packed
  exact congrArg Prod.fst packed

/-- Unpacking undoes packing for every nibble string, of even or odd length. -/
theorem byte2Nibble_nibble2Byte {nibble : Bytes} (small : Nibbles nibble) :
    byte2Nibble (nibble2Byte nibble).1 (nibble2Byte nibble).2 = nibble := by
  fun_induction nibble2Byte nibble with
  | case1 => rfl
  | case2 a => simp [byte2Nibble, unpack_odd a (small a (by simp))]
  | case3 a b rest ih =>
    have first := small a (by simp)
    have second := small b (by simp)
    have tail := ih (fun n mem => small n (by simp [mem]))
    cases packed : (nibble2Byte rest).1 with
    | nil =>
      rw [packed] at tail
      have none : rest = [] := by simpa [byte2Nibble] using tail.symm
      subst rest
      simp [nibble2Byte, byte2Nibble, unpack_high a b first second, unpack_low a b first second]
    | cons e more =>
      rw [packed] at tail
      simp only [byte2Nibble, unpack_high a b first second, unpack_low a b first second, tail]

theorem nibble2Byte_flag (nibble : Bytes) : (nibble2Byte nibble).2 = 0 ∨ (nibble2Byte nibble).2 = 1 := by
  fun_induction nibble2Byte nibble with
  | case1 => exact Or.inl rfl
  | case2 a => exact Or.inr rfl
  | case3 a b rest ih => exact ih

section Order

private theorem halves_toNat (d : UInt8) : (d >>> 4).toNat = d.toNat / 16 ∧ (d &&& 0x0F).toNat = d.toNat % 16 := by
  constructor
  · simp [Nat.shiftRight_eq_div_pow]
  · exact Nat.and_two_pow_sub_one_eq_mod d.toNat 4

private theorem halves_eq (d e : UInt8) : d = e ↔ d >>> 4 = e >>> 4 ∧ d &&& 0x0F = e &&& 0x0F := by
  obtain ⟨highD, lowD⟩ := halves_toNat d
  obtain ⟨highE, lowE⟩ := halves_toNat e
  rw [← UInt8.toNat_inj, ← UInt8.toNat_inj, ← UInt8.toNat_inj]
  omega

private theorem halves_lt (d e : UInt8) :
    d < e ↔ d >>> 4 < e >>> 4 ∨ (d >>> 4 = e >>> 4 ∧ d &&& 0x0F < e &&& 0x0F) := by
  obtain ⟨highD, lowD⟩ := halves_toNat d
  obtain ⟨highE, lowE⟩ := halves_toNat e
  rw [← UInt8.toNat_inj, UInt8.lt_iff_toNat_lt, UInt8.lt_iff_toNat_lt, UInt8.lt_iff_toNat_lt]
  omega

theorem keyNibbles_prefix_iff (first second : Bytes) : keyNibbles first <+: keyNibbles second ↔ first <+: second := by
  induction first generalizing second with
  | nil => simp [keyNibbles_nil]
  | cons d first ih =>
    cases second with
    | nil => simp [keyNibbles_cons, keyNibbles_nil]
    | cons e second =>
      rw [keyNibbles_cons, keyNibbles_cons, cons_prefix_cons, cons_prefix_cons, cons_prefix_cons, ih,
        halves_eq d e]
      tauto

theorem keyNibbles_lt_iff (first second : Bytes) : keyNibbles first < keyNibbles second ↔ first < second := by
  induction first generalizing second with
  | nil =>
    cases second with
    | nil => simp [keyNibbles_nil]
    | cons e second => simp [keyNibbles_nil, keyNibbles_cons]
  | cons d first ih =>
    cases second with
    | nil => simp [keyNibbles_nil]
    | cons e second =>
      rw [keyNibbles_cons, keyNibbles_cons, cons_lt_cons_iff, cons_lt_cons_iff, cons_lt_cons_iff, ih,
        halves_eq d e, halves_lt d e]
      tauto

end Order
end HashAhead.Trie

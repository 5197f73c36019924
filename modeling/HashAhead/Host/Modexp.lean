import HashAhead.Host.EvmHost

/-! The precompiled contract for modular exponentiation. A call of it computes the power before the gas is compared with
the price, and the lengths in its input are only asserted. An input is so worked on for any gas, or it ends the node. -/

namespace HashAhead.Host
open Foundation Trie Option

/-- `numeric_limits<size_t>::max() / 8` -/
def maxCount : ℕ := (2 ^ 64 - 1) / 8

/-- None stands for a failed assertion. -/
def parseBigEndianRightPadded (input : Bytes) (first count : ℕ) : Option ℕ :=
  if first > input.length then some 0
  else if count ≤ maxCount then
    let cropped := (input.drop first).take (min count (input.length - first))
    if count - cropped.length ≤ maxCount then
      some (ofLittleEndian cropped.reverse <<< (8 * (count - cropped.length)))
    else none
  else none

def expLengthAdjust (expOffset expLength : ℕ) (input : Bytes) : Option ℕ :=
  if expLength ≤ 32 then (parseBigEndianRightPadded input expOffset expLength).map Nat.log2
  else (parseBigEndianRightPadded input expOffset 32).map fun expFirstWord => 8 * (expLength - 32) + expFirstWord.log2

def multComplexity (x : ℕ) : ℕ :=
  if x ≤ 64 then x * x
  else if x ≤ 1024 then x * x / 4 + 96 * x - 3072
  else x * x / 16 + 480 * x - 199680

/-- `baseLength`, `expLength` and `modLength` -/
def modexpLengths (input : Bytes) : Option (ℕ × ℕ × ℕ) := do
  some (← parseBigEndianRightPadded input 0 32, ← parseBigEndianRightPadded input 32 32,
    ← parseBigEndianRightPadded input 64 32)

/-- The price of `pricer_modexp` before the cast. -/
def modexpPrice (input : Bytes) : Option ℕ := do
  let (baseLength, expLength, modLength) ← modexpLengths input
  let adjustedExpLength ← expLengthAdjust (baseLength + 96) expLength input
  some (multComplexity (max modLength baseLength) * max adjustedExpLength 1 / 20)

def pricerModexp (input : Bytes) : Option UInt64 := (modexpPrice input).map UInt64.ofNat

/-- `precompliled_modexp`, with whether it computes a power or allocates a result. -/
def precompliledModexp (input : Bytes) : Option (Bytes × Bool) := do
  let (baseLength, expLength, modLength) ← modexpLengths input
  guard (modLength ≤ maxCount ∧ baseLength ≤ maxCount)
  if modLength = 0 ∧ baseLength = 0 then some ([], false)
  else
    guard (expLength ≤ maxCount)
    let base ← parseBigEndianRightPadded input 96 baseLength
    let exp ← parseBigEndianRightPadded input (96 + baseLength) expLength
    let mod ← parseBigEndianRightPadded input (96 + baseLength + expLength) modLength
    let result := if mod ≠ 0 then base ^ exp % mod else 0
    some ((littleEndian modLength result).reverse, mod ≠ 0 ∨ modLength ≠ 0)

/-- `CEvmHost::Call` for the contract. -/
def callModexp (msg : EvmcMessage) : Option (EvmcResult × Bool) := do
  let usedGas ← pricerModexp msg.inputData
  let (out, worked) ← precompliledModexp msg.inputData
  some (HostEnv.precompiledResult msg true out usedGas, worked)

/-- The call returns, and the gas covers the price if there was work. -/
def PaidFirst (msg : EvmcMessage) : Prop :=
  ∃ result worked price, callModexp msg = some (result, worked) ∧ modexpPrice msg.inputData = some price ∧
    (worked = true → price ≤ msg.gas.toInt)

section
variable (input : Bytes) (first : ℕ)

theorem parse_of_le {count : ℕ} (few : count ≤ maxCount) : ∃ n, parseBigEndianRightPadded input first count = some n := by
  unfold parseBigEndianRightPadded
  split_ifs with behind
  · exact ⟨0, rfl⟩
  · rw [if_pos ((Nat.sub_le _ _).trans few)]
    exact ⟨_, rfl⟩

theorem parse_zero : parseBigEndianRightPadded input first 0 = some 0 := by
  simp [parseBigEndianRightPadded, ofLittleEndian]

/-- A length whose price is a number of 63 bits passes the assertions. -/
theorem le_maxCount_of_price {x factor : ℕ} {gas : ℤ} (paid : (multComplexity x * max factor 1 / 20 : ℕ) ≤ gas)
    (small : gas < 2 ^ 63) : x ≤ maxCount := by
  by_contra long
  have wide : 2 ^ 61 ≤ x := by
    rw [maxCount] at long
    omega
  have square : 2 ^ 61 * 2 ^ 61 ≤ x * x := Nat.mul_le_mul wide wide
  have dear : 2 ^ 100 ≤ multComplexity x := by
    rw [multComplexity, if_neg (by omega), if_neg (by omega)]
    omega
  have whole : multComplexity x ≤ multComplexity x * max factor 1 := Nat.le_mul_of_pos_right _ (by omega)
  omega

variable {input} {baseLength expLength modLength : ℕ}

theorem precompliledModexp_iff (lengths : modexpLengths input = some (baseLength, expLength, modLength)) {worked : Bool} :
    (∃ out, precompliledModexp input = some (out, worked)) ↔ (modLength ≤ maxCount ∧ baseLength ≤ maxCount) ∧
      (modLength = 0 ∧ baseLength = 0 ∨ expLength ≤ maxCount) ∧ decide (modLength ≠ 0) = worked := by
  rw [precompliledModexp, lengths, Option.bind_eq_bind, bind_some]
  by_cases fit : modLength ≤ maxCount ∧ baseLength ≤ maxCount
  · by_cases bare : modLength = 0 ∧ baseLength = 0
    · simp [bare]
    by_cases exp : expLength ≤ maxCount
    · obtain ⟨_, readBase⟩ := parse_of_le input 96 fit.2
      obtain ⟨_, readExp⟩ := parse_of_le input (96 + baseLength) exp
      obtain ⟨mod, readMod⟩ := parse_of_le input (96 + baseLength + expLength) fit.1
      have zero : modLength = 0 → mod = 0 := by
        rintro rfl
        exact (Option.some.inj ((parse_zero ..).symm.trans readMod)).symm
      simp only [fit, bare, exp, readBase, readExp, readMod]
      by_cases none : modLength = 0
      · simp [none, zero none]
      · simp [none]
    · simp [fit, bare, exp]
  · simp [fit]

end

namespace Sample

def modexpCall (gas : Int64) (baseLength expLength modLength : ℕ) : EvmcMessage where
  kind := .call
  flags := 0
  depth := 0
  gas
  destination := 5
  sender := 0
  inputData := ([baseLength, expLength, modLength].flatMap fun n => (littleEndian 32 n).reverse) ++ List.replicate 80 7
  value := 0
  create2Salt := 0

end Sample

end HashAhead.Host

import HashAhead.State.Transfer

/-! Destruction of a contract. Its money goes to a beneficiary whose state is written back
last, and the destroyed flag is lost with a state that is otherwise null. -/

namespace HashAhead.State
open Foundation
namespace BlockState
variable {s : BlockState} {destContract destBeneficiary : Destination} {stateContract : DestState}

def Gone (s : BlockState) (destContract : Destination) : Prop :=
  ∀ lower, s.lowerDestState destContract = some lower → lower.fDestroy = true ∧ lower.nBalance = 0

def Wiped : Option DestState → Prop
  | none => True
  | some stateDest => stateDest.fDestroy = true ∧ stateDest.nBalance = 0

theorem wiped_iff (s : BlockState) (dest : Destination) :
    Wiped (s.getDestState dest) ↔ s.balance dest = 0 ∧ s.isContractDestroy dest = true := by
  unfold balance isContractDestroy
  cases s.getDestState dest with
  | none => simp [Wiped, moneyOf]
  | some stateDest =>
    have zero : stateDest.nBalance = 0 ↔ stateDest.nBalance.toNat = 0 :=
      ⟨congrArg BitVec.toNat, fun same => BitVec.eq_of_toNat_eq same⟩
    simp only [Wiped, moneyOf, zero]
    exact and_comm

theorem wiped_lower_iff : Wiped (s.lowerDestState destContract) ↔ s.Gone destContract := by
  unfold Gone
  cases s.lowerDestState destContract with
  | none => simp [Wiped]
  | some lower => simp [Wiped]

structure Destroys (s s' : BlockState) (destContract destBeneficiary : Destination) : Prop where
  total_le : total s'.balance ≤ total s.balance
  total_eq : destContract ≠ destBeneficiary → total s'.balance = total s.balance
  emptied : s'.balance destContract = 0
  destroyed : s'.isContractDestroy destContract = true

structure Destructible (s : BlockState) (destContract destBeneficiary : Destination) (stateContract : DestState) :
    Prop where
  again : stateContract.fDestroy = true → stateContract.nBalance = 0
  apart : stateContract.fDestroy = false → destContract ≠ destBeneficiary →
    (stateContract.Blank → s.Gone destContract) ∧ s.balance destContract + s.balance destBeneficiary < 2 ^ 256
  alone : stateContract.fDestroy = false → destContract = destBeneficiary →
    stateContract.Blank ∧ stateContract.nBalance + stateContract.nBalance = 0 ∧ s.Gone destContract

section
variable (read : s.getDestState destContract = some stateContract)
include read

theorem selfdestruct_again (flagged : stateContract.fDestroy = true) :
    s.Destroys (s.selfdestruct destContract destBeneficiary).2 destContract destBeneficiary ↔
      s.Destructible destContract destBeneficiary stateContract := by
  have outcome : s.selfdestruct destContract destBeneficiary = (true, s) := by simp [selfdestruct, read, flagged]
  rw [outcome]
  have shown := wiped_iff s destContract
  simp only [read, Wiped, flagged, true_and] at shown
  constructor
  · intro destroys
    exact ⟨fun _ => shown.mpr ⟨destroys.emptied, destroys.destroyed⟩, by simp [flagged], by simp [flagged]⟩
  · intro destructible
    obtain ⟨emptied, destroyed⟩ := shown.mp (destructible.again flagged)
    exact ⟨le_refl _, fun _ => rfl, emptied, destroyed⟩

theorem selfdestruct_alone (live : stateContract.fDestroy = false) :
    s.Destroys (s.selfdestruct destContract destContract).2 destContract destContract ↔
      s.Destructible destContract destContract stateContract := by
  have shown : ∀ dest, (s.selfdestruct destContract destContract).2.getDestState dest =
      if dest = destContract then s.settled dest (stateContract.incBalance stateContract.nBalance)
      else s.getDestState dest := by
    intro dest
    simp only [selfdestruct, read, live, Bool.false_eq_true, if_false, Option.getD_some]
    rw [getDestState_setCacheDestState, getDestState_setCacheDestState]
    simp only [settled, lowerDestState_setCacheDestState]
    split_ifs <;> rfl
  have wiped : Wiped ((s.selfdestruct destContract destContract).2.getDestState destContract) ↔
      stateContract.Blank ∧ stateContract.nBalance + stateContract.nBalance = 0 ∧ s.Gone destContract := by
    rw [shown, if_pos rfl, settled]
    have null := (stateContract.incBalance stateContract.nBalance).isNull_iff
    split_ifs with isNull
    · obtain ⟨blank, zero⟩ := null.mp isNull
      rw [wiped_lower_iff]
      exact ⟨fun gone => ⟨blank, zero, gone⟩, fun all => all.2.2⟩
    · simp only [Wiped, DestState.incBalance, live, Bool.false_eq_true, false_and, false_iff]
      exact fun all => isNull (null.mpr ⟨all.1, all.2.1⟩)
  rw [wiped_iff] at wiped
  constructor
  · intro destroys
    exact ⟨by simp [live], fun _ apart => absurd rfl apart,
      fun _ _ => wiped.mp ⟨destroys.emptied, destroys.destroyed⟩⟩
  · intro destructible
    obtain ⟨emptied, destroyed⟩ := wiped.mpr (destructible.alone live rfl)
    have one := total_change s.balance (s.selfdestruct destContract destContract).2.balance destContract
      fun other away => by rw [balance, shown, if_neg away, balance]
    exact ⟨by omega, fun apart => absurd rfl apart, emptied, destroyed⟩

theorem selfdestruct_apart (live : stateContract.fDestroy = false) (apart : destContract ≠ destBeneficiary) :
    s.Destroys (s.selfdestruct destContract destBeneficiary).2 destContract destBeneficiary ↔
      s.Destructible destContract destBeneficiary stateContract := by
  let stateBeneficiary := (s.getDestState destBeneficiary).getD (DestState.null.setType destTypePubkey 0)
  let s' := (s.selfdestruct destContract destBeneficiary).2
  have shown : ∀ dest, s'.getDestState dest =
      if dest = destBeneficiary then s.settled dest (stateBeneficiary.incBalance stateContract.nBalance)
      else if dest = destContract then s.settled dest { stateContract with nBalance := 0, fDestroy := true }
      else s.getDestState dest := by
    intro dest
    simp only [s', selfdestruct, read, live, Bool.false_eq_true, if_false]
    rw [getDestState_setCacheDestState, getDestState_setCacheDestState]
    rfl
  have wiped : Wiped (s'.getDestState destContract) ↔ (stateContract.Blank → s.Gone destContract) := by
    rw [shown, if_neg apart, if_pos rfl, settled]
    have null := DestState.isNull_iff { stateContract with nBalance := 0, fDestroy := true }
    split_ifs with isNull
    · have blank : stateContract.Blank := (null.mp isNull).1
      rw [wiped_lower_iff]
      exact ⟨fun gone _ => gone, fun gone => gone blank⟩
    · simp only [Wiped, true_and, true_iff]
      exact fun blank => absurd (null.mpr ⟨blank, rfl⟩) isNull
  rw [wiped_iff] at wiped
  have known : s.getDestState destBeneficiary = some stateBeneficiary ∨
      s.getDestState destBeneficiary = none ∧ stateBeneficiary.nBalance = 0 := by
    cases found : s.getDestState destBeneficiary with
    | none => exact Or.inr ⟨rfl, by simp [stateBeneficiary, found, DestState.setType, DestState.null]⟩
    | some stateDest => exact Or.inl (by simp [stateBeneficiary, found])
  have held : s.balance destContract = stateContract.nBalance.toNat := by simp [balance, read, moneyOf]
  have two := total_change_two s.balance s'.balance apart fun other away away' => by
    rw [balance, shown, if_neg away', if_neg away, balance]
  constructor
  · intro destroys
    refine ⟨by simp [live], fun _ _ => ⟨wiped.mp ⟨destroys.emptied, destroys.destroyed⟩, ?_⟩,
      fun _ same => absurd same apart⟩
    -- all the money is with the beneficiary now, and that is one word
    have emptied := destroys.emptied
    have same := destroys.total_eq apart
    have word : s'.balance destBeneficiary < 2 ^ 256 := by
      unfold balance
      cases s'.getDestState destBeneficiary with
      | none => exact Nat.two_pow_pos 256
      | some stateDest => exact stateDest.nBalance.isLt
    change total s'.balance = total s.balance at same
    change s'.balance destContract = 0 at emptied
    omega
  · intro destructible
    obtain ⟨gone, fits⟩ := destructible.apart live apart
    obtain ⟨emptied, destroyed⟩ := wiped.mpr gone
    have received : s'.balance destBeneficiary = s.balance destBeneficiary + stateContract.nBalance.toNat := by
      rw [balance, shown, if_pos rfl]
      exact moneyOf_settled_incBalance known (by omega)
    have equal : total s'.balance = total s.balance := by omega
    exact ⟨equal.le, fun _ => equal, emptied, destroyed⟩

end

/-- Self-destruction destroys the contract and keeps the money exactly for destructible
contracts. -/
theorem selfdestruct_destroys_iff (s : BlockState) (destContract destBeneficiary : Destination)
    (done : (s.selfdestruct destContract destBeneficiary).1 = true) :
    s.Destroys (s.selfdestruct destContract destBeneficiary).2 destContract destBeneficiary ↔
      ∃ stateContract, s.getDestState destContract = some stateContract ∧
        s.Destructible destContract destBeneficiary stateContract := by
  cases read : s.getDestState destContract with
  | none => simp [selfdestruct, read] at done
  | some stateContract =>
    simp only [Option.some.injEq, exists_eq_left']
    cases flag : stateContract.fDestroy with
    | true => exact selfdestruct_again read flag
    | false =>
      by_cases same : destContract = destBeneficiary
      · subst same
        exact selfdestruct_alone read flag
      · exact selfdestruct_apart read flag same

end BlockState

namespace Sample

def vault : DestState := ⟨packType destTypeContract 0, 1, 10, 0, 7, false⟩

def vaultBlock : BlockState := blockOf fun dest => if dest = 1 then some vault else none

/-- A contract that names itself as the beneficiary doubles its money and lives on. -/
theorem selfdestruct_to_self_doubles : (vaultBlock.selfdestruct 1 1).1 = true ∧ vaultBlock.balance 1 = 10 ∧
    (vaultBlock.selfdestruct 1 1).2.balance 1 = 20 ∧ (vaultBlock.selfdestruct 1 1).2.isContractDestroy 1 = false ∧
    ¬vaultBlock.Destroys (vaultBlock.selfdestruct 1 1).2 1 1 := by
  have doubled : (vaultBlock.selfdestruct 1 1).2.balance 1 = 20 := by decide
  refine ⟨by decide, by decide, doubled, by decide, fun destroys => ?_⟩
  have emptied := destroys.emptied
  rw [doubled] at emptied
  cases emptied

theorem selfdestruct_destroys_iff_vault : vaultBlock.Destroys (vaultBlock.selfdestruct 1 2).2 1 2 := by
  refine (BlockState.selfdestruct_destroys_iff vaultBlock 1 2 (by decide)).mpr ⟨vault, by decide, ?_⟩
  refine ⟨by decide, fun _ _ => ⟨fun blank => ?_, by decide⟩, fun _ same => absurd same (by decide)⟩
  exact absurd blank (by decide)

end Sample
end HashAhead.State

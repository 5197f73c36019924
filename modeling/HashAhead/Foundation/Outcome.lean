import Mathlib.Logic.Basic

/-! Functions that can fail. An outcome is described by the condition under which there is a result and by what holds of
the result. -/

namespace HashAhead.Foundation
variable {α β : Type} {fine fine' : Prop} {good : α → Prop} {outcome : Option α}

/-- There is a result just when the condition holds, and then it is a good one. -/
def Succeeds (fine : Prop) (good : α → Prop) (outcome : Option α) : Prop :=
  fine ∧ (∃ a, outcome = some a ∧ good a) ∨ ¬fine ∧ outcome = none

namespace Succeeds

theorem result (succeeds : Succeeds fine good outcome) (holds : fine) : ∃ a, outcome = some a ∧ good a :=
  succeeds.elim And.right fun fails => absurd holds fails.1

theorem of_some (succeeds : Succeeds fine good outcome) {a : α} (done : outcome = some a) : fine ∧ good a := by
  rcases succeeds with ⟨holds, b, found, isGood⟩ | ⟨_, none⟩
  · cases done.symm.trans found
    exact ⟨holds, isGood⟩
  · cases done.symm.trans none

theorem bind {f : α → Option β} {good' : β → Prop} (first : Succeeds fine good outcome)
    (rest : fine → ∀ a, good a → Succeeds fine' good' (f a)) : Succeeds (fine ∧ fine') good' (outcome.bind f) := by
  rcases first with ⟨holds, a, rfl, isGood⟩ | ⟨fails, rfl⟩
  · rw [and_iff_right holds]
    exact rest holds a isGood
  · exact Or.inr ⟨fun both => fails both.1, rfl⟩

theorem map {f : α → β} {good' : β → Prop} (succeeds : Succeeds fine good outcome)
    (better : fine → ∀ a, good a → good' (f a)) : Succeeds fine good' (outcome.map f) := by
  rcases succeeds with ⟨holds, a, rfl, isGood⟩ | ⟨fails, rfl⟩
  · exact Or.inl ⟨holds, f a, rfl, better holds a isGood⟩
  · exact Or.inr ⟨fails, rfl⟩

theorem imp {good' : α → Prop} (succeeds : Succeeds fine good outcome) (better : ∀ a, good a → good' a) :
    Succeeds fine good' outcome := by
  rcases succeeds with ⟨holds, a, found, isGood⟩ | fails
  · exact Or.inl ⟨holds, a, found, better a isGood⟩
  · exact Or.inr fails

end Succeeds
end HashAhead.Foundation

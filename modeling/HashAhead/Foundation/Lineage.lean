import Mathlib.Logic.Relation
import Mathlib.Order.Basic

/-! Lines of descent. Each element has at most one element before it, which has a smaller rank; so
those before one element are ordered by their ranks. -/

namespace HashAhead.Foundation
open Relation

/-- At most one element comes before another one, and its rank is smaller. -/
structure Lineage {α ρ : Type} [Preorder ρ] (before : α → α → Prop) (rank : α → ρ) : Prop where
  unique : Relator.RightUnique before
  falls : ∀ {b a}, before b a → rank a < rank b

namespace Lineage
variable {α ρ : Type} [Preorder ρ] {before : α → α → Prop} {rank : α → ρ} {a a' b : α}

section
variable (line : Lineage before rank) (path : ReflTransGen before b a)
include line path

theorem rank_le : rank a ≤ rank b := by
  induction path with
  | refl => exact le_rfl
  | tail _ last ih => exact (line.falls last).le.trans ih

theorem eq_of_rank_le (high : rank b ≤ rank a) : a = b := by
  cases path with
  | refl => rfl
  | tail front last =>
    have low := (line.falls last).trans_le (line.rank_le front)
    exact absurd high low.not_ge

theorem path_of_rank_le (path' : ReflTransGen before b a') (low : rank a ≤ rank a') : ReflTransGen before a' a := by
  rcases ReflTransGen.total_of_right_unique line.unique path path' with down | up
  · rw [line.eq_of_rank_le down low]
  · exact up

theorem eq_of_rank_eq (path' : ReflTransGen before b a') (same : rank a = rank a') : a = a' :=
  line.eq_of_rank_le (line.path_of_rank_le path path' same.le) same.ge

theorem eq_of_before (path' : ReflTransGen before b a') {start : α} (step : before a start) (step' : before a' start) :
    a = a' := by
  -- One is before the other; were they distinct, it would be before the common element.
  have back : ∀ {c d}, ReflTransGen before c d → before c start → before d start → d = c := by
    intro c d front first last
    rcases front.cases_head with rfl | ⟨mid, next, rest⟩
    · rfl
    · rw [line.unique next first] at rest
      exact absurd (line.rank_le rest) (line.falls last).not_ge
  rcases ReflTransGen.total_of_right_unique line.unique path path' with down | up
  · exact (back down step step').symm
  · exact back up step' step

end

end Lineage

end HashAhead.Foundation

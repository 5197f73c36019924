import Mathlib.Algebra.BigOperators.Group.List.Basic
import Mathlib.Algebra.Group.Prod
import Mathlib.Tactic.Abel

/-! Accounts that items change by elements of a commutative group. What items do together is a sum, so items that are
left out or come in another order change an account by the difference of two sums. -/

namespace HashAhead.Foundation
open List
variable {T A M : Type} [AddCommGroup M]

def settle (delta : T → A → M) (accounts : A → M) (items : List T) : A → M :=
  items.foldl (fun accounts item a => accounts a + delta item a) accounts

variable (delta : T → A → M)

variable (accts : A → M)

theorem settle_apply (items : List T) (a : A) :
    settle delta accts items a = accts a + (items.map fun item => delta item a).sum := by
  induction items generalizing accts with
  | nil => simp [settle]
  | cons item items ih =>
    rw [settle, foldl_cons, ← settle, ih, map_cons, sum_cons, add_assoc]

theorem settle_append (first second : List T) :
    settle delta accts (first ++ second) = settle delta (settle delta accts first) second := foldl_append

theorem settle_singleton (item : T) (a : A) :
    settle delta accts [item] a = accts a + delta item a := rfl

theorem settle_of_untouched {items : List T} {a : A} (untouched : ∀ item ∈ items, delta item a = 0) :
    settle delta accts items a = accts a := by
  have none_counts : (items.map fun item => delta item a).sum = 0 := by
    apply sum_eq_zero
    intro amount mem
    obtain ⟨item, inside, rfl⟩ := List.mem_map.1 mem
    exact untouched item inside
  rw [settle_apply, none_counts, add_zero]

theorem sum_sublist {K : Type} [DecidableEq K] {key : T → K} {part items : List T} (sublist : part.Sublist items)
    (nodup : (items.map key).Nodup) (f : T → M) :
    (items.map f).sum = (part.map f).sum + ((items.filter fun item => key item ∉ part.map key).map f).sum := by
  induction sublist with
  | slnil => simp
  | @cons part items item sublist ih =>
    obtain ⟨apart, nodup⟩ := nodup_cons.1 nodup
    have outside : key item ∉ part.map key := fun inside => apart ((sublist.map key).subset inside)
    rw [filter_cons_of_pos (by simpa using outside), map_cons, map_cons, sum_cons, sum_cons, ih nodup]
    abel
  | @cons_cons part items item sublist ih =>
    obtain ⟨apart, nodup⟩ := nodup_cons.1 nodup
    have rest : (items.filter fun other => key other ∉ (item :: part).map key) =
        items.filter fun other => key other ∉ part.map key := by
      refine filter_congr fun other mem => ?_
      have different : key other ≠ key item := fun same => apart (same ▸ List.mem_map_of_mem mem)
      simp [different]
    rw [filter_cons_of_neg (by simp), rest, map_cons, map_cons, sum_cons, sum_cons, ih nodup]
    abel

theorem sum_filter_split (items : List T) (f : T → M) (p q : T → Bool) :
    ((items.filter p).map f).sum =
      ((items.filter fun item => p item && q item).map f).sum + ((items.filter fun item => p item && !q item).map f).sum := by
  rw [← ((filter_append_perm q (items.filter p)).map f).sum_eq, map_append, sum_append, filter_filter, filter_filter]
  simp only [Bool.and_comm]

theorem sum_exchange (items : List T) (f : T → M) (p q : T → Bool) :
    ((items.filter p).map f).sum = ((items.filter q).map f).sum -
      ((items.filter fun item => q item && !p item).map f).sum + ((items.filter fun item => p item && !q item).map f).sum := by
  have both : (items.filter fun item => p item && q item) = items.filter fun item => q item && p item :=
    filter_congr fun item _ => Bool.and_comm ..
  rw [sum_filter_split items f p q, sum_filter_split items f q p, both]
  abel

end HashAhead.Foundation

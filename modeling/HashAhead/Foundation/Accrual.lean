import HashAhead.Foundation.SortedMap

/-! Totals that are kept in machine words. An addition can wrap around, so a total rises by at most
what is added, and by exactly that as long as it stays below the bound of the words. -/

namespace HashAhead.Foundation
open List

/-- A total before and after an amount was added to it, in any number of parts. -/
structure Accrues (bound before after amount : Nat) : Prop where
  le : after ≤ before + amount
  eq : before + amount < bound → after = before + amount

namespace Accrues
variable {bound a b c x y : Nat}

theorem refl : Accrues bound a a 0 := ⟨le_rfl, fun _ => rfl⟩

theorem trans (first : Accrues bound a b x) (second : Accrues bound b c y) : Accrues bound a c (x + y) := by
  have low := first.le
  have high := second.le
  refine ⟨by omega, fun fits => ?_⟩
  have middle := first.eq (by omega)
  have last := second.eq (by omega)
  omega

theorem add_right (first : Accrues bound a b x) : Accrues bound (a + c) (b + c) x := by
  have low := first.le
  refine ⟨by omega, fun fits => ?_⟩
  have risen := first.eq (by omega)
  omega

theorem add_left (first : Accrues bound a b x) : Accrues bound (c + a) (c + b) x := by
  rw [Nat.add_comm c a, Nat.add_comm c b]
  exact first.add_right

end Accrues

namespace SortedMap
variable {K V : Type} {cmp : Comparator K} [DecidableEq K]

def sumOf (m : SortedMap K V cmp) (weight : V → Nat) : Nat := (m.entries.map fun e => weight e.2).sum

def weightAt (m : SortedMap K V cmp) (weight : V → Nat) (k : K) : Nat := ((m.find k).map weight).getD 0

variable (m : SortedMap K V cmp)

theorem weightAt_le (weight : V → Nat) (k : K) : m.weightAt weight k ≤ m.sumOf weight := by
  unfold weightAt sumOf
  cases found : m.find k with
  | none => exact Nat.zero_le _
  | some v =>
    rw [((m.perm_of_find found).map fun e => weight e.2).sum_nat]
    exact Nat.le_add_right _ _

theorem insert_accrues {weight : V → Nat} {k : K} {v : V} {bound amount : Nat}
    (added : weight v = (m.weightAt weight k + amount) % bound) :
    Accrues bound (m.sumOf weight) ((m.insert k v).sumOf weight) amount := by
  have change : (m.insert k v).sumOf weight + m.weightAt weight k = m.sumOf weight + weight v :=
    m.sum_insert k v weight
  have part := m.weightAt_le weight k
  constructor
  · have wrapped := Nat.mod_le (m.weightAt weight k + amount) bound
    omega
  · intro fits
    rw [Nat.mod_eq_of_lt (by omega)] at added
    omega

theorem sum_weightAt (weight : V → Nat) {keys : List K} (once : ∀ e ∈ m.entries, keys.count e.1 = 1)
    : (keys.map (m.weightAt weight)).sum = m.sumOf weight := by
  have outside : ∀ k, k ∉ m.entries.map Prod.fst → m.weightAt weight k = 0 := by
    intro k absent
    unfold weightAt
    cases found : m.find k with
    | none => rfl
    | some v => exact absurd (List.mem_map_of_mem ((m.find_eq_some_iff k v).1 found)) absent
  have dropped : ∀ l : List K, (l.map (m.weightAt weight)).sum =
      ((l.filter (· ∈ m.entries.map Prod.fst)).map (m.weightAt weight)).sum := by
    intro l
    induction l with
    | nil => rfl
    | cons k rest ih =>
      by_cases mem : k ∈ m.entries.map Prod.fst
      · rw [filter_cons_of_pos (by simpa using mem), map_cons, map_cons, sum_cons, sum_cons, ih]
      · rw [filter_cons_of_neg (by simpa using mem), map_cons, sum_cons, ih, outside k mem, Nat.zero_add]
  have perm : (keys.filter (· ∈ m.entries.map Prod.fst)).Perm (m.entries.map Prod.fst) := by
    rw [perm_iff_count]
    intro k
    by_cases mem : k ∈ m.entries.map Prod.fst
    · rw [count_filter (by simpa using mem), count_eq_one_of_mem m.keys_nodup mem]
      obtain ⟨e, here, rfl⟩ := List.mem_map.1 mem
      exact once e here
    · rw [count_eq_zero_of_not_mem mem]
      apply count_eq_zero_of_not_mem
      simp [mem_filter, mem]
  rw [dropped, (perm.map _).sum_nat, sumOf, List.map_map]
  congr 1
  apply map_congr_left
  intro e mem
  show m.weightAt weight e.1 = weight e.2
  rw [weightAt, (m.find_eq_some_iff e.1 e.2).2 mem]
  rfl

end SortedMap
end HashAhead.Foundation

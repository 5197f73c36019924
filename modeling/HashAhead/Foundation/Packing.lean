import Mathlib.Algebra.GroupWithZero.Nat
import Mathlib.Algebra.BigOperators.Group.List.Basic

/-! Items that are packed in order up to a size, where each packed item takes one more than its size, and lists of
bounded length that take up values as long as there is room. -/

namespace HashAhead.Foundation
open List

variable {X : Type}

/-- The items that are packed after what is used already. A checked item that does not fit ends the packing, and a
skipped one is left out. -/
def pack (skip checked : X → Bool) (size : X → Nat) (limit : Nat) : List X → Nat → List X
  | [], _ => []
  | x :: rest, used =>
    if checked x && decide (limit < used + size x) then []
    else if skip x then pack skip checked size limit rest used
    else x :: pack skip checked size limit rest (used + (size x + 1))

def load (size : X → Nat) (items : List X) : Nat := (items.map fun x => size x + 1).sum

def Packed (skip checked : X → Bool) (size : X → Nat) (limit : Nat) (order : X → Nat) (items : List X) (used : Nat) (x : X) :
    Prop :=
  skip x = false ∧ ∀ y ∈ items, checked y = true → order y ≤ order x →
    used + load size (items.filter fun w => !skip w && decide (order w < order y)) + size y ≤ limit

instance (skip checked : X → Bool) (size : X → Nat) (limit : Nat) (order : X → Nat) (items : List X) (used : Nat) (x : X) :
    Decidable (Packed skip checked size limit order items used x) := inferInstanceAs (Decidable (_ ∧ _))

variable {skip checked : X → Bool} {size : X → Nat} {limit : Nat} {order : X → Nat}

variable {x : X} {rest : List X}

theorem filter_before_head {y : X} (p : X → Bool) (before : order x < order y) :
    ((x :: rest).filter fun w => p w && decide (order w < order y)) =
      if p x then x :: rest.filter fun w => p w && decide (order w < order y)
      else rest.filter fun w => p w && decide (order w < order y) := by
  rw [filter_cons]
  simp only [before, decide_true, Bool.and_true]

theorem filter_before_self (later : ∀ y ∈ rest, order x < order y) (p : X → Bool) :
    ((x :: rest).filter fun w => p w && decide (order w < order x)) = [] := by
  apply filter_eq_nil_iff.2
  intro w mem
  rcases mem_cons.1 mem with rfl | mem
  · simp
  · simpa using fun _ => Nat.le_of_lt (later w mem)

theorem packed_cons_iff {z : X} {used : Nat} (later : ∀ y ∈ rest, order x < order y)
    (fits : checked x = true → used + size x ≤ limit) :
    Packed skip checked size limit order (x :: rest) used z ↔
      Packed skip checked size limit order rest (if skip x then used else used + (size x + 1)) z := by
  refine and_congr_right fun _ => ?_
  have moved : ∀ y ∈ rest, used + load size ((x :: rest).filter fun w => !skip w && decide (order w < order y)) =
      (if skip x then used else used + (size x + 1)) +
        load size (rest.filter fun w => !skip w && decide (order w < order y)) := by
    intro y inside
    rw [filter_before_head _ (later y inside)]
    cases skip x with
    | true => rfl
    | false => simp [load, Nat.add_assoc]
  constructor
  · intro all y inside isChecked before
    rw [← moved y inside]
    exact all y (mem_cons_of_mem _ inside) isChecked before
  · intro all y inside isChecked before
    rcases mem_cons.1 inside with rfl | inside
    · rw [filter_before_self later]
      exact fits isChecked
    · rw [moved y inside]
      exact all y inside isChecked before

theorem pack_eq_filter {items : List X} (sorted : items.Pairwise fun a b => order a < order b) (used : Nat) :
    pack skip checked size limit items used =
      items.filter fun x => decide (Packed skip checked size limit order items used x) := by
  induction items generalizing used with
  | nil => rfl
  | cons x rest ih =>
    obtain ⟨later, sorted⟩ := pairwise_cons.1 sorted
    rw [pack]
    by_cases full : (checked x && decide (limit < used + size x)) = true
    · -- nothing is packed from here on
      rw [if_pos full, eq_comm, filter_eq_nil_iff]
      rw [Bool.and_eq_true, decide_eq_true_eq] at full
      intro z mem packed
      have upTo : order x ≤ order z := by
        rcases mem_cons.1 mem with rfl | inside
        exacts [Nat.le_refl _, Nat.le_of_lt (later z inside)]
      have fits := (of_decide_eq_true packed).2 x mem_cons_self full.1 upTo
      rw [filter_before_self later] at fits
      exact absurd fits (Nat.not_le.2 full.2)
    · rw [if_neg full]
      have fits : checked x = true → used + size x ≤ limit := by simpa using full
      have tail : ∀ used', used' = (if skip x then used else used + (size x + 1)) →
          pack skip checked size limit rest used' =
            rest.filter fun z => decide (Packed skip checked size limit order (x :: rest) used z) := by
        rintro used' rfl
        rw [ih sorted]
        exact filter_congr fun z _ => decide_eq_decide.2 (packed_cons_iff later fits).symm
      cases skipped : skip x with
      | true =>
        have unpacked : ¬Packed skip checked size limit order (x :: rest) used x := by
          rintro ⟨kept, _⟩
          rw [skipped] at kept
          cases kept
        rw [if_pos rfl, filter_cons_of_neg (by simpa using unpacked)]
        exact tail used (by rw [skipped, if_pos rfl])
      | false =>
        have packed : Packed skip checked size limit order (x :: rest) used x := by
          refine ⟨skipped, fun y inside isChecked before => ?_⟩
          rcases mem_cons.1 inside with rfl | inside
          · rw [filter_before_self later]
            exact fits isChecked
          · exact absurd before (Nat.not_le.2 (later y inside))
        rw [if_neg Bool.false_ne_true, filter_cons_of_pos (by simpa using packed)]
        exact congrArg _ (tail _ (by rw [skipped, if_neg Bool.false_ne_true]))

variable {α : Type}

variable {l : List α}

theorem take_concat_of_lt {limit : ℕ} (x : α) (room : l.length < limit) :
    (l ++ [x]).take limit = l ++ [x] := by
  apply take_of_length_le
  rw [length_append, length_singleton]
  omega

theorem take_concat_of_le {limit : ℕ} (x : α) (full : limit ≤ l.length) :
    (l ++ [x]).take limit = l.take limit := take_append_of_le_length full

variable [DecidableEq α]

def fill (limit : ℕ) (once : Bool) (taken values : List α) : List α :=
  values.foldl (fun taken x => if taken.length < limit ∧ (!once ∨ x ∉ taken) then taken ++ [x] else taken) taken

def firstSeen (l : List α) : List α := l.eraseDups

theorem mem_firstSeen {x : α} : x ∈ firstSeen l ↔ x ∈ l := mem_eraseDups

theorem firstSeen_concat (l : List α) (x : α) :
    firstSeen (l ++ [x]) = if x ∈ l then firstSeen l else firstSeen l ++ [x] := by
  rw [firstSeen, firstSeen, eraseDups_append]
  split_ifs with seen
  · simp [List.removeAll, seen]
  · simp [List.removeAll, seen, eraseDups_cons]

theorem fill_once (limit : ℕ) (seen values : List α) :
    fill limit true ((firstSeen seen).take limit) values = (firstSeen (seen ++ values)).take limit := by
  induction values generalizing seen with
  | nil => rw [append_nil, fill, foldl_nil]
  | cons x values ih =>
    rw [append_cons, ← ih, fill, foldl_cons, ← fill, firstSeen_concat]
    congr 1
    rcases Nat.lt_or_ge (firstSeen seen).length limit with room | full
    · rw [take_of_length_le (Nat.le_of_lt room)]
      by_cases old : x ∈ seen
      · rw [if_neg (by simp [old, mem_firstSeen]), if_pos old, take_of_length_le (Nat.le_of_lt room)]
      · rw [if_pos (by simp [old, room, mem_firstSeen]), if_neg old, take_concat_of_lt x room]
    · have length : ((firstSeen seen).take limit).length = limit := by rw [length_take, Nat.min_eq_left full]
      rw [if_neg (by simp [length])]
      split_ifs
      · rfl
      · rw [take_concat_of_le x full]

theorem fill_of_nodup (limit : ℕ) (once : Bool) {taken values : List α} (distinct : (taken ++ values).Nodup) :
    fill limit once (taken.take limit) values = (taken ++ values).take limit := by
  induction values generalizing taken with
  | nil => rw [append_nil, fill, foldl_nil]
  | cons x values ih =>
    rw [append_cons] at distinct ⊢
    rw [← ih distinct, fill, foldl_cons, ← fill]
    congr 1
    have new : x ∉ taken := by
      intro old
      have apart := (nodup_append.1 (nodup_append.1 distinct).1).2.2
      exact apart x old x mem_cons_self rfl
    rcases Nat.lt_or_ge taken.length limit with room | full
    · rw [take_of_length_le (Nat.le_of_lt room), take_concat_of_lt x room, if_pos ⟨room, Or.inr new⟩]
    · have length : (taken.take limit).length = limit := by rw [length_take, Nat.min_eq_left full]
      rw [if_neg (by simp [length]), take_concat_of_le x full]

end HashAhead.Foundation

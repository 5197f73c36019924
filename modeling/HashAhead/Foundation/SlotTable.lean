import Mathlib.Data.Fintype.EquivFin
import Mathlib.Data.List.GetD

/-! A small array of slots stored indirectly. Each slot keeps a one-byte position
into an append-only table, with position zero meaning that the slot is empty. The
byte is what makes the structure finite: a table longer than 255 entries has
positions that no index byte can name. -/

namespace HashAhead.Foundation
open List

structure SlotTable (α : Type) where
  index : List UInt8
  table : List α
  deriving DecidableEq, Repr

namespace SlotTable
variable {α : Type}

def position (t : SlotTable α) (n : Nat) : Nat := (t.index.getD n 0).toNat

def empty (width : Nat) : SlotTable α := ⟨List.replicate width 0, []⟩

/-- No slot points past the table and no two occupied slots share an entry. -/
structure Sound (t : SlotTable α) : Prop where
  bounded : ∀ n, t.position n ≤ t.table.length
  distinct : ∀ m n, t.position m = t.position n → t.position m ≠ 0 → m = n

/-- Every table entry is named by some slot, so nothing has been released. -/
def Tight (t : SlotTable α) : Prop :=
  ∀ j, j < t.table.length → ∃ n, t.position n = j + 1

theorem position_outside {t : SlotTable α} {n : Nat} (outside : t.index.length ≤ n) :
    t.position n = 0 := by
  simp [position, List.getElem?_eq_none outside]

theorem inside_of_position {t : SlotTable α} {n : Nat} (occupied : t.position n ≠ 0) :
    n < t.index.length := by
  by_contra outside
  exact occupied (position_outside (by omega))

variable (width : Nat)

@[simp] theorem position_empty (n : Nat) : (empty width : SlotTable α).position n = 0 := by
  by_cases inside : n < width
  · simp [position, empty]
  · exact position_outside (by simpa [empty] using inside)

@[simp] theorem table_empty : (empty width : SlotTable α).table = [] := rfl

theorem sound_empty : Sound (empty width : SlotTable α) :=
  ⟨fun n => by simp, fun m n _ occupied => absurd (position_empty width m) occupied⟩

theorem tight_empty : Tight (empty width : SlotTable α) := by
  intro j inside
  simp at inside

theorem tight_length {t : SlotTable α} (tight : Tight t) : t.table.length ≤ t.index.length := by
  choose slot named using fun j : Fin t.table.length => tight j.1 j.2
  have inside : ∀ j, slot j < t.index.length := fun j =>
    inside_of_position (by rw [named j]; omega)
  have injective : Function.Injective (fun j => (⟨slot j, inside j⟩ : Fin t.index.length)) := by
    intro a b same
    have slots : slot a = slot b := congrArg Fin.val same
    have positions := (named a).symm.trans ((congrArg t.position slots).trans (named b))
    exact Fin.ext (by omega)
  simpa using Fintype.card_le_of_injective _ injective

theorem position_index_set (index : List UInt8) (table : List α) (n m : Nat) (byte : UInt8)
    (inside : n < index.length) :
    position ⟨index.set n byte, table⟩ m = if m = n then byte.toNat else (index.getD m 0).toNat := by
  by_cases same : m = n
  · subst m
    simp [position, List.getElem?_set_self inside]
  · simp [position, same, List.getElem?_set_ne (Ne.symm same)]

variable [Zero α]

def get (t : SlotTable α) (n : Nat) : α :=
  if t.position n = 0 then 0
  else if t.table.length ≤ t.position n - 1 then 0
  else t.table.getD (t.position n - 1) 0

@[simp] theorem get_empty (n : Nat) : (empty width : SlotTable α).get n = 0 := by
  simp [get]

theorem get_eq_getD (t : SlotTable α) (n : Nat) :
    t.get n = if t.position n = 0 then 0 else t.table.getD (t.position n - 1) 0 := by
  unfold get
  split_ifs with vacant outside
  · rfl
  · rw [getD_eq_default _ _ outside]
  · rfl

variable [DecidableEq α]

/-- An empty slot takes a new table entry, unless zero is written. An occupied slot
is overwritten in place, and writing zero also releases its index byte. -/
def set (t : SlotTable α) (n : Nat) (entry : α) : SlotTable α :=
  if t.position n = 0 ∨ t.table.length ≤ t.position n - 1 then
    if entry = 0 then t
    else ⟨t.index.set n (UInt8.ofNat (t.table.length + 1)), t.table ++ [entry]⟩
  else
    ⟨if entry = 0 then t.index.set n 0 else t.index, t.table.set (t.position n - 1) entry⟩

section
variable (t : SlotTable α)
include t

variable (n : Nat)

theorem set_vacant_zero (vacant : t.position n = 0) : t.set n 0 = t := by
  simp [set, vacant]

variable (entry : α)

theorem set_vacant (vacant : t.position n = 0) (nonzero : entry ≠ 0) :
    t.set n entry = ⟨t.index.set n (UInt8.ofNat (t.table.length + 1)), t.table ++ [entry]⟩ := by
  simp only [set, vacant, true_or, if_true, if_neg nonzero]

theorem set_occupied (sound : Sound t) {n : Nat} (entry : α) (occupied : t.position n ≠ 0) :
    t.set n entry =
      ⟨if entry = 0 then t.index.set n 0 else t.index, t.table.set (t.position n - 1) entry⟩ := by
  have bound := sound.bounded n
  have named : ¬(t.position n = 0 ∨ t.table.length ≤ t.position n - 1) := by omega
  simp only [set, if_neg named]

@[simp] theorem index_length_set : (t.set n entry).index.length = t.index.length := by
  unfold set
  split_ifs <;> simp

theorem table_length_le_set : t.table.length ≤ (t.set n entry).table.length := by
  unfold set
  split_ifs <;> simp

theorem table_length_set_le : (t.set n entry).table.length ≤ t.table.length + 1 := by
  unfold set
  split_ifs <;> simp

theorem table_length_set_eq (kept : entry = 0 ∨ t.get n ≠ 0) :
    (t.set n entry).table.length = t.table.length := by
  unfold set
  split_ifs with vacant zero
  · rfl
  · refine absurd ?_ (kept.resolve_left zero)
    rcases vacant with vacant | outside
    · simp [get, vacant]
    · simp [get, outside]
  all_goals simp

theorem position_set (sound : Sound t) {n : Nat} (m : Nat) {entry : α} (inside : n < t.index.length)
    (room : (t.set n entry).table.length ≤ 255) :
    (t.set n entry).position m =
      if m = n then
        if entry = 0 then 0 else if t.position n = 0 then t.table.length + 1 else t.position n
      else t.position m := by
  by_cases vacant : t.position n = 0
  · by_cases zero : entry = 0
    · rw [zero, set_vacant_zero t n vacant, if_pos rfl]
      split_ifs with same
      · rw [same, vacant]
      · rfl
    · rw [set_vacant t n entry vacant zero] at room ⊢
      have byte : (UInt8.ofNat (t.table.length + 1)).toNat = t.table.length + 1 := by
        simp only [length_append, length_singleton] at room
        exact UInt8.toNat_ofNat_of_lt' (by simp only [UInt8.size]; omega)
      rw [position_index_set _ _ _ _ _ inside, byte, if_neg zero, if_pos vacant]
      rfl
  · rw [set_occupied t sound entry vacant]
    by_cases zero : entry = 0
    · rw [if_pos zero, position_index_set _ _ _ _ _ inside, if_pos zero]
      rfl
    · rw [if_neg zero, if_neg zero, if_neg vacant]
      split_ifs with same
      · rw [same]
        rfl
      · rfl

theorem sound_set (sound : Sound t) {n : Nat} {entry : α} (inside : n < t.index.length)
    (room : (t.set n entry).table.length ≤ 255) : Sound (t.set n entry) := by
  have grown := table_length_le_set t n entry
  have here := sound.bounded n
  constructor
  · intro m
    rw [position_set t sound m inside room]
    have bound := sound.bounded m
    split_ifs with same zero vacant
    · omega
    · rw [set_vacant t n entry vacant zero]
      simp
    · omega
    · omega
  · intro a b same occupied
    have boundA := sound.bounded a
    have boundB := sound.bounded b
    rw [position_set t sound a inside room] at same occupied
    rw [position_set t sound b inside room] at same
    by_cases first : a = n
    · by_cases second : b = n
      · rw [first, second]
      · -- the written slot holds either a fresh position or its own old one
        exfalso
        rw [if_pos first, if_neg second] at same
        rw [if_pos first] at occupied
        split_ifs at same occupied with zero vacant
        · exact occupied rfl
        · omega
        · exact second (sound.distinct n b same occupied).symm
    · by_cases second : b = n
      · exfalso
        rw [if_neg first, if_pos second] at same
        rw [if_neg first] at occupied
        split_ifs at same with zero vacant
        · exact occupied same
        · omega
        · exact first (sound.distinct a n same occupied)
      · rw [if_neg first, if_neg second] at same
        rw [if_neg first] at occupied
        exact sound.distinct a b same occupied

theorem get_set (sound : Sound t) (n m : Nat) (entry : α) (inside : n < t.index.length)
    (room : (t.set n entry).table.length ≤ 255) : (t.set n entry).get m = if m = n then entry else t.get m := by
  have here := sound.bounded n
  rw [get_eq_getD, position_set t sound m inside room]
  by_cases same : m = n
  · subst m
    simp only [if_true]
    by_cases zero : entry = 0
    · simp [zero]
    · rw [if_neg zero]
      by_cases vacant : t.position n = 0
      · rw [set_vacant t n entry vacant zero]
        simp [vacant]
      · rw [set_occupied t sound entry vacant, if_neg vacant, if_neg vacant]
        have below : t.position n - 1 < t.table.length := by omega
        simp [List.getElem?_set_self below]
  · simp only [if_neg same]
    rw [get_eq_getD]
    by_cases vacantThere : t.position m = 0
    · simp [vacantThere]
    · have there := sound.bounded m
      simp only [if_neg vacantThere]
      by_cases vacant : t.position n = 0
      · by_cases zero : entry = 0
        · rw [zero, set_vacant_zero t n vacant]
        · rw [set_vacant t n entry vacant zero, getD_append _ _ _ _ (by omega)]
      · rw [set_occupied t sound entry vacant]
        simp only [getD_eq_getElem?_getD]
        rw [List.getElem?_set_ne]
        intro aliased
        exact same (sound.distinct m n (by omega) vacantThere)

theorem tight_set (sound : Sound t) (tight : Tight t) {n : Nat} {entry : α} (inside : n < t.index.length)
    (room : (t.set n entry).table.length ≤ 255) (kept : entry ≠ 0 ∨ t.position n = 0) : Tight (t.set n entry) := by
  intro j below
  by_cases zero : entry = 0
  · have vacant := kept.resolve_left (not_not_intro zero)
    rw [zero, set_vacant_zero t n vacant] at below ⊢
    exact tight j below
  · by_cases old : j < t.table.length
    · obtain ⟨m, named⟩ := tight j old
      refine ⟨m, ?_⟩
      rw [position_set t sound m inside room]
      split_ifs with same vacant
      · rw [same] at named
        omega
      · rw [← same, named]
      · exact named
    · refine ⟨n, ?_⟩
      rw [position_set t sound n inside room, if_pos rfl, if_neg zero]
      by_cases vacant : t.position n = 0
      · rw [if_pos vacant]
        have grown := table_length_set_le t n entry
        omega
      · rw [set_occupied t sound entry vacant] at below
        simp only [length_set] at below
        omega

end

end SlotTable
end HashAhead.Foundation

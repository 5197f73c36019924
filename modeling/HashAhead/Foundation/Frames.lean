import Mathlib.Data.List.Basic

/-! Records that are laid one after the other in a byte array, each where the one before it ends. -/

namespace HashAhead.Foundation.Frames
open List
variable {R : Type} (encode : R → List UInt8)

def placed : Nat → List R → List (R × Nat)
  | _, [] => []
  | start, record :: rest => (record, start) :: placed (start + (encode record).length) rest

theorem placed_append (start : Nat) (records more : List R) :
    placed encode start (records ++ more) =
      placed encode start records ++ placed encode (start + (records.flatMap encode).length) more := by
  induction records generalizing start with
  | nil => rfl
  | cons record rest ih =>
    rw [cons_append, placed, placed, ih, flatMap_cons, length_append, Nat.add_assoc, cons_append]

variable {encode}

theorem split_of_mem_placed {start : Nat} {records : List R} {record : R} {offset : Nat}
    (mem : (record, offset) ∈ placed encode start records) :
    ∃ before after, records = before ++ record :: after ∧ offset = start + (before.flatMap encode).length := by
  induction records generalizing start with
  | nil => exact absurd mem not_mem_nil
  | cons first rest ih =>
    rw [placed, mem_cons] at mem
    rcases mem with here | later
    · obtain ⟨rfl, rfl⟩ := Prod.mk.inj here
      exact ⟨[], rest, rfl, rfl⟩
    · obtain ⟨before, after, rfl, rfl⟩ := ih later
      refine ⟨first :: before, after, rfl, ?_⟩
      rw [flatMap_cons, length_append]
      omega

end HashAhead.Foundation.Frames

import Mathlib.Logic.Function.Basic

/-! Content-addressed stores. A record may lie only under an address that its content
determines, so a write can add records but never replace one by another. -/

namespace HashAhead.Foundation
open Function
variable {Key Value : Type}

def Included (store store' : Key → Option Value) : Prop :=
  ∀ key value, store key = some value → store' key = some value

theorem Included.refl (store : Key → Option Value) : Included store store := fun _ _ read => read

theorem Included.trans {a b c : Key → Option Value} (first : Included a b) (second : Included b c) :
    Included a c := fun key value read => second key value (first key value read)

def Addressed (valid : Value → Key → Prop) (store : Key → Option Value) : Prop :=
  ∀ key value, store key = some value → valid value key

theorem addressed_empty (valid : Value → Key → Prop) : Addressed valid (fun _ => none) := by
  intro key value read
  cases read

variable {valid : Value → Key → Prop}

theorem Addressed.included_or {store store' : Key → Option Value} (addressed : Addressed valid store)
    (addressed' : Addressed valid store')
    (unique : ∀ value other key, valid value key → valid other key → value = other) :
    Included store' fun key => (store key).or (store' key) := by
  intro key value read
  cases held : store key with
  | none => simp [held, read]
  | some other => simp [held, unique other value key (addressed key other held) (addressed' key value read)]

variable [DecidableEq Key]

section
variable {store : Key → Option Value} (addressed : Addressed valid store) {key : Key} {value : Value}
include addressed

theorem Addressed.update (fits : valid value key) : Addressed valid (Function.update store key (some value)) := by
  intro other found read
  by_cases same : other = key
  · rw [same, update_self, Option.some.injEq] at read
    rw [same, ← read]
    exact fits
  · rw [update_of_ne same] at read
    exact addressed other found read

theorem Addressed.included_update (unique : ∀ value other key, valid value key → valid other key → value = other)
    (fits : valid value key) :
    Included store (Function.update store key (some value)) := by
  intro other found read
  by_cases same : other = key
  · rw [same] at read ⊢
    rw [update_self, unique value found key fits (addressed key found read)]
  · rw [update_of_ne same]
    exact read

end

end HashAhead.Foundation

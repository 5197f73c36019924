import Mathlib.Data.List.Induction

/-! Stores whose writes are collected and committed at once. A key has its own type of values. What
a committed batch leaves under a key is its last write to that key. -/

namespace HashAhead.Foundation
open List Function

abbrev KvStore {κ : Type} (β : κ → Type) := ∀ key, Option (β key)

/-- Writes in the order in which they were made. Nothing written under a key erases it. -/
abbrev WriteBatch {κ : Type} (β : κ → Type) := List (Σ key, Option (β key))

section Commit
variable {κ : Type} {β : κ → Type}

abbrev put (key : κ) (value : β key) : Σ key, Option (β key) := ⟨key, some value⟩

abbrev erase (key : κ) : Σ key, Option (β key) := ⟨key, none⟩

variable [DecidableEq κ] {db : KvStore β} {batch : WriteBatch β} {key : κ}

def commit (db : KvStore β) (batch : WriteBatch β) : KvStore β :=
  batch.foldl (fun db write => Function.update db write.1 write.2) db

theorem commit_append {batch' : WriteBatch β} : commit db (batch ++ batch') = commit (commit db batch) batch' :=
  foldl_append

theorem commit_snoc {write : Σ key, Option (β key)} :
    commit db (batch ++ [write]) = Function.update (commit db batch) write.1 write.2 := commit_append

theorem commit_of_untouched (untouched : ∀ value, ⟨key, value⟩ ∉ batch) : commit db batch key = db key := by
  induction batch using List.reverseRecOn with
  | nil => rfl
  | append_singleton batch write ih =>
    obtain ⟨other, value⟩ := write
    have apart : key ≠ other := by
      rintro rfl
      exact untouched value (by simp)
    rw [commit_snoc, update_of_ne apart]
    exact ih fun value mem => untouched value (mem_append_left _ mem)

theorem commit_of_touched (db : KvStore β) {value : Option (β key)} (touched : ⟨key, value⟩ ∈ batch) :
    ⟨key, commit db batch key⟩ ∈ batch := by
  induction batch using List.reverseRecOn with
  | nil => cases touched
  | append_singleton batch write ih =>
    rw [commit_snoc]
    by_cases same : key = write.1
    · subst same
      rw [update_self]
      simp
    · rw [update_of_ne same]
      rcases mem_append.1 touched with front | last
      · exact mem_append_left _ (ih front)
      · cases mem_singleton.1 last
        exact absurd rfl same

theorem commit_of_unique {value : Option (β key)} (touched : ⟨key, value⟩ ∈ batch)
    (unique : ∀ other, ⟨key, other⟩ ∈ batch → other = value) : commit db batch key = value :=
  unique _ (commit_of_touched db touched)

theorem commit_of_writes {touched : Prop} [Decidable touched] {value : Option (β key)}
    (writes : ∀ other, ⟨key, other⟩ ∈ batch ↔ touched ∧ other = value) :
    commit db batch key = if touched then value else db key := by
  split_ifs with here
  · exact commit_of_unique ((writes value).2 ⟨here, rfl⟩) fun other mem => ((writes other).1 mem).2
  · exact commit_of_untouched fun other mem => here ((writes other).1 mem).1

theorem commit_cases (db : KvStore β) (batch : WriteBatch β) (key : κ) :
    commit db batch key = db key ∨ ⟨key, commit db batch key⟩ ∈ batch := by
  by_cases touched : ∃ value, ⟨key, value⟩ ∈ batch
  · obtain ⟨value, written⟩ := touched
    exact Or.inr (commit_of_touched db written)
  · exact Or.inl (commit_of_untouched (not_exists.1 touched))

end Commit

end HashAhead.Foundation

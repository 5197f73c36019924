import HashAhead.Foundation.SortedMap

/-! Sets in the order of their members, maps of maps and maps of lists, in which what becomes empty is taken
out. -/

namespace HashAhead.Foundation
open List Option

abbrev SortedSet (K : Type) (cmp : Comparator K) := SortedMap K Unit cmp

namespace SortedSet
variable {K : Type} {cmp : Comparator K}

def members (s : SortedSet K cmp) : List K := s.entries.map Prod.fst

def add (s : SortedSet K cmp) (k : K) : SortedSet K cmp := SortedMap.insert s k ()

def remove [DecidableEq K] (s : SortedSet K cmp) (k : K) : SortedSet K cmp := SortedMap.erase s k

def union (s t : SortedSet K cmp) : SortedSet K cmp := t.members.foldl add s

instance : Membership K (SortedSet K cmp) := ⟨fun s k => k ∈ s.members⟩

instance [DecidableEq K] (s : SortedSet K cmp) (k : K) : Decidable (k ∈ s) := inferInstanceAs (Decidable (k ∈ s.members))

variable {s : SortedSet K cmp} {k : K}

theorem mem_members : k ∈ s.members ↔ k ∈ s := Iff.rfl

theorem mem_iff_entry : k ∈ s ↔ (k, ()) ∈ s.entries := by
  rw [← mem_members, members, List.mem_map]
  constructor
  · rintro ⟨⟨k', ⟨⟩⟩, inside, rfl⟩
    exact inside
  · exact fun inside => ⟨(k, ()), inside, rfl⟩

@[simp] theorem not_mem_empty (k : K) : k ∉ (SortedMap.empty : SortedSet K cmp) := not_mem_nil

@[simp] theorem mem_add {k' : K} : k' ∈ s.add k ↔ k' = k ∨ k' ∈ s := by
  rw [mem_iff_entry, add, SortedMap.mem_insert, mem_iff_entry, Prod.mk.injEq, and_iff_left rfl]
  by_cases same : k' = k <;> simp [same]

@[simp] theorem mem_remove [DecidableEq K] {k' : K} : k' ∈ s.remove k ↔ k' ∈ s ∧ k' ≠ k := by
  rw [mem_iff_entry, remove, SortedMap.mem_erase, mem_iff_entry]

theorem entries_eq_nil_iff : s.entries = [] ↔ ∀ k, k ∉ s := by
  rw [eq_nil_iff_forall_not_mem]
  constructor
  · exact fun none k inside => none _ (mem_iff_entry.1 inside)
  · rintro none ⟨k, ⟨⟩⟩ inside
    exact none k (mem_iff_entry.2 inside)

end SortedSet

namespace SortedMap
variable {J K V : Type} {cmp : Comparator K} {outer : Comparator J} [DecidableEq J] [DecidableEq K]

section Nested
variable (m : SortedMap J (SortedMap K V cmp) outer)

def findAt (j : J) (k : K) : Option V := (m.find j).bind fun inner => inner.find k

def insertAt (j : J) (k : K) (v : V) : SortedMap J (SortedMap K V cmp) outer :=
  m.insert j (((m.find j).getD .empty).insert k v)

def eraseAt (j : J) (k : K) : SortedMap J (SortedMap K V cmp) outer :=
  match m.find j with
  | none => m
  | some inner => if (inner.erase k).entries = [] then m.erase j else m.insert j (inner.erase k)

def eraseAll (k : K) : SortedMap J (SortedMap K V cmp) outer := m.entries.foldl (fun m e => m.eraseAt e.1 k) m

theorem findAt_insertAt (j : J) (k : K) (v : V) (j' : J) (k' : K) :
    (m.insertAt j k v).findAt j' k' = if j' = j ∧ k' = k then some v else m.findAt j' k' := by
  rw [findAt, insertAt, find_insert]
  by_cases here : j' = j
  · rw [if_pos here, bind_some, find_insert, here, findAt]
    by_cases same : k' = k
    · simp [same]
    · cases found : m.find j with
      | none => simp [same, find_empty]
      | some inner => simp [same]
  · rw [if_neg here, if_neg fun both => here both.1, findAt]

theorem find_of_entries_eq_nil {inner : SortedMap K V cmp} (empty : inner.entries = []) (k : K) : inner.find k = none := by
  rw [find, empty]
  rfl

theorem findAt_eraseAt (j : J) (k : K) (j' : J) (k' : K) :
    (m.eraseAt j k).findAt j' k' = if j' = j ∧ k' = k then none else m.findAt j' k' := by
  rw [eraseAt]
  cases found : m.find j with
  | none =>
    split_ifs with both
    · rw [both.1, findAt, found]
      rfl
    · rfl
  | some inner =>
    by_cases here : j' = j
    · subst here
      have before : m.findAt j' k' = inner.find k' := by rw [findAt, found, bind_some]
      simp only [true_and, before]
      rw [← find_erase inner k k', findAt]
      split_ifs with empty
      · rw [find_erase, if_pos rfl, find_of_entries_eq_nil empty]
        rfl
      · rw [find_insert, if_pos rfl, bind_some]
    · rw [if_neg fun both => here both.1, findAt, findAt]
      simp only
      split_ifs with empty
      · rw [find_erase, if_neg here]
      · rw [find_insert, if_neg here]

theorem findAt_eraseAll (k : K) (j' : J) (k' : K) :
    (m.eraseAll k).findAt j' k' = if k' = k then none else m.findAt j' k' := by
  rw [eraseAll, read_foldl (fun (m : SortedMap J (SortedMap K V cmp) outer) j => m.findAt j k') (fun _ _ old => if k' = k then none else old) _ m.keys_nodup]
  · show (m.find j').elim _ _ = _
    cases found : m.find j' with
    | none => simp [findAt, found]
    | some inner => rfl
  · intro acc e j
    rw [findAt_eraseAt, ite_and]

end Nested

section Lists
variable (m : SortedMap J (List V) outer)

def listAt (j : J) : List V := (m.find j).getD []

def pushAt (j : J) (v : V) : SortedMap J (List V) outer := m.insert j (m.listAt j ++ [v])

def filterAt (j : J) (keep : V → Bool) : SortedMap J (List V) outer :=
  match m.find j with
  | none => m
  | some l => if l.filter keep = [] then m.erase j else m.insert j (l.filter keep)

theorem listAt_pushAt (j : J) (v : V) (j' : J) :
    (m.pushAt j v).listAt j' = if j' = j then m.listAt j ++ [v] else m.listAt j' := by
  rw [listAt, pushAt, find_insert]
  split_ifs <;> rfl

theorem listAt_filterAt (j : J) (keep : V → Bool) (j' : J) :
    (m.filterAt j keep).listAt j' = if j' = j then (m.listAt j).filter keep else m.listAt j' := by
  rw [filterAt, listAt, listAt, listAt]
  cases found : m.find j with
  | none =>
    split_ifs with here
    · rw [here, found]
      rfl
    · rfl
  | some l =>
    simp only [getD_some]
    split_ifs with empty here here
    · rw [find_erase, if_pos here, empty]
      rfl
    · rw [find_erase, if_neg here]
    · rw [find_insert, if_pos here]
      rfl
    · rw [find_insert, if_neg here]

end Lists

end SortedMap

end HashAhead.Foundation

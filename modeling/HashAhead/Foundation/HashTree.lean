import Mathlib.Data.List.Basic
import Mathlib.Data.Set.Function

/-! Binary hash trees over a list of leaves. A level of odd length pairs its last node with itself, so that lists of
different lengths can have the same root; lists of the same length with the same root are equal unless two of the
pairs that were hashed collide. -/

namespace HashAhead.Foundation.HashTree
open List
variable {H : Type} (hash : H → H → H)

section Levels

def neighbours : List H → List (H × H)
  | [] => []
  | [a] => [(a, a)]
  | a :: b :: rest => (a, b) :: neighbours rest

def parents (level : List H) : List H := (neighbours level).map fun pair => hash pair.1 pair.2

@[simp] theorem length_neighbours (level : List H) : (neighbours level).length = (level.length + 1) / 2 := by
  fun_induction neighbours level with
  | case1 => simp
  | case2 a => simp
  | case3 a b rest ih => simp only [length_cons, ih]; omega

@[simp] theorem length_parents (level : List H) : (parents hash level).length = (level.length + 1) / 2 := by
  rw [parents, length_map, length_neighbours]

theorem parents_cons_cons (a b : H) (rest : List H) : parents hash (a :: b :: rest) = hash a b :: parents hash rest := rfl

theorem getElem?_parents (level : List H) (k : Nat) (inside : k < (level.length + 1) / 2) (other : H) :
    (parents hash level)[k]? =
      some (hash (level.getD (2 * k) other) (level.getD (min (2 * k + 1) (level.length - 1)) other)) := by
  induction k generalizing level with
  | zero =>
    match level, inside with
    | [], inside => simp at inside
    | [a], _ => rfl
    | a :: b :: rest, _ => simp [parents, neighbours]
  | succ k ih =>
    match level, inside with
    | [], inside => simp at inside
    | [a], inside => simp at inside
    | a :: b :: rest, inside =>
      simp only [length_cons] at inside
      have below : k < (rest.length + 1) / 2 := by omega
      have shift : min (2 * (k + 1) + 1) (rest.length + 1 + 1 - 1) = min (2 * k + 1) (rest.length - 1) + 2 := by omega
      rw [parents_cons_cons, List.getElem?_cons_succ, ih rest below, length_cons, length_cons, shift,
        show 2 * (k + 1) = 2 * k + 2 by omega]
      rfl

theorem neighbours_injective {level other : List H} (lengths : level.length = other.length)
    (same : neighbours level = neighbours other) : level = other := by
  fun_induction neighbours level generalizing other with
  | case1 => exact (length_eq_zero_iff.1 lengths.symm).symm
  | case2 a =>
    match other, lengths with
    | [b], _ => simpa [neighbours] using same
  | case3 a b rest ih =>
    match other, lengths with
    | c :: d :: rest', lengths =>
      rw [neighbours] at same
      obtain ⟨pair, restSame⟩ := List.cons.inj same
      obtain ⟨rfl, rfl⟩ := Prod.mk.inj pair
      rw [ih (by simpa using lengths) restSame]

theorem length_parents_lt {level : List H} (more : 1 < level.length) : (parents hash level).length < level.length := by
  rw [length_parents]
  omega

def levels (level : List H) : List (List H) :=
  if 1 < level.length then level :: levels (parents hash level) else [level]
termination_by level.length
decreasing_by exact length_parents_lt hash (by assumption)

def root (null : H) (level : List H) : H :=
  if 1 < level.length then root null (parents hash level) else level.headD null
termination_by level.length
decreasing_by exact length_parents_lt hash (by assumption)

def hashed (level : List H) : List (H × H) :=
  if 1 < level.length then neighbours level ++ hashed (parents hash level) else []
termination_by level.length
decreasing_by exact length_parents_lt hash (by assumption)

variable {hash} {null : H} {level : List H}

theorem levels_of_more (more : 1 < level.length) : levels hash level = level :: levels hash (parents hash level) := by
  rw [levels, if_pos more]

theorem levels_of_one (one : ¬1 < level.length) : levels hash level = [level] := by
  rw [levels, if_neg one]

theorem root_of_more (more : 1 < level.length) : root hash null level = root hash null (parents hash level) := by
  rw [root, if_pos more]

theorem root_of_one (one : ¬1 < level.length) : root hash null level = level.headD null := by
  rw [root, if_neg one]

theorem getLast?_levels (level : List H) : ((levels hash level).flatten.getLast?).getD null = root hash null level := by
  fun_induction levels hash level with
  | case1 level more ih =>
    have nonempty : (levels hash (parents hash level)).flatten ≠ [] := by
      rw [levels]
      have above : (parents hash level).length ≠ 0 := by
        rw [length_parents]
        omega
      split <;> simpa using fun empty => absurd (congrArg List.length empty) above
    rw [flatten_cons, List.getLast?_append_of_ne_nil _ nonempty, ih, root_of_more more]
  | case2 level one =>
    rw [root_of_one one]
    match level, one with
    | [], _ => rfl
    | [a], _ => rfl
    | a :: b :: rest, one => simp at one

end Levels

section Binding

/-- A list is determined by its length and its root: the levels of two lists of one length have the same shape, and
they agree from the root down as long as no two of the hashed pairs collide. -/
theorem eq_of_root_eq {null : H} {level other : List H} (lengths : level.length = other.length)
    (injective : Set.InjOn (fun pair : H × H => hash pair.1 pair.2)
      {pair | pair ∈ hashed hash level ∨ pair ∈ hashed hash other})
    (same : root hash null level = root hash null other) : level = other := by
  fun_induction levels hash level generalizing other with
  | case1 level more ih =>
    have moreOther : 1 < other.length := by omega
    have here : hashed hash level = neighbours level ++ hashed hash (parents hash level) := by
      rw [hashed, if_pos more]
    have there : hashed hash other = neighbours other ++ hashed hash (parents hash other) := by
      rw [hashed, if_pos moreOther]
    rw [root_of_more more, root_of_more moreOther] at same
    have above : parents hash level = parents hash other := by
      refine ih (by rw [length_parents, length_parents, lengths]) (injective.mono ?_) same
      rintro pair (mem | mem)
      · exact Or.inl (here ▸ mem_append_right _ mem)
      · exact Or.inr (there ▸ mem_append_right _ mem)
    apply neighbours_injective lengths
    -- the hashes of the neighbours agree, so the neighbours do
    apply ext_getElem (by rw [length_neighbours, length_neighbours, lengths])
    intro k inside insideOther
    apply injective
    · exact Or.inl (here ▸ mem_append_left _ (getElem_mem inside))
    · exact Or.inr (there ▸ mem_append_left _ (getElem_mem insideOther))
    · have hashes := congrArg (fun l : List H => l[k]?) above
      simpa [parents, List.getElem?_eq_getElem inside, List.getElem?_eq_getElem insideOther] using hashes
  | case2 level one =>
    have oneOther : ¬1 < other.length := by omega
    rw [root_of_one one, root_of_one oneOther] at same
    match level, other, lengths, one with
    | [], [], _, _ => rfl
    | [a], [b], _, _ => exact congrArg (fun x => [x]) same
    | a :: b :: rest, _, _, one => simp at one

end Binding

end HashAhead.Foundation.HashTree

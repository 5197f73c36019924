import Mathlib.Algebra.GroupWithZero.Nat
import Mathlib.Data.List.Sort

/-! Finite maps as lists in key order, the way an ordered tree map is iterated. -/

namespace HashAhead.Foundation
open List Option

structure Comparator (K : Type) where
  before : K → K → Bool
  irrefl : ∀ a, before a a = false
  trans : ∀ a b c, before a b = true → before b c = true → before a c = true
  connected : ∀ a b, before a b = false → before b a = false → a = b

namespace Comparator
variable {K : Type} (cmp : Comparator K)

theorem asymm {a b : K} (first : cmp.before a b = true) : cmp.before b a = false := by
  cases second : cmp.before b a with
  | false => rfl
  | true =>
    have loop := cmp.trans a b a first second
    rw [cmp.irrefl] at loop
    cases loop

theorem ne_of_before {a b : K} (first : cmp.before a b = true) : a ≠ b := by
  intro same
  rw [same, cmp.irrefl] at first
  cases first

theorem eq_of_mem_iff {E : Type} {key : E → K} {xs ys : List E}
    (sortedX : xs.Pairwise fun a b => cmp.before (key a) (key b) = true)
    (sortedY : ys.Pairwise fun a b => cmp.before (key a) (key b) = true) (same : ∀ e, e ∈ xs ↔ e ∈ ys) : xs = ys := by
  have distinct : ∀ {zs : List E}, zs.Pairwise (fun a b => cmp.before (key a) (key b) = true) → zs.Nodup := by
    intro zs sorted
    refine sorted.imp fun first => ?_
    intro same
    exact cmp.ne_of_before first (congrArg key same)
  have perm := (perm_ext_iff_of_nodup (distinct sortedX) (distinct sortedY)).mpr same
  refine perm.eq_of_pairwise (fun a b _ _ first second => ?_) sortedX sortedY
  rw [cmp.asymm first] at second
  cases second

def ofKey {L : Type} [LinearOrder L] (key : K → L) (injective : Function.Injective key) : Comparator K where
  before a b := key a < key b
  irrefl a := by simp
  trans a b c first second := by simpa using lt_trans (of_decide_eq_true first) (of_decide_eq_true second)
  connected a b first second := by
    rw [decide_eq_false_iff_not, not_lt] at first second
    exact injective (le_antisymm second first)

end Comparator

structure SortedMap (K V : Type) (cmp : Comparator K) where
  entries : List (K × V)
  sorted : entries.Pairwise fun a b => cmp.before a.1 b.1 = true

namespace SortedMap
variable {K V : Type} {cmp : Comparator K}

/-- The list with an entry put in its place, over an old one with the same key. -/
def insertEntry (cmp : Comparator K) (k : K) (v : V) : List (K × V) → List (K × V)
  | [] => [(k, v)]
  | e :: rest =>
    if cmp.before k e.1 then (k, v) :: e :: rest
    else if cmp.before e.1 k then e :: insertEntry cmp k v rest
    else (k, v) :: rest

variable {v : V} {k : K}

section
variable {l : List (K × V)} (sorted : l.Pairwise fun a b => cmp.before a.1 b.1 = true)
include sorted

theorem mem_insertEntry (e : K × V)
    : e ∈ insertEntry cmp k v l ↔ e = (k, v) ∨ e ∈ l ∧ e.1 ≠ k := by
  induction l with
  | nil => simp [insertEntry]
  | cons head rest ih =>
    obtain ⟨first, later⟩ := pairwise_cons.mp sorted
    unfold insertEntry
    split_ifs with front back
    · -- the new key stands before all others
      have others : ∀ other ∈ head :: rest, other.1 ≠ k := by
        intro other mem
        rcases mem_cons.mp mem with rfl | mem
        · exact (cmp.ne_of_before front).symm
        · exact (cmp.ne_of_before (cmp.trans _ _ _ front (first other mem))).symm
      rw [mem_cons]
      exact or_congr_right ⟨fun mem => ⟨mem, others e mem⟩, fun mem => mem.1⟩
    · rw [mem_cons, ih later, mem_cons]
      have apart := cmp.ne_of_before back
      constructor
      · rintro (rfl | rfl | ⟨mem, other⟩)
        · exact Or.inr ⟨Or.inl rfl, apart⟩
        · exact Or.inl rfl
        · exact Or.inr ⟨Or.inr mem, other⟩
      · rintro (rfl | ⟨rfl | mem, other⟩)
        · exact Or.inr (Or.inl rfl)
        · exact Or.inl rfl
        · exact Or.inr (Or.inr ⟨mem, other⟩)
    · have same : head.1 = k := cmp.connected _ _ (by simpa using back) (by simpa using front)
      rw [mem_cons, mem_cons]
      constructor
      · rintro (rfl | mem)
        · exact Or.inl rfl
        · exact Or.inr ⟨Or.inr mem, (same ▸ cmp.ne_of_before (first e mem)).symm⟩
      · rintro (rfl | ⟨rfl | mem, other⟩)
        · exact Or.inl rfl
        · exact absurd same other
        · exact Or.inr mem

theorem sorted_insertEntry :
    (insertEntry cmp k v l).Pairwise fun a b => cmp.before a.1 b.1 = true := by
  induction l with
  | nil => simp [insertEntry]
  | cons head rest ih =>
    obtain ⟨first, later⟩ := pairwise_cons.mp sorted
    unfold insertEntry
    split_ifs with front back
    · refine pairwise_cons.mpr ⟨fun other mem => ?_, sorted⟩
      rcases mem_cons.mp mem with rfl | mem
      · exact front
      · exact cmp.trans _ _ _ front (first other mem)
    · refine pairwise_cons.mpr ⟨fun other mem => ?_, ih later⟩
      rcases (mem_insertEntry later other).mp mem with rfl | ⟨mem, _⟩
      · exact back
      · exact first other mem
    · have same : head.1 = k := cmp.connected _ _ (by simpa using back) (by simpa using front)
      refine pairwise_cons.mpr ⟨fun other mem => ?_, later⟩
      rw [← same]
      exact first other mem

end

def empty : SortedMap K V cmp := ⟨[], List.Pairwise.nil⟩

def insert (m : SortedMap K V cmp) (k : K) (v : V) : SortedMap K V cmp :=
  ⟨insertEntry cmp k v m.entries, sorted_insertEntry m.sorted⟩

def erase [DecidableEq K] (m : SortedMap K V cmp) (k : K) : SortedMap K V cmp :=
  ⟨m.entries.filter fun e => e.1 ≠ k, m.sorted.filter _⟩

def find [DecidableEq K] (m : SortedMap K V cmp) (k : K) : Option V :=
  (m.entries.find? fun e => e.1 = k).map Prod.snd

variable (m : SortedMap K V cmp)

theorem mem_insert (k : K) (v : V) (e : K × V) :
    e ∈ (m.insert k v).entries ↔ e = (k, v) ∨ e ∈ m.entries ∧ e.1 ≠ k := mem_insertEntry m.sorted e

theorem mem_erase [DecidableEq K] (k : K) (e : K × V) :
    e ∈ (m.erase k).entries ↔ e ∈ m.entries ∧ e.1 ≠ k := by
  simp [erase]

theorem keys_nodup : (m.entries.map Prod.fst).Nodup :=
  pairwise_map.mpr (m.sorted.imp fun ordered => cmp.ne_of_before ordered)

theorem unique {v' : V} (first : (k, v) ∈ m.entries) (second : (k, v') ∈ m.entries) :
    v = v' := congrArg Prod.snd (inj_on_of_nodup_map m.keys_nodup first second rfl)

theorem find_eq_some_iff [DecidableEq K] (k : K) (v : V) :
    m.find k = some v ↔ (k, v) ∈ m.entries := by
  unfold find
  constructor
  · intro found
    obtain ⟨e, here, rfl⟩ := map_eq_some_iff.mp found
    have key : e.1 = k := by simpa using List.find?_some here
    rw [← key]
    exact mem_of_find?_eq_some here
  · intro mem
    cases here : m.entries.find? fun e => e.1 = k with
    | none =>
      have none_has := List.find?_eq_none.mp here (k, v) mem
      simp at none_has
    | some e =>
      have key : e.1 = k := by simpa using List.find?_some here
      have held : (k, e.2) ∈ m.entries := by
        rw [← key]
        exact mem_of_find?_eq_some here
      rw [map_some, m.unique held mem]

def drop (m : SortedMap K V cmp) (n : Nat) : SortedMap K V cmp :=
  ⟨m.entries.drop n, m.sorted.sublist (drop_sublist n m.entries)⟩

section Find
variable [DecidableEq K]

theorem mem_flatMap_entries {W : Type} {f : K × V → List W} {w : W} :
    w ∈ m.entries.flatMap f ↔ ∃ k v, m.find k = some v ∧ w ∈ f (k, v) := by
  simp only [List.mem_flatMap, Prod.exists, find_eq_some_iff]

theorem find_empty (k : K) : (empty : SortedMap K V cmp).find k = none := rfl

variable (m : SortedMap K V cmp)

theorem find_insert (k : K) (v : V) (k' : K) :
    (m.insert k v).find k' = if k' = k then some v else m.find k' := by
  ext w
  rw [find_eq_some_iff, mem_insert]
  split_ifs with same
  · simp [same, eq_comm]
  · simp [same, find_eq_some_iff]

theorem find_erase (k k' : K) :
    (m.erase k).find k' = if k' = k then none else m.find k' := by
  ext w
  rw [find_eq_some_iff, mem_erase]
  split_ifs with same
  · simp [same]
  · simp [same, find_eq_some_iff]

/-- A loop over entries with different keys, of which each changes what is read under its key. -/
theorem read_foldl {A W : Type} {step : A → K × V → A} (read : A → K → W) (change : K → V → W → W)
    (one : ∀ acc e k, read (step acc e) k = if k = e.1 then change k e.2 (read acc k) else read acc k)
    {l : List (K × V)} (nodup : (l.map Prod.fst).Nodup) (acc : A) (k : K) : read (l.foldl step acc) k =
      ((l.find? fun e => e.1 = k).map Prod.snd).elim (read acc k) fun v => change k v (read acc k) := by
  induction l generalizing acc with
  | nil => rfl
  | cons e rest ih =>
    obtain ⟨fresh, nodup⟩ := nodup_cons.1 nodup
    rw [foldl_cons, ih nodup, one, List.find?_cons]
    by_cases same : e.1 = k
    · have absent : rest.find? (fun e => e.1 = k) = none := by
        rw [List.find?_eq_none]
        intro other mem
        simpa using fun equal : other.1 = k => fresh (same ▸ equal ▸ List.mem_map_of_mem mem)
      simp [same, absent]
    · simp [same, Ne.symm same]

theorem find_foldl {W : Type} {step : SortedMap K W cmp → K × V → SortedMap K W cmp} (f : K → V → Option W)
    (one : ∀ acc k v k', (step acc (k, v)).find k' = if k' = k then (f k v).or (acc.find k') else acc.find k')
    (m : SortedMap K V cmp) (k : K) : (m.entries.foldl step .empty).find k = (m.find k).bind (f k) := by
  rw [read_foldl find (fun k v old => (f k v).or old) _ m.keys_nodup, ← find]
  · cases m.find k <;> simp [find_empty]
  · rintro acc ⟨k, v⟩ k'
    rw [one]
    split_ifs with same
    · rw [same]
    · rfl

theorem find_foldl_update {W : Type} (f : Option W → V → W) (m : SortedMap K V cmp) (acc : SortedMap K W cmp) (k : K) :
    (m.entries.foldl (fun acc e => acc.insert e.1 (f (acc.find e.1) e.2)) acc).find k =
      ((m.find k).map (f (acc.find k))).or (acc.find k) := by
  rw [read_foldl find (fun _ v old => some (f old v)) _ m.keys_nodup, ← find]
  · cases m.find k <;> rfl
  · intro acc e k'
    rw [find_insert]
    split_ifs with same
    · rw [same]
    · rfl

theorem find_of_drop {m : SortedMap K V cmp} {n : Nat} {k : K} {v : V} (found : (m.drop n).find k = some v) :
    m.find k = some v := by
  rw [find_eq_some_iff] at found ⊢
  exact mem_of_mem_drop found

theorem perm_of_find {m : SortedMap K V cmp} {k : K} {v : V} (found : m.find k = some v) :
    m.entries.Perm ((k, v) :: (m.erase k).entries) := by
  have rest : (k, v) ∉ (m.erase k).entries := by simp [mem_erase]
  rw [perm_ext_iff_of_nodup m.keys_nodup.of_map (nodup_cons.2 ⟨rest, (m.erase k).keys_nodup.of_map⟩)]
  intro e
  rw [find_eq_some_iff] at found
  rw [mem_cons, mem_erase]
  constructor
  · intro mem
    by_cases same : e.1 = k
    · left
      rw [← same] at found ⊢
      rw [m.unique found mem]
    · exact Or.inr ⟨mem, same⟩
  · rintro (rfl | ⟨mem, _⟩)
    exacts [found, mem]

theorem sum_insert (k : K) (v : V) (weight : V → Nat) :
    ((m.insert k v).entries.map fun e => weight e.2).sum + ((m.find k).map weight).getD 0 =
      (m.entries.map fun e => weight e.2).sum + weight v := by
  have erased : ((m.insert k v).erase k).entries = (m.erase k).entries := by
    apply cmp.eq_of_mem_iff ((m.insert k v).erase k).sorted (m.erase k).sorted
    intro e
    rw [mem_erase, mem_erase, mem_insert]
    constructor
    · rintro ⟨rfl | ⟨mem, _⟩, apart⟩
      exacts [absurd rfl apart, ⟨mem, apart⟩]
    · rintro ⟨mem, apart⟩
      exact ⟨Or.inr ⟨mem, apart⟩, apart⟩
  have after := ((m.insert k v).perm_of_find (by rw [find_insert, if_pos rfl])).map fun e => weight e.2
  rw [after.sum_nat, erased]
  cases found : m.find k with
  | none =>
    have whole : (m.erase k).entries = m.entries := by
      apply filter_eq_self.2
      rintro ⟨k', v'⟩ mem
      have apart : k' ≠ k := by
        rintro rfl
        rw [(m.find_eq_some_iff k' v').2 mem] at found
        cases found
      simpa using apart
    rw [whole]
    simp [Nat.add_comm]
  | some old =>
    rw [((m.perm_of_find found).map fun e => weight e.2).sum_nat]
    simp only [map_cons, sum_cons, map_some, getD_some]
    omega

end Find

end SortedMap
end HashAhead.Foundation

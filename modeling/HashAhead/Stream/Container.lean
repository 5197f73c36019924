import HashAhead.Stream.Scalar

/-! The containers of `CStream`. A vector and an array of a fundamental type are read in one block, whose size is
checked against the unread bytes first; other elements are read one after the other. Sets and maps are written in
their order and filled by `insert`, which leaves an entry with the same key as it is. -/

namespace HashAhead.Foundation.SortedMap
variable {K V : Type} {cmp : Comparator K}

/-- `insert` of a tree: an entry with the same key stays. -/
def insertAbsent (m : SortedMap K V cmp) (k : K) (v : V) : SortedMap K V cmp :=
  if m.entries.any fun e => !cmp.before k e.1 && !cmp.before e.1 k then m else m.insert k v

theorem entries_insertAbsent {m : SortedMap K V cmp} {k : K} {v : V} (last : ∀ e ∈ m.entries, cmp.before e.1 k = true) :
    (m.insertAbsent k v).entries = m.entries ++ [(k, v)] := by
  have absent : (m.entries.any fun e => !cmp.before k e.1 && !cmp.before e.1 k) = false := by
    apply List.any_eq_false.2
    intro e mem
    simp [last e mem]
  rw [insertAbsent, absent]
  show insertEntry cmp k v m.entries = m.entries ++ [(k, v)]
  clear absent
  generalize m.entries = entries at last ⊢
  induction entries with
  | nil => rfl
  | cons e entries ih =>
    obtain ⟨first, others⟩ := List.forall_mem_cons.1 last
    rw [insertEntry, cmp.asymm first, first, ih others]
    rfl

end HashAhead.Foundation.SortedMap

namespace HashAhead.Stream
open Foundation Trie Chain

section Sequence
variable {α : Type} {element : Option Nat}

/-- The elements of a vector. The size of the block of a fundamental type is computed in 64 bits. -/
def loadElements (element : Option Nat) (codec : Codec α) (count : Nat) : Loader (List α) :=
  if count = 0 then pure []
  else match element with
    | some size => do
      Loader.require (size * count % 2 ^ 64)
      resize size count
      codec.load.many count
    | none => codec.load.many count

def sizeEach (codec : Codec α) (values : List α) : Nat := (values.map codec.getSerializeSize).sum

def vector (element : Option Nat) (codec : Codec α) : Codec (Vec element α) where
  save t := writeVarInt t.val.length ++ t.val.flatMap codec.save
  load := do
    let count ← Loader.ofReader readVarInt
    let values ← loadElements element codec count
    Loader.within _ values
  size t serSize := serSize + varIntSize t.val.length +
    match element with
    | some size => size * t.val.length
    | none => sizeEach codec t.val

def Fundamental (element : Option Nat) (codec : Codec α) : Prop :=
  ∀ size, element = some size → ∀ a, (codec.save a).length = size

variable {codec : Codec α}

theorem length_flatMap_save {size : Nat} (fixed : ∀ a, (codec.save a).length = size) (values : List α) :
    (values.flatMap codec.save).length = size * values.length := by
  simp [List.length_flatMap, fixed, Nat.mul_comm]

theorem block_lt {size count : Nat} (fits : count ≤ maxSize (some size)) : size * count < 2 ^ 64 := by
  have whole : size * count ≤ ptrdiffMax := Nat.le_trans (Nat.mul_le_mul_left size fits) (Nat.mul_div_le _ _)
  exact Nat.lt_of_le_of_lt whole (by decide)

theorem result_loadElements (sound : codec.Sound) (fixed : Fundamental element codec) (values : Vec element α)
    (rest : Bytes) :
    (loadElements element codec values.val.length).result (values.val.flatMap codec.save ++ rest) =
      some (values.val, rest) := by
  unfold loadElements
  by_cases empty : values.val.length = 0
  · rw [if_pos empty, List.length_eq_zero_iff.1 empty]
    rfl
  · rw [if_neg empty]
    cases element with
    | none => exact sound.load_many values.val rest
    | some size =>
      have block := length_flatMap_save (fixed size rfl) values.val
      have enough : ¬(values.val.flatMap codec.save ++ rest).length < size * values.val.length % 2 ^ 64 := by
        rw [List.length_append, block, Nat.mod_eq_of_lt (block_lt values.property)]
        omega
      simp only [Loader.result_bind, Loader.result_require, if_neg enough, Option.bind_some,
        result_resize values.property, sound.load_many]

theorem stable_loadElements (sound : codec.Sound) (count : Nat) :
    (loadElements element codec count).Stable := by
  unfold loadElements
  split
  · exact Loader.stable_pure _
  · cases element with
    | none => exact sound.stable.many count
    | some size =>
      exact (Loader.stable_require _).bind fun _ => (stable_resize size count).bind fun _ => sound.stable.many count

theorem vector_sound (sound : codec.Sound) (fixed : Fundamental element codec) :
    (vector element codec).Sound where
  load_save t rest := by
    simp only [vector, List.append_assoc, Loader.result_bind, Loader.result_ofReader,
      readVarInt_writeVarInt t.length_lt, Option.bind_some, result_loadElements sound fixed, Loader.result_within]
  stable := readVarInt_stable.bind fun count => (stable_loadElements sound count).bind fun values =>
    Loader.stable_within _ values

/-- `std::array`. Its size is part of its type. -/
def array (length : Nat) (element : Option Nat) (codec : Codec α) : Codec {values : List α // values.length = length} where
  save t := t.val.flatMap codec.save
  load := do
    match element with
    | some size => Loader.require (size * length)
    | none => pure ()
    let values ← codec.load.many length
    Loader.within _ values
  size t serSize := serSize +
    match element with
    | some size => size * length
    | none => sizeEach codec t.val

theorem array_sound (sound : codec.Sound) (fixed : Fundamental element codec) (length : Nat) :
    (array length element codec).Sound where
  load_save t rest := by
    have loaded := sound.load_many t.val rest
    rw [t.property] at loaded
    cases element with
    | none => simp only [array, Loader.result_bind, Option.bind_some, loaded, Loader.result_within]
    | some size =>
      have block := length_flatMap_save (fixed size rfl) t.val
      have enough : ¬(t.val.flatMap codec.save ++ rest).length < size * length := by
        rw [List.length_append, block, t.property]
        omega
      simp only [array, Loader.result_bind, Loader.result_require, if_neg enough, Option.bind_some, loaded,
        Loader.result_within]
  stable := by
    have elements : (do let values ← codec.load.many length
                        Loader.within (fun values : List α => values.length = length) values).Stable :=
      (sound.stable.many length).bind fun values => Loader.stable_within _ values
    cases element with
    | none => exact (Loader.stable_pure ()).bind fun _ => elements
    | some size => exact (Loader.stable_require _).bind fun _ => elements

end Sequence

section Tree
variable {α β κ : Type} {cmp : Comparator κ}

/-- `std::pair`. The size pass goes through both with one counter. -/
def pair (first : Codec α) (second : Codec β) : Codec (α × β) where
  save t := first.save t.1 ++ second.save t.2
  load := do
    let a ← first.load
    let b ← second.load
    pure (a, b)
  size t serSize := second.size t.2 (first.size t.1 serSize)

theorem pair_sound {first : Codec α} {second : Codec β} (soundFirst : first.Sound) (soundSecond : second.Sound) :
    (pair first second).Sound where
  load_save t rest := by
    simp only [pair, List.append_assoc, Loader.result_bind, soundFirst.load_save, soundSecond.load_save,
      Option.bind_some, Loader.result_pure]
  stable := soundFirst.stable.bind fun _ => soundSecond.stable.bind fun _ => Loader.stable_pure _

theorem pair_tight {first : Codec α} {second : Codec β} (tightFirst : first.Tight) (tightSecond : second.Tight) :
    (pair first second).Tight := by
  intro stream t rest loaded
  simp only [pair, Loader.result_bind, Option.bind_eq_some_iff, Loader.result_pure] at loaded
  obtain ⟨⟨a, middle⟩, readFirst, ⟨b, left⟩, readSecond, made⟩ := loaded
  obtain ⟨rfl, rfl⟩ := Prod.mk.inj (Option.some.inj made)
  rw [tightFirst stream a middle readFirst, tightSecond middle b left readSecond, pair, List.append_assoc]

def nothing : Codec Unit where
  save _ := []
  load := pure ()
  size _ serSize := serSize

theorem nothing_sound : nothing.Sound where
  load_save _ _ := rfl
  stable := Loader.stable_pure ()

theorem nothing_tight : nothing.Tight := by
  intro stream value rest loaded
  cases loaded
  rfl

abbrev Tree (κ β : Type) (cmp : Comparator κ) := {m : SortedMap κ β cmp // m.entries.length ≤ ptrdiffMax}

def insertEach (entry : Loader (κ × β)) : Nat → SortedMap κ β cmp → Loader (SortedMap κ β cmp)
  | 0, t => pure t
  | count + 1, t => do
    let item ← entry
    insertEach entry count (t.insertAbsent item.1 item.2)

/-- The entries of a `std::set` or a `std::map`. -/
def tree (entry : Codec (κ × β)) : Codec (Tree κ β cmp) where
  save t := writeVarInt t.val.entries.length ++ t.val.entries.flatMap entry.save
  load := do
    let count ← Loader.ofReader readVarInt
    let t ← insertEach entry.load count .empty
    Loader.within _ t
  size t serSize := serSize + varIntSize t.val.entries.length + sizeEach entry t.val.entries

def set (key : Codec κ) : Codec (Tree κ Unit cmp) := tree (pair key nothing)

def map (key : Codec κ) (value : Codec β) : Codec (Tree κ β cmp) := tree (pair key value)

variable {entry : Codec (κ × β)}

theorem result_insertEach (sound : entry.Sound) (t : SortedMap κ β cmp) (rest : Bytes) (entries : List (κ × β))
    (before : SortedMap κ β cmp) (split : before.entries ++ entries = t.entries) :
    (insertEach entry.load entries.length before).result (entries.flatMap entry.save ++ rest) = some (t, rest) := by
  induction entries generalizing before with
  | nil =>
    have same : before = t := by
      cases before
      cases t
      simpa using split
    rw [same]
    rfl
  | cons e entries ih =>
    have sorted := t.sorted
    rw [← split, List.pairwise_append] at sorted
    have last : ∀ earlier ∈ before.entries, cmp.before earlier.1 e.1 = true := fun earlier mem =>
      sorted.2.2 earlier mem e (List.mem_cons_self ..)
    have next : (before.insertAbsent e.1 e.2).entries ++ entries = t.entries := by
      rw [SortedMap.entries_insertAbsent last, List.append_assoc, ← split]
      rfl
    rw [List.flatMap_cons, List.append_assoc, List.length_cons, insertEach, Loader.result_bind, sound.load_save,
      Option.bind_some, ih _ next]

theorem stable_insertEach (sound : entry.Sound) (count : Nat) (t : SortedMap κ β cmp) :
    (insertEach entry.load count t).Stable := by
  induction count generalizing t with
  | zero => exact Loader.stable_pure t
  | succ count ih => exact sound.stable.bind fun item => ih _

theorem tree_sound (sound : entry.Sound) : (tree entry : Codec (Tree κ β cmp)).Sound where
  load_save t rest := by
    have count : t.val.entries.length < 2 ^ 64 := Nat.lt_of_le_of_lt t.property (by decide)
    simp only [tree, List.append_assoc, Loader.result_bind, Loader.result_ofReader, readVarInt_writeVarInt count,
      Option.bind_some, result_insertEach sound t.val rest t.val.entries .empty rfl, Loader.result_within]
  stable := readVarInt_stable.bind fun count => (stable_insertEach sound count .empty).bind fun t =>
    Loader.stable_within _ t

theorem set_sound {key : Codec κ} (sound : key.Sound) : (set key : Codec (Tree κ Unit cmp)).Sound :=
  tree_sound (pair_sound sound nothing_sound)

theorem map_sound {key : Codec κ} {value : Codec β} (soundKey : key.Sound) (soundValue : value.Sound) :
    (map key value : Codec (Tree κ β cmp)).Sound := tree_sound (pair_sound soundKey soundValue)

end Tree

end HashAhead.Stream

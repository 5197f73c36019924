import HashAhead.Stream.Container

/-! The field types of the classes that have their own `Serialize`: byte vectors, the words of `uint256.h` in full and
without their leading zeros, and maps with a byte as key. A set or a map is not cleared before it is loaded, so the old
entries stay, and those of the stream come in only under new keys. -/

namespace HashAhead.Stream
open Foundation State List

/-- `bytes` -/
abbrev ByteVec := Vec (some 1) UInt8

instance : Inhabited ByteVec := ⟨⟨[], Nat.zero_le _⟩⟩

/-- `uint8` -/
def byte : Codec UInt8 where
  save value := [value]
  load := Loader.ofReader fun
    | [] => none
    | value :: rest => some (value, rest)
  size _ serSize := serSize + 1

theorem byte_sound : byte.Sound where
  load_save _ _ := rfl
  stable := by
    intro stream value rest more loaded
    cases stream with
    | nil => cases loaded
    | cons first stream =>
      cases loaded
      rfl

theorem byte_tight : byte.Tight := by
  intro stream value rest loaded
  cases stream with
  | nil => cases loaded
  | cons first stream =>
    cases loaded
    rfl

def bytes : Codec ByteVec := vector (some 1) byte

theorem bytes_sound : bytes.Sound := by
  apply vector_sound byte_sound
  intro size isOne value
  cases isOne
  rfl

/-- `uint16`, `uint32` and `uint64` -/
def uint16 : Codec UInt16 := (fixedInt .int16).retract UInt16.toBitVec UInt16.ofBitVec
def uint32 : Codec UInt32 := (fixedInt .int32).retract UInt32.toBitVec UInt32.ofBitVec
def uint64 : Codec UInt64 := (fixedInt .int64).retract UInt64.toBitVec UInt64.ofBitVec

theorem uint16_sound : uint16.Sound := (fixedInt_sound .int16).retract fun _ => rfl
theorem uint32_sound : uint32.Sound := (fixedInt_sound .int32).retract fun _ => rfl
theorem uint64_sound : uint64.Sound := (fixedInt_sound .int64).retract fun _ => rfl

theorem uint32_tight : uint32.Tight := (fixedInt_tight .int32).retract fun _ => rfl

/-- `CVarInt` of a `uint64` -/
def varInt64 : Codec UInt64 := varInt.retract UInt64.toBitVec UInt64.ofBitVec

/-- `CVarInt((uint64)n)` of a `uint32`, and the cast of what is read -/
def varInt32 : Codec UInt32 := varInt.retract (fun n => n.toBitVec.setWidth 64) fun v => .ofBitVec (v.setWidth 32)

theorem varInt64_sound : varInt64.Sound := varInt_sound.retract fun _ => rfl

theorem varInt32_sound : varInt32.Sound := by
  apply varInt_sound.retract
  intro n
  apply UInt32.toBitVec_inj.1
  rw [UInt32.toBitVec_ofBitVec, BitVec.setWidth_setWidth_of_le _ (by decide), BitVec.setWidth_eq]

section Word
variable (size : Nat)

/-- `base_uint::Serialize`: all bytes of the word, the highest first. -/
def baseUint : Codec (BitVec (8 * size)) where
  save value := (littleEndian size value.toNat).reverse
  load := do
    let us ← Loader.read size
    pure (BitVec.ofNat _ (ofLittleEndian us.reverse))
  size _ serSize := serSize + size

theorem word_lt {size : Nat} (value : BitVec (8 * size)) : value.toNat < 256 ^ size := by
  rw [show 256 = 2 ^ 8 from rfl, ← pow_mul]
  exact value.isLt

theorem baseUint_sound : (baseUint size).Sound where
  load_save value rest := by
    have whole : (littleEndian size value.toNat).reverse.length = size := by
      rw [length_reverse, length_littleEndian]
    simp only [baseUint, Loader.result_bind, Loader.result_read, takeBytes_append whole, Option.bind_some,
      Loader.result_pure, reverse_reverse, ofLittleEndian_littleEndian _ _ (word_lt value), BitVec.ofNat_toNat,
      BitVec.setWidth_eq]
  stable := (Loader.stable_read size).bind fun _ => Loader.stable_pure _

variable {size} (small : size ≤ ptrdiffMax)

def toValidBigEndianData (value : BitVec (8 * size)) : ByteVec :=
  ⟨trimBig size value.toNat, by
    rw [maxSize, Nat.div_one]
    exact Nat.le_trans (length_trimBig_le size value.toNat) small⟩

/-- `base_uint::FromValidBigEndianData` into a word that is zero. Data that is too long changes nothing. -/
def fromValidBigEndianData (data : ByteVec) : BitVec (8 * size) :=
  if size < data.val.length then 0 else BitVec.ofNat _ (ofLittleEndian data.val.reverse)

theorem fromValidBigEndianData_toValidBigEndianData (value : BitVec (8 * size)) :
    fromValidBigEndianData (toValidBigEndianData small value) = value := by
  rw [fromValidBigEndianData, toValidBigEndianData, if_neg (Nat.not_lt.2 (length_trimBig_le size value.toNat)),
    ofLittleEndian_trimBig (word_lt value), BitVec.ofNat_toNat, BitVec.setWidth_eq]

/-- A word that is written by `ToValidBigEndianData`. -/
def validBigEndian : Codec (BitVec (8 * size)) := bytes.retract (toValidBigEndianData small) fromValidBigEndianData

theorem validBigEndian_sound : (validBigEndian small).Sound :=
  bytes_sound.retract (fromValidBigEndianData_toValidBigEndianData small)

end Word

def uint256 : Codec UInt256 := baseUint 32

def destination : Codec Destination := baseUint 20

/-- A `uint256` without its leading zeros -/
def shortUint256 : Codec UInt256 := @validBigEndian 32 (by decide)

/-- A `CDestination` without its leading zeros -/
def shortDestination : Codec Destination := @validBigEndian 20 (by decide)

theorem uint256_sound : uint256.Sound := baseUint_sound 32
theorem shortUint256_sound : shortUint256.Sound := validBigEndian_sound _
theorem shortDestination_sound : shortDestination.Sound := validBigEndian_sound _

/-- The order of `uint8` keys. -/
def byteOrder : Comparator UInt8 := .ofKey UInt8.toNat uint8_injective

/-- `std::map<uint8, bytes>` -/
abbrev ByteMap := SortedMap UInt8 ByteVec byteOrder

theorem entries_length_le {K V : Type} {cmp : Comparator K} {count : Nat} (m : SortedMap K V cmp) {key : K → Nat}
    (injective : Function.Injective key) (bound : ∀ k, key k < count) : m.entries.length ≤ count := by
  have distinct : (m.entries.map fun e => (⟨key e.1, bound e.1⟩ : Fin count)).Nodup := by
    refine pairwise_map.2 ((pairwise_map.1 m.keys_nodup).imp fun apart same => apart ?_)
    exact injective (Fin.mk.inj same)
  have few := distinct.length_le_card
  rwa [length_map, Fintype.card_fin] at few

theorem ByteMap.length_le (m : ByteMap) : m.entries.length ≤ ptrdiffMax :=
  Nat.le_trans (entries_length_le m uint8_injective UInt8.toNat_lt) (by decide)

def byteMap : Codec ByteMap := (map byte bytes).retract (fun m => ⟨m, m.length_le⟩) Subtype.val

theorem byteMap_sound : byteMap.Sound := (map_sound byte_sound bytes_sound).retract fun _ => rfl

end HashAhead.Stream

namespace HashAhead.Foundation.SortedMap
open List

variable {K V : Type} {cmp : Comparator K} {m t : SortedMap K V cmp}

theorem mem_insertAbsent_of_mem (k : K) (v : V) {e : K × V} (mem : e ∈ m.entries) :
    e ∈ (m.insertAbsent k v).entries := by
  unfold insertAbsent
  split_ifs with taken
  · exact mem
  · rw [mem_insert]
    refine Or.inr ⟨mem, fun same => taken (any_eq_true.2 ⟨e, mem, ?_⟩)⟩
    simp [same, cmp.irrefl]

theorem mem_insertAbsent (inside : ∀ e ∈ m.entries, e ∈ t.entries) {own : K × V} (here : own ∈ t.entries) (e : K × V) :
    e ∈ (m.insertAbsent own.1 own.2).entries ↔ e ∈ m.entries ∨ e = own := by
  constructor
  · unfold insertAbsent
    split_ifs
    · exact Or.inl
    · rw [mem_insert]
      exact fun found => found.symm.imp And.left id
  · rintro (mem | rfl)
    · exact mem_insertAbsent_of_mem _ _ mem
    unfold insertAbsent
    split_ifs with taken
    · obtain ⟨⟨k, v⟩, mem, same⟩ := any_eq_true.1 taken
      simp only [Bool.and_eq_true, Bool.not_eq_true'] at same
      obtain rfl := cmp.connected _ _ same.1 same.2
      cases unique t (inside _ mem) here
      exact mem
    · exact (mem_insert ..).2 (Or.inl rfl)

def insertAll (m : SortedMap K V cmp) (entries : List (K × V)) : SortedMap K V cmp :=
  entries.foldl (fun m e => m.insertAbsent e.1 e.2) m

theorem insertAll_eq_iff (m t : SortedMap K V cmp) : m.insertAll t.entries = t ↔ ∀ e ∈ m.entries, e ∈ t.entries := by
  constructor
  · intro same e mem
    have kept : ∀ entries (m : SortedMap K V cmp), e ∈ m.entries → e ∈ (m.insertAll entries).entries := by
      intro entries
      induction entries with
      | nil => exact fun _ mem => mem
      | cons first rest ih => exact fun m mem => ih _ (mem_insertAbsent_of_mem _ _ mem)
    exact same ▸ kept t.entries m mem
  · intro inside
    have all : ∀ entries (m : SortedMap K V cmp), (∀ e ∈ m.entries, e ∈ t.entries) → entries ⊆ t.entries →
        ∀ e, e ∈ (m.insertAll entries).entries ↔ e ∈ m.entries ∨ e ∈ entries := by
      intro entries
      induction entries with
      | nil => simp [insertAll]
      | cons first rest ih =>
        intro m inside others e
        have step := mem_insertAbsent inside (others mem_cons_self)
        have next : ∀ e ∈ (m.insertAbsent first.1 first.2).entries, e ∈ t.entries := fun e mem =>
          ((step e).1 mem).elim (inside e) fun same => same ▸ others mem_cons_self
        rw [insertAll, foldl_cons, ← insertAll, ih _ next (subset_of_cons_subset others), step, mem_cons, or_assoc]
    have same : (m.insertAll t.entries).entries = t.entries :=
      cmp.eq_of_mem_iff (m.insertAll t.entries).sorted t.sorted fun e => by
        rw [all t.entries m inside (fun _ mem => mem)]
        exact or_iff_right_of_imp (inside e)
    cases made : m.insertAll t.entries
    cases t
    simpa [made] using same

end HashAhead.Foundation.SortedMap

namespace HashAhead.Stream
open Foundation Trie Chain
variable {β κ : Type} {cmp : Comparator κ} {entry : Codec (κ × β)}

/-- A set or a map loaded into an object that holds `old`. -/
def reload (entry : Codec (κ × β)) (old : SortedMap κ β cmp) : Loader (SortedMap κ β cmp) := do
  let count ← Loader.ofReader readVarInt
  insertEach entry.load count old

theorem result_insertAll (sound : entry.Sound) (entries : List (κ × β)) (old : SortedMap κ β cmp) (rest : Bytes) :
    (insertEach entry.load entries.length old).result (entries.flatMap entry.save ++ rest) =
      some (old.insertAll entries, rest) := by
  induction entries generalizing old with
  | nil => rfl
  | cons e entries ih =>
    rw [List.flatMap_cons, List.append_assoc, List.length_cons, insertEach, Loader.result_bind, sound.load_save,
      Option.bind_some, ih]
    rfl

/-- The loaded object is the saved one exactly if every old entry is also one of the saved ones. -/
theorem reload_replaces_iff (sound : entry.Sound) (old saved : Tree κ β cmp) (rest : Bytes) :
    (reload entry old.val).result ((tree entry).save saved ++ rest) = some (saved.val, rest) ↔
      ∀ e ∈ old.val.entries, e ∈ saved.val.entries := by
  have count : saved.val.entries.length < 2 ^ 64 := Nat.lt_of_le_of_lt saved.property (by decide)
  rw [← SortedMap.insertAll_eq_iff]
  simp only [reload, tree, List.append_assoc, Loader.result_bind, Loader.result_ofReader, readVarInt_writeVarInt count,
    Option.bind_some, result_insertAll sound, Option.some.injEq, Prod.mk.injEq, and_true]

namespace Sample

def oneEntry (k v : UInt8) : Tree UInt8 UInt8 (.ofKey UInt8.toNat State.uint8_injective) := ⟨SortedMap.empty.insert k v, by
  show 1 ≤ ptrdiffMax
  decide⟩

/-- The old value stays under its key. -/
theorem old_value_stays :
    ((reload (pair byte byte) (oneEntry 1 5).val).result ((tree (pair byte byte)).save (oneEntry 1 7))).map
      (fun loaded => loaded.1.entries) = some [(1, 5)] := by
  decide +kernel

theorem reload_replaces_iff_same :
    (reload (pair byte byte) (oneEntry 1 7).val).result ((tree (pair byte byte)).save (oneEntry 1 7) ++ []) =
      some ((oneEntry 1 7).val, []) :=
  (reload_replaces_iff (pair_sound byte_sound byte_sound) (oneEntry 1 7) (oneEntry 1 7) []).2 fun _ member => member

end Sample

end HashAhead.Stream

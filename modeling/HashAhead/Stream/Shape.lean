import HashAhead.Stream.Container

/-! The types that `CStream` can save and load, nested to any depth over a family of classes with their own
`Serialize`. A saved value loads back whatever follows it in the stream. The storage that a load asks for is bounded
by what is unread for a vector of a fundamental type, whose size is checked first, but not for a string. -/

namespace HashAhead.Stream
open Foundation Trie Chain Loader

/-- A type of the stream, with its size if it is fundamental. The comparison of a set or a map is part of its type. -/
inductive Shape (Object : Type → Type) : Option Nat → Type → Type 1 where
  | int (width : Width) : Shape Object (some width.size) (BitVec (8 * width.size))
  | varInt : Shape Object none (BitVec 64)
  | string : Shape Object none (Vec (some 1) UInt8)
  | vector {element : Option Nat} {α : Type} (shape : Shape Object element α) : Shape Object none (Vec element α)
  | array {element : Option Nat} {α : Type} (length : Nat) (shape : Shape Object element α) :
      Shape Object none {values : List α // values.length = length}
  | pair {element element' : Option Nat} {α β : Type} (first : Shape Object element α) (second : Shape Object element' β) :
      Shape Object none (α × β)
  | set {element : Option Nat} {κ : Type} (cmp : Comparator κ) (key : Shape Object element κ) :
      Shape Object none (Tree κ Unit cmp)
  | map {element element' : Option Nat} {κ β : Type} (cmp : Comparator κ) (key : Shape Object element κ)
      (value : Shape Object element' β) : Shape Object none (Tree κ β cmp)
  | object {α : Type} (object : Object α) : Shape Object none α

namespace Shape
variable {Object : Type → Type} (objects : ∀ {α : Type}, Object α → Codec α)

/-- `CStream::Serialize` of a type, from that of the classes. -/
def codec : {element : Option Nat} → {α : Type} → Shape Object element α → Codec α
  | _, _, int width => fixedInt width
  | _, _, varInt => Stream.varInt
  | _, _, string => Stream.string
  | _, _, @vector _ element _ shape => Stream.vector element shape.codec
  | _, _, @array _ element _ length shape => Stream.array length element shape.codec
  | _, _, pair first second => Stream.pair first.codec second.codec
  | _, _, set _ key => Stream.set key.codec
  | _, _, map _ key value => Stream.map key.codec value.codec
  | _, _, object o => objects o

theorem fundamental {element : Option Nat} {α : Type} (shape : Shape Object element α) :
    Fundamental element (shape.codec objects) := by
  intro size isFundamental value
  cases shape with
  | int width =>
    cases isFundamental
    exact length_littleEndian _ _
  | _ => cases isFundamental

theorem codec_sound (sound : ∀ {α : Type} (o : Object α), (objects o).Sound) {element : Option Nat} {α : Type}
    (shape : Shape Object element α) : (shape.codec objects).Sound := by
  induction shape with
  | int width => exact fixedInt_sound width
  | varInt => exact varInt_sound
  | string => exact string_sound
  | vector shape ih => exact vector_sound ih (fundamental objects shape)
  | array length shape ih => exact array_sound ih (fundamental objects shape) length
  | pair first second ihFirst ihSecond => exact pair_sound ihFirst ihSecond
  | set cmp key ih => exact set_sound ih
  | map cmp key value ihKey ihValue => exact map_sound ihKey ihValue
  | object o => exact sound o

end Shape

inductive NoObject : Type → Type

def NoObject.codec : {α : Type} → NoObject α → Codec α := fun o => nomatch o

/-- A value of the types of the standard library alone comes back from its bytes, and what follows them is left. -/
theorem saved_value_loads_back {element : Option Nat} {α : Type} (shape : Shape NoObject element α) (value : α)
    (rest : Bytes) :
    (shape.codec NoObject.codec).load.result ((shape.codec NoObject.codec).save value ++ rest) = some (value, rest) :=
  (shape.codec_sound NoObject.codec fun o => nomatch o).load_save value rest

/-- Bytes that are cut off load no value. -/
theorem truncated_value_refused {element : Option Nat} {α : Type} (shape : Shape NoObject element α) (value : α)
    (n : ℕ) :
    let codec := shape.codec NoObject.codec
    (codec.load.result ((codec.save value).take n)).isSome ↔ (codec.save value).length ≤ n := by
  intro codec
  have sound : codec.Sound := shape.codec_sound NoObject.codec fun o => nomatch o
  have whole := sound.load_save value []
  rw [List.append_nil] at whole
  constructor
  · intro loads
    obtain ⟨⟨other, rest⟩, loaded⟩ := Option.isSome_iff_exists.mp loads
    -- the missing bytes would be left behind it
    have longer := sound.stable _ other rest ((codec.save value).drop n) loaded
    rw [List.take_append_drop, whole] at longer
    have behind := congrArg Prod.snd (Option.some.inj longer)
    exact List.drop_eq_nil_iff.mp (List.append_eq_nil_iff.mp behind.symm).2
  · intro le
    rw [List.take_of_length_le le, whole]
    rfl

section Storage

theorem modest_resize_iff {size count : Nat} {stream : Bytes} :
    (resize size count).Modest stream ↔ maxSize (some size) < count ∨ size * count ≤ stream.length := by
  unfold resize
  split <;> simp [*]

theorem modest_read (size : Nat) (stream : Bytes) : (read size).Modest stream := modest_ofReader _

theorem modest_fixedInt (width : Width) (stream : Bytes) : (fixedInt width).load.Modest stream :=
  modest_bind_iff.2 ⟨modest_read _ _, fun _ _ _ => modest_pure _⟩

/-- The check before the storage is asked for. Where the product wraps around, the count is above `max_size`. -/
theorem modest_block {α : Type} {codec : Codec α} (quiet : ∀ stream, codec.load.Modest stream) (size count : Nat)
    (stream : Bytes) : (loadElements (some size) codec count).Modest stream := by
  unfold loadElements
  split
  · exact modest_pure _
  · refine modest_bind_iff.2 ⟨modest_require _, fun _ rest checked => ?_⟩
    rw [result_require] at checked
    split at checked
    · cases checked
    · rename_i enough
      cases checked
      refine modest_bind_iff.2 ⟨?_, fun _ _ _ => modest_many quiet _⟩
      rw [modest_resize_iff]
      by_cases fits : count ≤ maxSize (some size)
      · rw [Nat.mod_eq_of_lt (block_lt fits)] at enough
        exact Or.inr (Nat.le_of_not_lt enough)
      · exact Or.inl (Nat.lt_of_not_le fits)

theorem modest_vector {α : Type} {codec : Codec α} (quiet : ∀ stream, codec.load.Modest stream) (size : Nat)
    (stream : Bytes) : (vector (some size) codec).load.Modest stream :=
  modest_bind_iff.2 ⟨modest_ofReader _, fun count rest _ =>
    modest_bind_iff.2 ⟨modest_block quiet size count rest, fun _ _ _ => modest_within _ _⟩⟩

/-- The length in front announces no more bytes than follow it, or more than any string may have. -/
def HonestLength (stream : Bytes) : Prop :=
  ∀ count rest, readVarInt stream = some (count, rest) → count ≤ rest.length ∨ maxSize (some 1) < count

theorem modest_string_iff (stream : Bytes) : string.load.Modest stream ↔ HonestLength stream := by
  have tail : ∀ count rest, (do let t ← read count
                                within (fun values : Bytes => values.length ≤ maxSize (some 1)) t).Modest rest :=
    fun count rest => modest_bind_iff.2 ⟨modest_read count rest, fun _ _ _ => modest_within _ _⟩
  have announced : ∀ count rest, (resize 1 count).Modest rest ↔ count ≤ rest.length ∨ maxSize (some 1) < count := by
    intro count rest
    rw [modest_resize_iff, Nat.one_mul, or_comm]
  constructor
  · intro modest count rest loaded
    have after := (modest_bind_iff.1 modest).2 count rest loaded
    exact (announced count rest).1 (modest_bind_iff.1 after).1
  · intro honest
    refine modest_bind_iff.2 ⟨modest_ofReader _, fun count rest loaded => ?_⟩
    exact modest_bind_iff.2 ⟨(announced count rest).2 (honest count rest loaded), fun _ rest' _ => tail count rest'⟩

/-- A vector of a fundamental type never asks for more storage than there are unread bytes, whatever length stands in
front of it. A string does not if and only if the length in front of it is honest. -/
theorem storage_bounded_iff_honest_length (stream : Bytes) :
    (∀ width : Width, (vector (some width.size) (fixedInt width)).load.Modest stream) ∧
      (string.load.Modest stream ↔ HonestLength stream) :=
  ⟨fun width => modest_vector (modest_fixedInt width) width.size stream, modest_string_iff stream⟩

/-- Five bytes make a string ask for a gibibyte when nothing is unread. -/
theorem string_asks_beyond_input :
    string.load.requests [0xFB, 0x40, 0, 0, 0] = [⟨2 ^ 30, 0⟩] ∧ ¬string.load.Modest [0xFB, 0x40, 0, 0, 0] := by
  decide

end Storage

end HashAhead.Stream

import HashAhead.Stream.Classes
import HashAhead.Stream.Shape

/-! The size pass. `GetSerializeSize` starts one counter, which goes through both components of a pair; the elements
of a container each start their own. The classes that assign the counter lose what stands before them in a pair, so
the predicted size falls short by just that. -/

namespace HashAhead.Stream
open Foundation State Chain List Codec

inductive NodeClass : Type → Type where
  | uint256 : NodeClass UInt256
  | destination : NodeClass Destination
  | transaction : NodeClass Transaction
  | block : NodeClass Block
  | profile : NodeClass Profile
  | receipt : NodeClass TransactionReceipt

namespace NodeClass
variable (base : TxBase) (blockProve : Codec BlockProve)

def codec : {α : Type} → NodeClass α → Codec α
  | _, uint256 => Stream.uint256
  | _, destination => Stream.destination
  | _, transaction => Transaction.codec base
  | _, block => Block.codec base blockProve
  | _, profile => Profile.codec
  | _, receipt => TransactionReceipt.codec

def assigns : {α : Type} → NodeClass α → Bool
  | _, uint256 => false
  | _, destination => false
  | _, _ => true

theorem size_transaction (tx : Transaction) (serSize : Nat) :
    (Transaction.codec base).size tx serSize = ((Transaction.codec base).save tx).length := by
  simp only [Transaction.codec, length_append]
  congr 1
  split
  · -- the flag is one byte, whatever it says
    simp [ethFields, pair, byte]
  · rfl

theorem size_codec {α : Type} (object : NodeClass α) (value : α) (serSize : Nat) :
    (object.codec base blockProve).size value serSize =
      (if object.assigns then 0 else serSize) + ((object.codec base blockProve).save value).length := by
  cases object with
  | uint256 => simp [codec, assigns, Stream.uint256, baseUint]
  | destination => simp [codec, assigns, Stream.destination, baseUint]
  | transaction =>
    show (Transaction.codec base).size value serSize = 0 + ((Transaction.codec base).save value).length
    rw [size_transaction, Nat.zero_add]
  | block => simp [codec, assigns, Block.codec, assigned]
  | profile => simp [codec, assigns, Profile.codec, assigned]
  | receipt => simp [codec, assigns, TransactionReceipt.codec, assigned]

end NodeClass

namespace Shape

def resets : {element : Option Nat} → {α : Type} → Shape NodeClass element α → Bool
  | _, _, pair first second => first.resets || second.resets
  | _, _, object o => o.assigns
  | _, _, _ => false

variable (base : TxBase) (blockProve : Codec BlockProve)

/-- `CStream::Serialize` of a type over the classes of the node -/
abbrev nodeCodec {element : Option Nat} {α : Type} (shape : Shape NodeClass element α) : Codec α :=
  shape.codec (NodeClass.codec base blockProve)

def Counted : {element : Option Nat} → {α : Type} → Shape NodeClass element α → α → Prop
  | _, _, vector shape, values => ∀ value ∈ values.val, shape.Counted value
  | _, _, array _ shape, values => ∀ value ∈ values.val, shape.Counted value
  | _, _, pair first second, (a, b) =>
    first.Counted a ∧ second.Counted b ∧ (second.resets → ((first.nodeCodec base blockProve).save a).length = 0)
  | _, _, set _ key, t => ∀ e ∈ t.val.entries, key.Counted e.1
  | _, _, map _ key value, t => ∀ e ∈ t.val.entries,
    key.Counted e.1 ∧ value.Counted e.2 ∧ (value.resets → ((key.nodeCodec base blockProve).save e.1).length = 0)
  | _, _, _, _ => True

end Shape

/-- The prediction is never too large, and right under a condition on the value. -/
def Measured {α : Type} (codec : Codec α) (counted : α → Prop) : Prop :=
  ∀ a, codec.getSerializeSize a ≤ (codec.save a).length ∧
    (codec.getSerializeSize a = (codec.save a).length ↔ counted a)

section Each
variable {α : Type} {codec : Codec α} {counted : α → Prop}

theorem Measured.of_eq (right : ∀ a, codec.getSerializeSize a = (codec.save a).length) : Measured codec fun _ => True :=
  fun a => ⟨Nat.le_of_eq (right a), iff_of_true (right a) trivial⟩

/-- The sizes of the elements add up if and only if each of them is right: none is ever too large. -/
theorem Measured.each (measured : Measured codec counted) (values : List α) :
    sizeEach codec values ≤ (values.flatMap codec.save).length ∧
      (sizeEach codec values = (values.flatMap codec.save).length ↔ ∀ a ∈ values, counted a) := by
  induction values with
  | nil => simp [sizeEach]
  | cons a values ih =>
    obtain ⟨shorter, right⟩ := measured a
    obtain ⟨shorterRest, rightRest⟩ := ih
    have split : sizeEach codec (a :: values) = codec.getSerializeSize a + sizeEach codec values := by
      rw [sizeEach, map_cons, sum_cons, ← sizeEach]
    rw [forall_mem_cons, ← right, ← rightRest, split, flatMap_cons, length_append]
    omega

/-- The counter of the second component starts where that of the first ended, unless it is forgotten. -/
theorem Measured.pair {β : Type} {second : Codec β} {countedSecond : β → Prop} {resets : Bool}
    (first : Measured codec counted) (measured : Measured second countedSecond)
    (counter : ∀ b serSize, second.size b serSize = (if resets then 0 else serSize) + second.getSerializeSize b) :
    Measured (Stream.pair codec second) fun t =>
      counted t.1 ∧ countedSecond t.2 ∧ (resets → (codec.save t.1).length = 0) := by
  intro t
  obtain ⟨shorter, right⟩ := first t.1
  obtain ⟨shorterSecond, rightSecond⟩ := measured t.2
  have both : (Stream.pair codec second).getSerializeSize t =
      (if resets then 0 else codec.getSerializeSize t.1) + second.getSerializeSize t.2 := counter _ _
  have saved : ((Stream.pair codec second).save t).length = (codec.save t.1).length + (second.save t.2).length :=
    length_append
  beta_reduce
  rw [both, saved, ← right, ← rightSecond]
  cases resets with
  | false =>
    simp only [Bool.false_eq_true, if_false, false_imp_iff, and_true]
    omega
  | true =>
    simp only [if_true, true_imp_iff]
    omega

section Elements
variable {element : Option Nat} (measured : Measured codec counted) (fixed : Fundamental element codec)
  (plain : ∀ size, element = some size → ∀ a, counted a)
include measured fixed plain

theorem Measured.elements (values : List α) :
    element.elim (sizeEach codec values) (· * values.length) ≤ (values.flatMap codec.save).length ∧
      (element.elim (sizeEach codec values) (· * values.length) = (values.flatMap codec.save).length ↔
        ∀ a ∈ values, counted a) := by
  cases element with
  | none => exact measured.each values
  | some size =>
    have block := length_flatMap_save (fixed size rfl) values
    exact ⟨block.ge, iff_of_true block.symm fun a _ => plain _ rfl a⟩

theorem Measured.vector : Measured (Stream.vector element codec) fun t => ∀ a ∈ t.val, counted a := by
  intro t
  have front := length_writeVarInt t.length_lt
  have saved : ((Stream.vector element codec).save t).length =
      varIntSize t.val.length + (t.val.flatMap codec.save).length := by
    rw [← front]
    exact length_append
  have size : (Stream.vector element codec).getSerializeSize t =
      0 + varIntSize t.val.length + element.elim (sizeEach codec t.val) (· * t.val.length) := by
    cases element <;> rfl
  obtain ⟨shorter, right⟩ := measured.elements fixed plain t.val
  beta_reduce
  rw [saved, size, ← right]
  omega

theorem Measured.array (length : Nat) : Measured (Stream.array length element codec) fun t => ∀ a ∈ t.val, counted a := by
  intro t
  have size : (Stream.array length element codec).getSerializeSize t =
      0 + element.elim (sizeEach codec t.val) (· * t.val.length) := by
    rw [t.property]
    cases element <;> rfl
  have all := measured.elements fixed plain t.val
  rwa [← Nat.zero_add (element.elim _ _), ← size] at all

end Elements

theorem Measured.tree {κ β : Type} {cmp : Comparator κ} {entry : Codec (κ × β)} {counted : κ × β → Prop}
    (measured : Measured entry counted) :
    Measured (Stream.tree entry : Codec (Tree κ β cmp)) fun t => ∀ e ∈ t.val.entries, counted e := by
  intro t
  have front := length_writeVarInt (Nat.lt_of_le_of_lt t.property (by decide) : t.val.entries.length < 2 ^ 64)
  have saved : ((Stream.tree entry).save t).length =
      varIntSize t.val.entries.length + (t.val.entries.flatMap entry.save).length := by
    rw [← front]
    exact length_append
  have size : (Stream.tree entry).getSerializeSize t =
      0 + varIntSize t.val.entries.length + sizeEach entry t.val.entries := rfl
  obtain ⟨shorter, right⟩ := measured.each t.val.entries
  beta_reduce
  rw [saved, size, ← right]
  omega

end Each

namespace Shape
variable (base : TxBase) (blockProve : Codec BlockProve)

variable {element : Option Nat}

theorem size_nodeCodec {α : Type} (shape : Shape NodeClass element α) (value : α) (serSize : Nat) :
    (shape.nodeCodec base blockProve).size value serSize =
      (if shape.resets then 0 else serSize) + (shape.nodeCodec base blockProve).getSerializeSize value := by
  induction shape generalizing serSize with
  | pair first second ihFirst ihSecond =>
    have counters : ∀ start, ((pair first second).nodeCodec base blockProve).size value start =
        (if second.resets then 0 else (if first.resets then 0 else start) +
          (first.nodeCodec base blockProve).getSerializeSize value.1) +
          (second.nodeCodec base blockProve).getSerializeSize value.2 := by
      intro start
      rw [← ihFirst value.1 start]
      exact ihSecond value.2 _
    rw [getSerializeSize, counters serSize, counters 0, resets]
    cases first.resets <;> cases second.resets <;> simp [Nat.add_assoc]
  | object o =>
    have plain := NodeClass.size_codec base blockProve o value
    rw [getSerializeSize]
    show ((o.codec base blockProve).size value serSize) = _ + (o.codec base blockProve).size value 0
    rw [plain serSize, plain 0, resets, ite_self, Nat.zero_add]
  | int width => simp [nodeCodec, codec, fixedInt, resets, getSerializeSize]
  | varInt => simp [nodeCodec, codec, Stream.varInt, resets, getSerializeSize]
  | string => simp [nodeCodec, codec, Stream.string, resets, getSerializeSize, Nat.add_assoc]
  | vector shape => simp [nodeCodec, codec, Stream.vector, resets, getSerializeSize, Nat.add_assoc]
  | array length shape => simp [nodeCodec, codec, Stream.array, resets, getSerializeSize]
  | set cmp key => simp [nodeCodec, codec, Stream.set, Stream.tree, resets, getSerializeSize, Nat.add_assoc]
  | map cmp key value => simp [nodeCodec, codec, Stream.map, Stream.tree, resets, getSerializeSize, Nat.add_assoc]

theorem counted_of_fundamental {size : Nat} {α : Type} (shape : Shape NodeClass element α)
    (isFundamental : element = some size) (value : α) : shape.Counted base blockProve value := by
  cases shape with
  | int width => trivial
  | _ => cases isFundamental

theorem measured {α : Type} (shape : Shape NodeClass element α) :
    Measured (shape.nodeCodec base blockProve) (shape.Counted base blockProve) := by
  induction shape with
  | int width =>
    apply Measured.of_eq
    intro value
    simp [nodeCodec, codec, fixedInt, getSerializeSize]
  | varInt =>
    apply Measured.of_eq
    intro value
    simp [nodeCodec, codec, Stream.varInt, getSerializeSize, length_writeVarInt value.isLt]
  | string =>
    apply Measured.of_eq
    intro value
    simp [nodeCodec, codec, Stream.string, getSerializeSize, length_writeVarInt value.length_lt]
  | vector shape ih => exact ih.vector (fundamental _ shape) fun _ => shape.counted_of_fundamental base blockProve
  | array length shape ih =>
    exact ih.array (fundamental _ shape) (fun _ => shape.counted_of_fundamental base blockProve) length
  | pair first second ihFirst ihSecond => exact ihFirst.pair ihSecond (second.size_nodeCodec base blockProve)
  | set cmp key ih =>
    have none : ∀ b serSize, nothing.size b serSize = (if false then 0 else serSize) + nothing.getSerializeSize b :=
      fun _ _ => rfl
    have entry : Measured (Stream.pair (key.nodeCodec base blockProve) nothing) fun e =>
        key.Counted base blockProve e.1 := by
      intro e
      simpa using ih.pair (.of_eq fun _ => rfl) none e
    exact entry.tree
  | map cmp key value ihKey ihValue => exact (ihKey.pair ihValue (value.size_nodeCodec base blockProve)).tree
  | object o =>
    apply Measured.of_eq
    intro value
    show (o.codec base blockProve).size value 0 = _
    rw [NodeClass.size_codec base blockProve o value 0, ite_self, Nat.zero_add]
    rfl

end Shape

/-- `GetSerializeSize` of a value predicts the bytes that are saved if and only if nothing is saved in a pair before a
component whose size pass assigns the counter. -/
theorem serialize_size_exact_iff (base : TxBase) (blockProve : Codec BlockProve) {element : Option Nat} {α : Type}
    (shape : Shape NodeClass element α) (value : α) :
    (shape.nodeCodec base blockProve).getSerializeSize value = ((shape.nodeCodec base blockProve).save value).length ↔
      shape.Counted base blockProve value := (shape.measured base blockProve value).2

namespace Sample

def blockProve : Codec BlockProve := ⟨fun _ => [], Loader.throw, fun _ serSize => serSize⟩

/-- `std::pair<uint32, CTransaction>` -/
def numbered : Shape NodeClass none (BitVec (8 * Width.int32.size) × Transaction) :=
  .pair (.int .int32) (.object .transaction)

/-- The number in front of the transaction is not counted. -/
theorem numbered_size_too_small :
    (numbered.nodeCodec base blockProve).getSerializeSize (7, token) = 27 ∧
      ((numbered.nodeCodec base blockProve).save (7, token)).length = 31 := by
  decide +kernel

end Sample

end HashAhead.Stream

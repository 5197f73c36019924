import HashAhead.Chain.BlockHash
import HashAhead.Foundation.Codec
import Mathlib.Data.List.TakeWhile

/-! The scalars of `CStream`: integers of a fixed width as they lie in memory, `CVarInt`, and `std::string`. -/

namespace HashAhead.Stream
open Foundation Trie Chain List Option Loader

/-- The widths of the fundamental types. Only `long double` has the largest. -/
inductive Width where
  | int8
  | int16
  | int32
  | int64
  | wide
deriving DecidableEq, Repr

/-- `sizeof` -/
def Width.size : Width → Nat
  | int8 => 1
  | int16 => 2
  | int32 => 4
  | int64 => 8
  | wide => 16

def fixedInt (width : Width) : Codec (BitVec (8 * width.size)) where
  save value := littleEndian width.size value.toNat
  load := do
    let bytes ← Loader.read width.size
    pure (BitVec.ofNat _ (ofLittleEndian bytes))
  size _ serSize := serSize + width.size

theorem fixedInt_sound (width : Width) : (fixedInt width).Sound where
  load_save value rest := by
    have fits : value.toNat < 256 ^ width.size := by
      rw [show 256 = 2 ^ 8 from rfl, ← pow_mul]
      exact value.isLt
    simp only [fixedInt, result_bind, result_read, takeBytes_append (length_littleEndian _ _),
      bind_some, result_pure, ofLittleEndian_littleEndian _ _ fits, BitVec.ofNat_toNat, BitVec.setWidth_eq]
  stable := (stable_read _).bind fun _ => stable_pure _

theorem takeBytes_eq_some {size : Nat} {stream front rest : Bytes} (taken : takeBytes size stream = some (front, rest)) :
    stream = front ++ rest ∧ front.length = size := by
  rw [takeBytes] at taken
  split at taken
  · cases taken
  · rename_i enough
    obtain ⟨rfl, rfl⟩ := Prod.mk.inj (Option.some.inj taken)
    exact ⟨(take_append_drop size stream).symm, length_take_of_le (Nat.le_of_not_lt enough)⟩

theorem fixedInt_tight (width : Width) : (fixedInt width).Tight := by
  intro stream value rest loaded
  simp only [fixedInt, result_bind, result_read, bind_eq_some_iff, result_pure] at loaded
  obtain ⟨⟨front, left⟩, taken, made⟩ := loaded
  obtain ⟨rfl, rfl⟩ := Prod.mk.inj (Option.some.inj made)
  obtain ⟨rfl, length⟩ := takeBytes_eq_some taken
  have fits : ofLittleEndian front < 2 ^ (8 * width.size) := by
    have small := ofLittleEndian_lt front
    rwa [length, show 256 = 2 ^ 8 from rfl, ← pow_mul] at small
  have back := littleEndian_ofLittleEndian front
  rw [length] at back
  show front ++ left = littleEndian width.size (BitVec.ofNat _ (ofLittleEndian front)).toNat ++ left
  rw [BitVec.toNat_ofNat, Nat.mod_eq_of_lt fits, back]

section VarInt

/-- `CVarInt::BytesRequired` of a number of at most so many bytes. -/
def bytesRequired : Nat → Nat → Nat
  | 0, _ => 0
  | most + 1, nValue => if nValue = 0 then 0 else bytesRequired most (nValue / 256) + 1

theorem length_trimBig {size word : Nat} (fits : word < 256 ^ size) : (trimBig size word).length = bytesRequired size word := by
  induction size generalizing word with
  | zero => rfl
  | succ size ih =>
    have rest : word / 256 < 256 ^ size := by
      rw [pow_succ] at fits
      exact Nat.div_lt_of_lt_mul (by omega)
    rw [bytesRequired, ← ih rest, trimBig, littleEndian, reverse_cons, dropWhile_append]
    by_cases high : word / 256 = 0
    · have small : word < 256 := by omega
      have nothing : trimBig size (word / 256) = [] := by
        apply dropWhile_eq_nil_iff.2
        intro byte mem
        have zeros := (ofLittleEndian_eq_zero_iff (littleEndian size (word / 256))).1
          (by rw [ofLittleEndian_littleEndian _ _ rest, high])
        simpa using zeros byte (mem_reverse.1 mem)
      have zero : UInt8.ofNat word = 0 ↔ word = 0 := by
        rw [← UInt8.toNat_inj, UInt8.toNat_ofNat', Nat.mod_eq_of_lt small]
        rfl
      rw [← trimBig, nothing]
      by_cases isZero : word = 0
      · simp [isZero]
      · simp [isZero, mt zero.1 isZero, List.dropWhile]
    · have something := trimBig_ne_nil rest high
      rw [← trimBig, if_neg (by simpa using something), if_neg (by omega), length_append, length_singleton]

theorem bytesRequired_le (most nValue : Nat) : bytesRequired most nValue ≤ most := by
  induction most generalizing nValue with
  | zero => exact Nat.le_refl 0
  | succ most ih =>
    rw [bytesRequired]
    split
    · exact Nat.zero_le _
    · exact Nat.succ_le_succ (ih _)

/-- The size pass of `CVarInt` -/
def varIntSize (nValue : Nat) : Nat := if nValue < nDataImmLenStart then 1 else 1 + bytesRequired 8 nValue

theorem length_writeVarInt {nValue : Nat} (fits : nValue < 2 ^ 64) : (writeVarInt nValue).length = varIntSize nValue := by
  unfold writeVarInt varIntSize
  by_cases zero : nValue = 0
  · rw [if_pos zero, if_pos (by rw [zero]; decide)]
    rfl
  · rw [if_neg zero]
    split
    · rfl
    · rw [length_cons, ← trimBig, length_trimBig (lt_of_lt_of_eq fits (by decide)), Nat.add_comm]

theorem readVarInt_writeVarInt {nValue : Nat} (fits : nValue < 2 ^ 64) (rest : Bytes) :
    readVarInt (writeVarInt nValue ++ rest) = some (nValue, rest) := by
  have byte : ∀ n, n < 256 → (UInt8.ofNat n).toNat = n := fun n small => by
    rw [UInt8.toNat_ofNat', Nat.mod_eq_of_lt small]
  unfold writeVarInt
  by_cases zero : nValue = 0
  · rw [if_pos zero, singleton_append, readVarInt, byte _ (by decide), if_pos rfl, zero]
  · rw [if_neg zero]
    by_cases small : nValue < nDataImmLenStart
    · have below : nValue < 0xF7 := small
      rw [if_pos small, singleton_append, readVarInt, byte _ (by omega), if_neg (Nat.ne_of_lt small), if_pos small]
    · have wide : nValue < 256 ^ 8 := lt_of_lt_of_eq fits (by decide)
      have lower : 0 < (trimBig 8 nValue).length := length_pos_iff.2 (trimBig_ne_nil wide zero)
      have upper := length_trimBig_le 8 nValue
      have start : nDataImmLenStart = 0xF7 := rfl
      rw [if_neg small]
      dsimp only
      rw [← trimBig, cons_append, readVarInt, byte _ (by omega), if_neg (by omega), if_neg (by omega)]
      dsimp only
      rw [Nat.add_sub_cancel_left, if_neg (by rw [length_append]; omega), take_left, drop_left,
        ofLittleEndian_trimBig wide]

theorem readVarInt_stable : (ofReader readVarInt).Stable := by
  intro stream n rest more loaded
  rw [result_ofReader] at loaded ⊢
  cases stream with
  | nil => cases loaded
  | cons first stream =>
    rw [readVarInt] at loaded
    rw [cons_append, readVarInt]
    split at loaded
    · cases loaded
      rw [if_pos (by assumption)]
    · rw [if_neg (by assumption)]
      split at loaded
      · cases loaded
        rw [if_pos (by assumption)]
      · rw [if_neg (by assumption)]
        dsimp only at loaded ⊢
        split at loaded
        · exact absurd loaded (by simp)
        · rename_i enough
          obtain ⟨rfl, rfl⟩ := Prod.mk.inj (Option.some.inj loaded)
          have room := Nat.le_of_not_lt enough
          rw [if_neg (by rw [length_append]; omega), take_append_of_le_length room,
            drop_append_of_le_length room]

def varInt : Codec (BitVec 64) where
  save value := writeVarInt value.toNat
  load := BitVec.ofNat 64 <$> Loader.ofReader readVarInt
  size value serSize := serSize + varIntSize value.toNat

theorem varInt_sound : varInt.Sound where
  load_save value rest := by
    rw [varInt, result_map, result_ofReader, readVarInt_writeVarInt value.isLt, map_some,
      BitVec.ofNat_toNat, BitVec.setWidth_eq]
  stable := readVarInt_stable.map _

end VarInt

section Memory

/-- `PTRDIFF_MAX`, the largest size of an object in memory. -/
def ptrdiffMax : Nat := 2 ^ 63 - 1

/-- `max_size` of a vector whose elements are fundamental of a size, or objects. -/
def maxSize : Option Nat → Nat
  | some size => ptrdiffMax / size
  | none => ptrdiffMax

theorem maxSize_le (element : Option Nat) : maxSize element ≤ ptrdiffMax := by
  cases element with
  | none => exact Nat.le_refl _
  | some size => exact Nat.div_le_self _ _

abbrev Vec (element : Option Nat) (α : Type) := {values : List α // values.length ≤ maxSize element}

variable {element : Option Nat} {α : Type}

theorem Vec.length_lt (values : Vec element α) : values.val.length < 2 ^ 64 := by
  refine Nat.lt_of_le_of_lt (Nat.le_trans values.property (maxSize_le element)) ?_
  decide

/-- `resize` of a container of fundamental elements. It throws `std::length_error` above `max_size`. -/
def resize (size count : Nat) : Loader Unit :=
  if maxSize (some size) < count then .throw else Loader.request (size * count)

theorem result_resize {size count : Nat} (fits : count ≤ maxSize (some size)) (stream : Bytes) :
    (resize size count).result stream = some ((), stream) := by
  rw [resize, if_neg (Nat.not_lt.2 fits), result_request]

theorem stable_resize (size count : Nat) : (resize size count).Stable := by
  unfold resize
  split
  · exact stable_throw
  · exact stable_request _

/-- `std::string`. The storage is asked for before the bytes are there. -/
def string : Codec (Vec (some 1) UInt8) where
  save t := writeVarInt t.val.length ++ t.val
  load := do
    let count ← Loader.ofReader readVarInt
    resize 1 count
    let t ← Loader.read count
    Loader.within _ t
  size t serSize := serSize + varIntSize t.val.length + t.val.length

theorem string_sound : string.Sound where
  load_save t rest := by
    simp only [string, append_assoc, result_bind, result_ofReader,
      readVarInt_writeVarInt t.length_lt, bind_some, result_resize t.property, result_read,
      takeBytes_append rfl, result_within]
  stable := readVarInt_stable.bind fun count => (stable_resize 1 count).bind fun _ =>
    (stable_read count).bind fun t => stable_within _ t

end Memory

end HashAhead.Stream

import HashAhead.Foundation.SlotTable
import HashAhead.Trie.Nibble

/-! Trie nodes and their hashes. A hash is a value of an arbitrary type with a zero,
because no function into 256 bits is injective on all nodes; the two idealizations
the trie relies on are stated once in `Collisionless` and in `NonzeroHash`. -/

namespace HashAhead.Trie
open Foundation SlotTable

/-- `CTrieBranch`: sixteen next links and sixteen value links, each kept as an index
byte into a table that only grows. -/
structure TrieBranch (Hash : Type) where
  keyIndexNext : List UInt8
  keyIndexValue : List UInt8
  branchNext : List Hash
  branchValue : List Hash
  deriving DecidableEq, Repr

/-- `CTrieExtension`. The low half of the flag says whether the packed key has an odd
number of nibbles, the high half which of the two links comes first. -/
structure TrieExtension (Hash : Type) where
  flag : UInt8
  key : Bytes
  link : List Hash
  deriving DecidableEq, Repr

/-- `CTrieValue`, with the three values that its `type` byte can take. -/
inductive TrieValue (Hash : Type) where
  | branch (vaBranch : TrieBranch Hash)
  | extension (vaExtension : TrieExtension Hash)
  | value (vaValue : Bytes)
  deriving DecidableEq, Repr

section Branch
variable {Hash : Type}

namespace TrieBranch

def new : TrieBranch Hash := ⟨List.replicate 16 0, List.replicate 16 0, [], []⟩

def nextSlots (b : TrieBranch Hash) : SlotTable Hash := ⟨b.keyIndexNext, b.branchNext⟩

def valueSlots (b : TrieBranch Hash) : SlotTable Hash := ⟨b.keyIndexValue, b.branchValue⟩

variable [Zero Hash]

def getNextHash (b : TrieBranch Hash) (n : UInt8) : Hash :=
  if 16 ≤ n then 0 else b.nextSlots.get n.toNat

def getValueHash (b : TrieBranch Hash) (n : UInt8) : Hash :=
  if 16 ≤ n then 0 else b.valueSlots.get n.toNat

variable [DecidableEq Hash]

def setNextHash (b : TrieBranch Hash) (n : UInt8) (hash : Hash) : TrieBranch Hash :=
  if 16 ≤ n then b
  else { b with
    keyIndexNext := (b.nextSlots.set n.toNat hash).index
    branchNext := (b.nextSlots.set n.toNat hash).table }

def setValueHash (b : TrieBranch Hash) (n : UInt8) (hash : Hash) : TrieBranch Hash :=
  if 16 ≤ n then b
  else { b with
    keyIndexValue := (b.valueSlots.set n.toNat hash).index
    branchValue := (b.valueSlots.set n.toNat hash).table }

end TrieBranch
end Branch

section Extension
variable {Hash : Type}

namespace TrieExtension

def new : TrieExtension Hash := ⟨0, [], []⟩

def setKey (e : TrieExtension Hash) (vKeyNibble : Bytes) : TrieExtension Hash :=
  { e with key := (nibble2Byte vKeyNibble).1, flag := (e.flag &&& 0xF0) ||| (nibble2Byte vKeyNibble).2 }

def getKey (e : TrieExtension Hash) : Bytes := byte2Nibble e.key (e.flag &&& 0x0F)

def setNextHash (e : TrieExtension Hash) (hash : Hash) : TrieExtension Hash :=
  if e.flag >>> 4 = 0 then
    match e.link with
    | [] => { e with link := [hash] }
    | _ :: rest => { e with link := hash :: rest }
  else
    match e.link with
    | [] => { e with flag := e.flag &&& 0x0F, link := [hash] }
    | [first] => { e with link := [first, hash] }
    | first :: _ :: rest => { e with link := first :: hash :: rest }

def setValueHash (e : TrieExtension Hash) (hash : Hash) : TrieExtension Hash :=
  if e.flag >>> 4 = 0 then
    match e.link with
    | [] => { e with flag := (e.flag &&& 0x0F) ||| 0x10, link := [hash] }
    | [first] => { e with link := [first, hash] }
    | first :: _ :: rest => { e with link := first :: hash :: rest }
  else
    match e.link with
    | [] => { e with link := [hash] }
    | _ :: rest => { e with link := hash :: rest }

variable [Zero Hash]

def getNextHash (e : TrieExtension Hash) : Hash :=
  if e.flag >>> 4 = 0 then e.link.getD 0 0 else e.link.getD 1 0

def getValueHash (e : TrieExtension Hash) : Hash :=
  if e.flag >>> 4 = 0 then e.link.getD 1 0 else e.link.getD 0 0

end TrieExtension
end Extension

section Hashing
variable {Hash : Type} [DecidableEq Hash] [Zero Hash]

/-- The `fHasValue` test of `CTrieValue::CalcHash`: a node without content has no hash. -/
def TrieValue.hasValue : TrieValue Hash → Bool
  | .branch b => (List.range 16).any fun i =>
      decide (b.getNextHash (UInt8.ofNat i) ≠ 0) || decide (b.getValueHash (UInt8.ofNat i) ≠ 0)
  | .extension e => decide (e.getNextHash ≠ 0) || decide (e.getValueHash ≠ 0)
  | .value v => decide (v ≠ [])

/-- `CTrieValue::CalcHash`. The parameter stands for `CryptoHash` of the serialized node. -/
def TrieValue.calcHash (cryptoHash : TrieValue Hash → Hash) (node : TrieValue Hash) : Hash :=
  if node.hasValue then cryptoHash node else 0

end Hashing

def Collisionless {Hash : Type} (cryptoHash : TrieValue Hash → Hash) : Prop :=
  Function.Injective cryptoHash

def NonzeroHash {Hash : Type} [Zero Hash] (cryptoHash : TrieValue Hash → Hash) : Prop :=
  ∀ node, cryptoHash node ≠ 0

namespace TrieBranch
variable {Hash : Type}

/-- Both index arrays have their sixteen bytes and neither table is aliased. -/
structure Sound (b : TrieBranch Hash) : Prop where
  nextWidth : b.keyIndexNext.length = 16
  valueWidth : b.keyIndexValue.length = 16
  next : b.nextSlots.Sound
  value : b.valueSlots.Sound

def Roomy (b : TrieBranch Hash) : Prop := b.branchNext.length ≤ 255 ∧ b.branchValue.length ≤ 255

def Tight (b : TrieBranch Hash) : Prop := b.nextSlots.Tight ∧ b.valueSlots.Tight

theorem sound_new : Sound (new : TrieBranch Hash) :=
  ⟨by simp [new], by simp [new], sound_empty 16, sound_empty 16⟩

theorem tight_new : Tight (new : TrieBranch Hash) :=
  ⟨tight_empty 16, tight_empty 16⟩

theorem roomy_of_tight (b : TrieBranch Hash) (sound : Sound b) (tight : Tight b) : Roomy b := by
  have next := tight_length tight.1
  have value := tight_length tight.2
  simp only [nextSlots, sound.nextWidth] at next
  simp only [valueSlots, sound.valueWidth] at value
  exact ⟨by omega, by omega⟩

/-- The branch with its value links as next links. What holds of next links holds of value links by it. -/
def swap (b : TrieBranch Hash) : TrieBranch Hash := ⟨b.keyIndexValue, b.keyIndexNext, b.branchValue, b.branchNext⟩

theorem Sound.swap {b : TrieBranch Hash} (sound : Sound b) : Sound b.swap :=
  ⟨sound.valueWidth, sound.nextWidth, sound.value, sound.next⟩

variable [Zero Hash]

@[simp] theorem getNextHash_new (n : UInt8) : getNextHash (new : TrieBranch Hash) n = 0 := by
  unfold getNextHash
  split_ifs
  · rfl
  · exact get_empty 16 n.toNat

@[simp] theorem getValueHash_new (n : UInt8) : getValueHash (new : TrieBranch Hash) n = 0 :=
  getNextHash_new n

variable [DecidableEq Hash]

section
variable (b : TrieBranch Hash) (n : UInt8)
include b n

variable (hash : Hash)

theorem swap_setNextHash : (b.swap.setNextHash n hash).swap = b.setValueHash n hash := by
  unfold setNextHash setValueHash; split_ifs <;> rfl

@[simp] theorem branchValue_setNextHash : (b.setNextHash n hash).branchValue = b.branchValue := by
  unfold setNextHash; split_ifs <;> rfl

@[simp] theorem valueSlots_setNextHash : (b.setNextHash n hash).valueSlots = b.valueSlots := by
  unfold setNextHash; split_ifs <;> rfl

@[simp] theorem nextSlots_setValueHash : (b.setValueHash n hash).nextSlots = b.nextSlots := by
  unfold setValueHash; split_ifs <;> rfl

theorem nextSlots_setNextHash (small : n < 16) :
    (b.setNextHash n hash).nextSlots = b.nextSlots.set n.toNat hash := by
  simp [setNextHash, nextSlots, UInt8.not_le.mpr small]

@[simp] theorem getValueHash_setNextHash (m : UInt8) (hash : Hash) :
    (b.setNextHash n hash).getValueHash m = b.getValueHash m := by
  simp [getValueHash]

@[simp] theorem getNextHash_setValueHash (m : UInt8) (hash : Hash) :
    (b.setValueHash n hash).getNextHash m = b.getNextHash m := by
  simp [getNextHash]

end

private theorem toNat_lt (n : UInt8) (small : n < 16) : n.toNat < 16 := by
  simpa using UInt8.lt_iff_toNat_lt.mp small

section
variable (b : TrieBranch Hash) (sound : Sound b)
include b sound

theorem sound_setNextHash {n : UInt8} {hash : Hash}
    (small : n < 16) (room : Roomy (b.setNextHash n hash)) : Sound (b.setNextHash n hash) := by
  have slots := nextSlots_setNextHash b n hash small
  have inside : n.toNat < b.nextSlots.index.length := by
    simpa [nextSlots, sound.nextWidth] using toNat_lt n small
  refine ⟨?_, ?_, ?_, ?_⟩
  · have width := congrArg (fun t => t.index.length) slots
    simpa [nextSlots, sound.nextWidth] using width
  · have width := congrArg (fun t => t.index.length) (valueSlots_setNextHash b n hash)
    simpa [valueSlots, sound.valueWidth] using width
  · rw [slots]
    apply sound_set _ sound.next inside
    rw [← slots]
    exact room.1
  · rw [valueSlots_setNextHash]
    exact sound.value

theorem sound_setValueHash {n : UInt8} {hash : Hash}
    (small : n < 16) (room : Roomy (b.setValueHash n hash)) : Sound (b.setValueHash n hash) := by
  rw [← swap_setNextHash] at room ⊢
  exact (sound_setNextHash b.swap sound.swap small room.symm).swap

theorem getNextHash_setNextHash (n m : UInt8) (hash : Hash)
    (small : n < 16) (room : Roomy (b.setNextHash n hash)) :
    (b.setNextHash n hash).getNextHash m = if m = n then hash else b.getNextHash m := by
  have slots := nextSlots_setNextHash b n hash small
  have inside : n.toNat < b.nextSlots.index.length := by
    simpa [nextSlots, sound.nextWidth] using toNat_lt n small
  have fits : (b.nextSlots.set n.toNat hash).table.length ≤ 255 := by
    rw [← slots]
    exact room.1
  unfold getNextHash
  rw [slots, get_set _ sound.next _ _ _ inside fits]
  by_cases same : m = n
  · simp [same, UInt8.not_le.mpr small]
  · simp [same, UInt8.toNat_inj]

theorem getValueHash_setValueHash (n m : UInt8) (hash : Hash)
    (small : n < 16) (room : Roomy (b.setValueHash n hash)) :
    (b.setValueHash n hash).getValueHash m = if m = n then hash else b.getValueHash m := by
  rw [← swap_setNextHash] at room ⊢
  exact getNextHash_setNextHash b.swap sound.swap n m hash small room.symm

end

theorem Roomy.setNextHash {b : TrieBranch Hash} (room : Roomy b) (n : UInt8) (hash : Hash)
    (kept : hash = 0 ∨ b.getNextHash n ≠ 0) : Roomy (b.setNextHash n hash) := by
  refine ⟨?_, by simpa using room.2⟩
  unfold TrieBranch.setNextHash
  split_ifs with large
  · exact room.1
  · simp only [getNextHash, large, if_false] at kept
    exact (table_length_set_eq b.nextSlots n.toNat hash kept).le.trans room.1

theorem Roomy.setValueHash {b : TrieBranch Hash} (room : Roomy b) (n : UInt8) (hash : Hash)
    (kept : hash = 0 ∨ b.getValueHash n ≠ 0) : Roomy (b.setValueHash n hash) := by
  rw [← swap_setNextHash]
  exact (Roomy.setNextHash (b := b.swap) room.symm n hash kept).symm

def Short (b : TrieBranch Hash) (entries : Nat) : Prop :=
  Sound b ∧ b.branchNext.length ≤ entries ∧ b.branchValue.length ≤ entries

omit [Zero Hash] [DecidableEq Hash] in
theorem short_new : Short (new : TrieBranch Hash) 0 := ⟨sound_new, by simp [new], by simp [new]⟩

variable {entries : Nat}

omit [Zero Hash] [DecidableEq Hash] in
theorem Short.roomy {b : TrieBranch Hash} (short : Short b entries) (few : entries ≤ 255) :
    Roomy b := ⟨short.2.1.trans few, short.2.2.trans few⟩

theorem branchNext_length_set_le (b : TrieBranch Hash) (n : UInt8) (hash : Hash) :
    (b.setNextHash n hash).branchNext.length ≤ b.branchNext.length + 1 := by
  unfold setNextHash
  split_ifs
  · omega
  · exact table_length_set_le b.nextSlots n.toNat hash

theorem Short.setNextHash {b : TrieBranch Hash} (short : Short b entries) (few : entries < 255) (n : UInt8)
    (small : n < 16) (hash : Hash) :
    Short (b.setNextHash n hash) (entries + 1) := by
  obtain ⟨sound, next, value⟩ := short
  have grown := branchNext_length_set_le b n hash
  have same : (b.setNextHash n hash).branchValue.length = b.branchValue.length := by simp
  exact ⟨sound_setNextHash b sound small ⟨by omega, by omega⟩, by omega, by omega⟩

theorem Short.setValueHash {b : TrieBranch Hash} (short : Short b entries) (few : entries < 255) (n : UInt8)
    (small : n < 16) (hash : Hash) :
    Short (b.setValueHash n hash) (entries + 1) := by
  rw [← swap_setNextHash]
  obtain ⟨sound, lengths⟩ := Short.setNextHash (b := b.swap) ⟨short.1.swap, short.2.symm⟩ few n small hash
  exact ⟨sound.swap, lengths.symm⟩

theorem tight_setNextHash (b : TrieBranch Hash) (sound : Sound b) (tight : Tight b) {n : UInt8} {hash : Hash}
    (small : n < 16) (kept : hash ≠ 0 ∨ b.nextSlots.position n.toNat = 0) : Tight (b.setNextHash n hash) := by
  have inside : n.toNat < b.nextSlots.index.length := by
    simpa [nextSlots, sound.nextWidth] using toNat_lt n small
  have few := tight_length tight.1
  have grown := table_length_set_le b.nextSlots n.toNat hash
  simp only [nextSlots, sound.nextWidth] at few
  refine ⟨?_, by simpa using tight.2⟩
  rw [nextSlots_setNextHash b n hash small]
  exact tight_set _ sound.next tight.1 inside (by simp only [nextSlots] at grown ⊢; omega) kept

end TrieBranch

namespace TrieExtension
variable {Hash : Type}

variable (f : UInt8) (e : TrieExtension Hash) (vKeyNibble : Bytes) (hash : Hash)

private theorem low_of_value_first : ((f &&& 0x0F) ||| 0x10) &&& 0x0F = f &&& 0x0F :=
  forall_byte (P := fun f => ((f &&& 0x0F) ||| 0x10) &&& 0x0F = f &&& 0x0F) (by decide +kernel) f

private theorem low_of_low : f &&& 0x0F &&& 0x0F = f &&& 0x0F :=
  forall_byte (P := fun f => f &&& 0x0F &&& 0x0F = f &&& 0x0F) (by decide +kernel) f

private theorem high_of_low : (f &&& 0x0F) >>> 4 = 0 :=
  forall_byte (P := fun f => (f &&& 0x0F) >>> 4 = 0) (by decide +kernel) f

private theorem high_of_value_first : ((f &&& 0x0F) ||| 0x10) >>> 4 ≠ 0 :=
  forall_byte (P := fun f => ((f &&& 0x0F) ||| 0x10) >>> 4 ≠ 0) (by decide +kernel) f

private theorem low_of_key_flag (odd : UInt8) (bit : odd = 0 ∨ odd = 1) :
    ((f &&& 0xF0) ||| odd) &&& 0x0F = odd := by
  rcases bit with rfl | rfl
  · exact forall_byte (P := fun f => ((f &&& 0xF0) ||| 0) &&& 0x0F = 0) (by decide +kernel) f
  · exact forall_byte (P := fun f => ((f &&& 0xF0) ||| 1) &&& 0x0F = 1) (by decide +kernel) f

private theorem high_of_key_flag (odd : UInt8) (bit : odd = 0 ∨ odd = 1) :
    ((f &&& 0xF0) ||| odd) >>> 4 = f >>> 4 := by
  rcases bit with rfl | rfl
  · exact forall_byte (P := fun f => ((f &&& 0xF0) ||| 0) >>> 4 = f >>> 4) (by decide +kernel) f
  · exact forall_byte (P := fun f => ((f &&& 0xF0) ||| 1) >>> 4 = f >>> 4) (by decide +kernel) f

theorem nibbles_getKey : Nibbles e.getKey := nibbles_byte2Nibble _ _

theorem getKey_setKey (small : Nibbles vKeyNibble) :
    (e.setKey vKeyNibble).getKey = vKeyNibble := by
  simp only [getKey, setKey, low_of_key_flag e.flag _ (nibble2Byte_flag vKeyNibble)]
  exact byte2Nibble_nibble2Byte small

@[simp] theorem getKey_setNextHash :
    (e.setNextHash hash).getKey = e.getKey := by
  unfold setNextHash getKey
  split_ifs
  · split <;> rfl
  · split
    · simp only [low_of_low]
    · rfl
    · rfl

@[simp] theorem getKey_setValueHash :
    (e.setValueHash hash).getKey = e.getKey := by
  unfold setValueHash getKey
  split_ifs
  · split
    · simp only [low_of_value_first]
    · rfl
    · rfl
  · split <;> rfl

variable [Zero Hash]

omit [Zero Hash] in
@[simp] theorem setNextHash_setNextHash (first second : Hash) :
    (e.setNextHash first).setNextHash second = e.setNextHash second := by
  rcases e with ⟨flag, key, link⟩
  by_cases order : flag >>> 4 = 0
  · rcases link with _ | ⟨a, rest⟩ <;> simp [setNextHash, order]
  · rcases link with _ | ⟨a, _ | ⟨b, rest⟩⟩ <;> simp [setNextHash, order, high_of_low]

@[simp] theorem getNextHash_setKey :
    (e.setKey vKeyNibble).getNextHash = e.getNextHash := by
  simp only [getNextHash, setKey, high_of_key_flag e.flag _ (nibble2Byte_flag vKeyNibble)]

@[simp] theorem getValueHash_setKey :
    (e.setKey vKeyNibble).getValueHash = e.getValueHash := by
  simp only [getValueHash, setKey, high_of_key_flag e.flag _ (nibble2Byte_flag vKeyNibble)]

@[simp] theorem getNextHash_new : (new : TrieExtension Hash).getNextHash = 0 := by
  simp [getNextHash, new]

@[simp] theorem getValueHash_new : (new : TrieExtension Hash).getValueHash = 0 := by
  simp [getValueHash, new]

@[simp] theorem getNextHash_setNextHash :
    (e.setNextHash hash).getNextHash = hash := by
  rcases e with ⟨flag, key, link⟩
  by_cases order : flag >>> 4 = 0
  · rcases link with _ | ⟨a, rest⟩ <;> simp [setNextHash, getNextHash, order]
  · rcases link with _ | ⟨a, _ | ⟨b, rest⟩⟩ <;> simp [setNextHash, getNextHash, order, high_of_low]

@[simp] theorem getValueHash_setNextHash :
    (e.setNextHash hash).getValueHash = e.getValueHash := by
  rcases e with ⟨flag, key, link⟩
  by_cases order : flag >>> 4 = 0
  · rcases link with _ | ⟨a, rest⟩ <;> simp [setNextHash, getValueHash, order]
  · rcases link with _ | ⟨a, _ | ⟨b, rest⟩⟩ <;> simp [setNextHash, getValueHash, order, high_of_low]

@[simp] theorem getValueHash_setValueHash :
    (e.setValueHash hash).getValueHash = hash := by
  rcases e with ⟨flag, key, link⟩
  by_cases order : flag >>> 4 = 0
  · rcases link with _ | ⟨a, _ | ⟨b, rest⟩⟩ <;>
      simp [setValueHash, getValueHash, order, high_of_value_first]
  · rcases link with _ | ⟨a, rest⟩ <;> simp [setValueHash, getValueHash, order]

@[simp] theorem getNextHash_setValueHash :
    (e.setValueHash hash).getNextHash = e.getNextHash := by
  rcases e with ⟨flag, key, link⟩
  by_cases order : flag >>> 4 = 0
  · rcases link with _ | ⟨a, _ | ⟨b, rest⟩⟩ <;>
      simp [setValueHash, getNextHash, order, high_of_value_first]
  · rcases link with _ | ⟨a, rest⟩ <;> simp [setValueHash, getNextHash, order]

end TrieExtension

section Content
variable {Hash : Type} [DecidableEq Hash] [Zero Hash]

theorem hasValue_branch (b : TrieBranch Hash) :
    (TrieValue.branch b).hasValue = true ↔ ∃ n, b.getNextHash n ≠ 0 ∨ b.getValueHash n ≠ 0 := by
  simp only [TrieValue.hasValue, List.any_eq_true, List.mem_range, Bool.or_eq_true, decide_eq_true_eq]
  constructor
  · rintro ⟨i, _, present⟩
    exact ⟨_, present⟩
  · rintro ⟨n, present⟩
    -- a slot with content lies among the sixteen that the loop inspects
    have small : ¬16 ≤ n := by
      intro large
      simp [TrieBranch.getNextHash, TrieBranch.getValueHash, large] at present
    refine ⟨n.toNat, ?_, by simpa using present⟩
    simpa using UInt8.lt_iff_toNat_lt.mp (UInt8.not_le.mp small)

theorem hasValue_extension (e : TrieExtension Hash) :
    (TrieValue.extension e).hasValue = true ↔ e.getNextHash ≠ 0 ∨ e.getValueHash ≠ 0 := by
  simp [TrieValue.hasValue]

variable (cryptoHash : TrieValue Hash → Hash)

theorem calcHash_eq {node : TrieValue Hash} (nonzero : node.calcHash cryptoHash ≠ 0) :
    node.calcHash cryptoHash = cryptoHash node := by
  unfold TrieValue.calcHash at nonzero ⊢
  split_ifs at nonzero ⊢
  · rfl
  · exact absurd rfl nonzero

theorem calcHash_ne_zero (nonzero : NonzeroHash cryptoHash) (node : TrieValue Hash)
    (content : node.hasValue = true) : node.calcHash cryptoHash ≠ 0 := by
  rw [TrieValue.calcHash, if_pos content]
  exact nonzero node

end Content
end HashAhead.Trie

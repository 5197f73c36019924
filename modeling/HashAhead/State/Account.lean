import Mathlib.Data.UInt
import HashAhead.Foundation.ByteWord
import HashAhead.Foundation.SortedMap
import HashAhead.Trie.Nibble

/-! Addresses, account states and the records kept for contracts. Amounts are 256-bit words
and wrap around, as the words of the source do. -/

namespace HashAhead.State
open Foundation Trie

abbrev UInt256 := BitVec 256

/-- `CDestination`, a 160-bit address. -/
abbrev Destination := BitVec 160

instance : Fintype Destination :=
  Fintype.ofEquiv (Fin (2 ^ 160)) ⟨BitVec.ofFin, BitVec.toFin, fun _ => rfl, fun _ => rfl⟩

instance : LawfulBEq UInt256 := inferInstance

theorem word_injective : Function.Injective (BitVec.toNat : UInt256 → ℕ) := BitVec.toNat_injective

theorem toNat_foldl_add {α : Type} (amount : α → UInt256) (xs : List α) (start : UInt256)
    (lt : start.toNat + (xs.map fun x => (amount x).toNat).sum < 2 ^ 256) :
    (xs.foldl (fun total x => total + amount x) start).toNat = start.toNat + (xs.map fun x => (amount x).toNat).sum := by
  induction xs generalizing start with
  | nil => simp
  | cons x xs ih =>
    rw [List.map_cons, List.sum_cons] at lt ⊢
    have step : (start + amount x).toNat = start.toNat + (amount x).toNat := by
      rw [BitVec.toNat_add, Nat.mod_eq_of_lt]
      omega
    rw [List.foldl_cons, ih _ (by omega), step, Nat.add_assoc]

theorem uint64_injective : Function.Injective UInt64.toNat := fun _ _ => UInt64.toNat_inj.1

theorem uint8_injective : Function.Injective UInt8.toNat := fun _ _ => UInt8.toNat_inj.1

def destOrder : Comparator Destination := .ofKey BitVec.toNat BitVec.toNat_injective

/-- `CDestination::ToHash`. The address fills the upper twenty bytes. -/
def toHash (dest : Destination) : UInt256 := dest.setWidth 256 <<< 96

def destTypePubkey : UInt8 := 0x01
def destTypeTemplate : UInt8 := 0x02
def destTypeContract : UInt8 := 0x03

def templateVote : UInt8 := 4
def templatePledge : UInt8 := 5

def functionTxGasTrans : UInt64 := 2300
def fEnableStakeVote : Bool := false
def fEnableStakePledge : Bool := true

def functionContractAddress : Destination := 0xA1

def isFunctionContractAddress (addr : Destination) : Bool := addr = functionContractAddress

/-- The address type in the high three bits and the template type in the low five. -/
def packType (nDestType nTemplateType : UInt8) : UInt8 := nDestType <<< 5 ||| (nTemplateType &&& 0x1F)

structure DestState where
  nType : UInt8
  nTxNonce : UInt64
  nBalance : UInt256
  hashStorageRoot : UInt256
  hashCode : UInt256
  fDestroy : Bool
  deriving DecidableEq, Repr

namespace DestState

def null : DestState := ⟨0, 0, 0, 0, 0, false⟩

def isNull (state : DestState) : Bool :=
  state.nType = 0 ∧ state.nTxNonce = 0 ∧ state.nBalance = 0 ∧ state.hashStorageRoot = 0 ∧ state.hashCode = 0

def setType (state : DestState) (nDestType nTemplateType : UInt8) : DestState :=
  { state with nType := packType nDestType nTemplateType }

def getDestType (state : DestState) : UInt8 := state.nType >>> 5

def getTemplateType (state : DestState) : UInt8 := state.nType &&& 0x1F

def isPubkey (state : DestState) : Bool := state.getDestType = destTypePubkey

def incBalance (state : DestState) (n : UInt256) : DestState := { state with nBalance := state.nBalance + n }

def decBalance (state : DestState) (n : UInt256) : DestState := { state with nBalance := state.nBalance - n }

def Blank (state : DestState) : Prop :=
  state.nType = 0 ∧ state.nTxNonce = 0 ∧ state.hashStorageRoot = 0 ∧ state.hashCode = 0

instance (state : DestState) : Decidable state.Blank := by unfold Blank; infer_instance

theorem isNull_iff (state : DestState) : state.isNull = true ↔ state.Blank ∧ state.nBalance = 0 := by
  simp only [isNull, Blank, decide_eq_true_eq]
  tauto

end DestState

structure AddressContext where
  nType : UInt8
  btData : Bytes
  deriving DecidableEq, Repr

namespace AddressContext

def pubkey (ctxPubkey : Bytes) : AddressContext := ⟨packType destTypePubkey 0, ctxPubkey⟩

def contract (btData : Bytes) : AddressContext := ⟨packType destTypeContract 0, btData⟩

def getDestType (ctx : AddressContext) : UInt8 := ctx.nType >>> 5

def getTemplateType (ctx : AddressContext) : UInt8 := ctx.nType &&& 0x1F

def isTemplate (ctx : AddressContext) : Bool := ctx.getDestType = destTypeTemplate

def isContract (ctx : AddressContext) : Bool := ctx.getDestType = destTypeContract

theorem isContract_contract (btData : Bytes) : (contract btData).isContract = true := by
  have typed : packType destTypeContract 0 >>> 5 = destTypeContract := by decide
  simp [isContract, getDestType, contract, typed]

end AddressContext

def ctContract : UInt8 := 1

structure ContractTransfer where
  nType : UInt8
  destFrom : Destination
  destTo : Destination
  nAmount : UInt256
  deriving DecidableEq, Repr

structure TransactionLogs where
  address : Destination
  data : Bytes
  topics : List UInt256
  deriving DecidableEq, Repr

/-- `CContractDestCodeContext`, kept among the key-values of a contract. -/
structure ContractDestCodeContext where
  hashContractCreateCode : UInt256
  hashContractRunCode : UInt256
  destCodeOwner : Destination
  deriving DecidableEq, Repr

namespace ContractDestCodeContext

def toStream (ctx : ContractDestCodeContext) : Bytes :=
  (littleEndian 32 ctx.hashContractCreateCode.toNat).reverse ++
    (littleEndian 32 ctx.hashContractRunCode.toNat).reverse ++ (littleEndian 20 ctx.destCodeOwner.toNat).reverse

def ofStream (bt : Bytes) : Option ContractDestCodeContext :=
  if bt.length < 84 then none
  else some ⟨BitVec.ofNat 256 (ofLittleEndian (bt.take 32).reverse),
    BitVec.ofNat 256 (ofLittleEndian ((bt.drop 32).take 32).reverse),
    BitVec.ofNat 160 (ofLittleEndian ((bt.drop 64).take 20).reverse)⟩

end ContractDestCodeContext

structure ContractRunCodeContext where
  hashContractCreateCode : UInt256
  btContractRunCode : Bytes
  deriving DecidableEq, Repr

structure ContractCreateCodeContext where
  strType : Bytes
  strName : Bytes
  strDescribe : Bytes
  destCodeOwner : Destination
  btCreateCode : Bytes
  txidCreate : UInt256
  hashSourceCode : UInt256
  hashRuntimeCode : UInt256
  deriving DecidableEq, Repr

structure ContractAddressContext where
  strType : Bytes
  destCodeOwner : Destination
  strName : Bytes
  strDescribe : Bytes
  hashCreateTxid : UInt256
  hashSourceCode : UInt256
  hashContractCreateCode : UInt256
  hashContractRunCode : UInt256
  deriving DecidableEq, Repr

/-- What the contract records need from outside: the hash of byte strings, the compression
they may be stored under, and the stream form of an address record. -/
structure Codec where
  cryptoKeccakHash : Bytes → UInt256
  btUncompress : Bytes → Option Bytes
  contractStream : ContractAddressContext → Bytes

inductive MuxType where
  | min
  | create
  | setup
  | upcode
  deriving DecidableEq, Repr

structure TxContractData where
  nMuxType : MuxType
  strType : Bytes
  strName : Bytes
  destCodeOwner : Destination
  nCompressDescribe : UInt8
  btDescribe : Bytes
  nCompressCode : UInt8
  btCode : Bytes
  nCompressSource : UInt8
  btSource : Bytes
  deriving DecidableEq, Repr

namespace TxContractData

def ofCode (btCode : Bytes) (fCompress : Bool) : TxContractData :=
  ⟨.create, [], [], 0, 0, [], if fCompress then 1 else 0, btCode, 0, []⟩

def part (codec : Codec) (nCompress : UInt8) (bt : Bytes) : Bytes :=
  if nCompress ≠ 0 ∧ bt ≠ [] then (codec.btUncompress bt).getD [] else bt

/-- The hash of a part that may be stored compressed. Broken and empty parts have none. -/
def partHash (codec : Codec) (nCompress : UInt8) (bt : Bytes) : UInt256 :=
  if bt = [] then 0
  else if nCompress ≠ 0 then ((codec.btUncompress bt).map codec.cryptoKeccakHash).getD 0
  else codec.cryptoKeccakHash bt

def getSourceCodeHash (codec : Codec) (txcd : TxContractData) : UInt256 :=
  partHash codec txcd.nCompressSource txcd.btSource

def getContractCreateCodeHash (codec : Codec) (txcd : TxContractData) : UInt256 :=
  if txcd.btCode = [] then 0
  else if txcd.nMuxType = .setup then
    if txcd.btCode.length = 32 then BitVec.ofNat 256 (ofLittleEndian txcd.btCode) else 0
  else partHash codec txcd.nCompressCode txcd.btCode

def getDescribe (codec : Codec) (txcd : TxContractData) : Bytes := part codec txcd.nCompressDescribe txcd.btDescribe

def getCode (codec : Codec) (txcd : TxContractData) : Bytes := part codec txcd.nCompressCode txcd.btCode

end TxContractData
end HashAhead.State

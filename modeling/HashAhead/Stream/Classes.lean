import HashAhead.Chain.Crosschain
import HashAhead.Stream.Transaction

/-! Blocks, fork profiles and receipts in a stream. The size pass of each of them writes the value to a stream of its
own and assigns the length to the counter. -/

namespace HashAhead.Stream
open Foundation State Chain

def assigned {α : Type} (codec : Codec α) : Codec α where
  save := codec.save
  load := codec.load
  size value _ := (codec.save value).length

section Profile

structure Profile where
  nVersion : UInt32
  nType : UInt8
  strName : ByteVec
  strSymbol : ByteVec
  nChainId : ChainId
  nAmount : UInt256
  nMintReward : UInt256
  nMinTxFee : UInt256
  nHalveCycle : UInt32
  destOwner : Destination
  hashParent : UInt256
  nJointHeight : Int32
  nAttachExtdataType : UInt8

/-- `CVarInt((uint64)n)` of an `int`, whose sign is extended -/
def varIntSigned : Codec Int32 :=
  varInt.retract (fun n => n.toBitVec.signExtend 64) fun v => .ofBitVec (v.setWidth 32)

/-- `CProfile::Serialize` -/
def Profile.codec : Codec Profile :=
  assigned <| (pair uint32 <| pair byte <| pair string <| pair string <| pair varInt32 <| pair shortUint256 <|
    pair shortUint256 <| pair shortUint256 <| pair varInt32 <| pair destination <| pair uint256 <|
    pair varIntSigned byte).retract
    (fun p => (p.nVersion, p.nType, p.strName, p.strSymbol, p.nChainId, p.nAmount, p.nMintReward, p.nMinTxFee,
      p.nHalveCycle, p.destOwner, p.hashParent, p.nJointHeight, p.nAttachExtdataType))
    fun (nVersion, nType, strName, strSymbol, nChainId, nAmount, nMintReward, nMinTxFee, nHalveCycle, destOwner,
        hashParent, nJointHeight, nAttachExtdataType) =>
      ⟨nVersion, nType, strName, strSymbol, nChainId, nAmount, nMintReward, nMinTxFee, nHalveCycle, destOwner,
        hashParent, nJointHeight, nAttachExtdataType⟩

end Profile

section Receipt

structure ContractTransfer where
  nType : UInt8
  destFrom : Destination
  destTo : Destination
  nAmount : UInt256

/-- `CContractTransfer::Serialize` -/
def ContractTransfer.codec : Codec ContractTransfer :=
  assigned <| (pair byte <| pair destination <| pair destination shortUint256).retract
    (fun t => (t.nType, t.destFrom, t.destTo, t.nAmount)) fun (nType, destFrom, destTo, nAmount) =>
      ⟨nType, destFrom, destTo, nAmount⟩

structure TransactionLogs where
  address : Destination
  data : ByteVec
  topics : Vec none UInt256

/-- `CTransactionLogs::Serialize` -/
def TransactionLogs.codec : Codec TransactionLogs :=
  (pair destination <| pair bytes (vector none uint256)).retract (fun l => (l.address, l.data, l.topics))
    fun (address, data, topics) => ⟨address, data, topics⟩

structure ReceiptBase where
  nReceiptType : UInt8
  nContractStatus : UInt8
  nTxGasUsed : UInt256
  nTvGasUsed : UInt256
  vTransfer : Vec none ContractTransfer

structure ReceiptExtend where
  nTxIndex : UInt32
  txid : UInt256
  nBlockNumber : UInt64
  sender : Destination
  receiver : Destination
  destContract : Destination
  hashContractCode : UInt256
  nContractGasLeft : UInt256
  btContractResult : ByteVec
  hashStatusRoot : UInt256
  nEffectiveGasPrice : UInt256
  vLogs : Vec none TransactionLogs

structure TransactionReceipt extends ReceiptBase, ReceiptExtend

def receiptTypeContract : UInt8 := 1

def ReceiptBase.codec : Codec ReceiptBase :=
  (pair byte <| pair byte <| pair shortUint256 <| pair shortUint256 (vector none ContractTransfer.codec)).retract
    (fun r => (r.nReceiptType, r.nContractStatus, r.nTxGasUsed, r.nTvGasUsed, r.vTransfer))
    fun (nReceiptType, nContractStatus, nTxGasUsed, nTvGasUsed, vTransfer) =>
      ⟨nReceiptType, nContractStatus, nTxGasUsed, nTvGasUsed, vTransfer⟩

def ReceiptExtend.codec : Codec ReceiptExtend :=
  (pair varInt32 <| pair uint256 <| pair varInt64 <| pair shortDestination <| pair shortDestination <|
    pair shortDestination <| pair shortUint256 <| pair shortUint256 <| pair bytes <| pair shortUint256 <|
    pair shortUint256 (vector none TransactionLogs.codec)).retract
    (fun r => (r.nTxIndex, r.txid, r.nBlockNumber, r.sender, r.receiver, r.destContract, r.hashContractCode,
      r.nContractGasLeft, r.btContractResult, r.hashStatusRoot, r.nEffectiveGasPrice, r.vLogs))
    fun (nTxIndex, txid, nBlockNumber, sender, receiver, destContract, hashContractCode, nContractGasLeft,
        btContractResult, hashStatusRoot, nEffectiveGasPrice, vLogs) =>
      ⟨nTxIndex, txid, nBlockNumber, sender, receiver, destContract, hashContractCode, nContractGasLeft,
        btContractResult, hashStatusRoot, nEffectiveGasPrice, vLogs⟩

def ReceiptExtend.null : ReceiptExtend := ⟨0, 0, 0, 0, 0, 0, 0, 0, default, 0, 0, ⟨[], Nat.zero_le _⟩⟩

/-- `CTransactionReceipt::Serialize` -/
def TransactionReceipt.codec : Codec TransactionReceipt :=
  assigned
    { save := fun r => ReceiptBase.codec.save r.toReceiptBase ++
        if r.nReceiptType = receiptTypeContract then ReceiptExtend.codec.save r.toReceiptExtend else []
      load := do
        let base ← ReceiptBase.codec.load
        if base.nReceiptType = receiptTypeContract then
          let extend ← ReceiptExtend.codec.load
          pure { base, extend with }
        else pure { base, ReceiptExtend.null with }
      size := fun _ serSize => serSize }

end Receipt

section Block

def chainIdOrder : Comparator ChainId := .ofKey UInt32.toNat fun _ _ => UInt32.toNat_inj.1

structure Block where
  nVersion : UInt8
  nType : UInt8
  nTimeStamp : UInt64
  nNumber : UInt64
  nHeight : UInt32
  nSlot : UInt16
  hashPrev : UInt256
  hashMerkleRoot : UInt256
  hashStateRoot : UInt256
  hashReceiptsRoot : UInt256
  hashCrosschainMerkleRoot : UInt256
  nGasLimit : UInt256
  nGasUsed : UInt256
  mapProof : ByteMap
  txMint : Transaction
  vchSig : ByteVec
  btBloomData : ByteVec
  vtx : Vec none Transaction
  mapProve : SortedMap ChainId BlockProve chainIdOrder

/-- A hash that is written as no bytes if it is null, and in the order of its memory otherwise. -/
def optionalHash : Codec UInt256 :=
  bytes.retract (fun hash => if hash = 0 then default else ⟨littleEndian 32 hash.toNat, by
      rw [length_littleEndian]
      decide⟩)
    fun bt => if bt.val.length = 32 then BitVec.ofNat 256 (ofLittleEndian bt.val) else 0

theorem mapProve_length_le {V : Type} (m : SortedMap ChainId V chainIdOrder) : m.entries.length ≤ ptrdiffMax :=
  Nat.le_trans (entries_length_le m (fun _ _ => UInt32.toNat_inj.1) UInt32.toNat_lt) (by decide)

/-- `CBlock::Serialize`, with that of `CBlockProve` -/
def Block.codec (base : TxBase) (blockProve : Codec BlockProve) : Codec Block :=
  assigned <| (pair byte <| pair byte <| pair varInt64 <| pair varInt64 <| pair uint32 <| pair uint16 <| pair uint256 <|
    pair optionalHash <| pair uint256 <| pair optionalHash <| pair optionalHash <| pair bytes <| pair shortUint256 <|
    pair shortUint256 <| pair byteMap <| pair (Transaction.codec base) <| pair (vector none (Transaction.codec base)) <|
    pair (map uint32 blockProve) bytes).retract
    (fun b => (b.nVersion, b.nType, b.nTimeStamp, b.nNumber, b.nHeight, b.nSlot, b.hashPrev, b.hashMerkleRoot,
      b.hashStateRoot, b.hashReceiptsRoot, b.hashCrosschainMerkleRoot, b.btBloomData, b.nGasLimit, b.nGasUsed,
      b.mapProof, b.txMint, b.vtx, ⟨b.mapProve, mapProve_length_le b.mapProve⟩, b.vchSig))
    fun (nVersion, nType, nTimeStamp, nNumber, nHeight, nSlot, hashPrev, hashMerkleRoot, hashStateRoot,
        hashReceiptsRoot, hashCrosschainMerkleRoot, btBloomData, nGasLimit, nGasUsed, mapProof, txMint, vtx, mapProve,
        vchSig) =>
      { nVersion, nType, nTimeStamp, nNumber, nHeight, nSlot, hashPrev, hashMerkleRoot, hashStateRoot,
        hashReceiptsRoot, hashCrosschainMerkleRoot, btBloomData, nGasLimit, nGasUsed, mapProof, txMint, vtx, vchSig,
        mapProve := mapProve.val }

end Block

end HashAhead.Stream

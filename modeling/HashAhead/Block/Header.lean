import HashAhead.Chain.MerkleTree
import HashAhead.Stream.Classes

/-! The hash of a block. The fields of the header are the leaves of two hash trees, one inside the other, and the hash
of the block is the outer root with chain id, height and slot laid over its first bytes. -/

namespace HashAhead.Block
open Foundation Trie State Chain HashAhead.Stream List Option

section Overlay

/-- `CVarInt` of the three numbers in front of a block hash -/
def blockHead (nChainId : ChainId) (nHeight : UInt32) (nSlot : UInt16) : Bytes :=
  writeVarInt nChainId.toNat ++ writeVarInt nHeight.toNat ++ writeVarInt nSlot.toNat

theorem length_writeVarInt_le {nValue : Nat} (fits : nValue < 2 ^ 64) : (writeVarInt nValue).length ≤ 9 := by
  have most := bytesRequired_le 8 nValue
  rw [length_writeVarInt fits, varIntSize]
  split <;> omega

variable (nChainId : ChainId) (nHeight : UInt32) (nSlot : UInt16) (hash : UInt256)

theorem chainId_lt : nChainId.toNat < 2 ^ 64 := Nat.lt_trans nChainId.toNat_lt (by decide)

theorem height_lt : nHeight.toNat < 2 ^ 64 := Nat.lt_trans nHeight.toNat_lt (by decide)

theorem slot_lt : nSlot.toNat < 2 ^ 64 := Nat.lt_trans nSlot.toNat_lt (by decide)

theorem length_blockHead_le : (blockHead nChainId nHeight nSlot).length ≤ 32 := by
  have first := length_writeVarInt_le (chainId_lt nChainId)
  have second := length_writeVarInt_le (height_lt nHeight)
  have third := length_writeVarInt_le (slot_lt nSlot)
  rw [blockHead, length_append, length_append]
  omega

theorem littleEndian_createBlockHash :
    littleEndian 32 (createBlockHash nChainId nHeight nSlot hash).toNat =
      blockHead nChainId nHeight nSlot ++
        (littleEndian 32 hash.toNat).drop (blockHead nChainId nHeight nSlot).length := by
  have short := length_blockHead_le nChainId nHeight nSlot
  have whole : (blockHead nChainId nHeight nSlot ++
      (littleEndian 32 hash.toNat).drop (blockHead nChainId nHeight nSlot).length).length = 32 := by
    rw [length_append, length_drop, length_littleEndian]
    omega
  have fits := ofLittleEndian_lt (blockHead nChainId nHeight nSlot ++
      (littleEndian 32 hash.toNat).drop (blockHead nChainId nHeight nSlot).length)
  have back := littleEndian_ofLittleEndian (blockHead nChainId nHeight nSlot ++
      (littleEndian 32 hash.toNat).drop (blockHead nChainId nHeight nSlot).length)
  rw [whole] at fits back
  have value : (createBlockHash nChainId nHeight nSlot hash).toNat = ofLittleEndian (blockHead nChainId nHeight nSlot ++
      (littleEndian 32 hash.toNat).drop (blockHead nChainId nHeight nSlot).length) := by
    show (BitVec.ofNat 256 (ofLittleEndian (blockHead nChainId nHeight nSlot ++ _))).toNat = _
    rw [BitVec.toNat_ofNat]
    exact Nat.mod_eq_of_lt (lt_of_lt_of_eq fits (by decide))
  rw [value, back]

theorem readBlockHead_createBlockHash :
    readBlockHead (createBlockHash nChainId nHeight nSlot hash) = some (nChainId.toNat, nHeight.toNat, nSlot.toNat) := by
  rw [readBlockHead, littleEndian_createBlockHash, blockHead, append_assoc, append_assoc,
    readVarInt_writeVarInt (chainId_lt nChainId)]
  simp only [bind_eq_bind, bind_some, readVarInt_writeVarInt (height_lt nHeight), append_assoc,
    readVarInt_writeVarInt (slot_lt nSlot)]

@[simp] theorem getBlockChainIdByHash_createBlockHash :
    getBlockChainIdByHash (createBlockHash nChainId nHeight nSlot hash) = nChainId := by
  rw [getBlockChainIdByHash, readBlockHead_createBlockHash, map_some, getD_some, UInt32.ofNat_toNat]

@[simp] theorem getBlockHeightByHash_createBlockHash :
    getBlockHeightByHash (createBlockHash nChainId nHeight nSlot hash) = nHeight := by
  rw [getBlockHeightByHash, readBlockHead_createBlockHash, map_some, getD_some, UInt32.ofNat_toNat]

@[simp] theorem getBlockSlotByHash_createBlockHash :
    getBlockSlotByHash (createBlockHash nChainId nHeight nSlot hash) = nSlot := by
  rw [getBlockSlotByHash, readBlockHead_createBlockHash, map_some, getD_some, UInt16.ofNat_toNat]

end Overlay

section Fields
variable (base : TxBase) (b : Stream.Block)

/-- `CryptoHash` of two hashes: their bytes one after the other -/
def hashPair (left right : UInt256) : UInt256 :=
  base.cryptoHash (littleEndian 32 left.toNat ++ littleEndian 32 right.toNat)

def isOrigin : Bool := b.nType = 0x01 || b.nType = 0x11

def isPrimary : Bool := b.nType >>> 4 = 0

def bpForkProfile : UInt8 := 0x01
def bpPiggyback : UInt8 := 0x03

/-- `CProofOfPiggyback`: the weight, the agreement and the reference block -/
def proofOfPiggyback : Codec (UInt8 × UInt256 × UInt256) := pair byte (pair Stream.uint256 Stream.uint256)

def getRefBlock : UInt256 :=
  if !isPrimary b && !isOrigin b then
    match b.mapProof.find bpPiggyback with
    | none => 0
    | some btProof => ((proofOfPiggyback.load.result btProof.val).map fun proof => proof.1.2.2).getD 0
  else 0

def getChainId : ChainId :=
  if isOrigin b then
    match b.mapProof.find bpForkProfile with
    | none => 0
    | some btProfile => ((Profile.codec.load.result btProfile.val).map fun profile => profile.1.nChainId).getD 0
  else getBlockChainIdByHash b.hashPrev

def baseFields : Codec (UInt8 × UInt8 × UInt64 × UInt64 × UInt32 × UInt16 × UInt256 × UInt256) :=
  pair byte <| pair byte <| pair uint64 <| pair uint64 <| pair uint32 <| pair uint16 <| pair Stream.uint256 Stream.uint256

theorem baseFields_sound : baseFields.Sound :=
  pair_sound byte_sound <| pair_sound byte_sound <| pair_sound uint64_sound <| pair_sound uint64_sound <|
    pair_sound uint32_sound <| pair_sound uint16_sound <| pair_sound uint256_sound uint256_sound

def baseStream : Bytes :=
  baseFields.save (b.nVersion, b.nType, b.nTimeStamp, b.nNumber, b.nHeight, b.nSlot, b.nGasLimit, b.nGasUsed)

def hashUnless (nothing : Bool) (stream : Bytes) : UInt256 := if nothing then 0 else base.cryptoHash stream

/-- The leaves of `CalcBlockBaseMerkleTreeRoot` -/
def baseLeaves : List UInt256 :=
  [base.cryptoHash (baseStream b), hashUnless base b.mapProof.entries.isEmpty (byteMap.save b.mapProof), getRefBlock b,
    b.hashPrev, b.hashReceiptsRoot, hashUnless base b.btBloomData.val.isEmpty b.btBloomData.val]

def txs : List Transaction := b.txMint :: b.vtx.val

def txHashes : List UInt256 := (txs b).map (Transaction.getHash base)

def calcTxMerkleTreeRoot : UInt256 := (MerkleTree.buildMerkleTree (hashPair base) (txHashes base b)).2

end Fields

section Root
variable (base : TxBase) (b : Stream.Block)

/-- A proof that is asked for gets what `BuildMerkleProve` adds; an output is absent if its pointer is null. -/
def pushProve (hashLeaf : UInt256) (vMerkleTree : List UInt256) (nLeafCount : Nat) :
    Option MerkleProveData → Option MerkleProveData × Bool
  | none => (none, true)
  | some vMerkleProve =>
    let added := MerkleTree.buildMerkleProveOf hashLeaf vMerkleTree nLeafCount
    (some (vMerkleProve ++ added.1), added.2)

def calcBlockBaseMerkleTreeRoot (prevProve refProve : Option MerkleProveData) :
    UInt256 × Option MerkleProveData × Option MerkleProveData :=
  let leaves := baseLeaves base b
  let (vMerkleTree, hashMerkleRoot) := MerkleTree.buildMerkleTree (hashPair base) leaves
  if hashMerkleRoot = 0 then (0, prevProve, refProve)
  else
    let (prevProve, made) := pushProve b.hashPrev vMerkleTree leaves.length prevProve
    if !made then (0, prevProve, refProve)
    else
      let (refProve, made) := pushProve (getRefBlock b) vMerkleTree leaves.length refProve
      if !made then (0, prevProve, refProve) else (hashMerkleRoot, prevProve, refProve)

def calcMerkleTreeRootAndProve (prevProve refProve crossProve : Option MerkleProveData) :
    UInt256 × Option MerkleProveData × Option MerkleProveData × Option MerkleProveData :=
  let (hashBaseMerkleRoot, prevProve, refProve) := calcBlockBaseMerkleTreeRoot base b prevProve refProve
  let leaves := [hashBaseMerkleRoot, b.hashStateRoot, b.hashCrosschainMerkleRoot, calcTxMerkleTreeRoot base b]
  let (vMerkleTree, hashMerkleRoot) := MerkleTree.buildMerkleTree (hashPair base) leaves
  let (baseProve, made) :=
    if prevProve.isSome || refProve.isSome then MerkleTree.buildMerkleProveOf hashBaseMerkleRoot vMerkleTree leaves.length
    else ([], true)
  if !made then (0, prevProve, refProve, crossProve)
  else
    let prevProve := prevProve.map (· ++ baseProve)
    let refProve := refProve.map (· ++ baseProve)
    let (crossProve, made) := pushProve b.hashCrosschainMerkleRoot vMerkleTree leaves.length crossProve
    if !made then (0, prevProve, refProve, crossProve) else (hashMerkleRoot, prevProve, refProve, crossProve)

def calcMerkleTreeRoot : UInt256 := (calcMerkleTreeRootAndProve base b none none none).1

def getHash : UInt256 := createBlockHash (getChainId b) b.nHeight b.nSlot (calcMerkleTreeRoot base b)

/-- `CBlock::GetMerkleProve`: whether it succeeds, and the three proofs -/
def getMerkleProve (prevProve refProve crossProve : Option MerkleProveData) :
    Bool × Option MerkleProveData × Option MerkleProveData × Option MerkleProveData :=
  let (hashMerkleRoot, proves) := calcMerkleTreeRootAndProve base b prevProve refProve crossProve
  (hashMerkleRoot ≠ 0, proves)

def verifyBlockMerkleProve (hashBlock : UInt256) (merkleProve : MerkleProveData) (hashVerify : UInt256) : Bool :=
  hashBlock = createBlockHash (getBlockChainIdByHash hashBlock) (getBlockHeightByHash hashBlock)
    (getBlockSlotByHash hashBlock) (MerkleTree.getMerkleRootByProve (hashPair base) merkleProve hashVerify)

theorem verifyBlockMerkleProve_eq {checker : ProveChecker} (same : checker.cryptoHash = hashPair base) :
    checker.verifyBlockMerkleProve = verifyBlockMerkleProve base := by
  unfold ProveChecker.verifyBlockMerkleProve verifyBlockMerkleProve ProveChecker.getMerkleRootByProve
  rw [same]
  rfl

def baseRoot : UInt256 := HashTree.root (hashPair base) 0 (baseLeaves base b)

def headLeaves : List UInt256 :=
  [baseRoot base b, b.hashStateRoot, b.hashCrosschainMerkleRoot, calcTxMerkleTreeRoot base b]

theorem calcMerkleTreeRoot_eq : calcMerkleTreeRoot base b = HashTree.root (hashPair base) 0 (headLeaves base b) := by
  have inner : calcBlockBaseMerkleTreeRoot base b none none = (baseRoot base b, none, none) := by
    unfold calcBlockBaseMerkleTreeRoot baseRoot
    dsimp only
    rw [MerkleTree.buildMerkleTree_eq]
    dsimp only
    split
    · rename_i null
      rw [null]
    · rfl
  unfold calcMerkleTreeRoot calcMerkleTreeRootAndProve
  rw [inner]
  dsimp only
  rw [MerkleTree.buildMerkleTree_eq]
  rfl

theorem verify_of_root {merkleProve : MerkleProveData} {hash : UInt256}
    (leads : MerkleTree.getMerkleRootByProve (hashPair base) merkleProve hash = calcMerkleTreeRoot base b) :
    verifyBlockMerkleProve base (getHash base b) merkleProve hash = true := by
  rw [verifyBlockMerkleProve, leads, getHash, getBlockChainIdByHash_createBlockHash,
    getBlockHeightByHash_createBlockHash, getBlockSlotByHash_createBlockHash]
  exact decide_eq_true rfl

end Root

end HashAhead.Block

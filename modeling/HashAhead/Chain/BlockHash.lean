import HashAhead.State.Account

/-! Block hashes. The first bytes of a block hash are its chain id, its height and its slot as
variable-length integers, and the rest comes from the Merkle root of the block. -/

namespace HashAhead.Chain
open Foundation Trie State

abbrev ChainId := UInt32

inductive BlockType where
  | genesis
  | primary
  | origin
  | subsidiary
  | extended
  | vacant
deriving DecidableEq, Repr

def BlockType.isOrigin (nType : BlockType) : Bool := nType = .genesis || nType = .origin

def BlockType.isPrimary (nType : BlockType) : Bool := nType = .genesis || nType = .primary

def nDataImmLenStart : Nat := 0xF7

def writeVarInt (nValue : Nat) : Bytes :=
  if nValue = 0 then [UInt8.ofNat nDataImmLenStart]
  else if nValue < nDataImmLenStart then [UInt8.ofNat nValue]
  else
    let bt := (littleEndian 8 nValue).reverse.dropWhile (· = 0)
    UInt8.ofNat (nDataImmLenStart + bt.length) :: bt

def readVarInt : Bytes → Option (Nat × Bytes)
  | [] => none
  | n :: rest =>
    if n.toNat = nDataImmLenStart then some (0, rest)
    else if n.toNat < nDataImmLenStart then some (n.toNat, rest)
    else
      let fn := n.toNat - nDataImmLenStart
      if rest.length < fn then none else some (ofLittleEndian (rest.take fn).reverse, rest.drop fn)

def readBlockHead (hash : UInt256) : Option (Nat × Nat × Nat) := do
  let (varB1, ss) ← readVarInt (littleEndian 32 hash.toNat)
  let (varB2, ss) ← readVarInt ss
  let (varB3, _) ← readVarInt ss
  some (varB1, varB2, varB3)

def getBlockChainIdByHash (hash : UInt256) : ChainId := ((readBlockHead hash).map fun b => UInt32.ofNat b.1).getD 0

def getBlockHeightByHash (hash : UInt256) : UInt32 := ((readBlockHead hash).map fun b => UInt32.ofNat b.2.1).getD 0

def getBlockSlotByHash (hash : UInt256) : UInt16 := ((readBlockHead hash).map fun b => UInt16.ofNat b.2.2).getD 0

/-- `CBlock::CreateBlockHash`. The head goes over the first bytes of the hash. -/
def createBlockHash (nChainId : ChainId) (nHeight : UInt32) (nSlot : UInt16) (hash : UInt256) : UInt256 :=
  let head := writeVarInt nChainId.toNat ++ writeVarInt nHeight.toNat ++ writeVarInt nSlot.toNat
  BitVec.ofNat 256 (ofLittleEndian (head ++ (littleEndian 32 hash.toNat).drop head.length))

end HashAhead.Chain

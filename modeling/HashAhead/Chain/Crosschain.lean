import HashAhead.Chain.BlockHash

/-! What a block brings from its peer chains. For each peer chain there is a block that its
validators signed, the blocks before it, and what each of them recorded for this chain. Merkle
proofs tie a record to its block and a block to the one before, and the check of the prove passes
over a proof that is not there. -/

namespace HashAhead.Chain
open Trie State List

structure DexOrderHeader where
  nChainId : ChainId
  destOrder : Destination
  hashCoinPair : UInt256
  nOwnerCoinFlag : UInt8
  nOrderNumber : UInt64
deriving DecidableEq

structure BlockCoinTransferProve where
  destTransfer : Destination
  strCoinSymbol : Bytes
  nOriChainId : ChainId
  nDestChainId : ChainId
  nTransferAmount : UInt256

structure BlockDexOrderProve where
  destOrder : Destination
  nChainIdOwner : ChainId
  nChainIdPeer : ChainId
  strCoinSymbolOwner : Bytes
  strCoinSymbolPeer : Bytes
  nOrderNumber : UInt64
  nOrderAmount : UInt256
  nOrderPrice : UInt256

structure BlockCrosschainProve where
  hashPrevProveBlock : UInt256 := 0
  vCoinTransferProve : List BlockCoinTransferProve := []
  mapDexOrderProve : List (DexOrderHeader × BlockDexOrderProve) := []
  setCrossConfirmRecvBlock : List UInt256 := []

def BlockCrosschainProve.isNull (prove : BlockCrosschainProve) : Bool :=
  prove.vCoinTransferProve.isEmpty && prove.mapDexOrderProve.isEmpty && prove.setCrossConfirmRecvBlock.isEmpty

/-- `MERKLE_PROVE_DATA`: the side and the hash of each sibling on the way up. -/
abbrev MerkleProveData := List (UInt8 × UInt256)

structure BlockPrevProve where
  hashPrevBlock : UInt256
  vPrevBlockMerkleProve : MerkleProveData
  proveCrosschain : BlockCrosschainProve
  vCrosschainMerkleProve : MerkleProveData

/-- `CBlockProve`. The signed block has the fields that each block before it has. -/
structure BlockProve extends BlockPrevProve where
  hashBlock : UInt256
  btAggSigBitmap : Bytes
  btAggSigData : Bytes
  hashRefBlock : UInt256
  vRefBlockMerkleProve : MerkleProveData
  vPrevBlockCcProve : List BlockPrevProve

structure ProveChecker where
  /-- `CryptoHash` of two hashes -/
  cryptoHash : UInt256 → UInt256 → UInt256
  /-- `CBlockCrosschainProve::GetHash` -/
  getHash : BlockCrosschainProve → UInt256
  /-- `ICoreProtocol::GetGenesisBlockHash` -/
  genesisBlockHash : UInt256
  /-- `CBlockChain::VerifyBlockCommitVoteAggSig` of a block, its reference block, a bitmap and a signature -/
  verifyBlockCommitVoteAggSig : UInt256 → UInt256 → Bytes → Bytes → Bool

def pdLeft : UInt8 := 0

namespace ProveChecker

variable (checker : ProveChecker)

def getMerkleRootByProve (vMerkleProve : MerkleProveData) (hashVerify : UInt256) : UInt256 :=
  vMerkleProve.foldl
    (fun hashNode vd =>
      if vd.1 = pdLeft then checker.cryptoHash vd.2 hashNode else checker.cryptoHash hashNode vd.2)
    hashVerify

def verifyBlockMerkleProve (hashBlock : UInt256) (merkleProve : MerkleProveData) (hashVerify : UInt256) : Bool :=
  hashBlock = createBlockHash (getBlockChainIdByHash hashBlock) (getBlockHeightByHash hashBlock)
    (getBlockSlotByHash hashBlock) (checker.getMerkleRootByProve merkleProve hashVerify)

/-- The two checks at one block: the link to the block before it, and its record. -/
def verifyAtBlock (hashAtBlock : UInt256) (prove : BlockPrevProve) : Bool :=
  if prove.hashPrevBlock ≠ 0 ∧ prove.vPrevBlockMerkleProve ≠ [] ∧
      !checker.verifyBlockMerkleProve hashAtBlock prove.vPrevBlockMerkleProve prove.hashPrevBlock then false
  else if !prove.proveCrosschain.isNull ∧ prove.vCrosschainMerkleProve ≠ [] ∧
      !checker.verifyBlockMerkleProve hashAtBlock prove.vCrosschainMerkleProve
        (checker.getHash prove.proveCrosschain) then false
  else true

def verifyPrevBlocks : UInt256 → List BlockPrevProve → Bool
  | _, [] => true
  | hashAtBlock, prevProve :: rest =>
    checker.verifyAtBlock hashAtBlock prevProve && verifyPrevBlocks prevProve.hashPrevBlock rest

/-- The reference block whose validators signed: the block itself on the genesis chain. -/
def refBlock (nPeerChainId : ChainId) (blockProve : BlockProve) : Option UInt256 :=
  if nPeerChainId = getBlockChainIdByHash checker.genesisBlockHash then some blockProve.hashBlock
  else if blockProve.hashRefBlock = 0 ∨ blockProve.vRefBlockMerkleProve = [] then none
  else if checker.verifyBlockMerkleProve blockProve.hashBlock blockProve.vRefBlockMerkleProve
      blockProve.hashRefBlock then some blockProve.hashRefBlock
  else none

def verifyBlockProve (nLocalChainId nPeerChainId : ChainId) (blockProve : BlockProve) : Bool :=
  if nPeerChainId = nLocalChainId then false
  else if blockProve.hashBlock = 0 then false
  else if blockProve.btAggSigBitmap = [] then false
  else if blockProve.btAggSigData = [] then false
  else match checker.refBlock nPeerChainId blockProve with
    | none => false
    | some hashRefBlock =>
      checker.verifyBlockCommitVoteAggSig blockProve.hashBlock hashRefBlock blockProve.btAggSigBitmap
          blockProve.btAggSigData
        && checker.verifyAtBlock blockProve.hashBlock blockProve.toBlockPrevProve
        && (if blockProve.hashPrevBlock ≠ 0 ∧ blockProve.vPrevBlockCcProve ≠ [] then
            checker.verifyPrevBlocks blockProve.hashPrevBlock blockProve.vPrevBlockCcProve else true)

def verifyBlockCrosschainProve (hashBlock : UInt256) (mapProve : List (ChainId × BlockProve)) : Bool :=
  mapProve.all fun kv => checker.verifyBlockProve (getBlockChainIdByHash hashBlock) kv.1 kv.2

end ProveChecker

/-- The list `vCacheProve` of `CHdexDB::AddDexOrder`: each block before the signed one with its hash. -/
def cacheProve : UInt256 → List BlockPrevProve → List (UInt256 × BlockPrevProve)
  | _, [] => []
  | hashAtBlock, prevProve :: rest => (hashAtBlock, prevProve) :: cacheProve prevProve.hashPrevBlock rest

namespace BlockProve

def blocks (blockProve : BlockProve) : List (UInt256 × BlockPrevProve) :=
  (blockProve.hashBlock, blockProve.toBlockPrevProve) ::
    if blockProve.hashPrevBlock ≠ 0 ∧ blockProve.vPrevBlockCcProve ≠ [] then
      cacheProve blockProve.hashPrevBlock blockProve.vPrevBlockCcProve else []

/-- The records that `CHdexDB::AddDexOrder` takes from a prove, the oldest block first. -/
def consumed (blockProve : BlockProve) : List (UInt256 × BlockPrevProve) :=
  blockProve.blocks.reverse.filter fun vd => !vd.2.proveCrosschain.isNull

end BlockProve

namespace ProveChecker

variable (checker : ProveChecker)

theorem verifyAtBlock_iff {block : UInt256} {prove : BlockPrevProve} :
    checker.verifyAtBlock block prove = true ↔
      (prove.hashPrevBlock ≠ 0 → prove.vPrevBlockMerkleProve ≠ [] →
        checker.verifyBlockMerkleProve block prove.vPrevBlockMerkleProve prove.hashPrevBlock = true) ∧
      (prove.proveCrosschain.isNull = false → prove.vCrosschainMerkleProve ≠ [] →
        checker.verifyBlockMerkleProve block prove.vCrosschainMerkleProve
          (checker.getHash prove.proveCrosschain) = true) := by
  unfold verifyAtBlock
  grind

theorem verifyPrevBlocks_iff {prevProves : List BlockPrevProve} :
    ∀ {block : UInt256}, checker.verifyPrevBlocks block prevProves = true ↔
      ∀ vd ∈ cacheProve block prevProves, checker.verifyAtBlock vd.1 vd.2 = true := by
  induction prevProves with
  | nil => simp [verifyPrevBlocks, cacheProve]
  | cons prevProve rest inductive_step => simp [verifyPrevBlocks, cacheProve, inductive_step]

variable {blockProve : BlockProve}

theorem of_verifyBlockProve {nLocalChainId nPeerChainId : ChainId}
    (accepted : checker.verifyBlockProve nLocalChainId nPeerChainId blockProve = true) :
    (∃ hRef, checker.verifyBlockCommitVoteAggSig blockProve.hashBlock hRef
        blockProve.btAggSigBitmap blockProve.btAggSigData = true) ∧
      ∀ vd ∈ blockProve.blocks, checker.verifyAtBlock vd.1 vd.2 = true := by
  cases ref : checker.refBlock nPeerChainId blockProve with
  | none => simp [verifyBlockProve, ref] at accepted
  | some hRef =>
    simp only [verifyBlockProve, ref] at accepted
    unfold BlockProve.blocks
    split_ifs at accepted ⊢ <;> simp only [Bool.and_eq_true, verifyPrevBlocks_iff] at accepted
    · exact ⟨⟨hRef, accepted.1.1⟩, forall_mem_cons.2 ⟨accepted.1.2, accepted.2⟩⟩
    · exact ⟨⟨hRef, accepted.1.1⟩, forall_mem_singleton.2 accepted.1.2⟩

/-- A block of the prove names the one before it and carries a Merkle proof of the link. -/
def LinkGiven (blockProve : BlockProve) (hashAtBlock hashPrevBlock : UInt256) : Prop :=
  hashPrevBlock ≠ 0 ∧ ∃ prove, (hashAtBlock, prove) ∈ blockProve.blocks ∧
    prove.hashPrevBlock = hashPrevBlock ∧ prove.vPrevBlockMerkleProve ≠ []

/-- The Merkle proof of the link is carried, and it leads to the hash of the block. -/
def LinkProved (blockProve : BlockProve) (hashAtBlock hashPrevBlock : UInt256) : Prop :=
  hashPrevBlock ≠ 0 ∧ ∃ prove, (hashAtBlock, prove) ∈ blockProve.blocks ∧
    prove.hashPrevBlock = hashPrevBlock ∧ prove.vPrevBlockMerkleProve ≠ [] ∧
    checker.verifyBlockMerkleProve hashAtBlock prove.vPrevBlockMerkleProve hashPrevBlock = true

/-- The record of a block is bound to the signed block: a Merkle proof ties it to a block of the
peer chain, and proved links lead from the signed block to that one. -/
structure Authenticated (Voted : UInt256 → Prop) (nPeerChainId : ChainId) (blockProve : BlockProve)
    (hashAtBlock : UInt256) (prove : BlockPrevProve) : Prop where
  voted : Voted blockProve.hashBlock
  linked : Relation.ReflTransGen (checker.LinkProved blockProve) blockProve.hashBlock hashAtBlock
  chain : getBlockChainIdByHash hashAtBlock = nPeerChainId
  carried : prove.vCrosschainMerkleProve ≠ []
  proved : checker.verifyBlockMerkleProve hashAtBlock prove.vCrosschainMerkleProve
    (checker.getHash prove.proveCrosschain) = true

/-- No proof that the record needs is left out, and its block is of the peer chain. -/
structure Covered (nPeerChainId : ChainId) (blockProve : BlockProve) (hashAtBlock : UInt256)
    (prove : BlockPrevProve) : Prop where
  linked : Relation.ReflTransGen (LinkGiven blockProve) blockProve.hashBlock hashAtBlock
  chain : getBlockChainIdByHash hashAtBlock = nPeerChainId
  carried : prove.vCrosschainMerkleProve ≠ []

theorem authenticated_iff_covered {Voted : UInt256 → Prop} {nPeerChainId : ChainId} {vd : UInt256 × BlockPrevProve}
    (voted : Voted blockProve.hashBlock) (checked : ∀ vd ∈ blockProve.blocks, checker.verifyAtBlock vd.1 vd.2 = true)
    (taken : vd ∈ blockProve.consumed) :
    checker.Authenticated Voted nPeerChainId blockProve vd.1 vd.2 ↔
      Covered nPeerChainId blockProve vd.1 vd.2 := by
  obtain ⟨listed, known⟩ : vd ∈ blockProve.blocks ∧ vd.2.proveCrosschain.isNull = false := by
    simpa [BlockProve.consumed] using taken
  have links : checker.LinkProved blockProve = LinkGiven blockProve := by
    funext block hashPrevBlock
    refine propext (and_congr_right fun nonzero => exists_congr fun prove => and_congr_right fun listed => ?_)
    have link := ((checker.verifyAtBlock_iff).1 (checked _ listed)).1
    grind
  constructor
  · intro bound
    exact ⟨links ▸ bound.linked, bound.chain, bound.carried⟩
  · intro covered
    have record := ((checker.verifyAtBlock_iff).1 (checked _ listed)).2 known covered.carried
    exact ⟨voted, links ▸ covered.linked, covered.chain, covered.carried, record⟩

/-- What an accepted block brings from its peer chains is bound to signed blocks of these chains
exactly if no Merkle proof that it needs is left out and the blocks are of the chains they stand for. -/
theorem crosschain_authenticated_iff (Voted : UInt256 → Prop)
    (sound : ∀ hashVoteBlock hashRefBlock btAggBitmap btAggSig,
      checker.verifyBlockCommitVoteAggSig hashVoteBlock hashRefBlock btAggBitmap btAggSig = true →
        Voted hashVoteBlock)
    (hashBlock : UInt256) (mapProve : List (ChainId × BlockProve))
    (accepted : checker.verifyBlockCrosschainProve hashBlock mapProve = true) :
    (∀ kv ∈ mapProve, ∀ vd ∈ kv.2.consumed, checker.Authenticated Voted kv.1 kv.2 vd.1 vd.2) ↔
      ∀ kv ∈ mapProve, ∀ vd ∈ kv.2.consumed, Covered kv.1 kv.2 vd.1 vd.2 := by
  apply forall₂_congr
  intro kv listed
  obtain ⟨⟨hashRefBlock, signed⟩, checked⟩ := checker.of_verifyBlockProve (List.all_eq_true.1 accepted kv listed)
  apply forall₂_congr
  intro vd taken
  exact checker.authenticated_iff_covered (sound _ _ _ _ signed) checked taken

end ProveChecker

namespace Sample

def transferred (amount : UInt256) : BlockCrosschainProve where
  vCoinTransferProve :=
    [{ destTransfer := 0xA11CE, strCoinSymbol := [72, 65, 72], nOriChainId := 1, nDestChainId := 2,
       nTransferAmount := amount }]

def transferHash : UInt256 := 0xb325226721f7c97fe088ee6e76138865266c075a38d1ce7198b0c553c718a78f
def transferSibling : UInt256 := 0xf1821226d5a27be66adc5e6fe361c95db988b7304b660fb0ff8db0562a16ed0c
def olderBlock : UInt256 := 0x23da2349841b1cadff5dcd9488ec2c44078af224a3ed1ff7b790c8d07ef70401
def olderSibling : UInt256 := 0x7f152ef98b95476adc46cedc960355a67bcb17f9e946a86841abc7a1fa11f6de
def signedBlock : UInt256 := 0xfceac7041c39f1dbc1b2ace74c037342e2a31445006d8e85b9450a0aa7f70501

def checker : ProveChecker where
  cryptoHash left right :=
    if left = transferHash ∧ right = transferSibling then
      0x23da2349841b1cadff5dcd9488ec2c44078af224a3ed1ff7b790c8d07e4e7a39
    else if left = olderBlock ∧ right = olderSibling then
      0xfceac7041c39f1dbc1b2ace74c037342e2a31445006d8e85b9450a0aa7d8d280
    else 0
  getHash prove := if prove.vCoinTransferProve.map (·.nTransferAmount) = [5] then transferHash else 0
  genesisBlockHash := createBlockHash 1 0 0 0
  verifyBlockCommitVoteAggSig hashVoteBlock _ _ _ := hashVoteBlock = signedBlock

/-- A prove of the genesis chain: the block before the signed one recorded a transfer. -/
def prove (amount : UInt256) (vCrosschainMerkleProve : MerkleProveData) : BlockProve where
  hashBlock := signedBlock
  btAggSigBitmap := [7]
  btAggSigData := [1]
  hashRefBlock := 0
  vRefBlockMerkleProve := []
  hashPrevBlock := olderBlock
  vPrevBlockMerkleProve := [(1, olderSibling)]
  proveCrosschain := {}
  vCrosschainMerkleProve := []
  vPrevBlockCcProve :=
    [{ hashPrevBlock := 0, vPrevBlockMerkleProve := [], proveCrosschain := transferred amount,
       vCrosschainMerkleProve := vCrosschainMerkleProve }]

def localBlock : UInt256 := createBlockHash 2 9 0 0

/-- With the proof of the transfer in the prove, the transfer is bound to the signed block. -/
theorem crosschain_authenticated_transfer :
    let mapProve := [(1, prove 5 [(1, transferSibling)])]
    checker.verifyBlockCrosschainProve localBlock mapProve = true ∧
      ∀ kv ∈ mapProve, ∀ vd ∈ kv.2.consumed,
        checker.Authenticated (· = signedBlock) kv.1 kv.2 vd.1 vd.2 := by
  have accepted : checker.verifyBlockCrosschainProve localBlock [(1, prove 5 [(1, transferSibling)])] = true := by
    decide +kernel
  refine ⟨accepted, ?_⟩
  apply (checker.crosschain_authenticated_iff (· = signedBlock) _ localBlock _ accepted).2
  · intro kv listed vd taken
    obtain rfl := mem_singleton.1 listed
    obtain rfl : vd = (olderBlock, _) := mem_singleton.1 taken
    refine ⟨.single ⟨by decide, _, mem_cons_self, rfl, by decide⟩, by decide, by decide⟩
  · intro hashVoteBlock _ _ _ signed
    exact of_decide_eq_true signed

/-- A transfer of any amount is taken over with no proof at all. -/
theorem forged_transfer_accepted :
    let mapProve := [(1, prove 1000000 [])]
    checker.verifyBlockCrosschainProve localBlock mapProve = true ∧
      ∃ kv ∈ mapProve, ∃ vd ∈ kv.2.consumed, ¬checker.Authenticated (· = signedBlock) kv.1 kv.2 vd.1 vd.2 := by
  refine ⟨by decide +kernel, _, mem_singleton_self _, _, mem_singleton_self _, ?_⟩
  intro bound
  exact bound.carried rfl

end Sample

end HashAhead.Chain

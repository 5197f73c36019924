import HashAhead.Block.Header

/-! Merkle proofs of the fields of a header. Each proof that a block gives out is verified against its hash. The other
way round a proof is not bound to a field: its directions and its length are its own, so every node of the two trees
is accepted with its own way up. -/

namespace HashAhead.Block
open Foundation State Chain HashAhead.Stream List MerkleTree HashTree

section Complete
variable (base : TxBase) (b : Stream.Block)

theorem pushProve_spec {hashLeaf : UInt256} {leaves : List UInt256} (mem : hashLeaf ∈ leaves) :
    ∃ prove,
      pushProve hashLeaf (levels (hashPair base) leaves).flatten leaves.length (some []) =
        (some prove, true) ∧
      getMerkleRootByProve (hashPair base) prove hashLeaf = root (hashPair base) 0 leaves := by
  obtain ⟨prove, proved, leads⟩ := buildMerkleProveOf_spec (hashPair base) mem
  rw [buildMerkleTree_eq] at proved leads
  refine ⟨prove, ?_, leads⟩
  rw [pushProve, proved]
  rfl

theorem calcBlockBaseMerkleTreeRoot_spec (present : baseRoot base b ≠ 0) :
    ∃ prevProve refProve,
      calcBlockBaseMerkleTreeRoot base b (some []) (some []) = (baseRoot base b, some prevProve, some refProve) ∧
      getMerkleRootByProve (hashPair base) prevProve b.hashPrev = baseRoot base b ∧
      getMerkleRootByProve (hashPair base) refProve (getRefBlock b) = baseRoot base b := by
  have prevLeaf : b.hashPrev ∈ baseLeaves base b := by simp [baseLeaves]
  have refLeaf : getRefBlock b ∈ baseLeaves base b := by simp [baseLeaves]
  obtain ⟨prevProve, prevMade, prevLeads⟩ := pushProve_spec base prevLeaf
  obtain ⟨refProve, refMade, refLeads⟩ := pushProve_spec base refLeaf
  refine ⟨prevProve, refProve, ?_, prevLeads, refLeads⟩
  unfold calcBlockBaseMerkleTreeRoot
  dsimp only
  rw [buildMerkleTree_eq]
  dsimp only
  rw [if_neg (show root (hashPair base) 0 (baseLeaves base b) ≠ 0 from present), prevMade, refMade]
  rfl

/-- The proofs of the inner tree are continued in the outer one. -/
theorem calcMerkleTreeRootAndProve_spec (present : baseRoot base b ≠ 0) :
    ∃ prevProve refProve crossProve,
      calcMerkleTreeRootAndProve base b (some []) (some []) (some []) =
        (calcMerkleTreeRoot base b, some prevProve, some refProve, some crossProve) ∧
      getMerkleRootByProve (hashPair base) prevProve b.hashPrev = calcMerkleTreeRoot base b ∧
      getMerkleRootByProve (hashPair base) refProve (getRefBlock b) = calcMerkleTreeRoot base b ∧
      getMerkleRootByProve (hashPair base) crossProve b.hashCrosschainMerkleRoot =
        calcMerkleTreeRoot base b := by
  have baseLeaf : baseRoot base b ∈ headLeaves base b := by simp [headLeaves]
  have crossLeaf : b.hashCrosschainMerkleRoot ∈ headLeaves base b := by simp [headLeaves]
  obtain ⟨prevProve, refProve, inner, prevLeads, refLeads⟩ := calcBlockBaseMerkleTreeRoot_spec base b present
  obtain ⟨baseProve, baseMade, baseLeads⟩ := buildMerkleProveOf_spec (hashPair base) baseLeaf
  obtain ⟨crossProve, crossMade, crossLeads⟩ := pushProve_spec base crossLeaf
  rw [buildMerkleTree_eq] at baseMade baseLeads
  rw [calcMerkleTreeRoot_eq]
  refine ⟨prevProve ++ baseProve, refProve ++ baseProve, crossProve, ?_, ?_, ?_, crossLeads⟩
  · unfold calcMerkleTreeRootAndProve
    rw [inner]
    dsimp only
    rw [buildMerkleTree_eq]
    unfold headLeaves at baseMade crossMade
    simp only [Option.isSome_some, Bool.or_self, if_true, baseMade, crossMade]
    rfl
  · exact foldl_append.trans ((congrArg _ prevLeads).trans baseLeads)
  · exact foldl_append.trans ((congrArg _ refLeads).trans baseLeads)

/-- The proofs of the previous block, the reference block and the crosschain root that a block gives out are verified
against its hash. A null hash in place of a root is how the code marks a failure. -/
theorem header_proves_verified (innerPresent : baseRoot base b ≠ 0) (present : calcMerkleTreeRoot base b ≠ 0) :
    ∃ prevProve refProve crossProve,
      getMerkleProve base b (some []) (some []) (some []) = (true, some prevProve, some refProve, some crossProve) ∧
      verifyBlockMerkleProve base (getHash base b) prevProve b.hashPrev = true ∧
      verifyBlockMerkleProve base (getHash base b) refProve (getRefBlock b) = true ∧
      verifyBlockMerkleProve base (getHash base b) crossProve b.hashCrosschainMerkleRoot = true := by
  obtain ⟨prevProve, refProve, crossProve, made, prevLeads, refLeads, crossLeads⟩ :=
    calcMerkleTreeRootAndProve_spec base b innerPresent
  refine ⟨prevProve, refProve, crossProve, ?_, verify_of_root base b prevLeads, verify_of_root base b refLeads,
    verify_of_root base b crossLeads⟩
  rw [getMerkleProve, made]
  exact congrArg (·, some prevProve, some refProve, some crossProve) (decide_eq_true present)

end Complete

section Sound
variable (base : TxBase) (b : Stream.Block)

/-- The way up from the previous block, which is the fourth leaf of the inner tree. -/
def prevPath : MerkleProveData :=
  let hashBase := base.cryptoHash (baseStream b)
  let hashProof := hashUnless base b.mapProof.entries.isEmpty (byteMap.save b.mapProof)
  let hashBloom := hashUnless base b.btBloomData.val.isEmpty b.btBloomData.val
  let tail := hashPair base b.hashReceiptsRoot hashBloom
  [(pdLeft, getRefBlock b), (pdLeft, hashPair base hashBase hashProof), (MerkleTree.pdRight, hashPair base tail tail),
    (MerkleTree.pdRight, b.hashStateRoot),
    (MerkleTree.pdRight, hashPair base b.hashCrosschainMerkleRoot (calcTxMerkleTreeRoot base b))]

/-- The way up from the state root, which is the second leaf of the outer tree. -/
def statePath : MerkleProveData :=
  [(pdLeft, baseRoot base b),
    (MerkleTree.pdRight, hashPair base b.hashCrosschainMerkleRoot (calcTxMerkleTreeRoot base b))]

def prevSides : List Bool := [true, true, false, false, false]

section
variable (hash : UInt256 → UInt256 → UInt256) (first second third fourth : UInt256)

theorem root_of_four :
    root hash 0 [first, second, third, fourth] = hash (hash first second) (hash third fourth) := by
  simp [root, parents, neighbours]

theorem root_of_six (fifth sixth : UInt256) :
    root hash 0 [first, second, third, fourth, fifth, sixth] =
      hash (hash (hash first second) (hash third fourth)) (hash (hash fifth sixth) (hash fifth sixth)) := by
  simp [root, parents, neighbours]

end

theorem sides_prevPath : sides (prevPath base b) = prevSides := rfl

theorem prevPath_leads :
    getMerkleRootByProve (hashPair base) (prevPath base b) b.hashPrev = calcMerkleTreeRoot base b := by
  rw [calcMerkleTreeRoot_eq, headLeaves, root_of_four, baseRoot, baseLeaves, root_of_six]
  rfl

theorem statePath_leads :
    getMerkleRootByProve (hashPair base) (statePath base b) b.hashStateRoot = calcMerkleTreeRoot base b := by
  rw [calcMerkleTreeRoot_eq, headLeaves, root_of_four]
  rfl

end Sound

namespace Sample

def plain : Stream.Block where
  nVersion := 1
  nType := 0x12
  nTimeStamp := 1700000000
  nNumber := 12
  nHeight := 10
  nSlot := 2
  hashPrev := 0x1111
  hashMerkleRoot := 0
  hashStateRoot := 0x2222
  hashReceiptsRoot := 0x3333
  hashCrosschainMerkleRoot := 0x4444
  nGasLimit := 30000000
  nGasUsed := 21000
  mapProof := SortedMap.empty.insert bpPiggyback ⟨proofOfPiggyback.save (1, 0, 0x5555), by decide⟩
  txMint := Stream.Sample.token
  vchSig := default
  btBloomData := ⟨[9], by decide⟩
  vtx := ⟨[Stream.Sample.token], by decide⟩
  mapProve := SortedMap.empty

/-- A prove that names the state root of the block as the block before it. -/
def stateAsPrev (base : TxBase) : BlockPrevProve where
  hashPrevBlock := plain.hashStateRoot
  vPrevBlockMerkleProve := statePath base plain
  proveCrosschain := {}
  vCrosschainMerkleProve := []

def mixing : TxBase where
  cryptoHash stream := BitVec.ofNat 256 (stream.foldl (fun mixed byte => (mixed * 257 + byte.toNat + 1) % 1000003) 7)
  readEthTx _ := none

theorem baseRoot_plain : baseRoot mixing plain ≠ 0 := by
  rw [baseRoot, baseLeaves, root_of_six]
  decide +kernel

theorem calcMerkleTreeRoot_plain : calcMerkleTreeRoot mixing plain ≠ 0 := by
  rw [calcMerkleTreeRoot_eq, headLeaves, root_of_four, baseRoot, baseLeaves, root_of_six]
  decide +kernel

theorem plain_proves_verified :
    baseRoot mixing plain ≠ 0 ∧ calcMerkleTreeRoot mixing plain ≠ 0 ∧ ∃ prevProve refProve crossProve,
      getMerkleProve mixing plain (some []) (some []) (some []) =
        (true, some prevProve, some refProve, some crossProve) ∧
      verifyBlockMerkleProve mixing (getHash mixing plain) prevProve plain.hashPrev = true ∧
      verifyBlockMerkleProve mixing (getHash mixing plain) refProve (getRefBlock plain) = true ∧
      verifyBlockMerkleProve mixing (getHash mixing plain) crossProve plain.hashCrosschainMerkleRoot = true :=
  ⟨baseRoot_plain, calcMerkleTreeRoot_plain, header_proves_verified mixing plain baseRoot_plain calcMerkleTreeRoot_plain⟩

theorem prevPath_mixed : ((climbed (hashPair mixing) (prevPath mixing plain) plain.hashPrev).map
    fun pair => hashPair mixing pair.1 pair.2).Nodup := by
  decide +kernel

end Sample

end HashAhead.Block

import HashAhead.Block.Prove

/-! What the hash of a block commits to. It is computed from hand-listed leaves: the numbers, the roots, the proofs, the
bloom data and the hashes of the transactions, but not the proves of other chains. The tree of the transactions does not
tell a list from the same list with its last node repeated, and the hash of an Ethereum transaction is that of its
packet, without what was added to it. -/

namespace HashAhead.Block
open Foundation Trie State Chain HashAhead.Stream List HashTree Transaction

section Streams
variable (base : TxBase) (b : Stream.Block)

def pairStreams (leaves : List UInt256) : List Bytes :=
  (HashTree.hashed (hashPair base) leaves).map fun pair =>
    littleEndian 32 pair.1.toNat ++ littleEndian 32 pair.2.toNat

def unlessEmpty (nothing : Bool) (stream : Bytes) : List Bytes := if nothing then [] else [stream]

/-- All that is hashed for the root of a block, apart from the transactions themselves. -/
def hashedStreams : List Bytes :=
  pairStreams base (headLeaves base b) ++ pairStreams base (baseLeaves base b) ++ pairStreams base (txHashes base b) ++
    baseStream b :: (unlessEmpty b.mapProof.entries.isEmpty (byteMap.save b.mapProof) ++
      unlessEmpty b.btBloomData.val.isEmpty b.btBloomData.val)

theorem word_bytes_injective {word other : UInt256} (same : littleEndian 32 word.toNat = littleEndian 32 other.toNat) :
    word = other := by
  rw [← word_of_bytes word, same, word_of_bytes other]

variable {base} {b}

theorem injOn_pairs {streams : Set Bytes} {leaves others : List UInt256} (inj : Set.InjOn base.cryptoHash streams)
    (here : ∀ stream ∈ pairStreams base leaves, stream ∈ streams)
    (there : ∀ stream ∈ pairStreams base others, stream ∈ streams) :
    Set.InjOn (fun pair : UInt256 × UInt256 => hashPair base pair.1 pair.2)
      {pair | pair ∈ hashed (hashPair base) leaves ∨ pair ∈ hashed (hashPair base) others} := by
  have hashedIn : ∀ pair, (pair ∈ hashed (hashPair base) leaves ∨ pair ∈ hashed (hashPair base) others) →
      littleEndian 32 pair.1.toNat ++ littleEndian 32 pair.2.toNat ∈ streams := by
    rintro pair (mem | mem)
    · exact here _ (List.mem_map_of_mem mem)
    · exact there _ (List.mem_map_of_mem mem)
  intro pair mem other memberOther same
  obtain ⟨first, second⟩ := append_inj (inj (hashedIn pair mem) (hashedIn other memberOther) same)
    (by rw [length_littleEndian, length_littleEndian])
  exact Prod.ext (word_bytes_injective first) (word_bytes_injective second)

theorem hashUnless_eq {streams : Set Bytes} {nothing nothingOther : Bool} {stream other : Bytes}
    (inj : Set.InjOn base.cryptoHash streams) (notNull : ∀ stream ∈ streams, base.cryptoHash stream ≠ 0)
    (here : ∀ s ∈ unlessEmpty nothing stream, s ∈ streams) (there : ∀ s ∈ unlessEmpty nothingOther other, s ∈ streams)
    (same : hashUnless base nothing stream = hashUnless base nothingOther other) :
    nothing = nothingOther ∧ (nothing = false → stream = other) := by
  unfold unlessEmpty at here there
  unfold hashUnless at same
  cases nothing with
  | true =>
    cases nothingOther with
    | true => exact ⟨rfl, fun present => absurd present (by decide)⟩
    | false => exact absurd same.symm (notNull other (there other (by simp)))
  | false =>
    cases nothingOther with
    | true => exact absurd same (notNull stream (here stream (by simp)))
    | false => exact ⟨rfl, fun _ => inj (here stream (by simp)) (there other (by simp)) same⟩

end Streams

theorem length_headLeaves (base : TxBase) (b : Stream.Block) : (headLeaves base b).length = 4 := rfl

theorem length_baseLeaves (base : TxBase) (b : Stream.Block) : (baseLeaves base b).length = 6 := rfl

section Roots
variable {base : TxBase} {b c : Stream.Block}
  (inj : Set.InjOn base.cryptoHash {stream | stream ∈ hashedStreams base b ∨ stream ∈ hashedStreams base c})
include inj

section
variable (same : calcMerkleTreeRoot base b = calcMerkleTreeRoot base c)
include same

/-- The root of a block determines the leaves of the outer tree. -/
theorem headLeaves_eq :
    headLeaves base b = headLeaves base c := by
  rw [calcMerkleTreeRoot_eq, calcMerkleTreeRoot_eq] at same
  have lengths := (length_headLeaves base b).trans (length_headLeaves base c).symm
  refine eq_of_root_eq (hashPair base) lengths (injOn_pairs inj ?_ ?_) same
  · exact fun stream mem => Or.inl (by simp [hashedStreams, mem])
  · exact fun stream mem => Or.inr (by simp [hashedStreams, mem])

theorem baseLeaves_eq :
    baseLeaves base b = baseLeaves base c := by
  have inner : baseRoot base b = baseRoot base c := (List.cons.inj (headLeaves_eq inj same)).1
  have lengths := (length_baseLeaves base b).trans (length_baseLeaves base c).symm
  refine eq_of_root_eq (hashPair base) lengths (injOn_pairs inj ?_ ?_) inner
  · exact fun stream mem => Or.inl (by simp [hashedStreams, mem])
  · exact fun stream mem => Or.inr (by simp [hashedStreams, mem])

theorem calcTxMerkleTreeRoot_eq :
    calcTxMerkleTreeRoot base b = calcTxMerkleTreeRoot base c := by
  have leaves := headLeaves_eq inj same
  unfold headLeaves at leaves
  simp only [List.cons.injEq] at leaves
  exact leaves.2.2.2.1

end

theorem txHashes_eq (count : b.vtx.val.length = c.vtx.val.length)
    (same : calcTxMerkleTreeRoot base b = calcTxMerkleTreeRoot base c) : txHashes base b = txHashes base c := by
  unfold calcTxMerkleTreeRoot at same
  rw [MerkleTree.buildMerkleTree_eq, MerkleTree.buildMerkleTree_eq] at same
  refine eq_of_root_eq (hashPair base) ?_ (injOn_pairs inj ?_ ?_) same
  · simp [txHashes, txs, count]
  · exact fun stream mem => Or.inl (by simp [hashedStreams, mem])
  · exact fun stream mem => Or.inr (by simp [hashedStreams, mem])

end Roots

section TxRoot
variable (base : TxBase) (b c : Stream.Block)

/-- Two blocks with the same transaction root, or with the same hash, have the same transaction hashes exactly if they
have the same number of transactions. -/
theorem tx_root_commits_iff
    (injective : Set.InjOn base.cryptoHash {stream | stream ∈ hashedStreams base b ∨ stream ∈ hashedStreams base c})
    (determined : getHash base b = getHash base c → calcMerkleTreeRoot base b = calcMerkleTreeRoot base c)
    (same : calcTxMerkleTreeRoot base b = calcTxMerkleTreeRoot base c ∨ getHash base b = getHash base c) :
    txHashes base b = txHashes base c ↔ b.vtx.val.length = c.vtx.val.length := by
  constructor
  · intro hashes
    have lengths := congrArg List.length hashes
    simpa [txHashes, txs] using lengths
  · intro count
    rcases same with sameRoot | sameHash
    · exact txHashes_eq injective count sameRoot
    · exact txHashes_eq injective count (calcTxMerkleTreeRoot_eq injective (determined sameHash))

end TxRoot

theorem byteMap_eq_of_entries {mapProof other : ByteMap} (same : mapProof.entries = other.entries) : mapProof = other := by
  cases mapProof
  cases other
  cases same
  rfl

section Body
variable (base : TxBase)

def ethLink (tx : TxFields) : Option ByteVec := if tx.isEthTx then tx.mapTxData.find dfToAddressData else none

/-- What the hash of a transaction is taken of: the transaction in the packet, or the fields as they are written. -/
def identity (tx : Transaction) : Option EthTx ⊕ Bytes :=
  if tx.isEthTx then .inl (base.readEthTx tx.btEthTx.val) else .inr ((Transaction.codec base).save tx)

/-- A transaction of an Ethereum type was made from its packet: nothing else sets its fields. -/
def Built (tx : Transaction) : Prop :=
  tx.isEthTx = true → ∃ ethtx fLinkPubkeyAddress, base.readEthTx tx.btEthTx.val = some ethtx ∧
    tx = Transaction.ofEthTx ethtx tx.btEthTx fLinkPubkeyAddress

/-- What is serialized of a block and read when it is executed. Left out are its signature, the field that is checked to
be the root, and the packets of Ethereum transactions, which are read through the fields. -/
def content (b : Stream.Block) :=
  ((b.nVersion, b.nType, b.nTimeStamp, b.nNumber, b.nHeight, b.nSlot, b.nGasLimit, b.nGasUsed),
    (b.hashPrev, b.hashStateRoot, b.hashReceiptsRoot, b.hashCrosschainMerkleRoot), b.mapProof, b.btBloomData,
    (txs b).map Transaction.toTxFields, b.mapProve)

variable {base}

/-- Only the flag puts the address data into a transaction that is read from a packet. -/
theorem ethLink_ofEthTx (ethtx : EthTx) (btTxPacket : ByteVec) (links : Bool) :
    ethLink (ofEthTx ethtx btTxPacket links).toTxFields =
      if links then some pubkeyAddressData else none := by
  have isEth := ethtx.isEthTx_nType (ofEthTx ethtx btTxPacket links).toTxFields rfl
  rw [ethLink, if_pos isEth]
  cases links with
  | true => exact (SortedMap.find_insert _ _ _ _).trans (if_pos rfl)
  | false =>
    show SortedMap.find (if ethtx.data.val = [] then .empty else SortedMap.empty.insert dfEthTxData ethtx.data)
      dfToAddressData = none
    split
    · rfl
    · rw [SortedMap.find_insert, if_neg (by decide), SortedMap.find_empty]

/-- The fields of a transaction are determined by what is hashed and what was added. -/
theorem toTxFields_eq {tx other : Transaction} (built : Built base tx) (builtOther : Built base other)
    (same : identity base tx = identity base other) (link : ethLink tx.toTxFields = ethLink other.toTxFields) :
    tx.toTxFields = other.toTxFields := by
  unfold identity at same
  cases kind : tx.isEthTx with
  | false =>
    cases kindOther : other.isEthTx with
    | false =>
      rw [kind, kindOther] at same
      have loaded := result_load_plain base kind []
      rw [Sum.inr.inj same, result_load_plain base kindOther []] at loaded
      rw [(Prod.mk.inj (Option.some.inj loaded)).1]
    | true => simp [kind, kindOther] at same
  | true =>
    cases kindOther : other.isEthTx with
    | false => simp [kind, kindOther] at same
    | true =>
      obtain ⟨ethtx, flag, read, made⟩ := built kind
      obtain ⟨ethtxOther, flagOther, readOther, madeOther⟩ := builtOther kindOther
      rw [kind, kindOther, if_pos rfl, if_pos rfl, read, readOther] at same
      have sameTx : ethtx = ethtxOther := Option.some.inj (Sum.inl.inj same)
      rw [made, madeOther, ethLink_ofEthTx, ethLink_ofEthTx] at link
      have sameFlag : flag = flagOther := by
        cases flag <;> cases flagOther <;> first | rfl | exact absurd link (by simp)
      rw [made, madeOther, sameTx, sameFlag]
      rfl

theorem map_toTxFields_eq {list others : List Transaction} (built : ∀ tx ∈ list, Built base tx)
    (builtOthers : ∀ tx ∈ others, Built base tx)
    (identified : ∀ tx ∈ list, ∀ other ∈ others,
      Transaction.getHash base tx = Transaction.getHash base other → identity base tx = identity base other)
    (hashes : list.map (Transaction.getHash base) = others.map (Transaction.getHash base))
    (links : list.map (ethLink ·.toTxFields) = others.map (ethLink ·.toTxFields)) :
    list.map toTxFields = others.map toTxFields := by
  induction list generalizing others with
  | nil =>
    match others, hashes with
    | [], _ => rfl
  | cons tx rest ih =>
    match others, hashes, links with
    | other :: restOthers, hashes, links =>
      obtain ⟨hash, hashesRest⟩ := List.cons.inj hashes
      obtain ⟨link, linksRest⟩ := List.cons.inj links
      have fields := toTxFields_eq (built tx mem_cons_self) (builtOthers other mem_cons_self)
        (identified tx mem_cons_self other mem_cons_self hash) link
      rw [map_cons, map_cons, fields]
      congr 1
      exact ih (fun tx mem => built tx (mem_cons_of_mem _ mem))
        (fun tx mem => builtOthers tx (mem_cons_of_mem _ mem))
        (fun tx mem other memberOther =>
          identified tx (mem_cons_of_mem _ mem) other (mem_cons_of_mem _ memberOther))
        hashesRest linksRest

variable {b c : Stream.Block}

/-- The root determines the numbers, the roots, the proofs and the bloom data. -/
theorem header_fields_eq
    (inj : Set.InjOn base.cryptoHash {stream | stream ∈ hashedStreams base b ∨ stream ∈ hashedStreams base c})
    (notNull : ∀ stream, stream ∈ hashedStreams base b ∨ stream ∈ hashedStreams base c → base.cryptoHash stream ≠ 0)
    (same : calcMerkleTreeRoot base b = calcMerkleTreeRoot base c) :
    baseStream b = baseStream c ∧ b.hashPrev = c.hashPrev ∧ b.hashStateRoot = c.hashStateRoot ∧
      b.hashReceiptsRoot = c.hashReceiptsRoot ∧ b.hashCrosschainMerkleRoot = c.hashCrosschainMerkleRoot ∧
      b.mapProof = c.mapProof ∧ b.btBloomData = c.btBloomData := by
  have head := headLeaves_eq inj same
  have inner := baseLeaves_eq inj same
  simp only [headLeaves, baseLeaves, List.cons.injEq] at head inner
  obtain ⟨-, stateRoot, cross, -⟩ := head
  obtain ⟨numbers, proof, -, prev, receipts, bloom, -⟩ := inner
  have numbersSame : baseStream b = baseStream c :=
    inj (Or.inl (by simp [hashedStreams])) (Or.inr (by simp [hashedStreams])) numbers
  have proofSame := hashUnless_eq inj notNull (fun stream mem => Or.inl (by simp [hashedStreams, mem]))
    (fun stream mem => Or.inr (by simp [hashedStreams, mem])) proof
  have bloomSame := hashUnless_eq inj notNull (fun stream mem => Or.inl (by simp [hashedStreams, mem]))
    (fun stream mem => Or.inr (by simp [hashedStreams, mem])) bloom
  refine ⟨numbersSame, prev, stateRoot, receipts, cross, ?_, ?_⟩
  · cases empty : b.mapProof.entries.isEmpty with
    | true =>
      have emptyOther := proofSame.1 ▸ empty
      apply byteMap_eq_of_entries
      rw [List.isEmpty_iff.1 empty, List.isEmpty_iff.1 emptyOther]
    | false => exact byteMap_sound.save_injective (proofSame.2 empty)
  · cases empty : b.btBloomData.val.isEmpty with
    | true =>
      have emptyOther := bloomSame.1 ▸ empty
      apply Subtype.ext
      rw [List.isEmpty_iff.1 empty, List.isEmpty_iff.1 emptyOther]
    | false => exact Subtype.ext (bloomSame.2 empty)

/-- Two blocks with the same hash have the same content exactly if they carry the same proves and the same was added to
their Ethereum transactions, of which they have as many. -/
theorem block_hash_commits_iff (base : TxBase) (b c : Stream.Block)
    (injective : Set.InjOn base.cryptoHash {stream | stream ∈ hashedStreams base b ∨ stream ∈ hashedStreams base c})
    (notNull : ∀ stream, stream ∈ hashedStreams base b ∨ stream ∈ hashedStreams base c → base.cryptoHash stream ≠ 0)
    (identified : ∀ tx ∈ txs b, ∀ other ∈ txs c,
      Transaction.getHash base tx = Transaction.getHash base other → identity base tx = identity base other)
    (built : ∀ tx, tx ∈ txs b ∨ tx ∈ txs c → Built base tx)
    (determined : getHash base b = getHash base c → calcMerkleTreeRoot base b = calcMerkleTreeRoot base c)
    (same : getHash base b = getHash base c) :
    content b = content c ↔ b.mapProve = c.mapProve ∧
      (txs b).map (ethLink ·.toTxFields) = (txs c).map (ethLink ·.toTxFields) := by
  constructor
  · intro contents
    simp only [content, Prod.mk.injEq] at contents
    refine ⟨contents.2.2.2.2.2, ?_⟩
    have fields := congrArg (List.map ethLink) contents.2.2.2.2.1
    rw [List.map_map, List.map_map] at fields
    exact fields
  · rintro ⟨proves, links⟩
    have root := determined same
    have count : b.vtx.val.length = c.vtx.val.length := by
      have lengths := congrArg List.length links
      simpa [txs] using lengths
    have hashes := txHashes_eq injective count (calcTxMerkleTreeRoot_eq injective root)
    have fields := map_toTxFields_eq (fun tx member => built tx (Or.inl member))
      (fun tx member => built tx (Or.inr member)) identified hashes links
    obtain ⟨numbers, prev, stateRoot, receipts, cross, proof, bloom⟩ := header_fields_eq injective notNull root
    have numbersSame := baseFields_sound.save_injective numbers
    unfold content
    rw [numbersSame, prev, stateRoot, receipts, cross, proof, bloom, fields, proves]

end Body

namespace Sample

def two : Stream.Block := { plain with vtx := ⟨[Stream.Sample.token, Stream.Sample.token], by decide⟩ }

def padded : Stream.Block :=
  { plain with vtx := ⟨[Stream.Sample.token, Stream.Sample.token, Stream.Sample.token], by decide⟩ }

variable (hash : UInt256 → UInt256 → UInt256) (first : UInt256)

variable (second third : UInt256)

theorem root_of_three :
    root hash 0 [first, second, third] = root hash 0 [first, second, third, third] := by
  simp [root, parents, neighbours]

/-- Whatever the hash function, the two blocks have the same transaction root and the same hash. -/
theorem padded_tx_root : two.vtx.val.length ≠ padded.vtx.val.length ∧ ∀ base : TxBase,
    calcTxMerkleTreeRoot base two = calcTxMerkleTreeRoot base padded ∧ getHash base two = getHash base padded ∧
      txHashes base two ≠ txHashes base padded := by
  refine ⟨by decide, fun base => ?_⟩
  have txRoot : calcTxMerkleTreeRoot base two = calcTxMerkleTreeRoot base padded := by
    unfold calcTxMerkleTreeRoot
    rw [MerkleTree.buildMerkleTree_eq, MerkleTree.buildMerkleTree_eq]
    exact root_of_three _ _ _ _
  refine ⟨txRoot, ?_, ?_⟩
  · have inner : baseRoot base two = baseRoot base padded := rfl
    have leaves : headLeaves base two = headLeaves base padded := by
      rw [headLeaves, headLeaves, txRoot, inner]
      rfl
    rw [getHash, getHash, calcMerkleTreeRoot_eq, calcMerkleTreeRoot_eq, leaves]
    rfl
  · intro hashes
    exact absurd (congrArg List.length hashes) (by simp [txHashes, txs, two, padded])

def prove : BlockProve where
  hashBlock := 0x77
  btAggSigBitmap := [1]
  btAggSigData := [2]
  hashRefBlock := 0
  vRefBlockMerkleProve := []
  vPrevBlockCcProve := []
  hashPrevBlock := 0
  vPrevBlockMerkleProve := []
  proveCrosschain := {}
  vCrosschainMerkleProve := []

def proving : Stream.Block := { plain with mapProve := SortedMap.empty.insert 5 prove }

/-- Whatever the hash function, a block keeps its hash when a prove is put into it. -/
theorem prove_not_hashed : plain.mapProve ≠ proving.mapProve ∧ content plain ≠ content proving ∧
    ∀ base : TxBase, getHash base plain = getHash base proving := by
  have differ : plain.mapProve ≠ proving.mapProve := by
    intro same
    have found := congrArg (fun m => (SortedMap.find m 5).isSome) same
    exact absurd found (by decide)
  refine ⟨differ, ?_, fun _ => rfl⟩
  intro same
  simp only [content, Prod.mk.injEq] at same
  exact differ same.2.2.2.2.2

def signed : Stream.Block := { plain with vchSig := ⟨[1, 2, 3], by decide⟩ }

theorem hashes_plain :
    (hashedStreams mixing plain).map mixing.cryptoHash =
      [198011, 553666, 83515, 169207, 733447, 623785, 826918, 698852, 233316, 456493, 901423, 688088, 1809] := by
  simp only [hashedStreams, pairStreams, headLeaves, baseLeaves, baseRoot, root_of_six]
  rw [show txHashes mixing plain = [Transaction.getHash mixing Stream.Sample.token,
    Transaction.getHash mixing Stream.Sample.token] from rfl]
  simp only [hashed, parents, neighbours, length_cons, length_nil, zero_add, Nat.reduceAdd, Nat.reduceLT, ↓reduceIte,
    map_cons, map_nil, append_nil, cons_append, nil_append]
  decide +kernel

theorem hashedStreams_signed (base : TxBase) : hashedStreams base signed = hashedStreams base plain := rfl

theorem calcMerkleTreeRoot_signed (base : TxBase) : calcMerkleTreeRoot base plain = calcMerkleTreeRoot base signed := rfl

theorem getHash_signed (base : TxBase) : getHash base plain = getHash base signed := rfl

theorem txs_plain : ∀ tx ∈ txs plain, tx = Stream.Sample.token := by simp [txs, plain]

theorem mem_plain {stream : Bytes}
    (mem : stream ∈ hashedStreams mixing plain ∨ stream ∈ hashedStreams mixing signed) :
    stream ∈ hashedStreams mixing plain := by
  rw [hashedStreams_signed, or_self] at mem
  exact mem

theorem injOn_plain : Set.InjOn mixing.cryptoHash
    {stream | stream ∈ hashedStreams mixing plain ∨ stream ∈ hashedStreams mixing signed} := by
  have nodup : ((hashedStreams mixing plain).map mixing.cryptoHash).Nodup := by
    rw [hashes_plain]
    decide
  intro stream mem other memberOther
  exact inj_on_of_nodup_map nodup (mem_plain mem) (mem_plain memberOther)

theorem plain_tx_root_commits :
    txHashes mixing plain = txHashes mixing signed ↔ plain.vtx.val.length = signed.vtx.val.length :=
  tx_root_commits_iff mixing plain signed injOn_plain (fun _ => calcMerkleTreeRoot_signed mixing)
    (Or.inr (getHash_signed mixing))

theorem plain_block_hash_commits :
    content plain = content signed ↔ plain.mapProve = signed.mapProve ∧
      (txs plain).map (ethLink ·.toTxFields) = (txs signed).map (ethLink ·.toTxFields) := by
  apply block_hash_commits_iff mixing plain signed injOn_plain
  · intro stream member
    have hashed : mixing.cryptoHash stream ∈ (hashedStreams mixing plain).map mixing.cryptoHash :=
      List.mem_map_of_mem (mem_plain member)
    rw [hashes_plain] at hashed
    intro null
    rw [null] at hashed
    exact absurd hashed (by decide)
  · intro tx member other memberOther _
    rw [txs_plain tx member, txs_plain other memberOther]
  · intro tx member isEth
    rw [txs_plain tx (member.elim id id)] at isEth
    exact absurd isEth (by decide)
  · exact fun _ => calcMerkleTreeRoot_signed mixing
  · exact getHash_signed mixing

end Sample

end HashAhead.Block

import HashAhead.Stream.Field

/-! `CTransaction` in a stream. A transaction of the Ethereum types is written as the packet it came in; any other is
written field by field, with the numbers as variable-length integers and the words without their leading zeros. -/

namespace HashAhead.Stream
open Foundation Trie State Chain

def txEthCreateContract : UInt8 := 0x11
def txEthMessageCall : UInt8 := 0x12

def dfEthTxData : UInt8 := 0x05
def dfToAddressData : UInt8 := 0x11

/-- The fields of `CTransaction` that `operator==` compares. -/
structure TxFields where
  nType : UInt8
  nChainId : ChainId
  nTxNonce : UInt64
  destFrom : Destination
  destTo : Destination
  nAmount : UInt256
  nGasPrice : UInt256
  nGasLimit : UInt256
  mapTxData : ByteMap
  vchSig : ByteVec

def TxFields.isEthTx (tx : TxFields) : Bool := tx.nType = txEthCreateContract || tx.nType = txEthMessageCall

/-- `CTransaction`. Only `SetEthTxPacket` sets the packet and its id, and with them a type that no setter changes. -/
structure Transaction extends TxFields where
  btEthTx : ByteVec
  txidEthTx : UInt256
  unset : toTxFields.isEthTx = false → btEthTx = default ∧ txidEthTx = 0

/-- What `TransactionBase` reads from a packet. -/
structure EthTx where
  isCreation : Bool
  chainId : ChainId
  nonce : UInt64
  sender : Destination
  receiver : Destination
  value : UInt256
  gasPrice : UInt256
  gas : UInt256
  signature : ByteVec
  data : ByteVec
  sha3 : UInt256
  /-- `sha3(WithoutSignature)` -/
  signatureHash : UInt256

structure TxBase where
  /-- `CryptoHash` of a stream -/
  cryptoHash : Bytes → UInt256
  /-- The constructor of `TransactionBase`, unless it throws -/
  readEthTx : Bytes → Option EthTx

/-- `CAddressContext`: the type and the data -/
def addressContext : Codec (UInt8 × ByteVec) := pair byte bytes

/-- `CAddressContext(CPubkeyAddressContext())` as it is saved -/
def pubkeyAddressData : ByteVec := ⟨addressContext.save (packType destTypePubkey 0, default), by decide⟩

namespace TxFields
variable (tx : TxFields)

/-- `GetToAddressData` with a public key address -/
def isLinkPubkeyAddress : Bool :=
  match tx.mapTxData.find dfToAddressData with
  | none => false
  | some btAddressData =>
    match addressContext.load.result btAddressData.val with
    | none => false
    | some (ctxAddress, _) => ctxAddress.1 >>> 5 = destTypePubkey

end TxFields

abbrev PlainFields :=
  ChainId × UInt64 × Destination × Destination × UInt256 × UInt256 × UInt256 × ByteMap × ByteVec

def plainFields : Codec PlainFields :=
  pair varInt32 <| pair varInt64 <| pair shortDestination <| pair shortDestination <| pair shortUint256 <|
    pair shortUint256 <| pair shortUint256 <| pair byteMap bytes

theorem plainFields_sound : plainFields.Sound :=
  pair_sound varInt32_sound <| pair_sound varInt64_sound <| pair_sound shortDestination_sound <|
    pair_sound shortDestination_sound <| pair_sound shortUint256_sound <| pair_sound shortUint256_sound <|
    pair_sound shortUint256_sound <| pair_sound byteMap_sound bytes_sound

/-- `fLinkPubkeyAddress` and the packet -/
def ethFields : Codec (UInt8 × ByteVec) := pair byte bytes

def TxFields.plain (tx : TxFields) : PlainFields :=
  (tx.nChainId, tx.nTxNonce, tx.destFrom, tx.destTo, tx.nAmount, tx.nGasPrice, tx.nGasLimit, tx.mapTxData, tx.vchSig)

def TxFields.ofPlain (nType : UInt8) : PlainFields → TxFields
  | (nChainId, nTxNonce, destFrom, destTo, nAmount, nGasPrice, nGasLimit, mapTxData, vchSig) =>
    ⟨nType, nChainId, nTxNonce, destFrom, destTo, nAmount, nGasPrice, nGasLimit, mapTxData, vchSig⟩

/-- The types of `SetEthTxPacket` -/
def EthTx.nType (ethtx : EthTx) : UInt8 := if ethtx.isCreation then txEthCreateContract else txEthMessageCall

theorem EthTx.isEthTx_nType (ethtx : EthTx) (tx : TxFields) (same : tx.nType = ethtx.nType) : tx.isEthTx = true := by
  unfold TxFields.isEthTx
  rw [same, EthTx.nType]
  split <;> decide

namespace Transaction

/-- `CTransaction::SetEthTxPacket` into an empty transaction, and `PrSetToAddressData` if the flag is set -/
def ofEthTx (ethtx : EthTx) (btTxPacket : ByteVec) (fLinkPubkeyAddress : Bool) : Transaction :=
  let mapTxData : ByteMap := if ethtx.data.val = [] then .empty else SortedMap.empty.insert dfEthTxData ethtx.data
  let fields : TxFields :=
    { nType := ethtx.nType
      nChainId := ethtx.chainId
      nTxNonce := ethtx.nonce
      destFrom := ethtx.sender
      destTo := ethtx.receiver
      nAmount := ethtx.value
      nGasPrice := ethtx.gasPrice
      nGasLimit := ethtx.gas
      mapTxData := if fLinkPubkeyAddress then mapTxData.insert dfToAddressData pubkeyAddressData else mapTxData
      vchSig := ethtx.signature }
  { fields with
    btEthTx := btTxPacket
    txidEthTx := ethtx.sha3
    unset := fun plain => absurd (ethtx.isEthTx_nType fields rfl) (by rw [plain]; decide) }

variable (base : TxBase)

/-- `CTransaction::Serialize`. The size pass assigns the counter, and writes the flag of an Ethereum packet as set. -/
def codec : Codec Transaction where
  save tx :=
    byte.save tx.nType ++
      if tx.isEthTx then ethFields.save (if tx.isLinkPubkeyAddress then 1 else 0, tx.btEthTx)
      else plainFields.save tx.plain
  load := do
    let nType ← byte.load
    if nType = txEthCreateContract || nType = txEthMessageCall then
      let (fLinkPubkeyAddress, btEthTxData) ← ethFields.load
      match base.readEthTx btEthTxData.val with
      | none => Loader.throw
      | some ethtx => pure (ofEthTx ethtx btEthTxData (fLinkPubkeyAddress ≠ 0))
    else
      let fields ← plainFields.load
      pure { TxFields.ofPlain nType fields with
        btEthTx := default, txidEthTx := 0, unset := fun _ => ⟨rfl, rfl⟩ }
  size tx _ :=
    (byte.save tx.nType ++
      if tx.isEthTx then ethFields.save (1, tx.btEthTx) else plainFields.save tx.plain).length

def getHash (tx : Transaction) : UInt256 :=
  if tx.isEthTx then tx.txidEthTx else base.cryptoHash ((codec base).save tx)

def getSignatureHash (tx : Transaction) : UInt256 :=
  if tx.isEthTx then ((base.readEthTx tx.btEthTx.val).map EthTx.signatureHash).getD 0
  else base.cryptoHash (byte.save tx.nType ++ uint32.save tx.nChainId ++ uint64.save tx.nTxNonce ++
    destination.save tx.destFrom ++ destination.save tx.destTo ++ uint256.save tx.nAmount ++
    uint256.save tx.nGasPrice ++ uint256.save tx.nGasLimit ++ byteMap.save tx.mapTxData)

theorem result_load_plain {tx : Transaction} (plain : tx.isEthTx = false) (rest : Bytes) :
    (codec base).load.result ((codec base).save tx ++ rest) = some (tx, rest) := by
  have notEth : ¬((tx.nType = txEthCreateContract || tx.nType = txEthMessageCall) = true) := by
    rw [← TxFields.isEthTx, plain]
    decide
  simp only [codec, plain, Bool.false_eq_true, if_false, List.append_assoc, Loader.result_bind, byte_sound.load_save,
    Option.bind_some, if_neg notEth, plainFields_sound.load_save, Loader.result_pure]
  obtain ⟨noPacket, noId⟩ := tx.unset plain
  cases tx
  simp_all [TxFields.plain, TxFields.ofPlain]

/-- A transaction that is not of an Ethereum type comes back from its bytes with all fields, so with the same hashes,
and what follows it in the stream is left. -/
theorem plain_transaction_loads_back (tx : Transaction) (plain : tx.isEthTx = false) (rest : Bytes) :
    ∃ loaded, (codec base).load.result ((codec base).save tx ++ rest) = some (loaded, rest) ∧ loaded = tx ∧
      getHash base loaded = getHash base tx ∧ getSignatureHash base loaded = getSignatureHash base tx :=
  ⟨tx, result_load_plain base plain rest, rfl, rfl, rfl⟩

end Transaction

namespace Sample

def base : TxBase where
  cryptoHash stream := BitVec.ofNat 256 (ofLittleEndian stream)
  readEthTx _ := none

def token : Transaction where
  nType := 0x02
  nChainId := 201
  nTxNonce := 300
  destFrom := 0xA1
  destTo := 0
  nAmount := 10 ^ 18
  nGasPrice := 0
  nGasLimit := 21000
  mapTxData := SortedMap.empty.insert 0x18 ⟨[1, 2], by decide⟩
  vchSig := default
  btEthTx := default
  txidEthTx := 0
  unset _ := ⟨rfl, rfl⟩

theorem token_loads_back : token.isEthTx = false ∧
    ∃ loaded, (Transaction.codec base).load.result ((Transaction.codec base).save token ++ [7]) = some (loaded, [7]) ∧
      loaded = token ∧ Transaction.getHash base loaded = Transaction.getHash base token ∧
      Transaction.getSignatureHash base loaded = Transaction.getSignatureHash base token :=
  ⟨by decide, Transaction.plain_transaction_loads_back base token (by decide) [7]⟩

end Sample

end HashAhead.Stream

import HashAhead.State.Transfer

/-! Contract code that was saved in the block, read back before the caches are flushed. The run code is found again.
Of the create code only the presence in the cache is read, and the answer has the fields of a new context. -/

namespace HashAhead.State
open Foundation Trie

theorem ContractDestCodeContext.ofStream_toStream (ctx : ContractDestCodeContext) : ofStream ctx.toStream = some ctx := by
  have owner : BitVec.ofNat 160 (ofLittleEndian (littleEndian 20 ctx.destCodeOwner.toNat)) = ctx.destCodeOwner := by
    rw [ofLittleEndian_littleEndian 20 _ ctx.destCodeOwner.isLt, BitVec.ofNat_toNat, BitVec.setWidth_eq]
  simp [ofStream, toStream, List.drop_append, List.take_of_length_le, List.drop_eq_nil_of_le,
    word_of_bytes, owner]

namespace BlockState

/-- `CBlockState::GetContractCreateCode`, with the answers of `GetBlockContractCreateCodeData`. -/
def getContractCreateCode (s : BlockState) (getBlockContractCreateCodeData : UInt256 → Option TxContractData)
    (destContractIn : Destination) : Option TxContractData := do
  let btDestCodeData ← s.getDestKvData destContractIn (toHash destContractIn)
  let ctxDestCode ← ContractDestCodeContext.ofStream btDestCodeData
  if s.dbBlockBase.verifyFhxHeightBranch001 s.nPrevHeight ∧
      (s.mapCacheContractCreateCodeContext ctxDestCode.hashContractCreateCode).isSome then
    -- `ctxtCode` is never assigned from the entry that was found
    let ctxtCode : ContractCreateCodeContext := ⟨[], [], [], 0, [], 0, 0, 0⟩
    some ⟨.create, ctxtCode.strType, ctxtCode.strName, ctxtCode.destCodeOwner, 0, ctxtCode.strDescribe, 0,
      ctxtCode.btCreateCode, 0, []⟩
  else getBlockContractCreateCodeData ctxDestCode.hashContractCreateCode

structure CodeRead (s : BlockState) (codec : Codec) (stored : UInt256 → Option TxContractData) (dest : Destination)
    (btContractRunCode : Bytes) (txcd : TxContractData) : Prop where
  run : s.getContractRunCode dest = some (.code ⟨txcd.getContractCreateCodeHash codec,
    codec.cryptoKeccakHash btContractRunCode, txcd.destCodeOwner⟩ btContractRunCode)
  create : ∃ txcdOut, s.getContractCreateCode stored dest = some txcdOut ∧ txcdOut.strType = txcd.strType ∧
    txcdOut.strName = txcd.strName ∧ txcdOut.getDescribe codec = txcd.getDescribe codec ∧
    txcdOut.destCodeOwner = txcd.destCodeOwner ∧ txcdOut.getCode codec = txcd.getCode codec

section
variable {codec : Codec} {s s' : BlockState} {dest : Destination} {run : Bytes} {txcd : TxContractData}
  {txidCreate : UInt256} (active : s.dbBlockBase.verifyFhxHeightBranch001 s.nPrevHeight = true)
  (saved : s.saveContractRunCode codec dest run txcd txidCreate = some s')
include active saved

theorem getContractRunCode_saved : s'.getContractRunCode dest =
    if ((s.getDestState dest).getD .null).fDestroy then some .destroyed
    else some (.code ⟨txcd.getContractCreateCodeHash codec, codec.cryptoKeccakHash run,
      txcd.destCodeOwner⟩ run) := by
  unfold saveContractRunCode at saved
  dsimp only at saved
  split_ifs at saved
  cases saved
  have typed : packType destTypeContract 0 ≠ 0 := by decide
  simp [getContractRunCode, getDestState, getDestKvData, cacheContractData, setCacheContractData, setCacheAddressContext,
    DestState.isNull, DestState.setType, typed, ContractDestCodeContext.ofStream_toStream, active]

theorem getContractCreateCode_saved (stored : UInt256 → Option TxContractData) :
    s'.getContractCreateCode stored dest = some (.ofCode [] false) := by
  unfold saveContractRunCode at saved
  dsimp only at saved
  split_ifs at saved
  cases saved
  simp [getContractCreateCode, getDestKvData, cacheContractData, setCacheContractData, setCacheAddressContext,
    ContractDestCodeContext.ofStream_toStream, active, TxContractData.ofCode]

end

theorem savedCode_read_iff (codec : Codec) (s s' : BlockState) (stored : UInt256 → Option TxContractData)
    (active : s.dbBlockBase.verifyFhxHeightBranch001 s.nPrevHeight = true) (dest : Destination)
    (btContractRunCode : Bytes) (txcd : TxContractData) (txidCreate : UInt256)
    (saved : s.saveContractRunCode codec dest btContractRunCode txcd txidCreate = some s') :
    s'.CodeRead codec stored dest btContractRunCode txcd ↔
      ((s.getDestState dest).getD .null).fDestroy = false ∧ txcd.strType = [] ∧ txcd.strName = [] ∧
        txcd.getDescribe codec = [] ∧ txcd.destCodeOwner = 0 ∧ txcd.getCode codec = [] := by
  have run := getContractRunCode_saved active saved
  have create := getContractCreateCode_saved active saved stored
  constructor
  · rintro ⟨ran, _, made, type, name, describe, owner, code⟩
    cases create.symm.trans made
    rw [ran] at run
    split_ifs at run with gone
    · cases run
    · exact ⟨eq_false_of_ne_true gone, type.symm, name.symm, describe.symm, owner.symm, code.symm⟩
  · rintro ⟨kept, type, name, describe, owner, code⟩
    rw [kept] at run
    exact ⟨run, _, create, type.symm, name.symm, describe.symm, owner.symm, code.symm⟩

end BlockState

namespace Sample

def codec : Codec := ⟨fun bt => BitVec.ofNat 256 bt.length, fun _ => none, fun _ => []⟩

/-- The create code is not read back. -/
theorem create_code_lost : ((purse.saveContractRunCode codec 2 [7] (.ofCode [9] false) 1).bind fun s =>
    s.getContractCreateCode (fun _ => none) 2).map (·.getCode codec) = some [] := by
  decide +kernel

theorem savedCode_read_iff_empty : ∃ s, purse.saveContractRunCode codec 2 [7] (.ofCode [] false) 1 = some s ∧
    s.CodeRead codec (fun _ => none) 2 [7] (.ofCode [] false) :=
  ⟨_, rfl, (BlockState.savedCode_read_iff codec purse _ _ rfl 2 [7] _ 1 rfl).2 ⟨rfl, rfl, rfl, rfl, rfl, rfl⟩⟩

end Sample
end HashAhead.State

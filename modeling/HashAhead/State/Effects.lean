import HashAhead.State.Transfer

/-! What the operations of a block state leave alone: the balances, the recorded transfers,
and the contract key-values in the cache. -/

namespace HashAhead.State
open Trie DestState
namespace BlockState
variable {s s' s'' : BlockState}

structure KeepsMoney (s s' : BlockState) : Prop where
  balance : s'.balance = s.balance
  transfers : s'.vCacheContractTransfer = s.vCacheContractTransfer

theorem KeepsMoney.refl (s : BlockState) : s.KeepsMoney s := ⟨rfl, rfl⟩

theorem KeepsMoney.trans (first : s.KeepsMoney s') (second : s'.KeepsMoney s'') : s.KeepsMoney s'' :=
  ⟨second.balance.trans first.balance, second.transfers.trans first.transfers⟩

theorem SameMoney.keepsMoney (same : s.SameMoney s') : s.KeepsMoney s' :=
  ⟨funext fun dest => by rw [balance, same.accounts, balance], same.transfers⟩

section Money

theorem getDestState_of_sameCacheState (s : BlockState) (dest : Destination) (data : CacheContractData)
    (same : data.cacheDestState = (s.cacheContractData dest).cacheDestState) :
    (s.setCacheContractData dest data).getDestState = s.getDestState := by
  funext other
  rw [getDestState_setCacheContractData]
  split_ifs with here
  · rw [here, same, settled_cacheContractData]
  · rfl

theorem sameMoney_saveRunResult (s : BlockState) (dest : Destination) (vLogs : List TransactionLogs)
    (cache : UInt256 → Option Bytes) : s.SameMoney (s.saveRunResult dest vLogs cache) := by
  unfold saveRunResult
  have data := s.getDestState_of_sameCacheState dest { s.cacheContractData dest with
    cacheContractKv := fun key => (cache key).or ((s.cacheContractData dest).cacheContractKv key)
    cacheContractLogs := (s.cacheContractData dest).cacheContractLogs ++ vLogs } rfl
  dsimp only
  split_ifs
  · split <;> exact ⟨data, rfl, rfl⟩
  · exact ⟨data, rfl, rfl⟩

/-- Rewriting an account with a state of the same balance moves nothing, unless it turns null. -/
theorem balance_setCacheContractData {dest : Destination} {data : CacheContractData}
    (live : data.cacheDestState.isNull = false) (same : data.cacheDestState.nBalance.toNat = s.balance dest) :
    (s.setCacheContractData dest data).balance = s.balance := by
  funext other
  rw [balance, getDestState_setCacheContractData]
  split_ifs with here
  · subst here
    rw [settled, if_neg (by simp [live])]
    exact same
  · rfl

variable {addr : Destination} {nNonce : UInt64}

theorem keepsMoney_setAddressLastTxNonce (left : nNonce ≠ 0) (set : s.setAddressLastTxNonce addr nNonce = some s')
    : s.KeepsMoney s' := by
  unfold setAddressLastTxNonce at set
  cases read : s.getDestState addr with
  | none => simp [read] at set
  | some state =>
    simp only [read, Option.some.injEq] at set
    subst set
    refine ⟨balance_setCacheContractData ?_ ?_, rfl⟩
    · simp [isNull, left]
    · simp [balance, read, moneyOf]

/-- Counting the nonce up keeps the balance: an account that turns null by it has no money in
the layers below. -/
def NonceKeepsBalance (s : BlockState) (addr : Destination) : Prop :=
  ∀ state, s.getDestState addr = some state → { state with nTxNonce := state.nTxNonce + 1 }.isNull = true →
    s.lowerBalance addr = 0

theorem balance_nonce_other {dest : Destination} (apart : dest ≠ addr)
    (set : s.setAddressLastTxNonce addr nNonce = some s') : s'.balance dest = s.balance dest := by
  unfold setAddressLastTxNonce at set
  split at set
  · cases set
  · cases set
    rw [balance, getDestState_setCacheDestState, if_neg apart, balance]

theorem balance_nonce_iff (set : s.setAddressLastTxNonce addr (s.getAddressLastTxNonce addr + 1) = some s') :
    s'.balance addr = s.balance addr ↔ s.NonceKeepsBalance addr := by
  unfold setAddressLastTxNonce getAddressLastTxNonce at set
  cases read : s.getDestState addr with
  | none => simp [read] at set
  | some state =>
    simp only [read, Option.some.injEq] at set
    subst set
    have before : s.balance addr = state.nBalance.toNat := by rw [balance, read, moneyOf]
    rw [balance, getDestState_setCacheDestState, if_pos rfl, settled, before, NonceKeepsBalance]
    by_cases null : { state with nTxNonce := state.nTxNonce + 1 }.isNull = true
    · have zero : state.nBalance = 0 := ((isNull_iff _).mp null).2
      rw [if_pos null, zero]
      constructor
      · exact fun kept _ _ _ => kept
      · exact fun keeps => keeps state read null
    · rw [if_neg null, moneyOf]
      refine iff_of_true rfl fun state' read' null' => ?_
      cases read.symm.trans read'
      exact absurd null' null

theorem transfers_setAddressLastTxNonce (set : s.setAddressLastTxNonce addr nNonce = some s') :
    s'.vCacheContractTransfer = s.vCacheContractTransfer := by
  unfold setAddressLastTxNonce at set
  split at set
  · cases set
  · cases set
    rfl

theorem keepsMoney_saveContractRunCode {codec : Codec} {dest : Destination} {code : Bytes}
    {txcd : TxContractData} {txidCreate : UInt256}
    (saved : s.saveContractRunCode codec dest code txcd txidCreate = some s') : s.KeepsMoney s' := by
  unfold saveContractRunCode at saved
  dsimp only at saved
  split_ifs at saved
  cases saved
  have typed : packType destTypeContract 0 ≠ 0 := by decide
  refine ⟨balance_setCacheContractData (by simp [isNull, setType, typed]) ?_, rfl⟩
  cases read : s.getDestState dest <;> simp [balance, read, moneyOf, setType, null]

theorem transfers_selfdestruct (s : BlockState) (contract heir : Destination) :
    (s.selfdestruct contract heir).2.vCacheContractTransfer = s.vCacheContractTransfer := by
  unfold selfdestruct
  split
  · rfl
  · dsimp only
    split_ifs <;> rfl

end Money

def savedKv (s : BlockState) (dest : Destination) (hash : UInt256) : Option Bytes :=
  (s.cacheContractData dest).cacheContractKv hash

def lowerKvData (s : BlockState) (dest : Destination) (key : UInt256) : Option Bytes :=
  (s.mapContractKvState dest key).or
    ((s.getDestState dest).bind fun stateDest => s.dbBlockBase.retrieveContractKvValue stateDest.hashStorageRoot key)

theorem getDestKvData_eq (s : BlockState) (dest : Destination) (key : UInt256) :
    s.getDestKvData dest key = (s.savedKv dest key).or (s.lowerKvData dest key) := rfl

def KeepsKv (s s' : BlockState) : Prop := ∀ dest hash, hash ≠ toHash dest → s'.savedKv dest hash = s.savedKv dest hash

section KeyValues

theorem KeepsKv.refl (s : BlockState) : s.KeepsKv s := fun _ _ _ => rfl

theorem KeepsKv.trans (first : s.KeepsKv s') (second : s'.KeepsKv s'') : s.KeepsKv s'' :=
  fun dest hash apart => (second dest hash apart).trans (first dest hash apart)

theorem keepsKv_of_mapCacheContractData (same : s'.mapCacheContractData = s.mapCacheContractData) : s.KeepsKv s' := by
  intro dest hash _
  rw [savedKv, cacheContractData, same]
  rfl

theorem savedKv_setCacheContractData (s : BlockState) (dest : Destination) (data : CacheContractData)
    (other : Destination) : (s.setCacheContractData dest data).savedKv other =
      if other = dest then data.cacheContractKv else s.savedKv other := by
  funext hash
  unfold savedKv cacheContractData setCacheContractData
  by_cases here : other = dest <;> simp [here]

theorem keepsKv_setCacheDestState (s : BlockState) (dest : Destination) (stateDest : DestState) :
    s.KeepsKv (s.setCacheDestState dest stateDest) := by
  intro other hash _
  rw [setCacheDestState, savedKv_setCacheContractData]
  split_ifs with here
  · rw [here, savedKv]
  · rfl

theorem keepsKv_setAddressLastTxNonce {addr : Destination} {nNonce : UInt64}
    (set : s.setAddressLastTxNonce addr nNonce = some s') : s.KeepsKv s' := by
  unfold setAddressLastTxNonce at set
  split at set
  · cases set
  · cases set
    exact s.keepsKv_setCacheDestState addr _

theorem keepsKv_selfdestruct (s : BlockState) (contract heir : Destination) :
    s.KeepsKv (s.selfdestruct contract heir).2 := by
  unfold selfdestruct
  split
  · exact .refl s
  · dsimp only
    split_ifs
    · exact .refl s
    · exact (s.keepsKv_setCacheDestState contract _).trans (keepsKv_setCacheDestState _ heir _)

theorem keepsKv_payReceiver (s : BlockState) (destFrom destTo : Destination) (amount : UInt256)
    (ctxTo : AddressContext) (kind : UInt8) (stateFrom stateTo : DestState) :
    s.KeepsKv (s.payReceiver destFrom destTo amount ctxTo kind stateFrom stateTo).2 := by
  unfold payReceiver
  cases s.getAddressContext destFrom with
  | none => exact .refl s
  | some ctxFrom =>
    dsimp only
    generalize known : (if (s.mapCacheAddressContext destFrom).isNone then s.setCacheAddressContext destFrom ctxFrom
      else s) = named
    have named_kv : s.KeepsKv named := by
      subst known
      split_ifs
      · exact keepsKv_of_mapCacheContractData rfl
      · exact .refl s
    cases named.getDestLockedAmount destFrom with
    | none => exact named_kv
    | some nLockedAmount =>
      dsimp only
      split_ifs
      · exact named_kv
      · exact named_kv
      · exact named_kv.trans (((named.keepsKv_setCacheDestState destFrom _).trans
          (keepsKv_setCacheDestState _ destTo _)).trans (keepsKv_of_mapCacheContractData rfl))

theorem keepsKv_contractTransfer (s : BlockState) (destFrom destTo : Destination) (amount : UInt256)
    (nGasLeft : UInt64) (ctxTo : AddressContext) (kind : UInt8) :
    s.KeepsKv (s.contractTransfer destFrom destTo amount nGasLeft ctxTo kind).2.2 := by
  unfold contractTransfer
  split_ifs
  · exact .refl s
  · exact .refl s
  · dsimp only
    split
    · exact .refl s
    · split_ifs
      · exact .refl s
      · split
        · exact .refl s
        · exact (keepsKv_of_mapCacheContractData rfl).trans (keepsKv_payReceiver _ _ _ _ _ _ _ _)

variable {codec : Codec} {btContractRunCode : Bytes}

theorem keepsKv_saveContractRunCode {dest : Destination} {txcd : TxContractData} {txidCreate : UInt256}
    (saved : s.saveContractRunCode codec dest btContractRunCode txcd txidCreate = some s') : s.KeepsKv s' := by
  unfold saveContractRunCode at saved
  dsimp only at saved
  split_ifs at saved
  cases saved
  intro other hash apart
  refine (congrFun (savedKv_setCacheContractData s dest _ other) hash).trans ?_
  split_ifs with here
  · subst here
    simp only [Function.update_of_ne apart, savedKv]
  · rfl

/-- The contract has its run code: the address is known as a contract, its account carries the
hash of the code, and the code is found under that hash. -/
structure RunCodeSaved (s : BlockState) (codec : Codec) (dest : Destination) (btContractRunCode : Bytes) : Prop where
  known : s.isContractAddress dest = true
  hashed : (s.getDestState dest).map DestState.hashCode = some (codec.cryptoKeccakHash btContractRunCode)
  stored : (s.mapCacheContractRunCodeContext (codec.cryptoKeccakHash btContractRunCode)).map
    ContractRunCodeContext.btContractRunCode = some btContractRunCode

theorem runCodeSaved_saveContractRunCode {dest : Destination} {txcd : TxContractData} {txidCreate : UInt256}
    (saved : s.saveContractRunCode codec dest btContractRunCode txcd txidCreate = some s') :
    s'.RunCodeSaved codec dest btContractRunCode ∧ ∃ ctxDestCode : ContractDestCodeContext,
      ctxDestCode.hashContractRunCode = codec.cryptoKeccakHash btContractRunCode ∧
        s'.savedKv dest (toHash dest) = some ctxDestCode.toStream := by
  unfold saveContractRunCode at saved
  dsimp only at saved
  split_ifs at saved
  cases saved
  refine ⟨⟨?_, ?_, ?_⟩, ⟨txcd.getContractCreateCodeHash codec, codec.cryptoKeccakHash btContractRunCode,
    txcd.destCodeOwner⟩, rfl, ?_⟩
  · simp [isContractAddress, getAddressContext, setCacheAddressContext, AddressContext.isContract_contract]
  · have typed : packType destTypeContract 0 ≠ 0 := by decide
    simp [getDestState, setCacheAddressContext, setCacheContractData, isNull, setType, typed]
  · simp
  · exact (congrFun (savedKv_setCacheContractData s dest _ dest) _).trans (by simp)

theorem getAddressContext_saveRunResult (s : BlockState) (dest : Destination) (vLogs : List TransactionLogs)
    (cache : UInt256 → Option Bytes) :
    (s.saveRunResult dest vLogs cache).getAddressContext = s.getAddressContext := by
  funext other
  unfold saveRunResult
  dsimp only
  split_ifs
  · split
    · rfl
    · next ctxAddress found =>
      rw [getAddressContext_setCacheAddressContext]
      split_ifs with here
      · rw [here]
        exact found.symm
      · rfl
  · rfl

theorem RunCodeSaved.saveRunResult {dest : Destination} (code : s.RunCodeSaved codec dest btContractRunCode)
    (vLogs : List TransactionLogs) (cache : UInt256 → Option Bytes) :
    (s.saveRunResult dest vLogs cache).RunCodeSaved codec dest btContractRunCode := by
  have contexts : (s.saveRunResult dest vLogs cache).mapCacheContractRunCodeContext =
      s.mapCacheContractRunCodeContext := by
    unfold BlockState.saveRunResult
    dsimp only
    split_ifs
    · split <;> rfl
    · rfl
  refine ⟨?_, ?_, ?_⟩
  · rw [isContractAddress, getAddressContext_saveRunResult]
    exact code.known
  · rw [(s.sameMoney_saveRunResult dest vLogs cache).accounts]
    exact code.hashed
  · rw [contexts]
    exact code.stored

theorem savedKv_saveRunResult (s : BlockState) (dest : Destination) (vLogs : List TransactionLogs)
    (cache : UInt256 → Option Bytes) (other : Destination) (hash : UInt256) :
    (s.saveRunResult dest vLogs cache).savedKv other hash =
      if other = dest then (cache hash).or (s.savedKv dest hash) else s.savedKv other hash := by
  have saved : (s.saveRunResult dest vLogs cache).mapCacheContractData =
      (s.setCacheContractData dest { s.cacheContractData dest with
        cacheContractKv := fun key => (cache key).or (s.savedKv dest key)
        cacheContractLogs := (s.cacheContractData dest).cacheContractLogs ++ vLogs }).mapCacheContractData := by
    unfold saveRunResult
    dsimp only
    split_ifs
    · split <;> rfl
    · rfl
  rw [savedKv, cacheContractData, saved]
  refine (congrFun (savedKv_setCacheContractData s dest _ other) hash).trans ?_
  split_ifs <;> rfl

end KeyValues
end BlockState
end HashAhead.State

import HashAhead.Chain.AddressTxInfo

/-! The indexes of the long chain of each fork: the block with a number and the block with a
transaction. When the long chain changes, the entries of the blocks that go out are erased and those
of the blocks that come in are written, so that the indexes are the ones of the new chain. -/

namespace HashAhead.Chain
open Foundation State List Option Function

/-- `CBlockEx`, with its hash and the ids of its transactions. -/
structure BlockEx where
  hashBlock : UInt256
  nNumber : UInt64
  txMint : UInt256
  vtx : List UInt256
deriving DecidableEq

namespace BlockEx

def txids (block : BlockEx) : List UInt256 := block.txMint :: block.vtx

end BlockEx

structure TxIndex where
  nBlockNumber : UInt64
  nTxSeq : UInt16
  nFile : UInt32
  nOffset : UInt32
deriving DecidableEq

inductive BlockIndexKey where
  | blockNumber (nChainId : ChainId) (nBlockNumber : UInt64)
  | lastBlockNumber (nChainId : ChainId)
deriving DecidableEq

@[reducible] def BlockIndexKey.Value : BlockIndexKey → Type
  | blockNumber _ _ => UInt256
  | lastBlockNumber _ => UInt64 × UInt256

inductive TxIndexKey where
  | txIndex (hashBlock txid : UInt256)
  | txPos (txid : UInt256)
deriving DecidableEq

@[reducible] def TxIndexKey.Value : TxIndexKey → Type
  | txIndex _ _ => TxIndex
  | txPos _ => UInt256

abbrev BlockIndexStore := KvStore BlockIndexKey.Value

abbrev TxIndexStore := KvStore TxIndexKey.Value

/-- The databases that `UpdateForkNext` writes. -/
structure ChainDb where
  dbBlockIndex : BlockIndexStore
  mapTxIndexDB : UInt256 → Option TxIndexStore
  mapAddressTxInfoDB : UInt256 → ForkAddressTxInfoDB
  mapForkLast : UInt256 → Option UInt256

def hashOrder : Comparator UInt256 := .ofKey BitVec.toNat word_injective

abbrev HashMap (V : Type) := SortedMap UInt256 V hashOrder

/-- `std::map::insert`, which leaves a key that is there. -/
def HashMap.insertNew {V : Type} (map : HashMap V) (key : UInt256) (value : V) : HashMap V :=
  if (map.find key).isSome then map else map.insert key value

def mapNewTx (vBlockAddNew : List BlockEx) : HashMap UInt256 :=
  vBlockAddNew.foldl (fun map block => block.txids.foldl (fun map txid => map.insertNew txid block.hashBlock) map) .empty

def vRemoveTx (vBlockRemove vBlockAddNew : List BlockEx) : List UInt256 :=
  vBlockRemove.flatMap fun block => block.txids.filter fun txid => ((mapNewTx vBlockAddNew).find txid).isNone

def removeNumbers (nChainId : ChainId) (vBlockRemove : List BlockEx) : WriteBatch BlockIndexKey.Value :=
  vBlockRemove.map fun block => erase (.blockNumber nChainId block.nNumber)

def newNumbers (nChainId : ChainId) (vBlockAddNew : List BlockEx) : WriteBatch BlockIndexKey.Value :=
  vBlockAddNew.map (fun block => put (.blockNumber nChainId block.nNumber) block.hashBlock) ++
    vBlockAddNew.getLast?.toList.map fun last => put (.lastBlockNumber nChainId) (last.nNumber, last.hashBlock)

def updateBlockNumberBlockLongChain (db : BlockIndexStore) (hashFork : UInt256) (vBlockRemove vBlockAddNew : List BlockEx) :
    BlockIndexStore :=
  let nChainId := getBlockChainIdByHash hashFork
  commit db (removeNumbers nChainId vBlockRemove ++ newNumbers nChainId vBlockAddNew)

def updateTxIndexBlockLongChain (db : TxIndexStore) (vRemoveTx : List UInt256) (mapNewTx : HashMap UInt256) : TxIndexStore :=
  commit db (vRemoveTx.map (fun txid => erase (.txPos txid)) ++
    mapNewTx.entries.map fun kv => put (.txPos kv.1) kv.2)

namespace ChainDb

/-- `CBlockBase::UpdateBlockLongChain`. The indexes are written before the histories of addresses, which
only a full database keeps. -/
def updateBlockLongChain (db : ChainDb) (fCfgFullDb : Bool) (hashFork : UInt256)
    (vBlockRemove vBlockAddNew : List BlockEx) : Bool × ChainDb :=
  let db := { db with
    dbBlockIndex := updateBlockNumberBlockLongChain db.dbBlockIndex hashFork vBlockRemove vBlockAddNew }
  match db.mapTxIndexDB hashFork with
  | none => (false, db)
  | some txIndex =>
    let db := { db with
      mapTxIndexDB := Function.update db.mapTxIndexDB hashFork (some (updateTxIndexBlockLongChain txIndex
        (vRemoveTx vBlockRemove vBlockAddNew) (mapNewTx vBlockAddNew))) }
    if fCfgFullDb then
      match (db.mapAddressTxInfoDB hashFork).updateAddressTxInfoBlockLongChain (vBlockRemove.map BlockEx.hashBlock)
        (vBlockAddNew.map BlockEx.hashBlock) with
      | none => (false, db)
      | some address => (true, { db with mapAddressTxInfoDB := Function.update db.mapAddressTxInfoDB hashFork address })
    else (true, db)

def updateForkNext (db : ChainDb) (fCfgFullDb : Bool) (hashFork hashLast : UInt256)
    (vBlockRemove vBlockAddNew : List BlockEx) : Bool × ChainDb :=
  let (updated, db) := db.updateBlockLongChain fCfgFullDb hashFork vBlockRemove vBlockAddNew
  if updated then (true, { db with mapForkLast := Function.update db.mapForkLast hashFork (some hashLast) })
  else (false, db)

/-- `CTxIndexDB::LoadFork` of a fork without data. -/
def loadFork (db : ChainDb) (hashFork : UInt256) : ChainDb :=
  if (db.mapTxIndexDB hashFork).isSome then db
  else { db with mapTxIndexDB := Function.update db.mapTxIndexDB hashFork (some fun _ => none) }

def addBlockTxIndexReceipt (db : ChainDb) (hashFork hashBlock : UInt256) (mapBlockTxIndex : List (UInt256 × TxIndex)) :
    ChainDb :=
  { db with
    mapTxIndexDB := Function.update db.mapTxIndexDB hashFork ((db.mapTxIndexDB hashFork).map fun txIndex =>
      commit txIndex (mapBlockTxIndex.map fun kv => put (.txIndex hashBlock kv.1) kv.2)) }

def retrieveBlockHashByNumber (db : ChainDb) (hashFork : UInt256) (nBlockNumber : UInt64) : Option UInt256 :=
  db.dbBlockIndex (.blockNumber (getBlockChainIdByHash hashFork) nBlockNumber)

def retrieveTxIndex (db : ChainDb) (hashFork txid : UInt256) : Option (UInt256 × TxIndex) := do
  let txIndex ← db.mapTxIndexDB hashFork
  let hashBlock ← txIndex (.txPos txid)
  let index ← txIndex (.txIndex hashBlock txid)
  some (hashBlock, index)

variable {db : ChainDb} {hashFork : UInt256}

/-- Of a fork that is loaded both indexes are written, also if the call fails later. -/
theorem updateForkNext_eq {txIndex : TxIndexStore} (loaded : db.mapTxIndexDB hashFork = some txIndex) (fCfgFullDb : Bool)
    (last : UInt256) (gone come : List BlockEx) :
    (db.updateForkNext fCfgFullDb hashFork last gone come).2.dbBlockIndex =
        updateBlockNumberBlockLongChain db.dbBlockIndex hashFork gone come ∧
      (db.updateForkNext fCfgFullDb hashFork last gone come).2.mapTxIndexDB =
        Function.update db.mapTxIndexDB hashFork (some (updateTxIndexBlockLongChain txIndex
          (vRemoveTx gone come) (mapNewTx come))) := by
  simp only [updateForkNext, updateBlockLongChain, loaded]
  cases fCfgFullDb with
  | false => exact ⟨rfl, rfl⟩
  | true =>
    simp only [if_true]
    cases (db.mapAddressTxInfoDB hashFork).updateAddressTxInfoBlockLongChain (gone.map BlockEx.hashBlock)
      (come.map BlockEx.hashBlock) with
    | none => exact ⟨rfl, rfl⟩
    | some address => exact ⟨rfl, rfl⟩

end ChainDb

/-- The blocks are numbered from 0, and no transaction is in two of them or twice in one. -/
structure IsChain (chain : List BlockEx) : Prop where
  numbers : chain.map (fun block => block.nNumber.toNat) = List.range chain.length
  txids : (chain.flatMap BlockEx.txids).Nodup

namespace IsChain
variable {chain kept rest : List BlockEx} {block : BlockEx}

theorem number (isChain : IsChain chain) {nth : Nat} (found : chain[nth]? = some block) : block.nNumber.toNat = nth := by
  have here : (chain.map fun block => block.nNumber.toNat)[nth]? = some block.nNumber.toNat := by
    rw [List.getElem?_map, found]
    rfl
  rw [isChain.numbers] at here
  obtain ⟨below, same⟩ := List.getElem?_eq_some_iff.1 here
  rw [getElem_range] at same
  exact same.symm

theorem number_behind (isChain : IsChain (kept ++ rest)) (mem : block ∈ rest) :
    ∃ nth, rest[nth]? = some block ∧ block.nNumber.toNat = kept.length + nth := by
  obtain ⟨nth, below, found⟩ := mem_iff_getElem.1 mem
  have here : rest[nth]? = some block := List.getElem?_eq_some_iff.2 ⟨below, found⟩
  refine ⟨nth, here, isChain.number ?_⟩
  rw [List.getElem?_append_right (Nat.le_add_right ..), Nat.add_sub_cancel_left]
  exact here

theorem getElem_of_mem (isChain : IsChain (kept ++ rest)) (mem : block ∈ rest) :
    (kept ++ rest)[block.nNumber.toNat]? = some block := by
  obtain ⟨nth, found, place⟩ := isChain.number_behind mem
  rw [place, List.getElem?_append_right (Nat.le_add_right ..), Nat.add_sub_cancel_left]
  exact found

theorem getElem_of_absent (isChain : IsChain (kept ++ rest)) {n : UInt64} (absent : ∀ block ∈ rest, block.nNumber ≠ n) :
    (kept ++ rest)[n.toNat]? = kept[n.toNat]? := by
  by_cases front : n.toNat < kept.length
  · exact List.getElem?_append_left front
  rw [List.getElem?_append_right (not_lt.1 front), List.getElem?_eq_none (not_lt.1 front)]
  cases found : rest[n.toNat - kept.length]? with
  | none => rfl
  | some block =>
    have here : (kept ++ rest)[n.toNat]? = some block := by rwa [List.getElem?_append_right (not_lt.1 front)]
    exact absurd (UInt64.toNat_inj.1 (isChain.number here)) (absent block (mem_of_getElem? found))

end IsChain

section Update
variable {kept removed vGone vNew : List BlockEx} {hashFork : UInt256}

section
variable {txid : UInt256}

open Classical in
theorem updateBlockNumber_eq (db : BlockIndexStore) (after : IsChain (kept ++ vNew)) (nChainId : ChainId) (n : UInt64) :
    updateBlockNumberBlockLongChain db hashFork vGone vNew (.blockNumber nChainId n) =
      if nChainId = getBlockChainIdByHash hashFork ∧ ∃ block ∈ vNew, block.nNumber = n then
        ((kept ++ vNew)[n.toNat]?).map BlockEx.hashBlock
      else if nChainId = getBlockChainIdByHash hashFork ∧ ∃ block ∈ vGone, block.nNumber = n then none
      else db (.blockNumber nChainId n) := by
  rw [updateBlockNumberBlockLongChain, commit_append]
  refine (commit_of_writes fun value => ?_).trans (if_congr Iff.rfl rfl (commit_of_writes fun value => ?_))
  · simp only [newNumbers, mem_append, List.mem_map]
    constructor
    · rintro (⟨block, mem, same⟩ | ⟨_, _, same⟩) <;> cases same
      exact ⟨⟨rfl, block, mem, rfl⟩, by rw [after.getElem_of_mem mem, map_some]⟩
    · rintro ⟨⟨rfl, block, mem, rfl⟩, rfl⟩
      exact Or.inl ⟨block, mem, by rw [after.getElem_of_mem mem, map_some]⟩
  · simp only [removeNumbers, List.mem_map]
    constructor
    · rintro ⟨block, mem, same⟩
      cases same
      exact ⟨⟨rfl, block, mem, rfl⟩, rfl⟩
    · rintro ⟨⟨rfl, block, mem, rfl⟩, rfl⟩
      exact ⟨block, mem, rfl⟩

/-- After an update the number index of the fork is that of the new chain. -/
theorem blockNumber_update {db : BlockIndexStore} (before : IsChain (kept ++ removed))
    (gone : vGone.Perm removed) (after : IsChain (kept ++ vNew))
    (indexed : ∀ n : UInt64, db (.blockNumber (getBlockChainIdByHash hashFork) n) = ((kept ++ removed)[n.toNat]?).map BlockEx.hashBlock)
    (n : UInt64) :
    updateBlockNumberBlockLongChain db hashFork vGone vNew
      (.blockNumber (getBlockChainIdByHash hashFork) n) = ((kept ++ vNew)[n.toNat]?).map BlockEx.hashBlock := by
  rw [updateBlockNumber_eq db after]
  split_ifs with new old
  · rfl
  all_goals rw [after.getElem_of_absent fun block mem same => new ⟨rfl, block, mem, same⟩]
  · obtain ⟨_, block, mem, rfl⟩ := old
    obtain ⟨nth, _, place⟩ := before.number_behind (gone.mem_iff.1 mem)
    rw [List.getElem?_eq_none (by omega)]
    rfl
  · have kept_there : ∀ block ∈ removed, block.nNumber ≠ n :=
      fun block mem same => old ⟨rfl, block, gone.mem_iff.2 mem, same⟩
    rw [← before.getElem_of_absent kept_there, ← indexed]

theorem HashMap.find_insertNew {V : Type} (map : HashMap V) (key : UInt256) (value : V) (other : UInt256) :
    (map.insertNew key value).find other = (map.find other).or (if other = key then some value else none) := by
  unfold HashMap.insertNew
  by_cases same : other = key
  · subst same
    cases found : map.find other with
    | none => simp [SortedMap.find_insert]
    | some old => simp [found]
  · split_ifs <;> simp [SortedMap.find_insert, same]

theorem mapNewTx_find (txid : UInt256) :
    (mapNewTx vNew).find txid = (vNew.find? fun block => txid ∈ block.txids).map BlockEx.hashBlock := by
  have inner : ∀ (txids : List UInt256) (hBlock : UInt256) (map : HashMap UInt256),
      (txids.foldl (fun map txid => map.insertNew txid hBlock) map).find txid =
        (map.find txid).or (if txid ∈ txids then some hBlock else none) := by
    intro txids hBlock
    induction txids with
    | nil => simp
    | cons first rest ih =>
      intro map
      rw [foldl_cons, ih, HashMap.find_insertNew, Option.or_assoc]
      by_cases same : txid = first <;> simp [same]
  suffices ∀ map : HashMap UInt256, (vNew.foldl (fun map block =>
      block.txids.foldl (fun map txid => map.insertNew txid block.hashBlock) map) map).find txid =
        (map.find txid).or ((vNew.find? fun block => txid ∈ block.txids).map BlockEx.hashBlock) by
    exact this .empty
  induction vNew with
  | nil => simp
  | cons block rest ih =>
    intro map
    rw [foldl_cons, ih, inner, Option.or_assoc, List.find?_cons]
    by_cases held : txid ∈ block.txids <;> simp [held]

theorem mem_vRemoveTx : txid ∈ vRemoveTx vGone vNew ↔
    (∃ block ∈ vGone, txid ∈ block.txids) ∧ (vNew.find? fun block => txid ∈ block.txids) = none := by
  simp only [vRemoveTx, mem_flatMap, mem_filter, mapNewTx_find, isNone_map, isNone_iff_eq_none]
  constructor
  · rintro ⟨block, mem, held, absent⟩
    exact ⟨⟨block, mem, held⟩, absent⟩
  · rintro ⟨⟨block, mem, held⟩, absent⟩
    exact ⟨block, mem, held, absent⟩

theorem updateTxPos_eq (db : TxIndexStore) (txid : UInt256) :
    updateTxIndexBlockLongChain db (vRemoveTx vGone vNew) (mapNewTx vNew) (.txPos txid) =
      if ((mapNewTx vNew).find txid).isSome then (mapNewTx vNew).find txid
      else if txid ∈ vRemoveTx vGone vNew then none else db (.txPos txid) := by
  rw [updateTxIndexBlockLongChain, commit_append]
  refine (commit_of_writes fun value => ?_).trans (if_congr Iff.rfl rfl (commit_of_writes fun value => ?_))
  · rw [List.mem_map]
    constructor
    · rintro ⟨kv, mem, same⟩
      cases same
      rw [(SortedMap.find_eq_some_iff _ _ _).2 mem]
      exact ⟨rfl, rfl⟩
    · rintro ⟨some, rfl⟩
      obtain ⟨hBlock, found⟩ := isSome_iff_exists.1 some
      exact ⟨(txid, hBlock), (SortedMap.find_eq_some_iff _ _ _).1 found, by rw [found]⟩
  · rw [List.mem_map]
    constructor
    · rintro ⟨_, mem, same⟩
      cases same
      exact ⟨mem, rfl⟩
    · rintro ⟨mem, rfl⟩
      exact ⟨txid, mem, rfl⟩

theorem IsChain.find_none (isChain : IsChain (kept ++ removed)) {block : BlockEx} (mem : block ∈ removed)
    (held : txid ∈ block.txids) : (kept.find? fun block => txid ∈ block.txids) = none := by
  rw [List.find?_eq_none]
  intro other front also
  have nodup := isChain.txids
  rw [flatMap_append, nodup_append] at nodup
  exact nodup.2.2 txid (mem_flatMap.2 ⟨other, front, by simpa using also⟩) txid (mem_flatMap.2 ⟨block, mem, held⟩) rfl

end

/-- After an update each transaction of the new chain is at its block, and no other one is. -/
theorem txPos_update {db : TxIndexStore} (before : IsChain (kept ++ removed)) (gone : vGone.Perm removed)
    (after : IsChain (kept ++ vNew))
    (indexed : ∀ txid, db (.txPos txid) =
      ((kept ++ removed).find? fun block => txid ∈ block.txids).map BlockEx.hashBlock) (txid : UInt256) :
    updateTxIndexBlockLongChain db (vRemoveTx vGone vNew) (mapNewTx vNew) (.txPos txid) =
      ((kept ++ vNew).find? fun block => txid ∈ block.txids).map BlockEx.hashBlock := by
  rw [updateTxPos_eq, mapNewTx_find, List.find?_append]
  cases new : vNew.find? fun block => txid ∈ block.txids with
  | some block =>
    have held : txid ∈ block.txids := by simpa using List.find?_some new
    rw [after.find_none (mem_of_find?_eq_some new) held]
    rfl
  | none =>
    rw [or_none, map_none, isSome_none, if_neg Bool.false_ne_true]
    split_ifs with old
    · obtain ⟨⟨block, mem, held⟩, _⟩ := mem_vRemoveTx.1 old
      rw [before.find_none (gone.mem_iff.1 mem) held]
      rfl
    · have rest : (removed.find? fun block => txid ∈ block.txids) = none := by
        rw [List.find?_eq_none]
        intro block mem held
        exact old (mem_vRemoveTx.2 ⟨⟨block, gone.mem_iff.2 mem, by simpa using held⟩, new⟩)
      rw [indexed, List.find?_append, rest, or_none]

end Update

/-- The databases with the long chain of each fork and the blocks whose transactions are stored. -/
structure IndexState where
  db : ChainDb
  chain : UInt256 → List BlockEx
  saved : UInt256 → List BlockEx

def IndexState.empty : IndexState where
  db := ⟨fun _ => none, fun _ => none, fun _ => ⟨fun _ => none, []⟩, fun _ => none⟩
  chain := fun _ => []
  saved := fun _ => []

def OwnChainId (s : IndexState) (hashFork : UInt256) : Prop :=
  ∀ other, (s.db.mapTxIndexDB other).isSome → getBlockChainIdByHash other = getBlockChainIdByHash hashFork →
    other = hashFork

section Run
variable (index : UInt256 → UInt256 → TxIndex) (fCfgFullDb : Bool)

/-- The calls. A fork is loaded under a chain id of its own; a block is stored with the positions of its
transactions; and the blocks that leave a long chain are its last ones, while those that come in
extend what is left. -/
inductive IndexStep : IndexState → IndexState → Prop
  | loadFork {s : IndexState} {hashFork : UInt256}
      (own : OwnChainId s hashFork) :
      IndexStep s { s with db := s.db.loadFork hashFork }
  | addBlockTxIndexReceipt {s : IndexState} {hashFork : UInt256} {block : BlockEx}
      (loaded : (s.db.mapTxIndexDB hashFork).isSome) :
      IndexStep s { s with
        db := s.db.addBlockTxIndexReceipt hashFork block.hashBlock
          (block.txids.map fun txid => (txid, index block.hashBlock txid))
        saved := Function.update s.saved hashFork (block :: s.saved hashFork) }
  | updateForkNext {s : IndexState} {hashFork hashLast : UInt256} {kept removed vBlockRemove vBlockAddNew : List BlockEx}
      (loaded : (s.db.mapTxIndexDB hashFork).isSome) (split : s.chain hashFork = kept ++ removed)
      (gone : vBlockRemove.Perm removed) (extended : IsChain (kept ++ vBlockAddNew))
      (stored : vBlockAddNew ⊆ s.saved hashFork) :
      IndexStep s { s with
        db := (s.db.updateForkNext fCfgFullDb hashFork hashLast vBlockRemove vBlockAddNew).2
        chain := Function.update s.chain hashFork (kept ++ vBlockAddNew) }

structure ForkIndexed (db : Option TxIndexStore) (chain saved : List BlockEx) : Prop where
  isChain : IsChain chain
  chainSaved : chain ⊆ saved
  unloaded : db = none → saved = []
  txPos : ∀ txIndex, db = some txIndex → ∀ txid,
    txIndex (.txPos txid) = (chain.find? fun block => txid ∈ block.txids).map BlockEx.hashBlock
  stored : ∀ txIndex, db = some txIndex → ∀ block ∈ saved, ∀ txid ∈ block.txids,
    txIndex (.txIndex block.hashBlock txid) = some (index block.hashBlock txid)

structure Indexed (s : IndexState) : Prop where
  fork : ∀ hashFork, ForkIndexed index (s.db.mapTxIndexDB hashFork) (s.chain hashFork) (s.saved hashFork)
  own : ∀ hashFork, (s.db.mapTxIndexDB hashFork).isSome → OwnChainId s hashFork
  blockNumber : ∀ hashFork, OwnChainId s hashFork → ∀ n,
    s.db.dbBlockIndex (.blockNumber (getBlockChainIdByHash hashFork) n) =
      ((s.chain hashFork)[n.toNat]?).map BlockEx.hashBlock

variable {index fCfgFullDb} {s s' : IndexState} {hashFork : UInt256}

theorem indexed_empty : Indexed index .empty where
  fork := fun _ => ⟨⟨rfl, nodup_nil⟩, nil_subset _, fun _ => rfl, nofun, nofun⟩
  own := nofun
  blockNumber := fun _ _ _ => rfl

/-- A call changes one fork, which has its chain id for itself. -/
theorem Indexed.of_changed (indexed : Indexed index s) (own : OwnChainId s hashFork)
    (others : ∀ other, other ≠ hashFork → s'.db.mapTxIndexDB other = s.db.mapTxIndexDB other ∧
      s'.chain other = s.chain other ∧ s'.saved other = s.saved other)
    (numbers : ∀ nChainId, nChainId ≠ getBlockChainIdByHash hashFork → ∀ n,
      s'.db.dbBlockIndex (.blockNumber nChainId n) = s.db.dbBlockIndex (.blockNumber nChainId n))
    {txIndex : TxIndexStore} {chain saved : List BlockEx} (db : s'.db.mapTxIndexDB hashFork = some txIndex)
    (chained : s'.chain hashFork = chain) (stored : s'.saved hashFork = saved)
    (fork : ForkIndexed index (some txIndex) chain saved)
    (blockNumber : ∀ n, s'.db.dbBlockIndex (.blockNumber (getBlockChainIdByHash hashFork) n) =
      (chain[n.toNat]?).map BlockEx.hashBlock) : Indexed index s' := by
  have loaded : (s'.db.mapTxIndexDB hashFork).isSome := by
    rw [db]
    rfl
  have own' : OwnChainId s' hashFork := by
    intro other there same
    by_contra apart
    rw [(others other apart).1] at there
    exact apart (own other there same)
  constructor
  · intro other
    by_cases same : other = hashFork
    · rw [same, db, chained, stored]
      exact fork
    · obtain ⟨db, chain, saved⟩ := others other same
      rw [db, chain, saved]
      exact indexed.fork other
  · intro first there second also same
    by_cases isFirst : first = hashFork
    · rw [isFirst] at same ⊢
      exact own' second also same
    · have apart : second ≠ hashFork := by
        rintro rfl
        exact isFirst (own' first there same.symm)
      rw [(others first isFirst).1] at there
      rw [(others second apart).1] at also
      exact indexed.own first there second also same
  · intro other alone n
    by_cases same : other = hashFork
    · rw [same, chained]
      exact blockNumber n
    · have apart : getBlockChainIdByHash other ≠ getBlockChainIdByHash hashFork :=
        fun equal => same (alone hashFork loaded equal.symm).symm
      rw [numbers _ apart, (others other same).2.1]
      apply indexed.blockNumber other
      intro third there equal
      apply alone third _ equal
      by_cases isFork : third = hashFork
      · rw [isFork]
        exact loaded
      · rwa [(others third isFork).1]

theorem Indexed.loadFork (indexed : Indexed index s) (own : OwnChainId s hashFork) :
    Indexed index { s with db := s.db.loadFork hashFork } := by
  unfold ChainDb.loadFork
  split_ifs with loaded
  · exact indexed
  rw [not_isSome_iff_eq_none] at loaded
  have fork := indexed.fork hashFork
  have saved := fork.unloaded loaded
  have chain : s.chain hashFork = [] := subset_nil.1 (saved ▸ fork.chainSaved)
  refine indexed.of_changed own ?_ (fun _ _ _ => rfl) (update_self ..) chain saved ?_ ?_
  · exact fun other apart => ⟨update_of_ne apart .., rfl, rfl⟩
  · refine ⟨⟨rfl, nodup_nil⟩, nil_subset _, fun _ => rfl, ?_, fun _ _ _ => nofun⟩
    intro txIndex same
    cases same
    exact fun _ => rfl
  · exact fun n => chain ▸ indexed.blockNumber hashFork own n

def storedWrites (index : UInt256 → UInt256 → TxIndex) (block : BlockEx) : WriteBatch TxIndexKey.Value :=
  block.txids.map fun txid => put (.txIndex block.hashBlock txid) (index block.hashBlock txid)

theorem Indexed.addBlockTxIndexReceipt (indexed : Indexed index s) (loaded : (s.db.mapTxIndexDB hashFork).isSome)
    (block : BlockEx) :
    Indexed index { s with
      db := s.db.addBlockTxIndexReceipt hashFork block.hashBlock
        (block.txids.map fun txid => (txid, index block.hashBlock txid))
      saved := Function.update s.saved hashFork (block :: s.saved hashFork) } := by
  have fork := indexed.fork hashFork
  obtain ⟨txIndex, there⟩ := isSome_iff_exists.1 loaded
  rw [there] at fork
  have changed : (s.db.addBlockTxIndexReceipt hashFork block.hashBlock
      (block.txids.map fun txid => (txid, index block.hashBlock txid))).mapTxIndexDB hashFork =
      some (commit txIndex (storedWrites index block)) := by
    simp only [ChainDb.addBlockTxIndexReceipt, update_self, there, map_some, storedWrites, List.map_map]
    rfl
  refine indexed.of_changed (indexed.own hashFork loaded) ?_ (fun _ _ _ => rfl) changed rfl (update_self ..) ?_
    (indexed.blockNumber hashFork (indexed.own hashFork loaded))
  · exact fun other apart => ⟨update_of_ne apart .., rfl, update_of_ne apart ..⟩
  constructor
  · exact fork.isChain
  · exact fun other mem => mem_cons_of_mem _ (fork.chainSaved mem)
  · intro missing
    cases missing
  · intro txIndex' same txid
    cases same
    rw [commit_of_untouched]
    · exact fork.txPos txIndex rfl txid
    · intro value written
      obtain ⟨_, _, same⟩ := List.mem_map.1 written
      cases same
  · intro txIndex' same other mem txid held
    cases same
    have value : ∀ hBlock value, ⟨.txIndex hBlock txid, value⟩ ∈ storedWrites index block →
        value = some (index hBlock txid) := by
      intro hBlock value written
      obtain ⟨_, _, same⟩ := List.mem_map.1 written
      cases same
      rfl
    rcases commit_cases txIndex (storedWrites index block) (.txIndex other.hashBlock txid) with old | written
    · rcases mem_cons.1 mem with rfl | earlier
      · exact value _ _ (commit_of_touched txIndex (List.mem_map.2 ⟨txid, held, rfl⟩))
      · rw [old]
        exact fork.stored txIndex rfl other earlier txid held
    · exact value _ _ written

theorem Indexed.updateForkNext (indexed : Indexed index s) (loaded : (s.db.mapTxIndexDB hashFork).isSome) (last : UInt256)
    {kept removed vGone come : List BlockEx} (split : s.chain hashFork = kept ++ removed)
    (gone : vGone.Perm removed) (extended : IsChain (kept ++ come)) (stored : come ⊆ s.saved hashFork) :
    Indexed index { s with
      db := (s.db.updateForkNext fCfgFullDb hashFork last vGone come).2
      chain := Function.update s.chain hashFork (kept ++ come) } := by
  have fork := indexed.fork hashFork
  have own := indexed.own hashFork loaded
  have blockNumber := indexed.blockNumber hashFork own
  obtain ⟨txIndex, there⟩ := isSome_iff_exists.1 loaded
  obtain ⟨numbers, positions⟩ := ChainDb.updateForkNext_eq there fCfgFullDb last vGone come
  rw [there, split] at fork
  rw [split] at blockNumber
  have kept_saved : kept ⊆ s.saved hashFork := fun block mem => fork.chainSaved (mem_append_left _ mem)
  have changed := (congrFun positions hashFork).trans (update_self ..)
  refine indexed.of_changed own ?_ ?_ changed (update_self ..) rfl ?_ ?_
  · intro other apart
    exact ⟨(congrFun positions other).trans (update_of_ne apart ..), update_of_ne apart .., rfl⟩
  · intro nChainId apart n
    rw [numbers, updateBlockNumber_eq _ extended, if_neg fun same => apart same.1, if_neg fun same => apart same.1]
  · constructor
    · exact extended
    · exact append_subset.2 ⟨kept_saved, stored⟩
    · exact nofun
    · intro txIndex' same txid
      cases same
      exact txPos_update fork.isChain gone extended (fork.txPos txIndex rfl) txid
    · intro txIndex' same block mem txid held
      cases same
      rw [updateTxIndexBlockLongChain, commit_of_untouched]
      · exact fork.stored txIndex rfl block mem txid held
      · intro value written
        rcases mem_append.1 written with written | written
        all_goals
          obtain ⟨_, _, same⟩ := List.mem_map.1 written
          cases same
  · intro n
    rw [numbers]
    exact blockNumber_update fork.isChain gone extended blockNumber n

theorem Indexed.step (indexed : Indexed index s) (step : IndexStep index fCfgFullDb s s') : Indexed index s' := by
  cases step with
  | loadFork own => exact indexed.loadFork own
  | addBlockTxIndexReceipt loaded => exact indexed.addBlockTxIndexReceipt loaded _
  | updateForkNext loaded split gone extended stored => exact indexed.updateForkNext loaded _ split gone extended stored

theorem indexed_of_run (run : Relation.ReflTransGen (IndexStep index fCfgFullDb) .empty s) : Indexed index s := by
  induction run with
  | refl => exact indexed_empty
  | tail _ step ih => exact ih.step step

/-- After any calls, the indexes of a loaded fork give each block of its long chain under its number and
each transaction of the chain at its place, and nothing else. -/
theorem indexes_follow_longChain (run : Relation.ReflTransGen (IndexStep index fCfgFullDb) .empty s)
    (loaded : (s.db.mapTxIndexDB hashFork).isSome) :
    (∀ n, s.db.retrieveBlockHashByNumber hashFork n = ((s.chain hashFork)[n.toNat]?).map BlockEx.hashBlock) ∧
      ∀ txid, s.db.retrieveTxIndex hashFork txid =
        ((s.chain hashFork).find? fun block => txid ∈ block.txids).map fun block =>
          (block.hashBlock, index block.hashBlock txid) := by
  have indexed := indexed_of_run run
  have fork := indexed.fork hashFork
  constructor
  · exact indexed.blockNumber hashFork (indexed.own hashFork loaded)
  · intro txid
    obtain ⟨txIndex, there⟩ := isSome_iff_exists.1 loaded
    rw [ChainDb.retrieveTxIndex, there, bind_eq_bind, bind_some, fork.txPos txIndex there]
    cases found : (s.chain hashFork).find? fun block => txid ∈ block.txids with
    | none => rfl
    | some block =>
      have member := fork.chainSaved (mem_of_find?_eq_some found)
      have held : txid ∈ block.txids := by simpa using List.find?_some found
      simp [fork.stored txIndex there block member txid held]

end Run

namespace Sample

def firstBlock : BlockEx := ⟨10, 0, 100, []⟩

def oldBlock : BlockEx := ⟨11, 1, 101, [200, 201]⟩

def newBlock : BlockEx := ⟨12, 1, 102, [200]⟩

def position (_ txid : UInt256) : TxIndex := ⟨0, 0, 1, txid.toNat.toUInt32⟩

def store (s : IndexState) (block : BlockEx) : IndexState :=
  { s with
    db := s.db.addBlockTxIndexReceipt 10 block.hashBlock (block.txids.map fun txid => (txid, position block.hashBlock txid))
    saved := Function.update s.saved 10 (block :: s.saved 10) }

def storedState : IndexState :=
  store (store (store { IndexState.empty with db := IndexState.empty.db.loadFork 10 } firstBlock) oldBlock) newBlock

def oldState : IndexState :=
  { storedState with
    db := (storedState.db.updateForkNext false 10 11 [] [firstBlock, oldBlock]).2
    chain := Function.update storedState.chain 10 [firstBlock, oldBlock] }

def newState : IndexState :=
  { oldState with
    db := (oldState.db.updateForkNext false 10 12 [oldBlock] [newBlock]).2
    chain := Function.update oldState.chain 10 [firstBlock, newBlock] }

theorem newState_reached : Relation.ReflTransGen (IndexStep position false) .empty newState := by
  have load : IndexStep position false .empty { IndexState.empty with db := IndexState.empty.db.loadFork 10 } :=
    .loadFork nofun
  have stored : ∀ s block, Relation.ReflTransGen (IndexStep position false) .empty s →
      (s.db.mapTxIndexDB 10).isSome → Relation.ReflTransGen (IndexStep position false) .empty (store s block) :=
    fun _ _ run loaded => run.tail (.addBlockTxIndexReceipt loaded)
  have all := stored _ newBlock (stored _ oldBlock (stored _ firstBlock (.single load) rfl) rfl) rfl
  have old : IndexStep position false storedState oldState :=
    .updateForkNext rfl (show storedState.chain 10 = [] ++ [] from rfl) .rfl ⟨by decide, by decide⟩ (by decide)
  have new : IndexStep position false oldState newState :=
    .updateForkNext rfl (show oldState.chain 10 = [firstBlock] ++ [oldBlock] from rfl) .rfl ⟨by decide, by decide⟩
      (by decide)
  exact (all.tail old).tail new

theorem indexes_follow_newBlock :
    newState.db.retrieveBlockHashByNumber 10 1 = some 12 ∧ newState.db.retrieveBlockHashByNumber 10 2 = none ∧
      newState.db.retrieveTxIndex 10 200 = some (12, position 12 200) ∧ newState.db.retrieveTxIndex 10 201 = none := by
  have loaded : (newState.db.mapTxIndexDB 10).isSome := rfl
  obtain ⟨numbers, positions⟩ := indexes_follow_longChain newState_reached loaded
  rw [numbers, numbers, positions, positions]
  decide

end Sample
end HashAhead.Chain

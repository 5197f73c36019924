import HashAhead.TxPool.Indexes

/-! What the calls of a pool do to its transactions and to the states that it keeps, with the indexes in order after
any calls. -/

namespace HashAhead.TxPool
open State Core Chain List Option AddressMap ForkTxPool

variable (chain : ForkChain)

theorem getDestState_eq (pool : ForkTxPool) (dest : Destination) :
    pool.getDestState chain dest =
      if ((pool.mapAddressTxState.stateAt dest).getD .null).isNull then chain.retrieveDestState pool.hashLastBlock dest
      else some ((pool.mapAddressTxState.stateAt dest).getD .null) := by
  have null : DestState.null.isNull = true := by decide
  rw [ForkTxPool.getDestState, stateAt]
  cases pool.mapAddressTxState.find dest with
  | none => simp [null]
  | some entry => rfl

theorem listAddressTx_widens {pool : ForkTxPool} (tidy : pool.mapAddressTxState.Tidy) (txid : UInt256) (ptx : PooledTx) :
    pool.mapAddressTxState.Widens (pool.listAddressTx txid ptx) ptx fun d id => Touches ptx.toTransaction d ∧ id = txid := by
  rw [ForkTxPool.listAddressTx]
  split_ifs with receiver sender sender
  · have first := update_add tidy ptx.destFrom txid ptx
    exact (first.trans (update_add first.tidy ptx.destTo txid ptx)).congr (by grind [Touches])
  · exact (update_add tidy ptx.destTo txid ptx).congr (by grind [Touches])
  · exact (update_add tidy ptx.destFrom txid ptx).congr (by grind [Touches])
  · exact (Widens.refl tidy).congr (by grind [Touches])

namespace Indexed
variable {base : PoolBase} {known : Set Transaction} {pool : ForkTxPool}

section
variable {dest : Destination} {entry : AddressTxState} (indexed : Indexed base known pool)
  (found : pool.mapAddressTxState.find dest = some entry)
include indexed found

theorem update {change : AddressTxState → AddressTxState} (same : (change entry).mapDestTx = entry.mapDestTx)
    (settled : (change entry).Settled) :
    Indexed base known { pool with mapAddressTxState := pool.mapAddressTxState.update dest change } := by
  obtain ⟨tidy, listed⟩ := AddressMap.update_same indexed.tidy found same settled
  exact { indexed with
    listed := fun d txid ptx => by rw [listed]; exact indexed.listed d txid ptx
    tidy := tidy }

theorem setDestState (state : DestState) : Indexed base known (pool.setDestState dest state) := by
  have settled := (indexed.tidy dest entry found).1
  have change := AddressTxState.setAddressState_eq settled state
  exact indexed.update found (by rw [change]) (by rw [change]; exact settled)

theorem setAddressContext (ctx : AddressContext) :
    Indexed base known (pool.setAddressContext dest ctx) :=
  indexed.update found rfl (indexed.tidy dest entry found).1

end

end Indexed

section States
variable (pool : ForkTxPool) (dest : Destination)

theorem stateAt_setDestState (state : DestState) (d : Destination) :
    (pool.setDestState dest state).mapAddressTxState.stateAt d =
      if d = dest then some state else pool.mapAddressTxState.stateAt d := stateAt_update ..

theorem stateAt_setAddressContext {entry : AddressTxState} (found : pool.mapAddressTxState.find dest = some entry)
    (ctx : AddressContext) (d : Destination) :
    (pool.setAddressContext dest ctx).mapAddressTxState.stateAt d = pool.mapAddressTxState.stateAt d := by
  rw [ForkTxPool.setAddressContext, stateAt_update]
  split_ifs with same
  · rw [AddressMap.entry, found, same, stateAt, found]
    rfl
  · rfl

end States

/-- A pool with one more transaction, and the states of its sender and its receiver after it. -/
structure Added (base : PoolBase) (known : Set Transaction) (chain : ForkChain) (tx : Transaction) (pool pool' : ForkTxPool) :
    Prop where
  indexed : Indexed base known pool'
  index : ∃ link, pool'.setTxLinkIndex = pool.setTxLinkIndex ++ [link] ∧ link.ptx.toTransaction = tx
  last : pool'.hashLastBlock = pool.hashLastBlock
  nonzero : tx.destFrom ≠ 0
  sender : ∃ stateFrom, pool.getDestState chain tx.destFrom = some stateFrom ∧
    pool'.mapAddressTxState.stateAt tx.destFrom = some (ForkTxPool.debitFrom tx stateFrom)
  receiver : tx.destTo ≠ 0 → tx.destFrom ≠ tx.destTo → ∃ nDestType nTemplateType,
    pool'.mapAddressTxState.stateAt tx.destTo =
      some (((pool.getDestState chain tx.destTo).getD (DestState.null.setType nDestType nTemplateType)).incBalance tx.nAmount)
  others : ∀ dest, ¬Touches tx dest → pool'.mapAddressTxState.stateAt dest = pool.mapAddressTxState.stateAt dest

theorem Added.txs {base : PoolBase} {known : Set Transaction} {chain : ForkChain} {tx : Transaction} {pool pool' : ForkTxPool}
    (added : Added base known chain tx pool pool') : pool'.txs = pool.txs ++ [tx] := by
  obtain ⟨link, index, same⟩ := added.index
  rw [ForkTxPool.txs, index, map_append, ← same]
  rfl

namespace Indexed
variable {base : PoolBase} {known : Set Transaction} {pool : ForkTxPool}

theorem addPooledTx_spec (indexed : Indexed base known pool) {tx : Transaction} (isKnown : tx ∈ known)
    (fresh : pool.mapTx.find (base.getHash tx) = none) :
    ∃ ptx pool', ptx.toTransaction = tx ∧
      ForkTxPool.addPooledTx base { pool with nTxSequenceNumber := pool.nTxSequenceNumber + 1 } (base.getHash tx) tx
        pool.nTxSequenceNumber = (true, pool') ∧
      Indexed base known pool' ∧ pool'.mapTx.find (base.getHash tx) = some ptx ∧
      pool'.setTxLinkIndex = pool.setTxLinkIndex ++ [ptx.link base] ∧ pool'.hashLastBlock = pool.hashLastBlock ∧
      pool.mapAddressTxState.Widens pool'.mapAddressTxState ptx fun d id => Touches tx d ∧ id = base.getHash tx := by
  let ptx : PooledTx := { tx with nSequenceNumber := pool.nTxSequenceNumber, nSerializeSize := base.getSerializeSize tx }
  have widens := listAddressTx_widens indexed.tidy (base.getHash tx) ptx
  have noLink : ∀ link ∈ pool.setTxLinkIndex, link.txid ≠ base.getHash tx := by
    intro link mem same
    have here := indexed.found_link mem
    rw [same, fresh] at here
    cases here
  have absent : ¬(pool.setTxLinkIndex.any fun link => decide (link.txid = base.getHash tx)) = true := by
    simpa using noLink
  refine ⟨ptx, _, rfl, if_neg absent, ?_, ?_, rfl, rfl, widens⟩
  · have found : ∀ id p, (pool.mapTx.insertNew (base.getHash tx) ptx).find id = some p ↔
        ∃ link ∈ pool.setTxLinkIndex ++ [ptx.link base], link.txid = id ∧ link.ptx = p := by
      intro id p
      simp only [HashMap.find_insertNew, mem_append, mem_singleton, or_and_right, exists_or, exists_eq_left,
        ← indexed.found]
      by_cases same : id = base.getHash tx
      · subst same
        simp [fresh, PooledTx.link, ptx]
      · have other : ¬(ptx.link base).txid = id := fun equal => same equal.symm
        simp [same, other]
    refine ⟨forall_mem_append.2 ⟨indexed.linked, ?_⟩, forall_mem_append.2 ⟨indexed.known, ?_⟩, ?_,
      forall_mem_append.2 ⟨fun link mem => Nat.lt_succ_of_lt (indexed.ahead link mem), ?_⟩, found, fun dest id p => ?_,
      widens.tidy⟩
    · rw [forall_mem_singleton]
      rfl
    · rwa [forall_mem_singleton]
    · refine pairwise_append.2 ⟨indexed.sequence, pairwise_singleton _ _, fun a inA b inB => ?_⟩
      rw [mem_singleton.1 inB]
      exact indexed.ahead a inA
    · rw [forall_mem_singleton]
      exact Nat.lt_succ_self _
    · show (pool.listAddressTx (base.getHash tx) ptx).listedAt dest id = some p ↔
        (pool.mapTx.insertNew (base.getHash tx) ptx).find id = some p ∧ Touches p.toTransaction dest
      rw [widens.listed, HashMap.find_insertNew]
      by_cases same : id = base.getHash tx
      · subst same
        have unlisted : pool.mapAddressTxState.listedAt dest (base.getHash tx) = none := by
          rw [eq_none_iff_forall_ne_some]
          intro p listed
          rw [indexed.listed, fresh] at listed
          cases listed.1
        rw [unlisted, fresh, none_or, none_or]
        simp only [and_true, if_true, Option.some.injEq]
        constructor
        · intro shown
          split_ifs at shown with touches
          cases shown
          exact ⟨rfl, touches⟩
        · rintro ⟨rfl, touches⟩
          rw [if_pos touches]
      · simp only [same, and_false, if_false, or_none]
        exact indexed.listed dest id p
  · show (pool.mapTx.insertNew (base.getHash tx) ptx).find _ = _
    rw [HashMap.find_insertNew, fresh, if_pos rfl]
    rfl

theorem creditTo (indexed : Indexed base known pool) (chain : ForkChain) {txid : UInt256} {ptx : PooledTx}
    (here : pool.mapTx.find txid = some ptx) (ctxAddressTo : AddressContext) :
    Indexed base known (pool.creditTo chain ptx.toTransaction ctxAddressTo) := by
  rw [ForkTxPool.creditTo]
  split_ifs with alone receiver
  · exact indexed
  · obtain ⟨entry, found⟩ := indexed.exists_entry here ⟨receiver, Or.inr rfl⟩
    exact indexed.setDestState found _
  · exact indexed

end Indexed

theorem creditTo_frame (pool : ForkTxPool) (tx : Transaction) (ctxAddressTo : AddressContext) :
    (pool.creditTo chain tx ctxAddressTo).mapTx = pool.mapTx ∧
    (pool.creditTo chain tx ctxAddressTo).setTxLinkIndex = pool.setTxLinkIndex ∧
    (pool.creditTo chain tx ctxAddressTo).hashLastBlock = pool.hashLastBlock := by
  rw [ForkTxPool.creditTo]
  split_ifs <;> exact ⟨rfl, rfl, rfl⟩

theorem stateAt_creditTo (pool : ForkTxPool) (tx : Transaction) (ctxAddressTo : AddressContext) (dest : Destination) :
    (pool.creditTo chain tx ctxAddressTo).mapAddressTxState.stateAt dest =
      if dest = tx.destTo ∧ tx.destTo ≠ 0 ∧ tx.destFrom ≠ tx.destTo then
        some (((pool.getDestState chain tx.destTo).getD
          (DestState.null.setType ctxAddressTo.getDestType ctxAddressTo.getTemplateType)).incBalance tx.nAmount)
      else pool.mapAddressTxState.stateAt dest := by
  rw [ForkTxPool.creditTo]
  by_cases alone : tx.destFrom = tx.destTo
  · rw [if_pos alone, if_neg fun all => all.2.2 alone]
  · rw [if_neg alone]
    by_cases receiver : tx.destTo ≠ 0
    · rw [if_pos receiver, stateAt_setDestState]
      exact if_congr ⟨fun same => ⟨same, receiver, alone⟩, fun all => all.1⟩ rfl rfl
    · rw [if_neg receiver, if_neg fun all => receiver all.2.1]

theorem applyTx_spec {base : PoolBase} {known : Set Transaction} {pool : ForkTxPool} (indexed : Indexed base known pool)
    (chain : ForkChain) {txid : UInt256} {ptx : PooledTx} (here : pool.mapTx.find txid = some ptx) (sender : ptx.destFrom ≠ 0)
    (payer : DestState) (ctxAddressFrom ctxAddressTo : AddressContext) :
    let pool' := pool.applyTx chain ptx.toTransaction payer ctxAddressFrom ctxAddressTo
    Indexed base known pool' ∧ pool'.setTxLinkIndex = pool.setTxLinkIndex ∧ pool'.hashLastBlock = pool.hashLastBlock ∧
    ∀ dest, pool'.mapAddressTxState.stateAt dest = if dest = ptx.destFrom then
      some (debitFrom ptx.toTransaction payer)
      else (pool.creditTo chain ptx.toTransaction ctxAddressTo).mapAddressTxState.stateAt dest := by
  have touchesFrom : Touches ptx.toTransaction ptx.destFrom := ⟨sender, Or.inl rfl⟩
  obtain ⟨sameTx, sameIndex, sameLast⟩ := creditTo_frame chain pool ptx.toTransaction ctxAddressTo
  have indexed₁ := indexed.creditTo chain here ctxAddressTo
  have here₁ : (pool.creditTo chain ptx.toTransaction ctxAddressTo).mapTx.find txid = some ptx := sameTx ▸ here
  rw [ForkTxPool.applyTx]
  generalize pool.creditTo chain ptx.toTransaction ctxAddressTo = pool₁ at *
  obtain ⟨entry₁, found₁⟩ := indexed₁.exists_entry here₁ touchesFrom
  have indexed₂ := indexed₁.setDestState found₁ (debitFrom ptx.toTransaction payer)
  obtain ⟨entry₂, found₂⟩ := indexed₂.exists_entry here₁ touchesFrom
  have indexed₃ := indexed₂.setAddressContext found₂ ctxAddressFrom
  have states : ∀ dest, ((pool₁.setDestState ptx.destFrom (debitFrom ptx.toTransaction payer)).setAddressContext
      ptx.destFrom ctxAddressFrom).mapAddressTxState.stateAt dest = if dest = ptx.destFrom then
        some (debitFrom ptx.toTransaction payer) else pool₁.mapAddressTxState.stateAt dest := by
    intro dest
    rw [stateAt_setAddressContext _ _ found₂, stateAt_setDestState]
  split_ifs with receiver
  · obtain ⟨entry₃, found₃⟩ := indexed₃.exists_entry here₁ ⟨receiver, Or.inr rfl⟩
    refine ⟨indexed₃.setAddressContext found₃ ctxAddressTo, sameIndex, sameLast, fun dest => ?_⟩
    rw [stateAt_setAddressContext _ _ found₃, states]
  · exact ⟨indexed₃, sameIndex, sameLast, states⟩

namespace Indexed
variable {base : PoolBase} {known : Set Transaction} {pool : ForkTxPool}

theorem addTx_cases (indexed : Indexed base known pool) (chain : ForkChain) {tx : Transaction} (isKnown : tx ∈ known) :
    (∃ err, err ≠ .ok ∧ pool.addTx chain base (base.getHash tx) tx = (err, pool)) ∨
    ∃ pool', pool.addTx chain base (base.getHash tx) tx = (.ok, pool') ∧ Added base known chain tx pool pool' := by
  rw [ForkTxPool.addTx]
  by_cases pooled : (pool.mapTx.find (base.getHash tx)).isSome = true
  · exact Or.inl ⟨.alreadyHave, by decide, if_pos pooled⟩
  rw [if_neg pooled]
  by_cases mined : chain.existsTx (base.getHash tx) = true
  · exact Or.inl ⟨.alreadyHave, by decide, if_pos mined⟩
  rw [if_neg mined]
  by_cases nobody : tx.destFrom = 0
  · exact Or.inl ⟨.transactionInputInvalid, by decide, if_pos nobody⟩
  rw [if_neg nobody]
  by_cases black : chain.isExistBlacklistAddress tx.destFrom = true
  · exact Or.inl ⟨.transactionAtBlacklist, by decide, if_pos black⟩
  rw [if_neg black]
  cases stateHere : pool.getDestState chain tx.destFrom with
  | none => exact Or.inl ⟨.missingPrev, by decide, rfl⟩
  | some stateFrom =>
    cases ctxHere : pool.getAddressContext chain tx.destFrom with
    | none => exact Or.inl ⟨.transactionInvalid, by decide, rfl⟩
    | some ctxAddressFrom =>
      have fresh : pool.mapTx.find (base.getHash tx) = none := by simpa using pooled
      obtain ⟨ptx, pool₁, rfl, added, indexed₁, here₁, index₁, last₁, widens⟩ := indexed.addPooledTx_spec isKnown fresh
      obtain ⟨indexed₂, sameIndex, sameLast, states⟩ := applyTx_spec indexed₁ chain here₁ nobody stateFrom ctxAddressFrom
        (pool.ctxAddressTo chain ptx.toTransaction)
      refine Or.inr ⟨_, by simp only [added, Bool.true_eq_false, if_false]; rfl, ?_⟩
      simp only [stateAt_creditTo] at states
      refine ⟨indexed₂, ⟨ptx.link base, sameIndex.trans index₁, rfl⟩, sameLast.trans last₁, nobody,
        ⟨stateFrom, stateHere, by rw [states, if_pos rfl]⟩, fun receiver apart => ?_, fun dest untouched => ?_⟩
      · refine ⟨(pool.ctxAddressTo chain ptx.toTransaction).getDestType,
          (pool.ctxAddressTo chain ptx.toTransaction).getTemplateType, ?_⟩
        rw [states, if_neg (Ne.symm apart), if_pos ⟨rfl, receiver, apart⟩, getDestState_eq, getDestState_eq, last₁]
        simp only [widens.kept]
      · rw [states, if_neg, if_neg]
        · exact widens.others dest fun id both => untouched both.1
        · exact fun all => untouched ⟨all.1 ▸ all.2.1, Or.inr all.1⟩
        · exact fun same => untouched ⟨same ▸ nobody, Or.inl same⟩

theorem removeBlockTxs_spec (distinct : Set.InjOn base.getHash known) (indexed : Indexed base known pool)
    {txs : List Transaction} (isKnown : ∀ tx ∈ txs, tx ∈ known) :
    (removeBlockTxs base txs pool).1 = true ∧
    Reduced base known pool (removeBlockTxs base txs pool).2 (txs.foldl (leave base) pool.txs) := by
  induction txs generalizing pool with
  | nil => exact ⟨rfl, Reduced.refl indexed⟩
  | cons tx rest ih =>
    obtain ⟨passed, reduced⟩ := indexed.removePooledTx_spec distinct (isKnown tx mem_cons_self) (Or.inr rfl)
    obtain ⟨all, reduced'⟩ := ih reduced.indexed fun other mem => isKnown other (mem_cons_of_mem _ mem)
    rw [reduced.txs] at reduced'
    rw [removeBlockTxs, untilFails, if_pos passed]
    exact ⟨all, reduced.trans reduced'⟩

theorem addMissTxs_eq (indexed : Indexed base known pool) (chain : ForkChain) (dest : Destination) (fuel : Nat) :
    addMissTxs base chain dest fuel pool = pool := by
  cases fuel with
  | zero => rfl
  | succ fuel =>
    have none_next := AddressTxState.fetchNextMissTx_eq_none (AddressMap.settled_entry indexed.tidy dest)
    rw [addMissTxs]
    simp only [none_next]

end Indexed

/-- The state of an address after the turn of `SynchronizeBlockChain` for it. -/
def refreshed (stateDb : Option DestState) (state : DestState) : DestState :=
  match stateDb with
  | none => state
  | some stateDb => if state.nTxNonce < stateDb.nTxNonce then stateDb else state

structure Restated (base : PoolBase) (known : Set Transaction) (pool pool' : ForkTxPool)
    (states : Destination → Option DestState) : Prop where
  indexed : Indexed base known pool'
  index : pool'.setTxLinkIndex = pool.setTxLinkIndex
  last : pool'.hashLastBlock = pool.hashLastBlock
  states : ∀ dest, pool'.mapAddressTxState.stateAt dest = states dest

namespace Indexed
variable {base : PoolBase} {known : Set Transaction} {pool : ForkTxPool}

theorem refreshAddress_spec (indexed : Indexed base known pool) (chain : ForkChain) (update : BlockChainUpdate)
    (dest : Destination) :
    (refreshAddress base chain update pool dest).1 = (chain.retrieveDestState update.hashLastBlock dest).isSome ∧
    Restated base known pool (refreshAddress base chain update pool dest).2 fun d =>
      if d = dest then (pool.mapAddressTxState.stateAt d).map (refreshed (chain.retrieveDestState update.hashLastBlock d))
      else pool.mapAddressTxState.stateAt d := by
  have same : (pool.mapAddressTxState.stateAt dest).map (refreshed (chain.retrieveDestState update.hashLastBlock dest)) =
      pool.mapAddressTxState.stateAt dest → Restated base known pool pool fun d => if d = dest then
        (pool.mapAddressTxState.stateAt d).map (refreshed (chain.retrieveDestState update.hashLastBlock d))
        else pool.mapAddressTxState.stateAt d := by
    refine fun unchanged => ⟨indexed, rfl, rfl, fun d => ?_⟩
    split_ifs with here
    · rw [here, unchanged]
    · rfl
  rw [refreshAddress]
  cases answer : chain.retrieveDestState update.hashLastBlock dest with
  | none => exact ⟨rfl, same (by rw [answer]; exact Option.map_id')⟩
  | some stateDb =>
    cases found : pool.mapAddressTxState.find dest with
    | none => exact ⟨rfl, same (by rw [stateAt, found]; rfl)⟩
    | some entry =>
      simp only
      split_ifs with behind
      · have indexed' := indexed.setDestState found stateDb
        rw [indexed'.addMissTxs_eq]
        refine ⟨rfl, indexed', rfl, rfl, fun d => ?_⟩
        rw [stateAt_setDestState]
        split_ifs with same
        · rw [same, answer, stateAt, found, map_some, map_some, refreshed, if_pos behind]
        · rfl
      · rw [indexed.addMissTxs_eq]
        exact ⟨rfl, same (by rw [answer, stateAt, found, map_some, map_some, refreshed, if_neg behind])⟩

theorem refreshed_twice (stateDb : Option DestState) (state : DestState) :
    refreshed stateDb (refreshed stateDb state) = refreshed stateDb state := by
  cases stateDb with
  | none => rfl
  | some stateDb =>
    simp only [refreshed]
    split_ifs <;> rfl

theorem refreshAll_spec (indexed : Indexed base known pool) {chain : ForkChain} {update : BlockChainUpdate}
    {dests : List Destination} (answered : ∀ dest ∈ dests, (chain.retrieveDestState update.hashLastBlock dest).isSome = true) :
    (untilFails (refreshAddress base chain update) dests pool).1 = true ∧
    Restated base known pool (untilFails (refreshAddress base chain update) dests pool).2 fun d =>
      if d ∈ dests then (pool.mapAddressTxState.stateAt d).map (refreshed (chain.retrieveDestState update.hashLastBlock d))
      else pool.mapAddressTxState.stateAt d := by
  induction dests generalizing pool with
  | nil => exact ⟨rfl, indexed, rfl, rfl, fun d => by simp [untilFails]⟩
  | cons dest rest ih =>
    obtain ⟨passed, first⟩ := indexed.refreshAddress_spec chain update dest
    rw [answered dest mem_cons_self] at passed
    obtain ⟨all, later⟩ := ih first.indexed fun d mem => answered d (mem_cons_of_mem _ mem)
    rw [untilFails, if_pos passed]
    refine ⟨all, later.indexed, later.index.trans first.index, later.last.trans first.last, fun d => ?_⟩
    rw [later.states, first.states]
    by_cases here : d = dest
    · rw [if_pos here, if_pos (mem_cons.2 (Or.inl here)), Option.map_map]
      split_ifs
      · exact congrArg (Option.map · _) (funext (refreshed_twice _))
      · rfl
    · simp [here]

theorem removeObsoletedCertTx_spec (indexed : Indexed base known pool) :
    Reduced base known pool (ForkTxPool.removeObsoletedCertTx base pool) (pool.txs.filter fun tx =>
      ¬(tx.nType = .cert ∧ isObsoletedCertTx base (getBlockHeightByHash pool.hashLastBlock) tx = true)) := by
  have found : ∀ (pool : ForkTxPool) (kv : UInt256 × PooledTx), pool.mapTx.find kv.1 = some kv.2 →
      pool.removePooledTx kv.1 kv.2.toTransaction false = pool.removeFoundTx kv.1 kv.2.toTransaction := by
    intro pool kv here
    rw [ForkTxPool.removePooledTx, here]
    rfl
  let old := (pool.byTxType .cert).filter fun link =>
    isObsoletedCertTx base (getBlockHeightByHash pool.hashLastBlock) link.ptx.toTransaction
  have sublist : old.Sublist pool.setTxLinkIndex := filter_sublist.trans filter_sublist
  have ids : pool.setTxLinkIndex.map PooledTxLink.txid = pool.txs.map base.getHash := by
    rw [ForkTxPool.txs, List.map_map]
    exact map_congr_left fun link mem => indexed.txid_eq mem
  have nodup : ((old.map fun link => (link.txid, link.ptx)).map Prod.fst).Nodup := by
    rw [List.map_map]
    exact (ids ▸ indexed.nodup_hash : (pool.setTxLinkIndex.map PooledTxLink.txid).Nodup).sublist (sublist.map _)
  obtain ⟨_, reduced⟩ := removeEach_spec found indexed nodup fun kv mem => by
    obtain ⟨link, inside, rfl⟩ := List.mem_map.1 mem
    exact indexed.found_link (sublist.subset inside)
  rw [foldl_map] at reduced
  show Reduced base known pool (old.foldl _ pool) _
  convert reduced using 1
  refine filter_congr fun tx mem => ?_
  obtain ⟨link, inside, rfl⟩ := List.mem_map.1 mem
  rw [decide_eq_decide, not_iff_not, List.map_map, List.mem_map]
  have sameType : link.nType = link.ptx.nType := congrArg PooledTxLink.nType (indexed.linked link inside)
  constructor
  · rintro ⟨cert, tooOld⟩
    refine ⟨link, mem_filter.2 ⟨mem_filter.2 ⟨inside, by simpa [sameType] using cert⟩, tooOld⟩, ?_⟩
    exact indexed.txid_eq inside
  · rintro ⟨link', inOld, same⟩
    have inside' := sublist.subset inOld
    have equal : link'.ptx = link.ptx := by
      have first := indexed.found_link inside'
      rw [show link'.txid = link.txid from same.trans (indexed.txid_eq inside).symm, indexed.found_link inside] at first
      exact (some_inj.1 first).symm
    obtain ⟨inCerts, tooOld⟩ := mem_filter.1 inOld
    rw [equal] at tooOld
    have cert := (mem_filter.1 inCerts).2
    rw [indexed.linked link' inside', equal] at cert
    exact ⟨of_decide_eq_true cert, tooOld⟩

theorem synchronizeBlockChain (distinct : Set.InjOn base.getHash known) (indexed : Indexed base known pool)
    (chain : ForkChain) {update : BlockChainUpdate} (isKnown : ∀ tx ∈ update.txs, tx ∈ known) :
    Indexed base known (ForkTxPool.synchronizeBlockChain base chain update pool).2 := by
  obtain ⟨removed, reduced⟩ := indexed.removeBlockTxs_spec distinct isKnown
  have refreshed := untilFails_keeps (ForkTxPool.setAddAddress update.txs).members
    (fun dest _ _ before => (before.refreshAddress_spec chain update dest).2.indexed) _ reduced.indexed
  rw [ForkTxPool.synchronizeBlockChain]
  simp only [removed, Bool.true_eq_false, if_false]
  split_ifs with failed
  · exact refreshed
  · have certs := refreshed.removeObsoletedCertTx_spec.indexed
    exact { certs with }
  · exact { refreshed with }

theorem call (distinct : Set.InjOn base.getHash known) (indexed : Indexed base known pool) {call : Call}
    (isKnown : ∀ tx ∈ call.txs, tx ∈ known) : Indexed base known (pool.call base call) := by
  cases call with
  | addTx chain tx =>
    rw [ForkTxPool.call]
    rcases indexed.addTx_cases chain (isKnown tx (mem_singleton.2 rfl)) with ⟨err, _, same⟩ | ⟨pool', same, added⟩
    · rw [same]
      exact indexed
    · rw [same]
      exact added.indexed
  | removePooledTx tx fInvalidTx => exact indexed.removePooledTx distinct (isKnown tx (mem_singleton.2 rfl)) fInvalidTx
  | synchronizeBlockChain chain update => exact indexed.synchronizeBlockChain distinct chain isKnown
  | clearTxPool => exact .empty base known rfl rfl rfl

theorem run (distinct : Set.InjOn base.getHash known) (indexed : Indexed base known pool) {calls : List Call}
    (isKnown : ∀ call ∈ calls, ∀ tx ∈ call.txs, tx ∈ known) : Indexed base known (pool.run base calls) := by
  induction calls generalizing pool with
  | nil => exact indexed
  | cons first rest ih =>
    exact ih (indexed.call distinct (isKnown first mem_cons_self))
      fun call mem => isKnown call (mem_cons_of_mem _ mem)

end Indexed

def callTxs (calls : List Call) : Set Transaction := { tx | ∃ call ∈ calls, tx ∈ call.txs }

/-- What holds of the indexes of a pool: the ids of the pooled transactions are those of the index, the addresses list
them under sender and receiver and list nothing else, and each of them can be removed. -/
structure Agree (base : PoolBase) (pool : ForkTxPool) : Prop where
  ids : ∀ txid, (pool.mapTx.find txid).isSome = true ↔ ∃ link ∈ pool.setTxLinkIndex, link.txid = txid
  listed : ∀ txid ptx, pool.mapTx.find txid = some ptx → ∀ dest,
    (∃ entry, pool.mapAddressTxState.find dest = some entry ∧ (entry.mapDestTx.find txid).isSome = true) ↔
      dest ≠ 0 ∧ (dest = ptx.destFrom ∨ dest = ptx.destTo)
  pooled : ∀ dest entry txid, pool.mapAddressTxState.find dest = some entry → (entry.mapDestTx.find txid).isSome = true →
    (pool.mapTx.find txid).isSome = true
  removable : ∀ txid ptx, pool.mapTx.find txid = some ptx → ∀ fInvalidTx,
    (pool.removePooledTx txid ptx.toTransaction fInvalidTx).1 = true

theorem Indexed.agree {base : PoolBase} {known : Set Transaction} {pool : ForkTxPool}
    (indexed : Indexed base known pool) : Agree base pool where
  ids txid := by
    rw [isSome_iff_exists]
    constructor
    · rintro ⟨ptx, here⟩
      obtain ⟨link, mem, same, _⟩ := (indexed.found _ _).1 here
      exact ⟨link, mem, same⟩
    · rintro ⟨link, mem, rfl⟩
      exact ⟨link.ptx, indexed.found_link mem⟩
  listed txid ptx here dest := by
    have touched : pool.mapAddressTxState.listedAt dest txid = some ptx ↔ Touches ptx.toTransaction dest := by
      rw [indexed.listed, here]
      simp
    show _ ↔ Touches ptx.toTransaction dest
    rw [← touched]
    constructor
    · rintro ⟨entry, found, shown⟩
      obtain ⟨ptx', shown⟩ := isSome_iff_exists.1 shown
      have listed' : pool.mapAddressTxState.listedAt dest txid = some ptx' := bind_eq_some_iff.2 ⟨entry, found, shown⟩
      rw [listed', ← here, ((indexed.listed _ _ _).1 listed').1]
    · intro listed
      obtain ⟨entry, found, shown⟩ := bind_eq_some_iff.1 listed
      exact ⟨entry, found, by rw [shown]; rfl⟩
  pooled dest entry txid found shown := by
    obtain ⟨ptx, shown⟩ := isSome_iff_exists.1 shown
    have listed : pool.mapAddressTxState.listedAt dest txid = some ptx := bind_eq_some_iff.2 ⟨entry, found, shown⟩
    rw [((indexed.listed _ _ _).1 listed).1]
    rfl
  removable txid ptx here fInvalidTx := by
    rw [ForkTxPool.removePooledTx, here]
    exact (indexed.removeFoundTx_spec here).1

/-- After any calls with transactions of distinct ids the indexes of the pool agree. -/
theorem indexes_agree (base : PoolBase) (hashLastBlock : UInt256) (nBlockTime : Int) (calls : List Call)
    (distinct : Set.InjOn base.getHash (callTxs calls)) :
    Agree base ((ForkTxPool.new hashLastBlock nBlockTime).run base calls) :=
  ((Indexed.empty base (callTxs calls) rfl rfl rfl).run distinct
    fun call member _ inside => ⟨call, member, inside⟩).agree

namespace Sample

def transfer (nTxNonce : UInt64) (destFrom destTo : Destination) (nAmount nGasPrice : UInt256) : Transaction :=
  ⟨.token, 1, nTxNonce, destFrom, destTo, nAmount, nGasPrice, 1, .empty, []⟩

def base : PoolBase := ⟨Transaction.nAmount, fun _ => 100, true, 10⟩

def account (nTxNonce : UInt64) (nBalance : UInt256) : DestState :=
  ⟨packType destTypePubkey 0, nTxNonce, nBalance, 0, 0, false⟩

def chainOf (states : UInt256 → Destination → Option DestState) : ForkChain :=
  ⟨fun _ => false, fun _ => false, states, fun _ _ => some (.pubkey []), fun _ _ => none, 10⟩

def conflict : List Call :=
  let chain := chainOf fun _ _ => some (account 0 1000)
  [.addTx chain (transfer 1 0xA 0xB 5 10), .addTx chain (transfer 2 0xA 0xA 6 10),
    .synchronizeBlockChain chain ⟨2, 0, [⟨[transfer 1 0xA 0xC 7 10]⟩]⟩]

theorem distinct_of_mem {calls : List Call} (txs : List Transaction) (inside : ∀ call ∈ calls, ∀ tx ∈ call.txs, tx ∈ txs)
    (nodup : (txs.map base.getHash).Nodup) : Set.InjOn base.getHash (callTxs calls) := by
  rintro tx ⟨call, mem, here⟩ tx' ⟨call', mem', here'⟩ same
  exact inj_on_of_nodup_map nodup (inside call mem tx here) (inside call' mem' tx' here') same

theorem conflict_distinct : Set.InjOn base.getHash (callTxs conflict) :=
  distinct_of_mem [transfer 1 0xA 0xB 5 10, transfer 2 0xA 0xA 6 10, transfer 1 0xA 0xC 7 10]
    (by simp [conflict, Call.txs, BlockChainUpdate.txs, transfer]) (by decide)

/-- The two go with the block. -/
theorem indexes_agree_conflict : Set.InjOn base.getHash (callTxs conflict) ∧
    ((ForkTxPool.new 1 0).run base (conflict.take 2)).txs.length = 2 ∧
    ((ForkTxPool.new 1 0).run base conflict).txs.length = 0 ∧ Agree base ((ForkTxPool.new 1 0).run base conflict) :=
  ⟨conflict_distinct, by decide +kernel, by decide +kernel, indexes_agree base 1 0 conflict conflict_distinct⟩

end Sample

end HashAhead.TxPool

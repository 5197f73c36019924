import HashAhead.Foundation.Settlement
import HashAhead.TxPool.Runs

/-! The states that a pool keeps for its addresses, beside the states of the chain at its last block with the pooled
transactions applied. Adding a transaction keeps the two equal. A block keeps them equal for an address that still has
pooled transactions only if the chain has changed the address as the transactions that leave the pool do: the pool
sets no state from the chain unless the nonce of a sender has fallen behind. -/

namespace HashAhead.TxPool
open Foundation State Core Chain List Option DestState ForkTxPool

abbrev Holding := UInt64 × UInt256

def holding : Option DestState → Holding
  | none => (0, 0)
  | some state => (state.nTxNonce, state.nBalance)

/-- What a transaction does to an address. A certificate leaves the nonce. -/
def delta (tx : Transaction) (dest : Destination) : Holding :=
  (if tx.destFrom = dest ∧ dest ≠ 0 ∧ tx.nType ≠ .cert then 1 else 0,
    (if tx.destTo = dest ∧ dest ≠ 0 then tx.nAmount else 0) -
      if tx.destFrom = dest ∧ dest ≠ 0 then tx.nAmount + tx.getTxFee else 0)

theorem delta_of_untouched {tx : Transaction} {dest : Destination} (untouched : ¬Touches tx dest) : delta tx dest = 0 := by
  have notFrom : ¬(tx.destFrom = dest ∧ dest ≠ 0) := fun both => untouched ⟨both.2, Or.inl both.1.symm⟩
  have notTo : ¬(tx.destTo = dest ∧ dest ≠ 0) := fun both => untouched ⟨both.2, Or.inr both.1.symm⟩
  have notCounted : ¬(tx.destFrom = dest ∧ dest ≠ 0 ∧ tx.nType ≠ .cert) := fun all => notFrom ⟨all.1, all.2.1⟩
  rw [delta, if_neg notFrom, if_neg notTo, if_neg notCounted, sub_zero]
  rfl

abbrev States := UInt256 → Destination → Option DestState

def States.at (states : States) (hashBlock : UInt256) (dest : Destination) : Holding := holding (states hashBlock dest)

/-- What an address has at the last block of a pool with the pooled transactions applied. -/
def ForkTxPool.replay (states : States) (pool : ForkTxPool) : Destination → Holding :=
  settle delta (states.at pool.hashLastBlock) pool.txs

/-- The kept states of the addresses with pooled transactions are those of the chain with the pooled transactions. -/
def Exact (states : States) (pool : ForkTxPool) : Prop :=
  ∀ dest, (∃ tx ∈ pool.txs, Touches tx dest) →
    ∃ state, pool.mapAddressTxState.stateAt dest = some state ∧ (state.nTxNonce, state.nBalance) = pool.replay states dest

section Add
variable {base : PoolBase} {known : Set Transaction} {pool : ForkTxPool} {states : States}

/-- An address with a null state in the pool has nothing on the chain, so that reading the chain for it is right. -/
def NotEmptied (states : States) (pool : ForkTxPool) (dest : Destination) : Prop :=
  ∀ state, pool.mapAddressTxState.stateAt dest = some state → state.isNull = true → states.at pool.hashLastBlock dest = 0

theorem pending_eq_replay (indexed : Indexed base known pool) (exact_ : Exact states pool) {chain : ForkChain}
    (sameStates : chain.retrieveDestState = states) {dest : Destination} (kept : NotEmptied states pool dest) :
    holding (pool.getDestState chain dest) = pool.replay states dest := by
  rw [getDestState_eq, sameStates]
  cases here : pool.mapAddressTxState.stateAt dest with
  | none =>
    -- the address has no pooled transactions
    have absent : pool.mapAddressTxState.find dest = none := map_eq_none_iff.1 here
    have null : null.isNull = true := by decide
    rw [getD_none, if_pos null, replay, settle_of_untouched]
    · rfl
    · intro tx mem
      apply delta_of_untouched
      intro touches
      obtain ⟨entry, found⟩ := indexed.exists_entry_of_mem mem touches
      rw [absent] at found
      cases found
  | some state =>
    obtain ⟨entry, found, _⟩ := map_eq_some_iff.1 here
    obtain ⟨state', here', same⟩ := exact_ dest (indexed.exists_touching found)
    rw [here] at here'
    cases here'
    rw [getD_some]
    split_ifs with null
    · have empty := kept state here null
      rw [isNull_iff] at null
      rw [← same, null.1.2.1, null.2]
      exact empty
    · exact same

variable {tx : Transaction}

theorem delta_sender (nonzero : tx.destFrom ≠ 0) :
    delta tx tx.destFrom = (if tx.nType = .cert then 0 else 1,
      (if tx.destFrom = tx.destTo then tx.nAmount else 0) - (tx.nAmount + tx.getTxFee)) := by
  have received : tx.destTo = tx.destFrom ∧ tx.destFrom ≠ 0 ↔ tx.destFrom = tx.destTo :=
    ⟨fun both => both.1.symm, fun same => ⟨same.symm, nonzero⟩⟩
  have counted : tx.destFrom = tx.destFrom ∧ tx.destFrom ≠ 0 ∧ tx.nType ≠ .cert ↔ ¬tx.nType = .cert :=
    ⟨fun all => all.2.2, fun user => ⟨rfl, nonzero, user⟩⟩
  rw [delta, if_pos (⟨rfl, nonzero⟩ : tx.destFrom = tx.destFrom ∧ _), if_congr received rfl rfl, if_congr counted rfl rfl, ite_not]

theorem holding_debitFrom (nonzero : tx.destFrom ≠ 0) (payer : DestState) :
    ((debitFrom tx payer).nTxNonce, (debitFrom tx payer).nBalance) =
      holding (some payer) + delta tx tx.destFrom := by
  rw [delta_sender nonzero]
  by_cases cert : tx.nType = .cert <;> by_cases alone : tx.destFrom = tx.destTo
  · simp [debitFrom, holding, cert, alone, incBalance, decBalance, add_sub_assoc]
  · simp [debitFrom, holding, cert, alone, decBalance, sub_eq_add_neg]
  · simp [debitFrom, holding, cert, alone, incTxNonce, incBalance, decBalance, add_sub_assoc]
  · simp [debitFrom, holding, cert, alone, incTxNonce, decBalance, sub_eq_add_neg]

theorem Exact.addTx (indexed : Indexed base known pool) (exact_ : Exact states pool) {chain : ForkChain}
    (sameStates : chain.retrieveDestState = states) (kept : ∀ dest, Touches tx dest → NotEmptied states pool dest)
    {pool' : ForkTxPool} (added : Added base known chain tx pool pool') : Exact states pool' := by
  have replayed : ∀ dest, pool'.replay states dest = pool.replay states dest + delta tx dest := by
    intro dest
    rw [replay, added.txs, added.last, settle_append, settle_singleton]
    rfl
  intro dest touched
  rw [replayed]
  by_cases here : Touches tx dest
  · rw [← pending_eq_replay indexed exact_ sameStates (kept dest here)]
    by_cases sender : dest = tx.destFrom
    · obtain ⟨stateFrom, pending, after⟩ := added.sender
      rw [sender, pending]
      exact ⟨_, after, holding_debitFrom added.nonzero stateFrom⟩
    · have receiver : dest = tx.destTo := here.2.resolve_left sender
      have apart : tx.destFrom ≠ tx.destTo := fun same => sender (receiver.trans same.symm)
      obtain ⟨nDestType, nTemplateType, after⟩ := added.receiver (receiver ▸ here.1) apart
      rw [receiver]
      refine ⟨_, after, ?_⟩
      rw [delta, if_neg fun all => apart all.1, if_pos ⟨rfl, receiver ▸ here.1⟩, if_neg fun both => apart both.1, sub_zero]
      cases pool.getDestState chain tx.destTo with
      | none => simp [holding, incBalance, setType, null]
      | some state => simp [holding, incBalance]
  · rw [delta_of_untouched here, add_zero, added.others dest here]
    obtain ⟨other, mem, touches⟩ := touched
    rw [added.txs, mem_append, mem_singleton] at mem
    rcases mem with mem | rfl
    · exact exact_ dest ⟨other, mem, touches⟩
    · exact absurd touches here

end Add

section Synchronize
variable (base : PoolBase) (states : States) (pool : ForkTxPool) (update : BlockChainUpdate)

def survivors : List Transaction :=
  let mined := update.txs.foldl (leave base) pool.txs
  if base.isGenesisFork then mined.filter fun tx =>
    ¬(tx.nType = .cert ∧ ForkTxPool.isObsoletedCertTx base (getBlockHeightByHash pool.hashLastBlock) tx = true)
  else mined

def leavers : List Transaction :=
  pool.txs.filter fun tx => base.getHash tx ∉ (survivors base pool update).map base.getHash

def Overtaken (dest : Destination) : Prop :=
  dest ∈ ForkTxPool.setAddAddress update.txs ∧ ∃ state stateDb, pool.mapAddressTxState.stateAt dest = some state ∧
    states update.hashLastBlock dest = some stateDb ∧ state.nTxNonce < stateDb.nTxNonce

def Answered : Prop := ∀ dest ∈ ForkTxPool.setAddAddress update.txs, (states update.hashLastBlock dest).isSome = true

instance : Decidable (Answered states update) :=
  List.decidableBAll (fun dest => (states update.hashLastBlock dest).isSome = true)
    (ForkTxPool.setAddAddress update.txs).members

/-- The addresses that keep pooled transactions have been changed by the new blocks as the transactions that leave the
pool change them. Where the pool takes the state from the chain, the transactions that stay do nothing to the address. -/
def Followed : Prop := ∀ dest, (∃ tx ∈ survivors base pool update, Touches tx dest) →
  (Overtaken states pool update dest → ((survivors base pool update).map fun tx => delta tx dest).sum = 0) ∧
  (¬Overtaken states pool update dest →
    states.at update.hashLastBlock dest = settle delta (states.at pool.hashLastBlock) (leavers base pool update) dest)

theorem leave_sublist (txs : List Transaction) (tx : Transaction) : (leave base txs tx).Sublist txs := by
  rw [leave]
  split_ifs
  · exact filter_sublist
  · exact filter_sublist
  · exact .refl _

theorem foldl_leave_sublist (mined txs : List Transaction) : (mined.foldl (leave base) txs).Sublist txs := by
  induction mined generalizing txs with
  | nil => exact .refl _
  | cons tx mined ih => exact (ih _).trans (leave_sublist base txs tx)

theorem survivors_sublist : (survivors base pool update).Sublist pool.txs := by
  rw [survivors]
  split_ifs
  · exact filter_sublist.trans (foldl_leave_sublist ..)
  · exact foldl_leave_sublist ..

variable {base states pool update} {known : Set Transaction}

section
variable (distinct : Set.InjOn base.getHash known) (indexed : Indexed base known pool) {chain : ForkChain}
include distinct indexed

/-- The pool after new blocks: the survivors, with the states that were kept or taken from the chain. -/
theorem synchronizeBlockChain_spec (sameStates : chain.retrieveDestState = states)
    (isKnown : ∀ tx ∈ update.txs, tx ∈ known) (answered : Answered states update) :
    ∃ pool', synchronizeBlockChain base chain update pool = (true, pool') ∧ Indexed base known pool' ∧
      pool'.txs = survivors base pool update ∧ pool'.hashLastBlock = update.hashLastBlock ∧
      ∀ dest state', pool'.mapAddressTxState.stateAt dest = some state' →
        ∃ state, pool.mapAddressTxState.stateAt dest = some state ∧
          state' = if dest ∈ setAddAddress update.txs then refreshed (states update.hashLastBlock dest) state
            else state := by
  obtain ⟨removed, reduced⟩ := indexed.removeBlockTxs_spec distinct isKnown
  obtain ⟨passed, restated⟩ := reduced.indexed.refreshAll_spec
    fun dest mem => sameStates ▸ answered dest mem
  rw [synchronizeBlockChain]
  simp only [removed, passed, Bool.true_eq_false, if_false]
  generalize untilFails _ _ (ForkTxPool.removeBlockTxs base update.txs pool).2 = turns at restated ⊢
  have final : Reduced base known turns.2 (if base.isGenesisFork = true then ForkTxPool.removeObsoletedCertTx base turns.2
      else turns.2) (survivors base pool update) := by
    have sameTxs : turns.2.txs = update.txs.foldl (leave base) pool.txs := by
      rw [ForkTxPool.txs, restated.index]
      exact reduced.txs
    have certs := restated.indexed.removeObsoletedCertTx_spec
    rw [sameTxs, restated.last, reduced.last] at certs
    rw [survivors]
    split_ifs
    · exact certs
    · exact sameTxs ▸ Reduced.refl restated.indexed
  generalize (if base.isGenesisFork = true then _ else _) = left at final ⊢
  refine ⟨_, rfl, { final.indexed with }, final.txs, rfl, fun dest state' after => ?_⟩
  have before := final.stateAt after
  rw [restated.states, sameStates] at before
  split_ifs at before ⊢ with sender sender' sender'
  · obtain ⟨state, here, rfl⟩ := map_eq_some_iff.1 before
    exact ⟨state, reduced.stateAt here, rfl⟩
  · exact absurd sender sender'
  · exact absurd sender' sender
  · exact ⟨state', reduced.stateAt before, rfl⟩

/-- After new blocks the kept states are still those of the replay if and only if the chain has followed the pool. -/
theorem exact_synchronize_iff (exact_ : Exact states pool) (sameStates : chain.retrieveDestState = states)
    (isKnown : ∀ tx ∈ update.txs, tx ∈ known) (answered : Answered states update) :
    Exact states (synchronizeBlockChain base chain update pool).2 ↔ Followed base states pool update := by
  obtain ⟨pool', result, indexed', txs', last', states'⟩ :=
    synchronizeBlockChain_spec distinct indexed sameStates isKnown answered
  rw [result]
  refine forall_congr' fun dest => ?_
  rw [txs']
  refine imp_congr_right fun touched => ?_
  obtain ⟨tx, mem, touches⟩ := touched
  have mem' : tx ∈ pool'.txs := txs' ▸ mem
  obtain ⟨entry', found'⟩ := indexed'.exists_entry_of_mem mem' touches
  have kept' : pool'.mapAddressTxState.stateAt dest = some entry'.stateAddress := by
    rw [AddressMap.stateAt, found']
    rfl
  obtain ⟨state, kept, same⟩ := states' dest _ kept'
  obtain ⟨state₀, kept₀, replayed⟩ := exact_ dest ⟨tx, (survivors_sublist base pool update).subset mem, touches⟩
  rw [kept] at kept₀
  cases kept₀
  -- the replay before is that of the transactions that leave and then of those that stay
  have split : pool.replay states dest = settle delta (states.at pool.hashLastBlock) (leavers base pool update) dest +
      ((survivors base pool update).map fun tx => delta tx dest).sum := by
    rw [replay, settle_apply, settle_apply,
      sum_sublist (survivors_sublist base pool update) indexed.nodup_hash]
    show _ + (_ + _) = _ + _ + _
    rw [add_assoc, leavers, add_comm (List.sum _)]
  have after : pool'.replay states dest =
      states.at update.hashLastBlock dest + ((survivors base pool update).map fun tx => delta tx dest).sum := by
    rw [replay, settle_apply, txs', last']
  rw [kept', after]
  by_cases overtaken : Overtaken states pool update dest
  · obtain ⟨sender, state₁, stateDb, kept₁, db, behind⟩ := overtaken
    rw [kept] at kept₁
    cases kept₁
    have taken : entry'.stateAddress = stateDb := by
      rw [same, if_pos sender, db, refreshed, if_pos behind]
    have held : states.at update.hashLastBlock dest = (stateDb.nTxNonce, stateDb.nBalance) := by
      rw [States.at, db]
      rfl
    simp only [Option.some.injEq, exists_eq_left', taken, held, left_eq_add]
    exact ⟨fun nothing => ⟨fun _ => nothing, fun not => absurd ⟨sender, state, stateDb, kept, db, behind⟩ not⟩,
      fun both => both.1 ⟨sender, state, stateDb, kept, db, behind⟩⟩
  · have stays : entry'.stateAddress = state := by
      rw [same]
      split_ifs with sender
      · cases db : states update.hashLastBlock dest with
        | none => rfl
        | some stateDb =>
          rw [refreshed, if_neg]
          exact fun behind => overtaken ⟨sender, state, stateDb, kept, db, behind⟩
      · rfl
    simp only [Option.some.injEq, exists_eq_left', stays, replayed, split, add_left_inj]
    exact ⟨fun equal => ⟨fun taken => absurd taken overtaken, fun _ => equal.symm⟩, fun both => (both.2 overtaken).symm⟩

end

end Synchronize

/-- A call that keeps the states exact: no address of an added transaction has been emptied in the pool, and the chain
follows the pool when blocks come. The chain has one state for an address at a block. -/
def Careful (base : PoolBase) (states : States) (pool : ForkTxPool) : Call → Prop
  | .addTx chain tx => chain.retrieveDestState = states ∧ ∀ dest, Touches tx dest → NotEmptied states pool dest
  | .removePooledTx _ _ => False
  | .synchronizeBlockChain chain update =>
    chain.retrieveDestState = states ∧ Answered states update ∧ Followed base states pool update
  | .clearTxPool => True

def CarefulRun (base : PoolBase) (states : States) : ForkTxPool → List Call → Prop
  | _, [] => True
  | pool, call :: calls => Careful base states pool call ∧ CarefulRun base states (pool.call base call) calls

theorem Exact.call {base : PoolBase} {known : Set Transaction} {states : States} {pool : ForkTxPool}
    (distinct : Set.InjOn base.getHash known) (indexed : Indexed base known pool) (exact_ : Exact states pool) {call : Call}
    (isKnown : ∀ tx ∈ call.txs, tx ∈ known) (careful : Careful base states pool call) :
    Exact states (pool.call base call) := by
  cases call with
  | addTx chain tx =>
    obtain ⟨sameStates, kept⟩ := careful
    rcases indexed.addTx_cases chain (isKnown tx (mem_singleton.2 rfl)) with ⟨err, _, same⟩ | ⟨pool', same, added⟩
    · rw [ForkTxPool.call, same]
      exact exact_
    · rw [ForkTxPool.call, same]
      exact exact_.addTx indexed sameStates kept added
  | removePooledTx tx fInvalidTx => exact careful.elim
  | synchronizeBlockChain chain update =>
    obtain ⟨sameStates, answered, followed⟩ := careful
    exact (exact_synchronize_iff distinct indexed exact_ sameStates isKnown answered).2 followed
  | clearTxPool =>
    rintro dest ⟨tx, mem, _⟩
    cases mem

/-- After any calls that are careful the kept states are those of the chain with the pooled transactions applied. -/
theorem pending_exact (base : PoolBase) (states : States) (hashLastBlock : UInt256) (nBlockTime : Int) (calls : List Call)
    (distinct : Set.InjOn base.getHash (callTxs calls))
    (careful : CarefulRun base states (ForkTxPool.new hashLastBlock nBlockTime) calls) :
    Exact states ((ForkTxPool.new hashLastBlock nBlockTime).run base calls) := by
  suffices ∀ (rest : List Call) (pool : ForkTxPool), (∀ call ∈ rest, ∀ tx ∈ call.txs, tx ∈ callTxs calls) →
      Indexed base (callTxs calls) pool → Exact states pool → CarefulRun base states pool rest →
      Exact states (pool.run base rest) by
    refine this calls _ (fun call member tx inside => ⟨call, member, inside⟩) (.empty base _ rfl rfl rfl) ?_ careful
    rintro dest ⟨tx, member, _⟩
    cases member
  intro rest
  induction rest with
  | nil => exact fun pool _ _ exact_ _ => exact_
  | cons call rest ih =>
    intro pool isKnown indexed exact_ careful
    have here := isKnown call mem_cons_self
    exact ih _ (fun other member => isKnown other (mem_cons_of_mem _ member)) (indexed.call distinct here)
      (exact_.call distinct indexed here careful.1) careful.2

/-- The transaction has the next pending nonce, unless it is a certificate, and the pending balance covers it. -/
def Fits (chain : ForkChain) (pool : ForkTxPool) (tx : Transaction) : Prop :=
  ∃ state, pool.getDestState chain tx.destFrom = some state ∧
    (tx.nType ≠ .cert → tx.nTxNonce = getNextTxNonce state) ∧ tx.nAmount + tx.getTxFee ≤ state.nBalance

def FittingRun (base : PoolBase) : ForkTxPool → List Call → Prop
  | _, [] => True
  | pool, .addTx chain tx :: calls => Fits chain pool tx ∧ FittingRun base (pool.call base (.addTx chain tx)) calls
  | pool, call :: calls => FittingRun base (pool.call base call) calls

namespace Sample

def paidStates : States := fun hashBlock dest =>
  if dest = 0xA then some (account 0 (if hashBlock = 1 then 100 else 150))
  else if dest = 0xC then some (account (if hashBlock = 1 then 0 else 1) (if hashBlock = 1 then 80 else 30))
  else none

def paid : List Call :=
  [.addTx (chainOf paidStates) (transfer 1 0xA 0xB 10 0),
    .synchronizeBlockChain (chainOf paidStates) ⟨2, 0, [⟨[transfer 1 0xC 0xA 50 0]⟩]⟩]

theorem paid_distinct : Set.InjOn base.getHash (callTxs paid) :=
  distinct_of_mem [transfer 1 0xA 0xB 10 0, transfer 1 0xC 0xA 50 0]
    (by simp [paid, Call.txs, BlockChainUpdate.txs, transfer]) (by decide)

/-- The pool keeps 90 for the address, and the chain has 150 with 10 of it pooled. -/
theorem pending_inexact : Set.InjOn base.getHash (callTxs paid) ∧ FittingRun base (ForkTxPool.new 1 0) paid ∧
    ¬Exact paidStates ((ForkTxPool.new 1 0).run base paid) := by
  refine ⟨paid_distinct, ⟨⟨account 0 100, by decide +kernel, fun _ => by decide +kernel, by decide +kernel⟩, trivial⟩, ?_⟩
  intro exact_
  obtain ⟨state, kept, same⟩ := exact_ 0xA (by decide +kernel)
  have keeps : ((ForkTxPool.new 1 0).run base paid).mapAddressTxState.stateAt 0xA = some (account 1 90) := by decide +kernel
  have replayed : ((ForkTxPool.new 1 0).run base paid).replay paidStates 0xA = (1, 140) := by decide +kernel
  rw [keeps] at kept
  cases kept
  rw [replayed] at same
  exact absurd same (by decide)

def minedStates : States := fun hashBlock dest =>
  if dest = 0xA then some (if hashBlock = 1 then account 0 100 else account 1 90)
  else if dest = 0xB ∧ hashBlock ≠ 1 then some (account 0 10)
  else none

def minedUpdate : BlockChainUpdate := ⟨2, 0, [⟨[transfer 1 0xA 0xB 10 0]⟩]⟩

def mined : List Call :=
  [.addTx (chainOf minedStates) (transfer 1 0xA 0xB 10 0), .addTx (chainOf minedStates) (transfer 2 0xA 0xB 20 0),
    .synchronizeBlockChain (chainOf minedStates) minedUpdate]

theorem mined_distinct : Set.InjOn base.getHash (callTxs mined) :=
  distinct_of_mem [transfer 1 0xA 0xB 10 0, transfer 2 0xA 0xB 20 0]
    (by simp [mined, minedUpdate, Call.txs, BlockChainUpdate.txs, transfer]) (by decide)

theorem notEmptied_of_all {states : States} {pool : ForkTxPool} (dests : List Destination)
    (all : (dests.all fun dest => (pool.mapAddressTxState.stateAt dest).all fun state => !state.isNull) = true)
    {tx : Transaction} (listed : tx.destFrom ∈ dests ∧ tx.destTo ∈ dests) :
    ∀ dest, Touches tx dest → NotEmptied states pool dest := by
  rintro dest ⟨_, same⟩ state here null
  have inside : dest ∈ dests := by
    rcases same with rfl | rfl
    exacts [listed.1, listed.2]
  have solid := List.all_eq_true.1 all dest inside
  rw [here, all_some, null] at solid
  cases solid

def both : ForkTxPool :=
  ((ForkTxPool.new 1 0).call base (.addTx (chainOf minedStates) (transfer 1 0xA 0xB 10 0))).call base
    (.addTx (chainOf minedStates) (transfer 2 0xA 0xB 20 0))

theorem both_followed : Followed base minedStates both minedUpdate := by
  have addresses : (survivors base both minedUpdate).map (fun tx => (tx.destFrom, tx.destTo)) = [(0xA, 0xB)] := by
    decide +kernel
  rintro dest ⟨tx, mem, touches⟩
  have here := List.mem_map_of_mem (f := fun tx : Transaction => (tx.destFrom, tx.destTo)) mem
  rw [addresses, mem_singleton, Prod.mk.injEq] at here
  rcases touches.2 with sender | receiver
  · rw [sender, here.1]
    refine ⟨?_, fun _ => by decide +kernel⟩
    rintro ⟨_, state, stateDb, kept, found, behind⟩
    have keeps : both.mapAddressTxState.stateAt 0xA = some (account 2 70) := by decide +kernel
    have holds : minedStates minedUpdate.hashLastBlock 0xA = some (account 1 90) := by decide
    rw [keeps] at kept
    rw [holds] at found
    cases kept
    cases found
    exact absurd behind (by decide)
  · rw [receiver, here.2]
    exact ⟨fun overtaken => absurd overtaken.1 (by decide +kernel), fun _ => by decide +kernel⟩

theorem mined_careful : CarefulRun base minedStates (ForkTxPool.new 1 0) mined :=
  ⟨⟨rfl, notEmptied_of_all [0xA, 0xB] (by decide +kernel) (by decide)⟩,
    ⟨rfl, notEmptied_of_all [0xA, 0xB] (by decide +kernel) (by decide)⟩, ⟨rfl, by decide +kernel, both_followed⟩, trivial⟩

/-- What stays in the pool is the second transaction. -/
theorem pending_exact_mined : CarefulRun base minedStates (ForkTxPool.new 1 0) mined ∧
    ((ForkTxPool.new 1 0).run base mined).txs.length = 1 ∧
    Exact minedStates ((ForkTxPool.new 1 0).run base mined) :=
  ⟨mined_careful, by decide +kernel, pending_exact base minedStates 1 0 mined mined_distinct mined_careful⟩

end Sample

end HashAhead.TxPool

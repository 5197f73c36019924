import HashAhead.Stake.StakeBlock
import HashAhead.Foundation.Ledger

/-! The votes of delegates. Each block of the primary chain has a trie with the vote total of every
delegate. A block adds to a total, or subtracts from it, the difference of the new and the old balance
of each of its accounts that votes for the delegate. -/

namespace HashAhead.Stake
open Foundation State Chain Vote Core List Option Function TrieRoots

inductive DelegateKey where
  | prevRoot
  | address (dest : Destination)
deriving DecidableEq

inductive DelegateValue where
  | link (hashPrevRoot hashBlock : UInt256)
  | amount (nVoteAmount : UInt256)
deriving DecidableEq

/-- What the delegate votes use of `CTrieDB`. -/
structure DelegateTrie where
  addNewTrie : UInt256 → List (DelegateKey × DelegateValue) → Option UInt256
  retrieve : UInt256 → DelegateKey → Option DelegateValue

structure DelegateTrie.Keeps (trie : DelegateTrie) : Prop where
  empty : ∀ key, trie.retrieve 0 key = none
  added : ∀ {hashPrevRoot mapKv hashRoot}, trie.addNewTrie hashPrevRoot mapKv = some hashRoot → ∀ key,
    trie.retrieve hashRoot key = (mapKv.lookup key <|> trie.retrieve hashPrevRoot key)

structure DiskPos where
  nFile : UInt32
  nOffset : UInt32
deriving DecidableEq

abbrev EnrollMap := SortedMap Int (DestMap DiskPos) (.ofKey id injective_id)

/-- The delegate part of `CVoteDB`: the tries by block and the certificates by block. -/
structure DelegateDb where
  roots : TrieRoots
  enroll : UInt256 → Option EnrollMap

/-- The arguments of `CBlockBase::UpdateDelegate`, with the position of the first transaction of the
block in its file. -/
structure DelegateCall where
  block : StakeBlock
  nFile : UInt32
  nSetOffset : UInt32
  nMinEnrollAmount : UInt256

def dfCerttxdata : UInt8 := 0x15

namespace DelegateDb
variable (trie : DelegateTrie)

def retrieveDestDelegateVote (db : DelegateDb) (hashBlock : UInt256) (destDelegate : Destination) : Option UInt256 :=
  (db.roots.prevTrieRoot hashBlock).bind fun hashTrieRoot =>
    match trie.retrieve hashTrieRoot (.address destDelegate) with
    | some (.amount nVoteAmount) => some nVoteAmount
    | _ => none

/-- `mapKv` of `AddDelegateVote`: the link is added only to an empty map over the empty root. -/
def delegateKv (hashPrevRoot hashBlock : UInt256) (mapDelegateVote : DestMap UInt256) : List (DelegateKey × DelegateValue) :=
  if hashPrevRoot = 0 ∧ mapDelegateVote.entries = [] then [(.prevRoot, .link hashPrevRoot hashBlock)]
  else mapDelegateVote.entries.map fun kv => (.address kv.1, .amount kv.2)

/-- `CVoteDB::AddNewDelegate`, with the root that it returns. -/
def addNewDelegate (db : DelegateDb) (hashPrevBlock hashBlock : UInt256) (mapDelegateVote : DestMap UInt256)
    (mapEnrollTx : EnrollMap) : Option (UInt256 × DelegateDb) := do
  let hashPrevRoot ← db.roots.prevTrieRoot hashPrevBlock
  let hashNewRoot ← trie.addNewTrie hashPrevRoot (delegateKv hashPrevRoot hashBlock mapDelegateVote)
  some (hashNewRoot, ⟨Function.update db.roots hashBlock (some hashNewRoot),
    Function.update db.enroll hashBlock (some mapEnrollTx)⟩)

end DelegateDb

namespace StakeBase
variable (base : StakeBase)

/-- The delegate for which an address counts, or 0 if for none. The template decides, and not the type
in the context. -/
def countedDelegate (dest : Destination) (ctxAddress : AddressContext) : Option Destination :=
  (base.template ctxAddress).map fun
    | .delegate _ _ _ => dest
    | .vote destDelegate _ _ => if fEnableStakeVote then destDelegate else 0
    | .pledge pledge => if fEnableStakePledge then pledge.destDelegate else 0
    | _ => 0

/-- The balance before the block. That of a public key address does not count. -/
def prevBalance (hashPrevStateRoot : UInt256) (dest : Destination) : UInt256 :=
  match base.retrieveDestState hashPrevStateRoot dest with
  | some statePrev => if statePrev.isPubkey then 0 else statePrev.nBalance
  | none => 0

/-- `nChangeAmount` and `fAdd` -/
def voteChange (nBalance nPrevBalance : UInt256) : UInt256 × Bool :=
  if nBalance > nPrevBalance then (nBalance - nPrevBalance, true) else (nPrevBalance - nBalance, false)

section Loop
variable (stored : Destination → UInt256)

/-- The total of a delegate as far as the accounts have been gone through. -/
def currentVote (mapDelegateVote : DestMap UInt256) (destDelegate : Destination) : UInt256 :=
  (mapDelegateVote.find destDelegate).getD (stored destDelegate)

/-- `addVote` of `UpdateDelegate` -/
def addVote (mapDelegateVote : DestMap UInt256) (destDelegate : Destination) (change : UInt256 × Bool) : DestMap UInt256 :=
  if change.1 = 0 then mapDelegateVote
  else
    let nVoteAmount := currentVote stored mapDelegateVote destDelegate
    mapDelegateVote.insert destDelegate (if change.2 then nVoteAmount + change.1 else nVoteAmount - change.1)

def delegateTurn (block : StakeBlock) (hashPrevStateRoot : UInt256) (mapDelegateVote : DestMap UInt256)
    (kv : Destination × DestState) : Option (DestMap UInt256) := do
  let ctxAddress ← base.addressContext block kv.1
  if isStakeContext ctxAddress then
    let destDelegate ← base.countedDelegate kv.1 ctxAddress
    if destDelegate = 0 then some mapDelegateVote
    else some (addVote stored mapDelegateVote destDelegate
      (voteChange kv.2.nBalance (base.prevBalance hashPrevStateRoot kv.1)))
  else some mapDelegateVote

end Loop

/-- The loop over the transactions, for one transaction. A certificate of a delegate without enough
votes is passed over, and the position does not move on. -/
def enrollTurn (getSerializeSize : Transaction → UInt32) (storedVote : Destination → Option UInt256) (call : DelegateCall)
    (turn : EnrollMap × UInt32) (tx : Transaction) : Option (EnrollMap × UInt32) :=
  let nNextOffset := turn.2 + getSerializeSize tx
  if tx.nType = .cert then
    if (storedVote tx.destTo).any fun nDelegateVote => nDelegateVote ≥ call.nMinEnrollAmount then
      (tx.getTxData dfCerttxdata).map fun _ =>
        let nCertAnchorHeight := tx.nTxNonce.toUInt32.toInt32.toInt
        let enrolled := (turn.1.find nCertAnchorHeight).getD .empty
        (turn.1.insert nCertAnchorHeight
          (if (enrolled.find tx.destTo).isSome then enrolled else enrolled.insert tx.destTo ⟨call.nFile, turn.2⟩),
          nNextOffset)
    else some turn
  else some (turn.1, nNextOffset)

/-- `CBlockBase::UpdateDelegate`, with the root that it returns. -/
def updateDelegate (trie : DelegateTrie) (getSerializeSize : Transaction → UInt32) (db : DelegateDb) (call : DelegateCall) :
    Option (UInt256 × DelegateDb) := do
  let storedVote := db.retrieveDestDelegateVote trie call.block.hashPrev
  let hashPrevStateRoot ← base.hashPrevStateRoot call.block
  let mapDelegateVote ← call.block.mapAccState.entries.foldlM
    (base.delegateTurn (fun destDelegate => (storedVote destDelegate).getD 0) call.block hashPrevStateRoot) .empty
  let (mapEnrollTx, _) ← call.block.vtx.foldlM (enrollTurn getSerializeSize storedVote call) (.empty, call.nSetOffset)
  db.addNewDelegate trie call.block.hashPrev call.block.hashBlock mapDelegateVote mapEnrollTx

def applyDelegates (trie : DelegateTrie) (getSerializeSize : Transaction → UInt32) (calls : List DelegateCall) :
    Option DelegateDb :=
  calls.foldlM (fun db call => (base.updateDelegate trie getSerializeSize db call).map Prod.snd)
    ⟨fun _ => none, fun _ => none⟩

def pointsTo (context : Destination → AddressContext) (dest : Destination) : Option Destination :=
  if isStakeContext (context dest) then
    match base.template (context dest) with
    | some (.delegate _ _ _) => some dest
    | some (.vote destDelegate _ _) => some destDelegate
    | some (.pledge pledge) => some pledge.destDelegate
    | _ => none
  else none

/-- The delegate to which a delegate or pledge address points, but not a vote address. -/
def stakesFor (context : Destination → AddressContext) (dest : Destination) : Option Destination :=
  match base.template (context dest) with
  | some (.vote _ _ _) => none
  | _ => base.pointsTo context dest

/-- What the account map of a block and the databases say of a fixed context of each address and of
the balances after each block. -/
structure Follows (context : Destination → AddressContext) (ledger : UInt256 → Destination → UInt256) (block : StakeBlock) :
    Prop where
  /-- the state before the block is that of its parent -/
  parent : ∀ root, base.hashPrevStateRoot block = some root → ∀ dest,
    ((base.retrieveDestState root dest).map DestState.nBalance).getD 0 = ledger block.hashPrev dest
  changed : block.Changes ledger
  typed : base.Typed block context
  /-- a staking address has not been a public key address -/
  template : ∀ root dest statePrev, base.hashPrevStateRoot block = some root → isStakeContext (context dest) = true →
    base.retrieveDestState root dest = some statePrev → statePrev.isPubkey = false

/-- The balances as numbers where some accounts are as the block leaves them. -/
def mixedBalance (before : Destination → UInt256) (entries : List (Destination × DestState)) (dest : Destination) : Nat :=
  (overlay before entries dest).toNat

section Turn
variable {base} {context : Destination → AddressContext} {ledger : UInt256 → Destination → UInt256} {block : StakeBlock}
  {stored : Destination → UInt256} {tallies mapDelegateVote' : DestMap UInt256} {dest destDelegate : Destination}
  {state : DestState} {hashPrevStateRoot : UInt256}

theorem voteChange_applied (amount nBalance before : UInt256) :
    (if (voteChange nBalance before).2 then amount + (voteChange nBalance before).1
      else amount - (voteChange nBalance before).1) = amount + (nBalance - before) := by
  unfold voteChange
  by_cases more : nBalance > before
  · rw [if_pos more]
    rfl
  · rw [if_neg more]
    show amount - (before - nBalance) = _
    bv_omega

theorem voteChange_eq_zero {nBalance before : UInt256} (none : (voteChange nBalance before).1 = 0) :
    nBalance - before = 0 := by
  unfold voteChange at none
  by_cases more : nBalance > before
  · rw [if_pos more] at none
    exact none
  · rw [if_neg more] at none
    have zero : before - nBalance = 0 := none
    bv_omega

theorem currentVote_addVote (nBalance before : UInt256) (other : Destination) :
    currentVote stored (addVote stored tallies destDelegate (voteChange nBalance before)) other =
      currentVote stored tallies other + if other = destDelegate then nBalance - before else 0 := by
  unfold addVote
  by_cases none : (voteChange nBalance before).1 = 0
  · rw [if_pos none, voteChange_eq_zero none, ite_self]
    exact (BitVec.add_zero _).symm
  · simp only [if_neg none, voteChange_applied]
    unfold currentVote
    rw [SortedMap.find_insert]
    by_cases this : other = destDelegate
    · rw [if_pos this, if_pos this, this, getD_some]
    · rw [if_neg this, if_neg this]
      exact (BitVec.add_zero _).symm

/-- The delegate for which an address counts is the one to which it points, unless it is a vote
address. -/
theorem countedDelegate_eq (stake : isStakeContext (context dest) = true) (some : destDelegate ≠ 0) :
    base.countedDelegate dest (context dest) = .some destDelegate ↔ base.stakesFor context dest = .some destDelegate := by
  have apart : ¬0#160 = destDelegate := some.symm
  unfold countedDelegate stakesFor pointsTo
  rw [if_pos stake]
  cases base.template (context dest) with
  | none => simp
  | some template => cases template <;> simp [fEnableStakeVote, fEnableStakePledge, apart]

theorem stake_of_stakesFor (points : base.stakesFor context dest = some destDelegate) : isStakeContext (context dest) = true := by
  by_contra other
  unfold stakesFor pointsTo at points
  rw [if_neg other] at points
  split at points <;> cases points

/-- One account adds the change of its balance to the total of the delegate for which it counts. -/
theorem currentVote_delegateTurn (typed : ∀ ctx, base.addressContext block dest = some ctx → ctx = context dest)
    (turn : base.delegateTurn stored block hashPrevStateRoot tallies (dest, state) = some mapDelegateVote')
    (some : destDelegate ≠ 0) : currentVote stored mapDelegateVote' destDelegate = currentVote stored tallies destDelegate +
      if base.stakesFor context dest = .some destDelegate then state.nBalance - base.prevBalance hashPrevStateRoot dest else 0 := by
  obtain ⟨ctx, read, turn⟩ := bind_eq_some_iff.1 turn
  cases typed _ read
  by_cases stake : isStakeContext (context dest) = true
  · rw [if_pos stake] at turn
    obtain ⟨votes, counted, turn⟩ := bind_eq_some_iff.1 turn
    simp only [← countedDelegate_eq stake some, counted, some_inj]
    by_cases null : votes = 0
    · rw [if_pos null] at turn
      cases turn
      rw [if_neg fun same => some (same.symm.trans null)]
      exact (BitVec.add_zero _).symm
    · rw [if_neg null] at turn
      cases turn
      simp only [currentVote_addVote, eq_comm]
  · rw [if_neg stake] at turn
    cases turn
    rw [if_neg fun points => stake (stake_of_stakesFor points)]
    exact (BitVec.add_zero _).symm

theorem delegateTurn_tallied {balance balance' : Destination → Nat}
    (typed : ∀ ctx, base.addressContext block dest = some ctx → ctx = context dest)
    (old : isStakeContext (context dest) = true → (base.prevBalance hashPrevStateRoot dest).toNat = balance dest)
    (new : balance' dest = state.nBalance.toNat) (others : ∀ other, other ≠ dest → balance' other = balance other)
    (tallied : ∀ destDelegate, destDelegate ≠ 0 → currentVote stored tallies destDelegate =
      BitVec.ofNat 256 (groupTotal (base.stakesFor context) balance destDelegate))
    (turn : base.delegateTurn stored block hashPrevStateRoot tallies (dest, state) = some mapDelegateVote')
    (destDelegate : Destination) (some : destDelegate ≠ 0) :
    currentVote stored mapDelegateVote' destDelegate =
      BitVec.ofNat 256 (groupTotal (base.stakesFor context) balance' destDelegate) := by
  have change := total_change (fun dest => if base.stakesFor context dest = .some destDelegate then balance dest else 0)
    (fun dest => if base.stakesFor context dest = .some destDelegate then balance' dest else 0) dest
    fun other away => by rw [others other away]
  rw [← groupTotal, ← groupTotal] at change
  rw [currentVote_delegateTurn typed turn some, tallied destDelegate some]
  by_cases points : base.stakesFor context dest = .some destDelegate
  · rw [if_pos points, if_pos points, ← old (stake_of_stakesFor points), new] at change
    rw [if_pos points]
    bv_omega
  · rw [if_neg points, if_neg points, Nat.add_zero, Nat.add_zero] at change
    rw [if_neg points, change]
    exact BitVec.add_zero _

theorem mixedBalance_le (follows : base.Follows context ledger block) {front back : List (Destination × DestState)}
    (split : block.mapAccState.entries = front ++ back) (dest : Destination) :
    mixedBalance (ledger block.hashPrev) front dest ≤
      (ledger block.hashPrev dest).toNat + (ledger block.hashBlock dest).toNat := by
  rw [mixedBalance, ← overlay_entries follows.changed dest, overlay, overlay, split, List.find?_append]
  cases front.find? fun kv => kv.1 = dest with
  | none => exact Nat.le_add_right _ _
  | some kv => exact Nat.le_add_left _ _

section
variable (follows : base.Follows context ledger block) (root : base.hashPrevStateRoot block = some hashPrevStateRoot)
include follows root

theorem prevBalance_eq (stake : isStakeContext (context dest) = true) :
    base.prevBalance hashPrevStateRoot dest = ledger block.hashPrev dest := by
  rw [← follows.parent _ root dest, prevBalance]
  cases read : base.retrieveDestState hashPrevStateRoot dest with
  | none => rfl
  | some statePrev =>
    simp only [follows.template _ _ _ root stake read]
    rfl

/-- After some of the accounts the totals are those over the balances with these accounts changed. -/
theorem delegateLoop_tallied
    (tallied : ∀ delegate, delegate ≠ 0 → stored delegate = BitVec.ofNat 256 (groupTotal (base.stakesFor context) (mixedBalance (ledger block.hashPrev) []) delegate))
    :
    ∀ {front back : List (Destination × DestState)} {votes : DestMap UInt256},
      block.mapAccState.entries = front ++ back →
      front.foldlM (base.delegateTurn stored block hashPrevStateRoot) .empty = some votes →
      ∀ delegate, delegate ≠ 0 → currentVote stored votes delegate =
        BitVec.ofNat 256 (groupTotal (base.stakesFor context) (mixedBalance (ledger block.hashPrev) front) delegate) := by
  intro front
  induction front using List.reverseRecOn with
  | nil =>
    intro back votes _ loop
    cases loop
    exact tallied
  | append_singleton front kv ih =>
    obtain ⟨dest, state⟩ := kv
    intro back votes split loop
    rw [foldlM_append] at loop
    obtain ⟨middle, before, loop⟩ := bind_eq_some_iff.1 loop
    rw [foldlM_cons] at loop
    obtain ⟨_, turn, last⟩ := bind_eq_some_iff.1 loop
    cases last
    rw [append_assoc] at split
    have fresh := fresh_of_split split
    apply delegateTurn_tallied _ _ (congrArg _ (overlay_snoc_self fresh))
      (fun other apart => congrArg _ (overlay_snoc_other apart)) (ih split before) turn
    · intro ctx
      apply follows.typed dest state
      rw [split]
      simp
    · intro stake
      exact congrArg BitVec.toNat ((prevBalance_eq follows root stake).trans (overlay_fresh fresh).symm)

end

end Turn

/-- No subtraction from a vote total goes below 0 in the loop over the accounts of a block. -/
def NoUnderflow (stored : Destination → UInt256) (block : StakeBlock) : Prop :=
  ∀ hashPrevStateRoot, base.hashPrevStateRoot block = some hashPrevStateRoot →
    ∀ front dest state back mapDelegateVote, block.mapAccState.entries = front ++ (dest, state) :: back →
      front.foldlM (base.delegateTurn stored block hashPrevStateRoot) .empty = some mapDelegateVote →
      ∀ ctxAddress destDelegate, base.addressContext block dest = some ctxAddress → isStakeContext ctxAddress = true →
        base.countedDelegate dest ctxAddress = some destDelegate → destDelegate ≠ 0 →
        (voteChange state.nBalance (base.prevBalance hashPrevStateRoot dest)).2 = false →
        (voteChange state.nBalance (base.prevBalance hashPrevStateRoot dest)).1 ≤
          currentVote stored mapDelegateVote destDelegate

/-- The votes for a delegate after a block: the sum of the balances of the delegate and pledge addresses
that point to it. -/
def delegateTotal (context : Destination → AddressContext) (ledger : UInt256 → Destination → UInt256) (hashBlock : UInt256)
    (destDelegate : Destination) : Nat :=
  groupTotal (base.stakesFor context) (fun dest => (ledger hashBlock dest).toNat) destDelegate

section Run
variable {base} {context : Destination → AddressContext} {ledger : UInt256 → Destination → UInt256} {trie : DelegateTrie}
  {getSerializeSize : Transaction → UInt32} {db db' : DelegateDb} {call : DelegateCall} {hRoot : UInt256}

theorem noUnderflow_of_tallied {stored : Destination → UInt256} {block : StakeBlock} (follows : base.Follows context ledger block)
    (tallied : ∀ delegate, delegate ≠ 0 →
      stored delegate = BitVec.ofNat 256 (base.delegateTotal context ledger block.hashPrev delegate))
    (bounded : ∀ delegate, base.delegateTotal context ledger block.hashPrev delegate +
      base.delegateTotal context ledger block.hashBlock delegate < 2 ^ 256) : base.NoUnderflow stored block := by
  intro hashPrevStateRoot root front dest state back votes split loop ctx delegate read stake counted
    some less
  have same := follows.typed dest state ctx (by rw [split]; simp) read
  subst same
  rw [countedDelegate_eq stake some] at counted
  rw [delegateLoop_tallied follows root tallied split loop delegate some, BitVec.le_def, BitVec.toNat_ofNat]
  have whole : groupTotal (base.stakesFor context) (mixedBalance (ledger block.hashPrev) front) delegate < 2 ^ 256 :=
    lt_of_le_of_lt (groupTotal_le_add (mixedBalance_le follows split)) (bounded delegate)
  rw [Nat.mod_eq_of_lt whole]
  have part := le_groupTotal (mixedBalance (ledger block.hashPrev) front) counted
  rw [mixedBalance, overlay_fresh (fresh_of_split split), ← prevBalance_eq follows root stake] at part
  apply le_trans _ part
  unfold voteChange at less ⊢
  by_cases more : state.nBalance > base.prevBalance hashPrevStateRoot dest
  · rw [if_pos more] at less
    cases less
  · rw [if_neg more]
    show (base.prevBalance hashPrevStateRoot dest - state.nBalance).toNat ≤ _
    rw [BitVec.toNat_sub_of_le (BitVec.not_lt.1 more)]
    exact Nat.sub_le _ _

def storedAmount (trie : DelegateTrie) (hashRoot : UInt256) (destDelegate : Destination) : UInt256 :=
  match trie.retrieve hashRoot (.address destDelegate) with
  | some (.amount nVoteAmount) => nVoteAmount
  | _ => 0

theorem retrieveDestDelegateVote_getD {block : UInt256} (read : db.roots.readTrieRoot block = some hRoot)
    (destDelegate : Destination) :
    (db.retrieveDestDelegateVote trie block destDelegate).getD 0 = storedAmount trie hRoot destDelegate := by
  rw [DelegateDb.retrieveDestDelegateVote, prevTrieRoot_eq, read, bind_some, storedAmount]
  split <;> rfl

theorem lookup_amounts (votes : List (Destination × UInt256)) (delegate : Destination) :
    (votes.map fun kv => (DelegateKey.address kv.1, DelegateValue.amount kv.2)).lookup (.address delegate) =
      ((votes.find? fun kv => kv.1 = delegate).map Prod.snd).map .amount := by
  induction votes with
  | nil => rfl
  | cons kv rest ih =>
    rw [map_cons, lookup_cons, List.find?_cons, ih]
    by_cases same : kv.1 = delegate
    · simp [same]
    · have apart : (DelegateKey.address delegate == DelegateKey.address kv.1) = false := by simpa using Ne.symm same
      simp [apart, same]

theorem lookup_delegateKv (prior block : UInt256) (votes : DestMap UInt256) (delegate : Destination) :
    (DelegateDb.delegateKv prior block votes).lookup (.address delegate) =
      (votes.find delegate).map .amount := by
  unfold DelegateDb.delegateKv
  split_ifs with bare
  · rw [SortedMap.find, bare.2]
    rfl
  · exact lookup_amounts _ _

theorem updateDelegate_eq_some (updated : base.updateDelegate trie getSerializeSize db call = some (hRoot, db')) :
    ∃ prior hashPrevStateRoot votes, db.roots.readTrieRoot call.block.hashPrev = some prior ∧
      base.hashPrevStateRoot call.block = some hashPrevStateRoot ∧
      call.block.mapAccState.entries.foldlM
        (base.delegateTurn (storedAmount trie prior) call.block hashPrevStateRoot) .empty = some votes ∧
      trie.addNewTrie prior (DelegateDb.delegateKv prior call.block.hashBlock votes) =
        some hRoot ∧
      db'.roots = Function.update db.roots call.block.hashBlock (some hRoot) := by
  obtain ⟨hashPrevStateRoot, root, updated⟩ := bind_eq_some_iff.1 updated
  obtain ⟨votes, loop, updated⟩ := bind_eq_some_iff.1 updated
  obtain ⟨⟨mapEnrollTx, _⟩, _, updated⟩ := bind_eq_some_iff.1 updated
  obtain ⟨prior, read, updated⟩ := bind_eq_some_iff.1 updated
  obtain ⟨_, added, updated⟩ := bind_eq_some_iff.1 updated
  cases updated
  rw [prevTrieRoot_eq] at read
  simp only [retrieveDestDelegateVote_getD read] at loop
  exact ⟨prior, hashPrevStateRoot, votes, read, root, loop, added, rfl⟩

variable (base context ledger trie) in
def Tallied (db : DelegateDb) : Prop :=
  ∀ hashBlock hashRoot, db.roots.readTrieRoot hashBlock = some hashRoot → ∀ destDelegate, destDelegate ≠ 0 →
    storedAmount trie hashRoot destDelegate = BitVec.ofNat 256 (base.delegateTotal context ledger hashBlock destDelegate)

theorem updateDelegate_tallied (keeps : trie.Keeps) (follows : base.Follows context ledger call.block)
    (tallied : base.Tallied context ledger trie db)
    (updated : base.updateDelegate trie getSerializeSize db call = some (hRoot, db')) :
    base.Tallied context ledger trie db' := by
  obtain ⟨prior, hashPrevStateRoot, votes, read, root, loop, added, roots⟩ := updateDelegate_eq_some updated
  intro block hashRoot' found delegate some
  rw [roots, readTrieRoot_update] at found
  split_ifs at found with this
  · cases found
    have stored : storedAmount trie hRoot delegate = currentVote (storedAmount trie prior) votes delegate := by
      rw [storedAmount, keeps.added added, lookup_delegateKv, currentVote]
      cases votes.find delegate <;> rfl
    rw [this.1, stored, delegateLoop_tallied follows root (tallied _ _ read) (append_nil _).symm loop delegate some]
    have whole : mixedBalance (ledger call.block.hashPrev) call.block.mapAccState.entries =
        fun dest => (ledger call.block.hashBlock dest).toNat :=
      funext fun dest => congrArg BitVec.toNat (overlay_entries follows.changed dest)
    rw [whole, delegateTotal]
  · exact tallied block hashRoot' found delegate some

theorem applyDelegates_split {before after : List DelegateCall}
    (applied : base.applyDelegates trie getSerializeSize (before ++ call :: after) = some db) :
    ∃ middle hRoot next, base.applyDelegates trie getSerializeSize before = some middle ∧
      base.updateDelegate trie getSerializeSize middle call = some (hRoot, next) ∧
      after.foldlM (fun db call => (base.updateDelegate trie getSerializeSize db call).map Prod.snd) next = some db := by
  rw [applyDelegates, foldlM_append] at applied
  obtain ⟨middle, first, applied⟩ := bind_eq_some_iff.1 applied
  rw [foldlM_cons] at applied
  obtain ⟨next, updated, last⟩ := bind_eq_some_iff.1 applied
  obtain ⟨⟨hRoot, _⟩, update, rfl⟩ := map_eq_some_iff.1 updated
  exact ⟨middle, hRoot, _, first, update, last⟩

theorem applyDelegates_tallied (keeps : trie.Keeps) (genesis : ∀ dest, ledger 0 dest = 0) {calls : List DelegateCall}
    (follows : ∀ call ∈ calls, base.Follows context ledger call.block)
    (applied : base.applyDelegates trie getSerializeSize calls = some db) : base.Tallied context ledger trie db := by
  induction calls using List.reverseRecOn generalizing db with
  | nil =>
    cases applied
    intro block hRoot found delegate _
    by_cases zero : block = 0
    · rw [readTrieRoot, if_pos zero] at found
      cases found
      have nothing : base.delegateTotal context ledger block delegate = 0 := by
        simp only [delegateTotal, zero, genesis]
        exact groupTotal_zero
      rw [storedAmount, keeps.empty, nothing]
      rfl
    · rw [readTrieRoot_of_ne_zero zero] at found
      cases found
  | append_singleton calls call ih =>
    obtain ⟨middle, hRoot, next, before, updated, last⟩ := applyDelegates_split applied
    cases last
    apply updateDelegate_tallied keeps (follows call (by simp)) _ updated
    exact ih (fun call mem => follows call (mem_append_left _ mem)) before

theorem applyDelegates_read {calls : List DelegateCall}
    (applied : base.applyDelegates trie getSerializeSize calls = some db) :
    ∀ call ∈ calls, ∃ hashRoot, db.roots.readTrieRoot call.block.hashBlock = some hashRoot := by
  induction calls using List.reverseRecOn generalizing db with
  | nil => exact fun call mem => absurd mem (by simp)
  | append_singleton calls last ih =>
    obtain ⟨middle, hashRoot, next, before, updated, after⟩ := applyDelegates_split applied
    cases after
    obtain ⟨_, _, _, _, _, _, _, roots⟩ := updateDelegate_eq_some updated
    intro call mem
    rw [roots, readTrieRoot_update]
    by_cases this : call.block.hashBlock = last.block.hashBlock ∧ call.block.hashBlock ≠ 0
    · exact ⟨hashRoot, if_pos this⟩
    rw [if_neg this]
    rcases mem_append.1 mem with earlier | same
    · exact ih before call earlier
    · cases mem_singleton.1 same
      exact ⟨0, if_pos (by simpa using this)⟩

end Run

end StakeBase

namespace Sample

def firstLedger (accounts : DestMap DestState) (hashBlock : UInt256) (dest : Destination) : UInt256 :=
  if hashBlock = firstHash then ((accounts.find dest).map DestState.nBalance).getD 0 else 0

theorem firstLedger_zero (accts : DestMap DestState) (dest : Destination) : firstLedger accts 0 dest = 0 := by
  have apart : ¬0#256 = firstHash := by decide
  exact if_neg apart

theorem firstBlock_follows (accts : DestMap DestState) :
    stakeBase.Follows stakeContext (firstLedger accts) (firstBlock accts) := by
  constructor
  · exact fun _ _ dest => (firstLedger_zero accts dest).symm
  · intro dest
    rw [show (firstBlock accts).hashPrev = 0 from rfl, firstLedger_zero]
    exact if_pos rfl
  · intro dest state ctx _ read
    exact (Option.some.inj read).symm
  · intro root dest statePrev _ _ read
    cases read

def oneTrie (mapKv : List (DelegateKey × DelegateValue)) : DelegateTrie where
  addNewTrie hashPrevRoot mapKv' := if hashPrevRoot = 0 ∧ mapKv' = mapKv then some 1 else none
  retrieve hashRoot key := if hashRoot = 1 then mapKv.lookup key else none

theorem oneTrie_keeps (mapKv : List (DelegateKey × DelegateValue)) : (oneTrie mapKv).Keeps := by
  constructor
  · intro key
    rfl
  · intro prior mapKv' hRoot added key
    unfold oneTrie at added ⊢
    dsimp only at added ⊢
    split_ifs at added with first
    cases added
    obtain ⟨rfl, rfl⟩ := first
    simp

def pledged : DestMap DestState := (SortedMap.empty.insert 0xD1 (account 500)).insert 0xB5 (account 70)

def pledgedTrie : DelegateTrie := oneTrie [(.address 0xD1, .amount 570)]

def voted : DestMap DestState := SortedMap.empty.insert 0xB4 (account 300)

def votedTrie : DelegateTrie := oneTrie [(.prevRoot, .link 0 firstHash)]

def half : UInt256 := 1 <<< 255

def halves : DestMap DestState := (SortedMap.empty.insert 0xD1 (account half)).insert 0xB5 (account half)

def halvesTrie : DelegateTrie := oneTrie [(.address 0xD1, .amount 0)]

/-- The call for the first block leaves less than the balances of the addresses that point to the
delegate. -/
def Uncounted (accounts : DestMap DestState) (trie : DelegateTrie) : Prop :=
  trie.Keeps ∧ (∀ dest, firstLedger accounts 0 dest = 0) ∧
    stakeBase.Follows stakeContext (firstLedger accounts) (firstBlock accounts) ∧
    ∃ db, stakeBase.applyDelegates trie (fun _ => 0) [⟨firstBlock accounts, 0, 0, 0⟩] = some db ∧
      ((db.retrieveDestDelegateVote trie firstHash 0xD1).getD 0).toNat ≠
        groupTotal (stakeBase.pointsTo stakeContext) (fun dest => (firstLedger accounts firstHash dest).toNat) 0xD1

theorem ne_groupTotal {accts : DestMap DestState} {amount : Nat} {dest : Destination}
    (points : stakeBase.pointsTo stakeContext dest = some 0xD1)
    (less : amount < (firstLedger accts firstHash dest).toNat) : amount ≠
      groupTotal (stakeBase.pointsTo stakeContext) (fun dest => (firstLedger accts firstHash dest).toNat) 0xD1 :=
  ne_of_lt (lt_of_lt_of_le less (le_groupTotal (fun dest => (firstLedger accts firstHash dest).toNat) points))

end Sample

end HashAhead.Stake

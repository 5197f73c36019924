import HashAhead.Chain.LongChain
import HashAhead.Foundation.Containers
import HashAhead.Reward.Distribute

/-! The schedule of what is fetched from the peers. An inventory names a block or a transaction. The state of
an inventory has the peers that know it, the peer that it is assigned to, and the object when it has come.
Peers keep lists of what they know and what they are assigned. Objects that have come are found again by
their predecessor, by sender and nonce, by height and by the block that they refer to. -/

namespace HashAhead.Fetch
open Foundation State Chain List

/-- `CInv::nType` of what is scheduled. -/
inductive InvType where
  | tx
  | block
deriving DecidableEq

structure Inv where
  nType : InvType
  nHash : UInt256
deriving DecidableEq

/-- The order of `CInv`, with `MSG_TX` before `MSG_BLOCK`. -/
def Inv.before (a b : Inv) : Bool :=
  match a.nType, b.nType with
  | .tx, .block => true
  | .block, .tx => false
  | _, _ => a.nHash.toNat < b.nHash.toNat

def invOrder : Comparator Inv where
  before := Inv.before
  irrefl a := by
    obtain ⟨_ | _, hash⟩ := a <;> simp [Inv.before]
  trans a b c first second := by
    obtain ⟨_ | _, hash⟩ := a <;> obtain ⟨_ | _, hash'⟩ := b <;> obtain ⟨_ | _, hash''⟩ := c <;>
      simp_all [Inv.before] <;> omega
  connected a b first second := by
    obtain ⟨_ | _, hash⟩ := a <;> obtain ⟨_ | _, hash'⟩ := b <;> simp_all [Inv.before]
    all_goals exact BitVec.eq_of_toNat_eq (by omega)

def nonceOrder : Comparator UInt64 := .ofKey UInt64.toNat uint64_injective

abbrev PeerSet := SortedSet UInt64 nonceOrder

/-- What is read of a `CBlock`. -/
structure Block where
  nType : UInt8
  nMintType : Core.TxType
  nHeight : UInt32

def Block.isPrimary (block : Block) : Bool := block.nType >>> 4 = 0

def Block.isProofOfPoa (block : Block) : Bool := block.nMintType = .poa

/-- What is read of a `CTransaction`. -/
structure Transaction where
  destFrom : Destination
  nTxNonce : UInt64

inductive InvObject where
  | nil
  | block (block : Block)
  | tx (tx : Transaction)

structure InvPeerState where
  listKnown : List UInt256 := []
  setAssigned : SortedSet UInt256 hashOrder := .empty

structure InvPeer where
  invKnown : InvType → InvPeerState := fun _ => {}
  nNextGetBlocksTime : ℤ := 0

namespace InvPeer
variable (peer : InvPeer)

def getKnownInv : List Inv :=
  (peer.invKnown .block).listKnown.map (Inv.mk .block) ++ (peer.invKnown .tx).listKnown.map (Inv.mk .tx)

def updateKnown (nType : InvType) (f : InvPeerState → InvPeerState) : InvPeer :=
  { peer with invKnown := Function.update peer.invKnown nType (f (peer.invKnown nType)) }

def addNewInv (inv : Inv) : InvPeer := peer.updateKnown inv.nType fun known =>
  { known with listKnown := known.listKnown.filter (· ≠ inv.nHash) ++ [inv.nHash] }

def removeInv (inv : Inv) : InvPeer := peer.updateKnown inv.nType fun known =>
  { listKnown := known.listKnown.filter (· ≠ inv.nHash), setAssigned := known.setAssigned.remove inv.nHash }

def knownInvExists (inv : Inv) : Bool := inv.nHash ∈ (peer.invKnown inv.nType).listKnown

def assign (inv : Inv) : InvPeer := peer.updateKnown inv.nType fun known =>
  { known with setAssigned := known.setAssigned.add inv.nHash }

def completed (inv : Inv) : InvPeer := peer.updateKnown inv.nType fun known =>
  { known with setAssigned := known.setAssigned.remove inv.nHash }

def isAssigned : Bool :=
  (peer.invKnown .tx).setAssigned.entries ≠ [] || (peer.invKnown .block).setAssigned.entries ≠ []

def checkNextGetBlocksTime (nTime : ℤ) : Bool := nTime ≥ peer.nNextGetBlocksTime

end InvPeer

structure InvState where
  nAssigned : UInt64 := 0
  objReceived : InvObject := .nil
  setKnownPeer : PeerSet := .empty
  nRecvInvTime : ℤ := 0
  nRecvObjTime : ℤ := 0
  nClearObjTime : ℤ := 0
  nGetDataCount : ℕ := 0
  hashRefBlock : UInt256 := 0

def InvState.isReceived (state : InvState) : Bool :=
  match state.objReceived with
  | .nil => false
  | _ => true

/-- The lists of `mapHeightBlock` have blocks of this node and of others. -/
inductive CacheBlockType where
  | local
  | remote
deriving DecidableEq

/-- `CSchedule`. An orphan stands with its predecessor before it. -/
structure Schedule where
  orphanBlock : List (UInt256 × UInt256) := []
  orphanTx : List (UInt256 × UInt256) := []
  mapPeer : SortedMap UInt64 InvPeer nonceOrder := .empty
  mapState : SortedMap Inv InvState invOrder := .empty
  setMissPrevTxInv : SortedSet Inv invOrder := .empty
  mapRecvTxDest : SortedMap Destination (SortedMap UInt64 UInt256 nonceOrder) destOrder := .empty
  mapRefBlock : SortedMap UInt256 (SortedMap UInt256 UInt256 hashOrder) hashOrder := .empty
  mapHeightBlock : SortedMap UInt32 (List (UInt256 × CacheBlockType)) Reward.heightOrder := .empty

namespace Schedule
variable (s : Schedule)

def maxInvCount : ℕ := 1024 * 256

/-- `MAX_PEER_BLOCK_INV_COUNT` and `MAX_PEER_TX_INV_COUNT` -/
def maxPeerInvCount : InvType → ℕ
  | .tx => 1024 * 256
  | .block => 1024

def maxRegetdataCount : ℕ := 10

def maxInvWaitTime : ℤ := 3600

def maxObjWaitTime : ℤ := 7200

/-- What `mapPeer[nPeerNonce]` reads. -/
def peer (nPeerNonce : UInt64) : InvPeer := (s.mapPeer.find nPeerNonce).getD {}

/-- A change of `mapPeer[nPeerNonce]`. -/
def updatePeer (nPeerNonce : UInt64) (f : InvPeer → InvPeer) : Schedule :=
  { s with mapPeer := s.mapPeer.insert nPeerNonce (f (s.peer nPeerNonce)) }

def setState (inv : Inv) (state : InvState) : Schedule := { s with mapState := s.mapState.insert inv state }

def checkPrevTxInv (inv : Inv) : Bool × Schedule :=
  match s.mapState.find inv with
  | some state => (true, if state.isReceived then s else { s with setMissPrevTxInv := s.setMissPrevTxInv.add inv })
  | none => (false, { s with setMissPrevTxInv := s.setMissPrevTxInv.add inv })

/-- `CSchedule::GetBlock` with the sender. -/
def getBlock (hash : UInt256) : Option (Block × UInt64) :=
  (s.mapState.find ⟨.block, hash⟩).bind fun state => match state.objReceived with
    | .block block => some (block, state.nAssigned)
    | _ => none

/-- `CSchedule::GetTransaction` with the sender. -/
def getTransaction (txid : UInt256) : Option (Transaction × UInt64) :=
  (s.mapState.find ⟨.tx, txid⟩).bind fun state => match state.objReceived with
    | .tx tx => some (tx, state.nAssigned)
    | _ => none

def removeOrphan (inv : Inv) : Schedule :=
  match inv.nType with
  | .tx => { s with orphanTx := s.orphanTx.filter fun orphan => orphan.2 ≠ inv.nHash }
  | .block => { s with orphanBlock := s.orphanBlock.filter fun orphan => orphan.2 ≠ inv.nHash }

def removeHeightBlock (nHeight : UInt32) (hash : UInt256) : Schedule :=
  { s with mapHeightBlock := s.mapHeightBlock.filterAt nHeight fun cached => cached.1 ≠ hash }

def removeRefBlock (hashForkBlock : UInt256) : Schedule :=
  let hashRefBlock := ((s.mapState.find ⟨.block, hashForkBlock⟩).map InvState.hashRefBlock).getD 0
  { s with mapRefBlock :=
      if hashRefBlock ≠ 0 then s.mapRefBlock.eraseAt hashRefBlock hashForkBlock
      else s.mapRefBlock.eraseAll hashForkBlock }

/-- What `RemoveInvState` does to `mapRecvTxDest`. -/
def removeRecvTx (txid : UInt256) : Schedule :=
  { s with mapRecvTxDest := match s.getTransaction txid with
      | none => s.mapRecvTxDest
      | some (tx, _) => s.mapRecvTxDest.eraseAt tx.destFrom tx.nTxNonce }

def removeInvState (inv : Inv) : Schedule :=
  let s := s.removeOrphan inv
  let s := match inv.nType with
    | .tx => { s with setMissPrevTxInv := s.setMissPrevTxInv.remove inv }.removeRecvTx inv.nHash
    | .block => (s.removeHeightBlock (getBlockHeightByHash inv.nHash) inv.nHash).removeRefBlock inv.nHash
  { s with mapState := s.mapState.erase inv }

theorem removeInvState_frame (inv : Inv) : (s.removeInvState inv).mapPeer = s.mapPeer ∧
    (s.removeInvState inv).mapState = s.mapState.erase inv := by
  obtain ⟨type, hash⟩ := inv
  cases type with
  | tx => exact ⟨rfl, rfl⟩
  | block => exact ⟨rfl, rfl⟩

/-- The turn of `RemovePeer` for what the peer knows, with the peers that are to be scheduled again. -/
def leaveInv (nPeerNonce : UInt64) (acc : Schedule × PeerSet) (inv : Inv) : Schedule × PeerSet :=
  match acc.1.mapState.find inv with
  | none => acc
  | some state =>
    let state := { state with setKnownPeer := state.setKnownPeer.remove nPeerNonce }
    let s := acc.1.setState inv state
    if state.setKnownPeer.entries = [] then (s.removeInvState inv, acc.2)
    else if state.nAssigned = nPeerNonce then
      (s.setState inv { state with nAssigned := 0, objReceived := .nil }, acc.2.union state.setKnownPeer)
    else (s, acc.2)

def removePeer (nPeerNonce : UInt64) (setSchedPeer : PeerSet) : Schedule × PeerSet :=
  match s.mapPeer.find nPeerNonce with
  | none => (s, setSchedPeer)
  | some peer =>
    let left := peer.getKnownInv.foldl (leaveInv nPeerNonce) (s, setSchedPeer)
    ({ left.1 with mapPeer := left.1.mapPeer.erase nPeerNonce }, left.2)

/-- `CSchedule::CheckAddInvIdleLocation`. Looking for the peer makes one that is not there. -/
def checkAddInvIdleLocation (nPeerNonce : UInt64) (nInvType : InvType) : Bool × Schedule :=
  if s.mapState.entries.length < maxInvCount then
    (((s.peer nPeerNonce).invKnown nInvType).listKnown.length < maxPeerInvCount nInvType, s.updatePeer nPeerNonce id)
  else (false, s)

def addNewInv (inv : Inv) (nPeerNonce : UInt64) (nTime : ℤ) : Bool × Schedule :=
  let idle := s.checkAddInvIdleLocation nPeerNonce inv.nType
  let s := idle.2
  if idle.1 then
    let state := (s.mapState.find inv).getD {}
    (true, (s.setState inv { state with
      setKnownPeer := state.setKnownPeer.add nPeerNonce
      nRecvInvTime := if state.nRecvInvTime = 0 then nTime else state.nRecvInvTime }).updatePeer nPeerNonce
        (·.addNewInv inv))
  else (false, s)

def removeInv (inv : Inv) (setKnownPeer : PeerSet) : Bool × Schedule × PeerSet :=
  match s.mapState.find inv with
  | none => (false, s, setKnownPeer)
  | some state =>
    let s := state.setKnownPeer.members.foldl (fun s nPeerNonce => s.updatePeer nPeerNonce (·.removeInv inv)) s
    (true, s.removeInvState inv, setKnownPeer.union state.setKnownPeer)

/-- What `ReceiveBlock` and `ReceiveTx` do with an object that was asked for, with the peers that know it. -/
def receive (nPeerNonce : UInt64) (inv : Inv) (objReceived : InvObject) (nTime : ℤ) : Option (Schedule × PeerSet) :=
  (s.mapState.find inv).bind fun state =>
    if state.nAssigned = nPeerNonce ∧ !state.isReceived then
      some ((s.setState inv { state with
        objReceived
        nRecvObjTime := nTime
        nClearObjTime := nTime + maxObjWaitTime }).updatePeer nPeerNonce (·.completed inv), state.setKnownPeer)
    else none

def receiveBlock (nPeerNonce : UInt64) (hash : UInt256) (block : Block) (nTime : ℤ) (setSchedPeer : PeerSet) :
    Bool × Schedule × PeerSet :=
  match s.receive nPeerNonce ⟨.block, hash⟩ (.block block) nTime with
  | none => (false, s, setSchedPeer)
  | some (s, setKnownPeer) =>
    (true, if block.isPrimary && block.isProofOfPoa then
        { s with mapHeightBlock := s.mapHeightBlock.pushAt block.nHeight (hash, .remote) }
      else s, setSchedPeer.union setKnownPeer)

def receiveTx (nPeerNonce : UInt64) (txid : UInt256) (tx : Transaction) (nTime : ℤ) (setSchedPeer : PeerSet) :
    Bool × Schedule × PeerSet :=
  match s.receive nPeerNonce ⟨.tx, txid⟩ (.tx tx) nTime with
  | none => (false, s, setSchedPeer)
  | some (s, setKnownPeer) =>
    (true, { s with
      setMissPrevTxInv := s.setMissPrevTxInv.remove ⟨.tx, txid⟩
      mapRecvTxDest := s.mapRecvTxDest.insertAt tx.destFrom tx.nTxNonce txid }, setSchedPeer.union setKnownPeer)

def addOrphanBlockPrev (hash prev : UInt256) : Schedule := { s with orphanBlock := s.orphanBlock ++ [(prev, hash)] }

def addOrphanTxPrev (txid prev : UInt256) : Schedule := { s with orphanTx := s.orphanTx ++ [(prev, txid)] }

def getNextTx (destFrom : Destination) (nNextTxNonce : UInt64) : UInt256 :=
  (s.mapRecvTxDest.findAt destFrom nNextTxNonce).getD 0

def getNext (orphans : List (UInt256 × UInt256)) (prev : UInt256) : List UInt256 :=
  (orphans.filter fun orphan => orphan.1 = prev).map Prod.snd

/-- The loop of `COrphan::RemoveBranch` over what it has found, from a place in it on. Every orphan is found at
most once, so there are no more turns than orphans. -/
def removeBranchLoop : ℕ → ℕ → List (UInt256 × UInt256) → List UInt256 → List (UInt256 × UInt256) × List UInt256
  | 0, _, orphans, vBranch => (orphans, vBranch)
  | turns + 1, i, orphans, vBranch =>
    match vBranch[i]? with
    | none => (orphans, vBranch)
    | some hash =>
      removeBranchLoop turns (i + 1) (orphans.filter fun orphan => orphan.1 ≠ hash)
        ((getNext orphans hash).foldl (fun vBranch next => if next ∈ vBranch then vBranch else vBranch ++ [next]) vBranch)

def removeBranch (orphans : List (UInt256 × UInt256)) (root : UInt256) : List (UInt256 × UInt256) × List UInt256 :=
  removeBranchLoop orphans.length 0 (orphans.filter fun orphan => orphan.1 ≠ root)
    ((getNext orphans root).foldl (fun vBranch next => if next ∈ vBranch then vBranch else vBranch ++ [next]) [])

/-- `RemoveInv` for one inventory after the other. -/
def removeInvs (invs : List Inv) (setKnownPeer : PeerSet) : Schedule × PeerSet :=
  invs.foldl (fun acc inv => (acc.1.removeInv inv acc.2).2) (s, setKnownPeer)

def invalidateBlock (hash : UInt256) (setMisbehavePeer : PeerSet) : Schedule × PeerSet :=
  let branch := removeBranch s.orphanBlock hash
  { s with orphanBlock := branch.1 }.removeInvs ((branch.2 ++ [hash]).map (Inv.mk .block)) setMisbehavePeer

def invalidateTx (txid : UInt256) (setMisbehavePeer : PeerSet) : Schedule × PeerSet :=
  let branch := removeBranch s.orphanTx txid
  { s with orphanTx := branch.1 }.removeInvs ((branch.2 ++ [txid]).map (Inv.mk .tx)) setMisbehavePeer

def isTimeout (state : InvState) (nCurTime : ℤ) : Bool :=
  state.nGetDataCount ≥ maxRegetdataCount ||
    (state.nGetDataCount ≥ 1 && nCurTime - state.nRecvInvTime ≥ maxInvWaitTime) ||
    nCurTime - state.nRecvInvTime ≥ maxInvWaitTime * 12

def assignInv (nPeerNonce : UInt64) (inv : Inv) (state : InvState) : Schedule :=
  (s.setState inv { state with nAssigned := nPeerNonce, nGetDataCount := state.nGetDataCount + 1 }).updatePeer nPeerNonce
    (·.assign inv)

/-- What the loops of `ScheduleKnownInv` have come to. -/
structure Turn where
  sched : Schedule
  vInv : List Inv := []
  setRemoveInv : SortedSet Inv invOrder := .empty
  setRemovePeerInv : SortedSet Inv invOrder := .empty
  nReceived : ℕ := 0

/-- The loop of `ScheduleKnownInv` over the missing previous transactions. -/
def missLoop (nPeerNonce : UInt64) (nMaxCount : ℕ) (nCurTime : ℤ) : List Inv → Turn → Turn
  | [], turn => turn
  | inv :: rest, turn =>
    match turn.sched.mapState.find inv with
    | none => missLoop nPeerNonce nMaxCount nCurTime rest { turn with
        sched := { turn.sched with setMissPrevTxInv := turn.sched.setMissPrevTxInv.remove inv } }
    | some state =>
      if state.nAssigned = 0 ∧ (turn.sched.peer nPeerNonce).knownInvExists inv then
        if isTimeout state nCurTime then
          missLoop nPeerNonce nMaxCount nCurTime rest { turn with setRemoveInv := turn.setRemoveInv.add inv }
        else
          let turn := { turn with sched := turn.sched.assignInv nPeerNonce inv state, vInv := turn.vInv ++ [inv] }
          if turn.vInv.length ≥ nMaxCount then turn else missLoop nPeerNonce nMaxCount nCurTime rest turn
      else missLoop nPeerNonce nMaxCount nCurTime rest turn

/-- The loop of `ScheduleKnownInv` over what the peer knows. -/
def knownLoop (nPeerNonce : UInt64) (nMaxCount : ℕ) (nCurTime : ℤ) : List Inv → Turn → Turn
  | [], turn => turn
  | inv :: rest, turn =>
    match turn.sched.mapState.find inv with
    | none => knownLoop nPeerNonce nMaxCount nCurTime rest
        { turn with setRemovePeerInv := turn.setRemovePeerInv.add inv }
    | some state =>
      if state.nAssigned = 0 then
        if isTimeout state nCurTime then
          knownLoop nPeerNonce nMaxCount nCurTime rest { turn with setRemoveInv := turn.setRemoveInv.add inv }
        else
          let turn := { turn with sched := turn.sched.assignInv nPeerNonce inv state, vInv := turn.vInv ++ [inv] }
          if turn.vInv.length ≥ nMaxCount then turn else knownLoop nPeerNonce nMaxCount nCurTime rest turn
      else if state.isReceived then
        if nCurTime ≥ state.nClearObjTime then
          knownLoop nPeerNonce nMaxCount nCurTime rest { turn with setRemoveInv := turn.setRemoveInv.add inv }
        else knownLoop nPeerNonce nMaxCount nCurTime rest { turn with nReceived := turn.nReceived + 1 }
      else knownLoop nPeerNonce nMaxCount nCurTime rest turn

variable {peer : UInt64} {most : ℕ} {nCurTime : ℤ}

variable {P : Schedule → Prop}

theorem missLoop_keeps
    (assign : ∀ s inv state, s.mapState.find inv = some state → state.nAssigned = 0 →
      (s.peer peer).knownInvExists inv = true → P s → P (s.assignInv peer inv state))
    (drop : ∀ (s : Schedule) set, P s → P { s with setMissPrevTxInv := set }) (invs : List Inv) (turn : Turn)
    (start : P turn.sched) : P (missLoop peer most nCurTime invs turn).sched := by
  fun_induction missLoop peer most nCurTime invs turn with
  | case1 => exact start
  | case2 inv rest turn absent ih => exact ih (drop _ _ start)
  | case3 inv rest turn state found free late ih => exact ih start
  | case4 inv rest turn state found free late turn' full => exact assign _ _ _ found free.1 free.2 start
  | case5 inv rest turn state found free late turn' open' ih => exact ih (assign _ _ _ found free.1 free.2 start)
  | case6 inv rest turn state found taken ih => exact ih start

variable (invs : List Inv)

theorem missLoop_setRemovePeerInv (turn : Turn) :
    (missLoop peer most nCurTime invs turn).setRemovePeerInv = turn.setRemovePeerInv := by
  fun_induction missLoop peer most nCurTime invs turn with
  | case1 | case4 => rfl
  | case2 _ _ _ _ ih | case3 _ _ _ _ _ _ _ ih | case5 _ _ _ _ _ _ _ _ _ ih | case6 _ _ _ _ _ _ ih => exact ih

theorem knownLoop_keeps (turn : Turn)
    (assign : ∀ s, ∀ inv ∈ invs, ∀ state, s.mapState.find inv = some state → state.nAssigned = 0 → P s →
      P (s.assignInv peer inv state))
    (start : P turn.sched) : P (knownLoop peer most nCurTime invs turn).sched := by
  have later {inv : Inv} {rest : List Inv} {Q : Schedule → Inv → Prop} (each : ∀ s, ∀ j ∈ inv :: rest, Q s j) :
      ∀ s, ∀ j ∈ rest, Q s j := fun s j mem => each s j (mem_cons_of_mem _ mem)
  fun_induction knownLoop peer most nCurTime invs turn with
  | case1 => exact start
  | case2 inv rest turn absent ih => exact ih (later assign) start
  | case3 inv rest turn state found free late ih => exact ih (later assign) start
  | case4 inv rest turn state found free late turn' full => exact assign _ _ mem_cons_self _ found free start
  | case5 inv rest turn state found free late turn' open' ih =>
    exact ih (later assign) (assign _ _ mem_cons_self _ found free start)
  | case6 inv rest turn state found taken received late ih => exact ih (later assign) start
  | case7 inv rest turn state found taken received early ih => exact ih (later assign) start
  | case8 inv rest turn state found taken waiting ih => exact ih (later assign) start

theorem knownLoop_setRemovePeerInv (turn : Turn)
    (there : ∀ inv ∈ invs, ∃ state, turn.sched.mapState.find inv = some state) :
    (knownLoop peer most nCurTime invs turn).setRemovePeerInv = turn.setRemovePeerInv := by
  have later {inv : Inv} {rest : List Inv} {s : Schedule} (inside : ∀ j ∈ inv :: rest, ∃ state, s.mapState.find j = some state) :
      ∀ j ∈ rest, ∃ state, s.mapState.find j = some state := fun j mem => inside j (mem_cons_of_mem _ mem)
  fun_induction knownLoop peer most nCurTime invs turn with
  | case1 => rfl
  | case2 inv rest turn absent ih =>
    obtain ⟨state, found⟩ := there inv mem_cons_self
    rw [absent] at found
    cases found
  | case3 inv rest turn state found free late ih => exact ih (later there)
  | case4 inv rest turn state found free late turn' full => rfl
  | case5 inv rest turn state found free late turn' open' ih =>
    refine ih fun j mem => ?_
    obtain ⟨state', found'⟩ := there j (mem_cons_of_mem _ mem)
    simp only [turn', assignInv, updatePeer, setState, SortedMap.find_insert]
    split_ifs
    · exact ⟨_, rfl⟩
    · exact ⟨_, found'⟩
  | case6 inv rest turn state found taken received late ih => exact ih (later there)
  | case7 inv rest turn state found taken received early ih => exact ih (later there)
  | case8 inv rest turn state found taken waiting ih => exact ih (later there)

/-- The loops of `ScheduleKnownInv` that assign. -/
def assignKnownInv (nPeerNonce : UInt64) (type : InvType) (nMaxCount : ℕ) (nCurTime : ℤ) : Turn :=
  let turn := match type with
    | .tx => missLoop nPeerNonce nMaxCount nCurTime s.setMissPrevTxInv.members { sched := s }
    | .block => { sched := s }
  if turn.vInv.length < nMaxCount then
    knownLoop nPeerNonce nMaxCount nCurTime (((s.peer nPeerNonce).invKnown type).listKnown.map (Inv.mk type)) turn
  else turn

theorem assignKnownInv_keeps (type : InvType)
    (assign : ∀ s' inv state, s'.mapState.find inv = some state → state.nAssigned = 0 →
      (s'.peer peer).knownInvExists inv = true ∨ (s.peer peer).knownInvExists inv = true → P s' →
      P (s'.assignInv peer inv state))
    (drop : ∀ (s' : Schedule) set, P s' → P { s' with setMissPrevTxInv := set }) (start : P s) :
    P (s.assignKnownInv peer type most nCurTime).sched := by
  have second (turn : Turn) (reached : P turn.sched) : P (if turn.vInv.length < most then knownLoop peer most
      nCurTime (((s.peer peer).invKnown type).listKnown.map (Inv.mk type)) turn else turn).sched := by
    split_ifs
    · refine knownLoop_keeps _ _ (fun s' inv mem state found free => ?_) reached
      obtain ⟨hash, listed, rfl⟩ := List.mem_map.1 mem
      exact assign s' _ state found free (Or.inr (decide_eq_true listed))
    · exact reached
  cases type with
  | tx => exact second _ (missLoop_keeps (fun s' inv state found free known => assign s' inv state found free (Or.inl known))
      drop _ _ start)
  | block => exact second _ start

theorem assignKnownInv_setRemovePeerInv (type : InvType)
    (there : ∀ inv, (s.peer peer).knownInvExists inv = true → ∃ state, s.mapState.find inv = some state) :
    (s.assignKnownInv peer type most nCurTime).setRemovePeerInv = .empty := by
  have second (turn : Turn) (empty : turn.setRemovePeerInv = .empty)
      (still : ∀ inv, (s.peer peer).knownInvExists inv = true → ∃ state, turn.sched.mapState.find inv = some state) :
      (if turn.vInv.length < most then knownLoop peer most nCurTime
        (((s.peer peer).invKnown type).listKnown.map (Inv.mk type)) turn else turn).setRemovePeerInv = .empty := by
    split_ifs
    · rw [knownLoop_setRemovePeerInv, empty]
      intro inv mem
      obtain ⟨hash, listed, rfl⟩ := List.mem_map.1 mem
      exact still _ (decide_eq_true listed)
    · exact empty
  cases type with
  | tx =>
    refine second _ (missLoop_setRemovePeerInv _ _) ?_
    apply missLoop_keeps (P := fun s' => ∀ inv, (s.peer peer).knownInvExists inv = true →
      ∃ state, s'.mapState.find inv = some state)
    · intro s' inv state found _ _ still other known
      simp only [assignInv, updatePeer, setState, SortedMap.find_insert]
      split_ifs
      · exact ⟨_, rfl⟩
      · exact still other known
    · exact fun s' set still => still
    · exact there
  | block => exact second _ rfl there

/-- What `ScheduleKnownInv` returns and writes. -/
structure Scheduled where
  result : Bool
  vInv : List Inv
  fReceivedAll : Bool

def scheduleKnownInv (nPeerNonce : UInt64) (type : InvType) (nMaxCount : ℕ) (nCurTime : ℤ) : Scheduled × Schedule :=
  let turn := s.assignKnownInv nPeerNonce type nMaxCount nCurTime
  let s := turn.setRemoveInv.members.foldl (fun s inv => (s.removeInv inv .empty).2.1) turn.sched
  let s := turn.setRemovePeerInv.members.foldl (fun s inv => s.updatePeer nPeerNonce (·.removeInv inv)) s
  let listKnown := ((s.peer nPeerNonce).invKnown type).listKnown
  (⟨turn.vInv ≠ [] || listKnown = [], turn.vInv, turn.nReceived = listKnown.length && turn.nReceived ≠ 0⟩, s)

/-- What `ScheduleBlockInv` returns and writes. -/
structure ScheduledBlock where
  result : Bool
  vInv : List Inv
  fMissingPrev : Bool
  fEmpty : Bool

/-- `CSchedule::ScheduleBlockInv`. The list that is given stays as it is if nothing is scheduled. -/
def scheduleBlockInv (nPeerNonce : UInt64) (vInv : List Inv) (nMaxCount : ℕ) (nTime : ℤ) : ScheduledBlock × Schedule :=
  match s.mapPeer.find nPeerNonce with
  | none => (⟨true, vInv, false, true⟩, s)
  | some peer =>
    let fEmpty : Bool := (peer.invKnown .block).listKnown = []
    if peer.isAssigned then (⟨true, vInv, false, fEmpty⟩, s)
    else
      let (scheduled, s) := s.scheduleKnownInv nPeerNonce .block nMaxCount nTime
      if scheduled.result then
        (⟨true, scheduled.vInv, fEmpty && peer.checkNextGetBlocksTime nTime, fEmpty⟩, s)
      else
        let fCheck := scheduled.fReceivedAll && peer.checkNextGetBlocksTime nTime
        let idle := if fCheck then s.checkAddInvIdleLocation nPeerNonce .block else (false, s)
        (⟨!scheduled.fReceivedAll || ((idle.2.peer nPeerNonce).invKnown .block).listKnown.length < maxPeerInvCount .block,
          scheduled.vInv, idle.1, fEmpty⟩, idle.2)

/-- What `ScheduleTxInv` returns and writes, with nothing where `fReceivedAll` is not written. -/
structure ScheduledTx where
  result : Bool
  vInv : List Inv
  fReceivedAll : Option Bool

def scheduleTxInv (nPeerNonce : UInt64) (vInv : List Inv) (nMaxCount : ℕ) (nTime : ℤ) : ScheduledTx × Schedule :=
  match s.mapPeer.find nPeerNonce with
  | none => (⟨true, vInv, none⟩, s)
  | some peer =>
    if peer.isAssigned then (⟨true, vInv, none⟩, s)
    else
      let (scheduled, s) := s.scheduleKnownInv nPeerNonce .tx nMaxCount nTime
      let listKnown := ((s.peer nPeerNonce).invKnown .tx).listKnown
      if scheduled.result then (⟨true, scheduled.vInv, scheduled.fReceivedAll || listKnown = []⟩, s)
      else (⟨!scheduled.fReceivedAll || listKnown.length < maxPeerInvCount .tx, scheduled.vInv, scheduled.fReceivedAll⟩, s)

def cancelAssignedInv (nPeerNonce : UInt64) (inv : Inv) : Bool × Schedule :=
  match s.mapState.find inv with
  | none => (false, s)
  | some state =>
    if state.nAssigned ≠ nPeerNonce then (false, s)
    else if state.isReceived then (true, s)
    else
      let state := { state with nAssigned := 0, setKnownPeer := state.setKnownPeer.remove nPeerNonce }
      let s := s.setState inv state
      let s := if state.setKnownPeer.entries = [] then s.removeInvState inv else s
      (true, if (s.mapPeer.find nPeerNonce).isSome then s.updatePeer nPeerNonce (·.removeInv inv) else s)

def setNextGetBlocksTime (nPeerNonce : UInt64) (nWaitTime nTime : ℤ) : Schedule :=
  s.updatePeer nPeerNonce fun peer => { peer with nNextGetBlocksTime := nTime + nWaitTime }

def addRefBlock (hashRefBlock hashFork hashBlock : UInt256) : Schedule :=
  if hashRefBlock = 0 then s
  else
    let s := { s with mapRefBlock := s.mapRefBlock.insertAt hashRefBlock hashBlock hashFork }
    match s.mapState.find ⟨.block, hashBlock⟩ with
    | none => s
    | some state => s.setState ⟨.block, hashBlock⟩ { state with hashRefBlock }

def getNextRefBlock (hashRefBlock : UInt256) : List (UInt256 × UInt256) :=
  ((s.mapRefBlock.find hashRefBlock).map fun blocks => blocks.entries.map Prod.swap).getD []

def setDelayedClear (inv : Inv) (nDelayedTime nTime : ℤ) : Bool × Schedule :=
  match s.mapState.find inv with
  | none => (false, s)
  | some state => (true, s.setState inv { state with nClearObjTime := nTime + nDelayedTime })

end Schedule

inductive Call where
  | addNewInv (inv : Inv) (nPeerNonce : UInt64) (nTime : ℤ)
  | checkPrevTxInv (inv : Inv)
  | removePeer (nPeerNonce : UInt64)
  | removeInv (inv : Inv)
  | receiveBlock (nPeerNonce : UInt64) (hash : UInt256) (block : Block) (nTime : ℤ)
  | receiveTx (nPeerNonce : UInt64) (txid : UInt256) (tx : Transaction) (nTime : ℤ)
  | addOrphanBlockPrev (hash prev : UInt256)
  | addOrphanTxPrev (txid prev : UInt256)
  | invalidateBlock (hash : UInt256)
  | invalidateTx (txid : UInt256)
  | scheduleBlockInv (nPeerNonce : UInt64) (nMaxCount : ℕ) (nTime : ℤ)
  | scheduleTxInv (nPeerNonce : UInt64) (nMaxCount : ℕ) (nTime : ℤ)
  | cancelAssignedInv (nPeerNonce : UInt64) (inv : Inv)
  | setNextGetBlocksTime (nPeerNonce : UInt64) (nWaitTime nTime : ℤ)
  | addRefBlock (hashRefBlock hashFork hashBlock : UInt256)
  | setDelayedClear (inv : Inv) (nDelayedTime nTime : ℤ)

/-- The schedule after a call. What the call returns and the sets that it fills do not come back to it. -/
def Schedule.call (s : Schedule) : Call → Schedule
  | .addNewInv inv nPeerNonce nTime => (s.addNewInv inv nPeerNonce nTime).2
  | .checkPrevTxInv inv => (s.checkPrevTxInv inv).2
  | .removePeer nPeerNonce => (s.removePeer nPeerNonce .empty).1
  | .removeInv inv => (s.removeInv inv .empty).2.1
  | .receiveBlock nPeerNonce hash block nTime => (s.receiveBlock nPeerNonce hash block nTime .empty).2.1
  | .receiveTx nPeerNonce txid tx nTime => (s.receiveTx nPeerNonce txid tx nTime .empty).2.1
  | .addOrphanBlockPrev hash prev => s.addOrphanBlockPrev hash prev
  | .addOrphanTxPrev txid prev => s.addOrphanTxPrev txid prev
  | .invalidateBlock hash => (s.invalidateBlock hash .empty).1
  | .invalidateTx txid => (s.invalidateTx txid .empty).1
  | .scheduleBlockInv nPeerNonce nMaxCount nTime => (s.scheduleBlockInv nPeerNonce [] nMaxCount nTime).2
  | .scheduleTxInv nPeerNonce nMaxCount nTime => (s.scheduleTxInv nPeerNonce [] nMaxCount nTime).2
  | .cancelAssignedInv nPeerNonce inv => (s.cancelAssignedInv nPeerNonce inv).2
  | .setNextGetBlocksTime nPeerNonce nWaitTime nTime => s.setNextGetBlocksTime nPeerNonce nWaitTime nTime
  | .addRefBlock hashRefBlock hashFork hashBlock => s.addRefBlock hashRefBlock hashFork hashBlock
  | .setDelayedClear inv nDelayedTime nTime => (s.setDelayedClear inv nDelayedTime nTime).2

def Schedule.run (s : Schedule) (calls : List Call) : Schedule := calls.foldl Schedule.call s

end HashAhead.Fetch

import HashAhead.Fetch.Schedule
import HashAhead.Foundation.Assignment

/-! The lists of the peers and the states of the inventories agree after all calls. The calls make the moves
of a board on which items are asked of one party at a time. -/

namespace HashAhead.Fetch
open Foundation State Relation List Option InvPeer Board

namespace InvPeer
variable (peer : InvPeer)

def Knows (inv : Inv) : Prop := inv.nHash ∈ (peer.invKnown inv.nType).listKnown

def Waits (inv : Inv) : Prop := inv.nHash ∈ (peer.invKnown inv.nType).setAssigned

theorem invKnown_updateKnown (nType : InvType) (f : InvPeerState → InvPeerState) (type : InvType) :
    (peer.updateKnown nType f).invKnown type = if type = nType then f (peer.invKnown nType) else peer.invKnown type := by
  simp only [updateKnown, Function.update_apply]

theorem inv_eq_iff {a b : Inv} : a = b ↔ a.nType = b.nType ∧ a.nHash = b.nHash := by
  cases a
  cases b
  simp

variable {peer} {inv other : Inv}

theorem knownInvExists_iff : peer.knownInvExists inv = true ↔ peer.Knows inv := by
  rw [knownInvExists, decide_eq_true_iff, Knows]

theorem knows_addNewInv : (peer.addNewInv inv).Knows other ↔ peer.Knows other ∨ other = inv := by
  rw [Knows, Knows, addNewInv, invKnown_updateKnown, inv_eq_iff]
  split_ifs with same
  · simp [same]
    tauto
  · simp [same]

theorem waits_addNewInv : (peer.addNewInv inv).Waits other ↔ peer.Waits other := by
  rw [Waits, Waits, addNewInv, invKnown_updateKnown]
  split_ifs with same <;> simp [same]

theorem knows_removeInv : (peer.removeInv inv).Knows other ↔ peer.Knows other ∧ other ≠ inv := by
  rw [Knows, Knows, removeInv, invKnown_updateKnown, Ne, inv_eq_iff]
  split_ifs with same <;> simp [same]

theorem waits_removeInv : (peer.removeInv inv).Waits other ↔ peer.Waits other ∧ other ≠ inv := by
  rw [Waits, Waits, removeInv, invKnown_updateKnown, Ne, inv_eq_iff]
  split_ifs with same <;> simp [same]

theorem knows_assign : (peer.assign inv).Knows other ↔ peer.Knows other := by
  rw [Knows, Knows, assign, invKnown_updateKnown]
  split_ifs with same <;> simp [same]

theorem waits_assign : (peer.assign inv).Waits other ↔ peer.Waits other ∨ other = inv := by
  rw [Waits, Waits, assign, invKnown_updateKnown, inv_eq_iff]
  split_ifs with same
  · simp [same, or_comm]
  · simp [same]

theorem knows_completed : (peer.completed inv).Knows other ↔ peer.Knows other := by
  rw [Knows, Knows, completed, invKnown_updateKnown]
  split_ifs with same <;> simp [same]

theorem waits_completed : (peer.completed inv).Waits other ↔ peer.Waits other ∧ other ≠ inv := by
  rw [Waits, Waits, completed, invKnown_updateKnown, Ne, inv_eq_iff]
  split_ifs with same <;> simp [same]

theorem mem_getKnownInv : inv ∈ peer.getKnownInv ↔ peer.Knows inv := by
  obtain ⟨type, hash⟩ := inv
  cases type <;> simp [getKnownInv, Knows]

end InvPeer

def InvState.record (state : InvState) : Record UInt64 where
  holders := { p | p ∈ state.setKnownPeer }
  asked := if state.nAssigned = 0 then none else some state.nAssigned
  got := state.isReceived

namespace Schedule
variable (s : Schedule)

def board : Board UInt64 Inv where
  knows p := { inv | (s.peer p).Knows inv }
  waits p := { inv | (s.peer p).Waits inv }
  record inv := (s.mapState.find inv).map InvState.record

theorem peer_updatePeer (p : UInt64) (f : InvPeer → InvPeer) (q : UInt64) :
    (s.updatePeer p f).peer q = if q = p then f (s.peer p) else s.peer q := by
  rw [peer, updatePeer, SortedMap.find_insert]
  split_ifs <;> rfl

theorem board_updatePeer (p : UInt64) (f : InvPeer → InvPeer) : (s.updatePeer p f).board = { s.board with
    knows := fun q => { inv | (if q = p then f (s.peer p) else s.peer q).Knows inv }
    waits := fun q => { inv | (if q = p then f (s.peer p) else s.peer q).Waits inv } } := by
  simp only [board, peer_updatePeer]
  rfl

theorem board_updatePeer_id (p : UInt64) : (s.updatePeer p id).board = s.board := by
  have same : ∀ q, (if q = p then id (s.peer p) else s.peer q) = s.peer q := by
    intro q
    split_ifs with here
    · rw [here, id]
    · rfl
  rw [board_updatePeer]
  simp only [same]
  rfl

theorem board_setState (inv : Inv) (state : InvState) : (s.setState inv state).board = { s.board with
    record := fun j => if j = inv then some state.record else s.board.record j } := by
  have found : ∀ j, ((s.setState inv state).mapState.find j).map InvState.record =
      if j = inv then some state.record else s.board.record j := by
    intro j
    rw [setState, SortedMap.find_insert]
    split_ifs <;> rfl
  simp only [board, found]
  rfl

theorem board_removeInvState (inv : Inv) : (s.removeInvState inv).board = { s.board with
    record := fun j => if j = inv then none else s.board.record j } := by
  obtain ⟨mapPeer, mapState⟩ := s.removeInvState_frame inv
  have found : ∀ j, ((s.mapState.erase inv).find j).map InvState.record =
      if j = inv then none else s.board.record j := by
    intro j
    rw [SortedMap.find_erase]
    split_ifs <;> rfl
  simp only [board, peer, mapPeer, mapState, found]

section
variable {inv : Inv} {p : UInt64} {state : InvState}

theorem board_move {b : Board UInt64 Inv} {f : InvPeer → InvPeer}
    (knows : ∀ q j, (if q = p then f (s.peer p) else s.peer q).Knows j ↔ j ∈ b.knows q)
    (waits : ∀ q j, (if q = p then f (s.peer p) else s.peer q).Waits j ↔ j ∈ b.waits q)
    (record : ∀ j, (if j = inv then some state.record else s.board.record j) = b.record j) :
    ((s.setState inv state).updatePeer p f).board = b := by
  rw [board_updatePeer, board_setState]
  apply Board.ext
  · funext q
    exact Set.ext (knows q)
  · funext q
    exact Set.ext (waits q)
  · exact funext record

theorem checkAddInvIdleLocation_board (p : UInt64) (type : InvType) :
    (s.checkAddInvIdleLocation p type).2.board = s.board := by
  rw [checkAddInvIdleLocation]
  split_ifs
  · exact s.board_updatePeer_id p
  · rfl

theorem board_addNewInv (inv : Inv) (p : UInt64) (nTime : ℤ) :
    (s.addNewInv inv p nTime).2.board = s.board ∨ (s.addNewInv inv p nTime).2.board = s.board.tell p inv := by
  have idle := s.checkAddInvIdleLocation_board p inv.nType
  rw [addNewInv]
  generalize s.checkAddInvIdleLocation p inv.nType = checked at idle ⊢
  obtain ⟨idle', s'⟩ := checked
  simp only at idle ⊢
  cases idle' with
  | false => exact Or.inl idle
  | true =>
    right
    rw [← idle]
    apply board_move
    · intro q j
      split_ifs with here
      · rw [knows_addNewInv, here]
        simp [board, Board.tell]
      · simp [board, Board.tell, here]
    · intro q j
      split_ifs with here
      · rw [waits_addNewInv, here]
        rfl
      · rfl
    · intro j
      by_cases here : j = inv
      · simp only [Board.tell, if_pos here]
        cases found : s'.mapState.find inv with
        | none => simp [board, found, InvState.record, InvState.isReceived]
        | some state => simp [board, found, InvState.record, InvState.isReceived]
      · simp only [Board.tell, if_neg here]

theorem board_receive {obj : InvObject} {nTime : ℤ} {after : Schedule × PeerSet} (nonzero : p ≠ 0)
    (object : obj ≠ .nil) (received : s.receive p inv obj nTime = some after) : Step s.board after.1.board := by
  obtain ⟨state, found, received⟩ := bind_eq_some_iff.1 received
  split_ifs at received with asked
  cases received
  obtain ⟨rfl, waiting⟩ := asked
  rw [Bool.not_eq_true'] at waiting
  have kept : s.board.record inv = some state.record := by simp [board, found]
  have given : state.record.asked = some state.nAssigned := if_neg nonzero
  have move : ((s.setState inv { state with objReceived := obj, nRecvObjTime := nTime
                                            nClearObjTime := nTime + maxObjWaitTime }).updatePeer
      state.nAssigned (·.completed inv)).board = s.board.deliver state.nAssigned inv state.record := by
    apply board_move
    · intro q j
      split_ifs with here
      · rw [knows_completed, here]
        rfl
      · rfl
    · intro q j
      split_ifs with here
      · rw [waits_completed, here]
        simp [board, deliver]
      · simp [board, deliver, here]
    · intro j
      simp only [deliver]
      split_ifs
      · cases obj with
        | nil => exact absurd rfl object
        | block | tx => rfl
      · rfl
  rw [move]
  exact .deliver _ _ _ _ kept given waiting

theorem forgetPeers (inv : Inv) (peers : List UInt64) :
    let s' := peers.foldl (fun s p => s.updatePeer p (·.removeInv inv)) s
    s' = { s with mapPeer := s'.mapPeer } ∧
      (∀ q j, (s'.peer q).Knows j ↔ (s.peer q).Knows j ∧ ¬(q ∈ peers ∧ j = inv)) ∧
      ∀ q j, (s'.peer q).Waits j ↔ (s.peer q).Waits j ∧ ¬(q ∈ peers ∧ j = inv) := by
  induction peers generalizing s with
  | nil => simp
  | cons p peers ih =>
    obtain ⟨frame, knows, waits⟩ := ih (s.updatePeer p (·.removeInv inv))
    refine ⟨frame, fun q j => ?_, fun q j => ?_⟩
    · rw [foldl_cons, knows, peer_updatePeer]
      split_ifs with here
      · rw [knows_removeInv, here, mem_cons]
        tauto
      · simp [here]
    · rw [foldl_cons, waits, peer_updatePeer]
      split_ifs with here
      · rw [waits_removeInv, here, mem_cons]
        tauto
      · simp [here]

theorem board_removeInv (found : s.mapState.find inv = some state) (peers : PeerSet) :
    (s.removeInv inv peers).2.1.board = s.board.forget inv state.record := by
  obtain ⟨frame, knows, waits⟩ := s.forgetPeers inv state.setKnownPeer.members
  rw [removeInv, found]
  simp only
  rw [board_removeInvState]
  apply Board.ext
  · funext q
    exact Set.ext (knows q)
  · funext q
    exact Set.ext (waits q)
  · simp only [Board.forget, board]
    rw [frame]

theorem removeInv_moves (inv : Inv) (peers : PeerSet) :
    ReflTransGen Step s.board (s.removeInv inv peers).2.1.board := by
  cases found : s.mapState.find inv with
  | none =>
    rw [removeInv, found]
  | some state =>
    rw [s.board_removeInv found]
    exact .single (.forget _ _ _ (by simp [board, found]))

theorem asked_iff (nonzero : p ≠ 0) (state : InvState) : state.record.asked = some p ↔ state.nAssigned = p := by
  simp only [InvState.record]
  split_ifs with free
  · rw [free]
    exact iff_of_false (by simp) nonzero.symm
  · exact some_inj

theorem without_record (nonzero : p ≠ 0) (state : InvState) : state.record.without p =
    if (state.setKnownPeer.remove p).entries = [] then none
    else if state.nAssigned = p then some (InvState.record { state with
      setKnownPeer := state.setKnownPeer.remove p, nAssigned := 0, objReceived := .nil })
    else some (InvState.record { state with setKnownPeer := state.setKnownPeer.remove p }) := by
  have alone : state.record.holders ⊆ {p} ↔ (state.setKnownPeer.remove p).entries = [] := by
    rw [SortedSet.entries_eq_nil_iff]
    simp only [SortedSet.mem_remove, not_and, not_not]
    rfl
  have others : state.record.holders \ {p} = { q | q ∈ state.setKnownPeer.remove p } := by
    ext q
    simp [InvState.record]
  unfold Record.without
  simp only [alone, others, asked_iff nonzero]
  split_ifs with none asked
  · rfl
  · simp [InvState.record, InvState.isReceived]
  · rfl

theorem board_leaveInv (nonzero : p ≠ 0) (acc : Schedule × PeerSet) (inv : Inv) :
    (leaveInv p acc inv).1.board = { acc.1.board with
      record := fun j => if j = inv then (acc.1.board.record inv).bind (·.without p) else acc.1.board.record j } := by
  obtain ⟨s, setSchedPeer⟩ := acc
  simp only [leaveInv]
  cases found : s.mapState.find inv with
  | none =>
    have absent : s.board.record inv = none := by simp [board, found]
    simp only [absent, bind_none]
    refine Board.ext rfl rfl (funext fun j => ?_)
    by_cases here : j = inv <;> simp [here, absent]
  | some state =>
    have kept : s.board.record inv = some state.record := by simp [board, found]
    simp only [kept, bind_some, without_record nonzero]
    split_ifs with none asked
    · rw [board_removeInvState, board_setState]
      refine Board.ext rfl rfl (funext fun j => ?_)
      by_cases here : j = inv <;> simp [here]
    · rw [board_setState, board_setState]
      refine Board.ext rfl rfl (funext fun j => ?_)
      by_cases here : j = inv <;> simp [here]
    · rw [board_setState]

theorem board_leave_loop (nonzero : p ≠ 0) (invs : List Inv) (acc : Schedule × PeerSet) :
    (invs.foldl (leaveInv p) acc).1.board = { acc.1.board with
      record := fun j => if j ∈ invs then (acc.1.board.record j).bind (·.without p) else acc.1.board.record j } := by
  induction invs generalizing acc with
  | nil => simp
  | cons inv invs ih =>
    rw [foldl_cons, ih, board_leaveInv nonzero]
    refine Board.ext rfl rfl (funext fun j => ?_)
    by_cases here : j = inv
    · -- a second turn for the same inventory changes nothing
      by_cases again : inv ∈ invs
      · simp [here, again, bind_assoc, Record.without_without]
      · simp [here, again]
    · simp [here]

theorem board_erasePeer (p : UInt64) : board { s with mapPeer := s.mapPeer.erase p } = { s.board with
    knows := fun q => { j | j ∈ s.board.knows q ∧ q ≠ p }
    waits := fun q => { j | j ∈ s.board.waits q ∧ q ≠ p } } := by
  have gone : ∀ q, peer { s with mapPeer := s.mapPeer.erase p } q = if q = p then {} else s.peer q := by
    intro q
    rw [peer, SortedMap.find_erase]
    split_ifs <;> rfl
  simp only [board, gone]
  refine Board.ext (funext fun q => Set.ext fun j => ?_) (funext fun q => Set.ext fun j => ?_) rfl
  · by_cases here : q = p <;> simp [here, Knows]
  · by_cases here : q = p <;> simp [here, Waits]

theorem removePeer_moves (nonzero : p ≠ 0) (peers : PeerSet) :
    ReflTransGen Step s.board (s.removePeer p peers).1.board := by
  cases found : s.mapPeer.find p with
  | none =>
    rw [removePeer, found]
  | some peer =>
    have self : ∀ j, j ∈ peer.getKnownInv ↔ j ∈ s.board.knows p := by
      intro j
      rw [mem_getKnownInv, board, Set.mem_ofPred_eq, Schedule.peer, found, getD_some]
    have move : (s.removePeer p peers).1.board = s.board.leave p := by
      rw [removePeer, found]
      simp only
      rw [board_erasePeer, board_leave_loop nonzero]
      refine Board.ext rfl rfl (funext fun j => ?_)
      by_cases known : j ∈ s.board.knows p <;> simp [leave, self, known]
    rw [move]
    exact .single (.leave _ _)

theorem board_forgetPeer (p : UInt64) (inv : Inv) :
    (if (s.mapPeer.find p).isSome then s.updatePeer p (·.removeInv inv) else s).board = { s.board with
      knows := fun q => { j | j ∈ s.board.knows q ∧ ¬(q = p ∧ j = inv) }
      waits := fun q => { j | j ∈ s.board.waits q ∧ ¬(q = p ∧ j = inv) } } := by
  split_ifs with there
  · rw [board_updatePeer]
    refine Board.ext (funext fun q => Set.ext fun j => ?_) (funext fun q => Set.ext fun j => ?_) rfl
    · by_cases here : q = p <;> simp [here, board, knows_removeInv]
    · by_cases here : q = p <;> simp [here, board, waits_removeInv]
  · have absent : s.peer p = {} := by
      rw [peer, not_isSome_iff_eq_none.1 there]
      rfl
    refine Board.ext (funext fun q => Set.ext fun j => ?_) (funext fun q => Set.ext fun j => ?_) rfl
    · by_cases here : q = p <;> simp [here, board, absent, Knows]
    · by_cases here : q = p <;> simp [here, board, absent, Waits]

theorem cancelAssignedInv_moves (nonzero : p ≠ 0) (inv : Inv) :
    ReflTransGen Step s.board (s.cancelAssignedInv p inv).2.board := by
  rw [cancelAssignedInv]
  cases found : s.mapState.find inv with
  | none => exact .refl
  | some state =>
    simp only
    by_cases other : state.nAssigned = p
    · rw [if_neg (not_not.2 other)]
      cases received : state.isReceived with
      | true => exact .refl
      | false =>
        rw [if_neg Bool.false_ne_true]
        apply ReflTransGen.single
        convert Step.refuse s.board p inv state.record (by simp [board, found])
          (by simp [InvState.record, other, nonzero]) received using 1
        rw [board_forgetPeer]
        have record := without_record nonzero state
        rw [if_pos other] at record
        split_ifs at record ⊢ with none
        · rw [board_removeInvState, board_setState]
          refine Board.ext rfl rfl (funext fun j => ?_)
          by_cases here : j = inv <;> simp [refuse, here, record]
        · have fresh : InvState.record { state with nAssigned := 0, setKnownPeer := state.setKnownPeer.remove p } =
              InvState.record { state with
                nAssigned := 0, objReceived := .nil, setKnownPeer := state.setKnownPeer.remove p } :=
            Record.ext rfl rfl received
          rw [board_setState, fresh]
          refine Board.ext rfl rfl (funext fun j => ?_)
          by_cases here : j = inv <;> simp [refuse, here, record]
    · rw [if_pos other]

theorem board_assignInv (nonzero : p ≠ 0) (inv : Inv) (state : InvState) :
    (s.assignInv p inv state).board = s.board.ask p inv state.record := by
  apply board_move
  · intro q j
    split_ifs with here
    · rw [knows_assign, here]
      rfl
    · rfl
  · intro q j
    split_ifs with here
    · rw [waits_assign, here]
      simp [board, ask]
    · simp [board, ask, here]
  · intro j
    simp [ask, InvState.record, InvState.isReceived, nonzero]

end

structure Assigns (s s' : Schedule) : Prop where
  moves : ReflTransGen Board.Step s.board s'.board
  knows : s'.board.knows = s.board.knows

theorem found_of_knows (sound : s.board.Sound) {p : UInt64} {inv : Inv} (known : (s.peer p).knownInvExists inv = true) :
    ∃ state, s.mapState.find inv = some state := by
  have agrees := sound inv
  cases found : s.mapState.find inv with
  | some state => exact ⟨state, rfl⟩
  | none =>
    have absent : s.board.record inv = none := by simp [board, found]
    rw [absent] at agrees
    exact absurd (knownInvExists_iff.1 known) (agrees.1 p)

theorem assignKnownInv_assigns {p : UInt64} (nonzero : p ≠ 0) (sound : s.board.Sound) (type : InvType) (most : ℕ)
    (nTime : ℤ) : Assigns s (s.assignKnownInv p type most nTime).sched := by
  apply s.assignKnownInv_keeps type
  · intro s' inv state found free known assigns
    have knows : inv ∈ s'.board.knows p := by
      rcases known with known | known
      · exact knownInvExists_iff.1 known
      · rw [assigns.knows]
        exact knownInvExists_iff.1 known
    have kept : s'.board.record inv = some state.record := by simp [board, found]
    have agrees := sound.moves assigns.moves inv
    rw [kept] at agrees
    have asks := s'.board_assignInv nonzero inv state
    refine ⟨assigns.moves.tail ?_, ?_⟩
    · rw [asks]
      exact .ask _ _ _ _ kept (if_pos free) ((agrees.1 p).1 knows)
    · rw [asks]
      exact assigns.knows
  · exact fun s' set assigns => ⟨assigns.moves, assigns.knows⟩
  · exact ⟨.refl, rfl⟩

theorem removeInvs_moves (invs : List Inv) :
    ReflTransGen Step s.board (invs.foldl (fun s inv => (s.removeInv inv .empty).2.1) s).board := by
  apply foldlRecOn (motive := fun s' : Schedule => ReflTransGen Step s.board s'.board)
  · exact .refl
  · exact fun s' moves inv _ => moves.trans (s'.removeInv_moves inv .empty)

theorem scheduleKnownInv_moves {p : UInt64} (nonzero : p ≠ 0) (sound : s.board.Sound) (type : InvType) (most : ℕ)
    (nTime : ℤ) : ReflTransGen Step s.board (s.scheduleKnownInv p type most nTime).2.board := by
  have assigns := s.assignKnownInv_assigns nonzero sound type most nTime
  have empty : (s.assignKnownInv p type most nTime).setRemovePeerInv = .empty :=
    s.assignKnownInv_setRemovePeerInv type fun inv known => s.found_of_knows sound known
  rw [scheduleKnownInv]
  simp only [empty]
  exact assigns.moves.trans (removeInvs_moves _ _)

theorem scheduleBlockInv_moves {p : UInt64} (nonzero : p ≠ 0) (sound : s.board.Sound) (vInv : List Inv) (most : ℕ)
    (nTime : ℤ) : ReflTransGen Step s.board (s.scheduleBlockInv p vInv most nTime).2.board := by
  have moves := s.scheduleKnownInv_moves nonzero sound .block most nTime
  rw [scheduleBlockInv]
  cases s.mapPeer.find p with
  | none => exact .refl
  | some peer =>
    simp only
    split_ifs
    · exact .refl
    · exact moves
    · rw [checkAddInvIdleLocation_board]
      exact moves
    · exact moves

theorem scheduleTxInv_moves {p : UInt64} (nonzero : p ≠ 0) (sound : s.board.Sound) (vInv : List Inv) (most : ℕ)
    (nTime : ℤ) : ReflTransGen Step s.board (s.scheduleTxInv p vInv most nTime).2.board := by
  have moves := s.scheduleKnownInv_moves nonzero sound .tx most nTime
  rw [scheduleTxInv]
  cases s.mapPeer.find p with
  | none => exact .refl
  | some peer =>
    simp only
    split_ifs
    · exact .refl
    · exact moves
    · exact moves

theorem checkPrevTxInv_board (inv : Inv) : (s.checkPrevTxInv inv).2.board = s.board := by
  rw [checkPrevTxInv]
  cases s.mapState.find inv with
  | none => rfl
  | some state =>
    simp only
    split_ifs <;> rfl

theorem setNextGetBlocksTime_board (p : UInt64) (nWaitTime nTime : ℤ) :
    (s.setNextGetBlocksTime p nWaitTime nTime).board = s.board := by
  rw [setNextGetBlocksTime, board_updatePeer]
  refine Board.ext (funext fun q => Set.ext fun j => ?_) (funext fun q => Set.ext fun j => ?_) rfl
  · by_cases here : q = p <;> simp [here, board, Knows]
  · by_cases here : q = p <;> simp [here, board, Waits]

theorem board_setState_same {inv : Inv} {state state' : InvState} (found : s.mapState.find inv = some state)
    (same : state'.record = state.record) : (s.setState inv state').board = s.board := by
  rw [board_setState]
  refine Board.ext rfl rfl (funext fun j => ?_)
  by_cases here : j = inv
  · simp [here, same, board, found]
  · simp [here]

theorem addRefBlock_board (ref fork hashBlock : UInt256) :
    (s.addRefBlock ref fork hashBlock).board = s.board := by
  rw [addRefBlock]
  split_ifs
  · rfl
  · simp only
    cases found : s.mapState.find ⟨.block, hashBlock⟩ with
    | none => rfl
    | some state => exact board_setState_same { s with
        mapRefBlock := s.mapRefBlock.insertAt ref hashBlock fork } found rfl

theorem setDelayedClear_board (inv : Inv) (nDelayedTime nTime : ℤ) :
    (s.setDelayedClear inv nDelayedTime nTime).2.board = s.board := by
  rw [setDelayedClear]
  cases found : s.mapState.find inv with
  | none => rfl
  | some state => exact s.board_setState_same found rfl

theorem invalidate_moves (invs : List Inv) (peers : PeerSet) :
    ReflTransGen Step s.board (s.removeInvs invs peers).1.board := by
  unfold removeInvs
  induction invs generalizing s peers with
  | nil => exact .refl
  | cons inv invs ih => exact (s.removeInv_moves inv peers).trans (ih _ _)

end Schedule

def Call.Nonzero : Call → Prop
  | .addNewInv _ p _ | .removePeer p | .receiveBlock p _ _ _ | .receiveTx p _ _ _ | .scheduleBlockInv p _ _
  | .scheduleTxInv p _ _ | .cancelAssignedInv p _ | .setNextGetBlocksTime p _ _ => p ≠ 0
  | _ => True

theorem Schedule.call_moves (s : Schedule) (sound : s.board.Sound) {call : Call} (nonzero : call.Nonzero) :
    ReflTransGen Step s.board (s.call call).board := by
  cases call with
  | addNewInv inv p nTime =>
    rcases s.board_addNewInv inv p nTime with same | told
    · rw [call, same]
    · rw [call, told]
      exact .single (.tell _ _ _)
  | checkPrevTxInv inv =>
    rw [call, checkPrevTxInv_board]
  | removePeer p => exact s.removePeer_moves nonzero .empty
  | removeInv inv => exact s.removeInv_moves inv .empty
  | receiveBlock p hash block nTime =>
    rw [call, receiveBlock]
    cases received : s.receive p ⟨.block, hash⟩ (.block block) nTime with
    | none => exact .refl
    | some after =>
      have step := s.board_receive nonzero (by simp) received
      simp only
      split_ifs <;> exact .single step
  | receiveTx p txid tx nTime =>
    rw [call, receiveTx]
    cases received : s.receive p ⟨.tx, txid⟩ (.tx tx) nTime with
    | none => exact .refl
    | some after =>
      have step := s.board_receive nonzero (by simp) received
      exact .single step
  | addOrphanBlockPrev hash prev => exact .refl
  | addOrphanTxPrev txid prev => exact .refl
  | invalidateBlock hash =>
    have moves := invalidate_moves { s with orphanBlock := (removeBranch s.orphanBlock hash).1 }
      (((removeBranch s.orphanBlock hash).2 ++ [hash]).map (Inv.mk .block)) .empty
    exact moves
  | invalidateTx txid =>
    have moves := invalidate_moves { s with orphanTx := (removeBranch s.orphanTx txid).1 }
      (((removeBranch s.orphanTx txid).2 ++ [txid]).map (Inv.mk .tx)) .empty
    exact moves
  | scheduleBlockInv p nMaxCount nTime => exact s.scheduleBlockInv_moves nonzero sound [] nMaxCount nTime
  | scheduleTxInv p nMaxCount nTime => exact s.scheduleTxInv_moves nonzero sound [] nMaxCount nTime
  | cancelAssignedInv p inv => exact s.cancelAssignedInv_moves nonzero inv
  | setNextGetBlocksTime p nWaitTime nTime =>
    rw [call, setNextGetBlocksTime_board]
  | addRefBlock hashRefBlock hashFork hashBlock =>
    rw [call, addRefBlock_board]
  | setDelayedClear inv nDelayedTime nTime =>
    rw [call, setDelayedClear_board]

theorem Schedule.run_sound {s : Schedule} (sound : s.board.Sound) {calls : List Call}
    (nonzero : ∀ call ∈ calls, call.Nonzero) : (s.run calls).board.Sound := by
  induction calls generalizing s with
  | nil => exact sound
  | cons call calls ih =>
    exact ih (sound.moves (s.call_moves sound (nonzero call mem_cons_self)))
      fun c inside => nonzero c (mem_cons_of_mem _ inside)

theorem Schedule.sound_empty : ({} : Schedule).board.Sound := by
  refine fun inv => ⟨fun p known => ?_, fun p waits => ?_⟩
  · exact not_mem_nil known
  · exact SortedSet.not_mem_empty inv.nHash waits

/-- After any calls, an inventory is in the list of a peer if and only if its state has the peer, and it is
assigned to a peer if and only if its state says so and the object has not come. So an object is asked of one
peer at a time, and no peer waits for an inventory that is not there. -/
theorem assignment_exact (calls : List Call) (nonzero : ∀ call ∈ calls, call.Nonzero) :
    (∀ p (inv : Inv), inv.nHash ∈ (((Schedule.run {} calls).peer p).invKnown inv.nType).listKnown ↔
      ∃ state, (Schedule.run {} calls).mapState.find inv = some state ∧ p ∈ state.setKnownPeer) ∧
    (∀ p (inv : Inv), p ≠ 0 → (inv.nHash ∈ (((Schedule.run {} calls).peer p).invKnown inv.nType).setAssigned ↔
      ∃ state, (Schedule.run {} calls).mapState.find inv = some state ∧ state.nAssigned = p ∧ state.isReceived = false)) ∧
    (∀ p q (inv : Inv), inv.nHash ∈ (((Schedule.run {} calls).peer p).invKnown inv.nType).setAssigned →
      inv.nHash ∈ (((Schedule.run {} calls).peer q).invKnown inv.nType).setAssigned → p = q) ∧
    ∀ p (inv : Inv), inv.nHash ∈ (((Schedule.run {} calls).peer p).invKnown inv.nType).setAssigned →
      ∃ state, (Schedule.run {} calls).mapState.find inv = some state := by
  have sound := Schedule.run_sound Schedule.sound_empty nonzero
  generalize Schedule.run {} calls = s at sound ⊢
  have agrees : ∀ inv, (∀ p, (s.peer p).Knows inv ↔ ∃ state, s.mapState.find inv = some state ∧ p ∈ state.setKnownPeer) ∧
      ∀ p, (s.peer p).Waits inv ↔ ∃ state, s.mapState.find inv = some state ∧
        state.record.asked = some p ∧ state.isReceived = false := by
    intro inv
    have here := sound inv
    cases found : s.mapState.find inv with
    | none =>
      have absent : s.board.record inv = none := by simp [Schedule.board, found]
      rw [absent] at here
      exact ⟨fun p => iff_of_false (here.1 p) (by simp), fun p => iff_of_false (here.2 p) (by simp)⟩
    | some state =>
      have kept : s.board.record inv = some state.record := by simp [Schedule.board, found]
      rw [kept] at here
      refine ⟨fun p => (here.1 p).trans ?_, fun p => (here.2.1 p).trans ?_⟩
      · simp [InvState.record]
      · simp [InvState.record]
  refine ⟨fun p inv => (agrees inv).1 p, fun p inv other => ((agrees inv).2 p).trans ?_,
    fun p q inv first second => sound.eq_of_waits first second, fun p inv waits => ?_⟩
  · simp only [Schedule.asked_iff other]
  · obtain ⟨state, found, _⟩ := ((agrees inv).2 p).1 waits
    exact ⟨state, found⟩

namespace Sample

def inv : Inv := ⟨.tx, 5⟩

def asking : List Call := [.addNewInv inv 1 100, .addNewInv inv 2 101, .scheduleTxInv 1 8 102, .scheduleTxInv 2 8 102]

theorem assignment_exact_asking : (∀ call ∈ asking, call.Nonzero) ∧
    ∃ state, (Schedule.run {} asking).mapState.find inv = some state ∧ state.nAssigned = 1 ∧ state.isReceived = false := by
  have nonzero : ∀ call ∈ asking, call.Nonzero := by
    simp [asking, Call.Nonzero]
  refine ⟨nonzero, ((assignment_exact asking nonzero).2.1 1 inv (by decide)).1 ?_⟩
  decide +kernel

end Sample

end HashAhead.Fetch

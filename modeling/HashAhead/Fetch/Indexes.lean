import HashAhead.Fetch.Schedule

/-! The indexes of the objects that have come: orphans by their predecessor, transactions by sender and nonce,
blocks by height and by the block that they refer to. They are exact as long as no object is lost that an
index names, no two received transactions share sender and nonce, and no block is put under two blocks. -/

namespace HashAhead.Fetch
open Foundation State Chain List Option Function SortedMap InvState

@[ext] structure View where
  orphan : InvType → List (UInt256 × UInt256)
  recvTx : Destination → UInt64 → Option UInt256
  refBlock : UInt256 → UInt256 → Option UInt256
  heightBlock : UInt32 → List (UInt256 × CacheBlockType)
  object : Inv → InvObject
  hashRef : Inv → UInt256

namespace View
variable (v : View)

def Received (inv : Inv) : Prop := v.object inv ≠ .nil

def Named (inv : Inv) : Prop :=
  (∃ prev, (prev, inv.nHash) ∈ v.orphan inv.nType) ∨
    match inv.nType with
    | .tx => ∃ destFrom nNonce, v.recvTx destFrom nNonce = some inv.nHash
    | .block => (∃ nHeight type, (inv.nHash, type) ∈ v.heightBlock nHeight) ∨
      ∃ hashRefBlock hashFork, v.refBlock hashRefBlock inv.nHash = some hashFork

/-- The indexes name what has come, with what they need to take it out again. -/
structure Indexed : Prop where
  kindTx : ∀ txid, v.object ⟨.tx, txid⟩ = .nil ∨ ∃ tx, v.object ⟨.tx, txid⟩ = .tx tx
  kindBlock : ∀ hash, v.object ⟨.block, hash⟩ = .nil ∨ ∃ block, v.object ⟨.block, hash⟩ = .block block
  orphan : ∀ type prev hash, (prev, hash) ∈ v.orphan type → v.Received ⟨type, hash⟩
  recvTx : ∀ destFrom nNonce txid, v.recvTx destFrom nNonce = some txid ↔
    ∃ tx, v.object ⟨.tx, txid⟩ = .tx tx ∧ tx.destFrom = destFrom ∧ tx.nTxNonce = nNonce
  heightBlock : ∀ nHeight hash type, (hash, type) ∈ v.heightBlock nHeight →
    v.Received ⟨.block, hash⟩ ∧ getBlockHeightByHash hash = nHeight
  once : ∀ nHeight, ((v.heightBlock nHeight).map Prod.fst).Nodup
  refBlock : ∀ hashRefBlock hash hashFork, v.refBlock hashRefBlock hash = some hashFork →
    v.Received ⟨.block, hash⟩ ∧ v.hashRef ⟨.block, hash⟩ = hashRefBlock

def remove (inv : Inv) : View where
  orphan type := if type = inv.nType then (v.orphan type).filter fun orphan => orphan.2 ≠ inv.nHash else v.orphan type
  recvTx destFrom nNonce := match inv.nType, v.object inv with
    | .tx, .tx tx => if destFrom = tx.destFrom ∧ nNonce = tx.nTxNonce then none else v.recvTx destFrom nNonce
    | _, _ => v.recvTx destFrom nNonce
  refBlock hashRefBlock hash :=
    if inv = ⟨.block, hash⟩ ∧ (v.hashRef inv = 0 ∨ v.hashRef inv = hashRefBlock) then none
    else v.refBlock hashRefBlock hash
  heightBlock nHeight :=
    if inv.nType = .block ∧ nHeight = getBlockHeightByHash inv.nHash then
      (v.heightBlock nHeight).filter fun cached => cached.1 ≠ inv.nHash
    else v.heightBlock nHeight
  object other := if other = inv then .nil else v.object other
  hashRef other := if other = inv then 0 else v.hashRef other

variable {v}

theorem Indexed.without (indexed : v.Indexed) (v' : View) (inv : Inv) (gone : v'.object inv = .nil)
    (object : ∀ other ≠ inv, v'.object other = v.object other) (hashRef : ∀ other ≠ inv, v'.hashRef other = v.hashRef other)
    (orphan : ∀ type prev hash, (prev, hash) ∈ v'.orphan type → (prev, hash) ∈ v.orphan type ∧ ⟨type, hash⟩ ≠ inv)
    (recvTx : ∀ payer nNonce txid, v'.recvTx payer nNonce = some txid ↔
      v.recvTx payer nNonce = some txid ∧ ⟨.tx, txid⟩ ≠ inv)
    (height : ∀ nHeight, (v'.heightBlock nHeight).Sublist (v.heightBlock nHeight) ∧
      ∀ hash type, (hash, type) ∈ v'.heightBlock nHeight → ⟨.block, hash⟩ ≠ inv)
    (refBlock : ∀ ref hash fork, v'.refBlock ref hash = some fork →
      v.refBlock ref hash = some fork ∧ ⟨.block, hash⟩ ≠ inv) : v'.Indexed := by
  have received {other : Inv} (apart : other ≠ inv) (before : v.Received other) : v'.Received other := by
    rw [View.Received, object other apart]
    exact before
  constructor
  · intro txid
    by_cases here : (⟨.tx, txid⟩ : Inv) = inv
    · rw [here]
      exact Or.inl gone
    · rw [object _ here]
      exact indexed.kindTx txid
  · intro hash
    by_cases here : (⟨.block, hash⟩ : Inv) = inv
    · rw [here]
      exact Or.inl gone
    · rw [object _ here]
      exact indexed.kindBlock hash
  · intro type prev hash mem
    obtain ⟨before, apart⟩ := orphan type prev hash mem
    exact received apart (indexed.orphan type prev hash before)
  · intro payer nNonce txid
    rw [recvTx, indexed.recvTx]
    by_cases here : (⟨.tx, txid⟩ : Inv) = inv
    · rw [here, gone]
      exact ⟨fun found => absurd rfl found.2, fun ⟨_, empty, _⟩ => by cases empty⟩
    · rw [object _ here, and_iff_left here]
  · intro nHeight hash type mem
    obtain ⟨before, same⟩ := indexed.heightBlock nHeight hash type ((height nHeight).1.subset mem)
    exact ⟨received ((height nHeight).2 hash type mem) before, same⟩
  · exact fun nHeight => (indexed.once nHeight).sublist ((height nHeight).1.map _)
  · intro ref hash fork found
    obtain ⟨found, apart⟩ := refBlock ref hash fork found
    obtain ⟨before, refers⟩ := indexed.refBlock ref hash fork found
    exact ⟨received apart before, (hashRef _ apart).trans refers⟩

theorem Indexed.recvTx_remove (indexed : v.Indexed) (inv : Inv) (payer : Destination) (nNonce : UInt64) (txid : UInt256) :
    (v.remove inv).recvTx payer nNonce = some txid ↔ v.recvTx payer nNonce = some txid ∧ ⟨.tx, txid⟩ ≠ inv := by
  obtain ⟨type, hash⟩ := inv
  cases type with
  | block => simp [View.remove]
  | tx =>
    rcases indexed.kindTx hash with nil | ⟨tx, is⟩
    · simp only [View.remove, nil]
      refine (and_iff_left_of_imp fun found => ?_).symm
      rintro same
      obtain ⟨tx, is, _⟩ := (indexed.recvTx payer nNonce txid).1 found
      rw [same, nil] at is
      cases is
    · have own := (indexed.recvTx tx.destFrom tx.nTxNonce hash).2 ⟨tx, is, rfl, rfl⟩
      simp only [View.remove, is]
      split_ifs with both
      · -- the place is that of the transaction that goes
        rw [both.1, both.2, own]
        refine ⟨nofun, fun found => absurd ?_ found.2⟩
        rw [Option.some.inj found.1]
      · refine (and_iff_left_of_imp fun found => ?_).symm
        rintro same
        obtain ⟨tx', is', from', nonce'⟩ := (indexed.recvTx payer nNonce txid).1 found
        rw [same, is] at is'
        cases is'
        exact both ⟨from'.symm, nonce'.symm⟩

theorem Indexed.remove (indexed : v.Indexed) (inv : Inv) : (v.remove inv).Indexed := by
  apply indexed.without (v.remove inv) inv (if_pos rfl) (fun _ apart => if_neg apart) (fun _ apart => if_neg apart)
  · intro type prev hash mem
    simp only [View.remove] at mem
    split_ifs at mem with here
    · obtain ⟨mem, apart⟩ := mem_filter.1 mem
      refine ⟨mem, ?_⟩
      rintro rfl
      simp at apart
    · refine ⟨mem, ?_⟩
      rintro rfl
      exact here rfl
  · exact indexed.recvTx_remove inv
  · intro nHeight
    simp only [View.remove]
    split_ifs with here
    · refine ⟨filter_sublist, fun hash type mem => ?_⟩
      rintro rfl
      simp at mem
    · refine ⟨List.Sublist.refl _, fun hash type mem => ?_⟩
      rintro rfl
      exact here ⟨rfl, (indexed.heightBlock nHeight hash type mem).2.symm⟩
  · intro ref hash fork found
    simp only [View.remove] at found
    split_ifs at found with here
    refine ⟨found, ?_⟩
    rintro rfl
    exact here ⟨rfl, Or.inr (indexed.refBlock ref hash fork found).2⟩

theorem Named.of_remove {inv other : Inv} (named : (v.remove inv).Named other) : v.Named other := by
  rcases named with ⟨prev, mem⟩ | named
  · refine Or.inl ⟨prev, ?_⟩
    simp only [View.remove] at mem
    split_ifs at mem
    · exact mem_of_mem_filter mem
    · exact mem
  · refine Or.inr ?_
    obtain ⟨type, hash⟩ := other
    cases type with
    | tx =>
      obtain ⟨payer, nNonce, found⟩ := named
      refine ⟨payer, nNonce, ?_⟩
      simp only [View.remove] at found
      split at found
      · split_ifs at found
        exact found
      · exact found
    | block =>
      rcases named with ⟨nHeight, type, mem⟩ | ⟨ref, fork, found⟩
      · refine Or.inl ⟨nHeight, type, ?_⟩
        simp only [View.remove] at mem
        split_ifs at mem
        · exact mem_of_mem_filter mem
        · exact mem
      · refine Or.inr ⟨ref, fork, ?_⟩
        simp only [View.remove] at found
        split_ifs at found
        exact found

def lose (v : View) (inv : Inv) : View := { v with object := Function.update v.object inv .nil }

theorem Indexed.lose (indexed : v.Indexed) {inv : Inv} (unnamed : ¬v.Named inv) : (v.lose inv).Indexed := by
  apply indexed.without (v.lose inv) inv (update_self _ _ _) (fun _ apart => update_of_ne apart _ _)
    (fun _ _ => rfl)
  · refine fun type prev hash mem => ⟨mem, ?_⟩
    rintro rfl
    exact unnamed (Or.inl ⟨prev, mem⟩)
  · refine fun payer nNonce txid => (and_iff_left_of_imp fun found => ?_).symm
    rintro rfl
    exact unnamed (Or.inr ⟨payer, nNonce, found⟩)
  · refine fun nHeight => ⟨List.Sublist.refl _, fun hash type mem => ?_⟩
    rintro rfl
    exact unnamed (Or.inr (Or.inl ⟨nHeight, type, mem⟩))
  · refine fun ref hash fork found => ⟨found, ?_⟩
    rintro rfl
    exact unnamed (Or.inr (Or.inr ⟨ref, fork, found⟩))

/-- A block comes, and is put in the list of its height if it is of the kind that is kept there. -/
def comeBlock (v : View) (hash : UInt256) (block : Block) : View := { v with
  object := Function.update v.object ⟨.block, hash⟩ (.block block)
  heightBlock := fun nHeight =>
    if (block.isPrimary && block.isProofOfPoa) ∧ nHeight = block.nHeight then v.heightBlock nHeight ++ [(hash, .remote)]
    else v.heightBlock nHeight }

theorem Indexed.comeBlock (indexed : v.Indexed) {hash : UInt256} (absent : v.object ⟨.block, hash⟩ = .nil) {block : Block}
    (height : block.nHeight = getBlockHeightByHash hash) : (v.comeBlock hash block).Indexed := by
  have come : (v.comeBlock hash block).object ⟨.block, hash⟩ = .block block := update_self _ _ _
  have stays {other : Inv} (apart : other ≠ ⟨.block, hash⟩) : (v.comeBlock hash block).object other = v.object other :=
    update_of_ne apart _ _
  have received {other : Inv} (before : v.Received other) : (v.comeBlock hash block).Received other := by
    rw [View.Received, stays]
    · exact before
    · rintro rfl
      exact before absent
  have tx (txid : UInt256) : (v.comeBlock hash block).object ⟨.tx, txid⟩ = v.object ⟨.tx, txid⟩ := stays (by simp)
  constructor
  · intro txid
    rw [tx]
    exact indexed.kindTx txid
  · intro other
    by_cases here : other = hash
    · rw [here]
      exact Or.inr ⟨block, come⟩
    · rw [stays (by simp [here])]
      exact indexed.kindBlock other
  · exact fun type prev other mem => received (indexed.orphan type prev other mem)
  · intro payer nNonce txid
    rw [tx]
    exact indexed.recvTx payer nNonce txid
  · intro nHeight other type mem
    simp only [View.comeBlock] at mem
    split_ifs at mem with here
    · rcases mem_append.1 mem with before | last
      · obtain ⟨before, same⟩ := indexed.heightBlock nHeight other type before
        exact ⟨received before, same⟩
      · obtain ⟨rfl, _⟩ := Prod.mk.inj (mem_singleton.1 last)
        refine ⟨?_, height.symm.trans here.2.symm⟩
        rw [View.Received, come]
        nofun
    · obtain ⟨before, same⟩ := indexed.heightBlock nHeight other type mem
      exact ⟨received before, same⟩
  · intro nHeight
    simp only [View.comeBlock]
    split_ifs
    · rw [map_append, map_singleton, ← concat_eq_append]
      refine (indexed.once nHeight).concat fun listed => ?_
      obtain ⟨⟨other, type⟩, mem, rfl⟩ := List.mem_map.1 listed
      exact (indexed.heightBlock nHeight other type mem).1 absent
    · exact indexed.once nHeight
  · intro ref other fork found
    obtain ⟨before, refers⟩ := indexed.refBlock ref other fork found
    exact ⟨received before, refers⟩

def comeTx (v : View) (txid : UInt256) (tx : Transaction) : View := { v with
  object := Function.update v.object ⟨.tx, txid⟩ (.tx tx)
  recvTx := fun destFrom nNonce =>
    if destFrom = tx.destFrom ∧ nNonce = tx.nTxNonce then some txid else v.recvTx destFrom nNonce }

theorem Indexed.comeTx (indexed : v.Indexed) {txid : UInt256} (absent : v.object ⟨.tx, txid⟩ = .nil) {tx : Transaction}
    (free : ∀ other tx', v.object ⟨.tx, other⟩ = .tx tx' → ¬(tx'.destFrom = tx.destFrom ∧ tx'.nTxNonce = tx.nTxNonce)) :
    (v.comeTx txid tx).Indexed := by
  have come : (v.comeTx txid tx).object ⟨.tx, txid⟩ = .tx tx := update_self _ _ _
  have stays {other : Inv} (apart : other ≠ ⟨.tx, txid⟩) : (v.comeTx txid tx).object other = v.object other :=
    update_of_ne apart _ _
  have received {other : Inv} (before : v.Received other) : (v.comeTx txid tx).Received other := by
    rw [View.Received, stays]
    · exact before
    · rintro rfl
      exact before absent
  have block (hash : UInt256) : (v.comeTx txid tx).object ⟨.block, hash⟩ = v.object ⟨.block, hash⟩ := stays (by simp)
  constructor
  · intro other
    by_cases here : other = txid
    · rw [here]
      exact Or.inr ⟨tx, come⟩
    · rw [stays (by simp [here])]
      exact indexed.kindTx other
  · intro hash
    rw [block]
    exact indexed.kindBlock hash
  · exact fun type prev other mem => received (indexed.orphan type prev other mem)
  · intro payer nNonce other
    simp only [View.comeTx]
    split_ifs with both
    · by_cases here : other = txid
      · rw [here, update_self]
        exact ⟨fun _ => ⟨tx, rfl, both.1.symm, both.2.symm⟩, fun _ => rfl⟩
      · rw [update_of_ne (by simp [here])]
        refine ⟨fun same => absurd (Option.some.inj same).symm here, ?_⟩
        rintro ⟨tx', is, from', nonce'⟩
        exact absurd ⟨from'.trans both.1, nonce'.trans both.2⟩ (free other tx' is)
    · rw [indexed.recvTx]
      by_cases here : other = txid
      · rw [here, update_self, absent]
        refine ⟨fun ⟨_, empty, _⟩ => (by cases empty), ?_⟩
        rintro ⟨tx', same, from', nonce'⟩
        cases same
        exact absurd ⟨from'.symm, nonce'.symm⟩ both
      · rw [update_of_ne (by simp [here])]
  · intro nHeight hash type mem
    obtain ⟨before, same⟩ := indexed.heightBlock nHeight hash type mem
    exact ⟨received before, same⟩
  · exact indexed.once
  · intro ref other fork found
    obtain ⟨before, refers⟩ := indexed.refBlock ref other fork found
    exact ⟨received before, refers⟩

def addRef (v : View) (hashRefBlock hashFork hashBlock : UInt256) : View := { v with
  refBlock := fun ref hash => if ref = hashRefBlock ∧ hash = hashBlock then some hashFork else v.refBlock ref hash
  hashRef := Function.update v.hashRef ⟨.block, hashBlock⟩ hashRefBlock }

theorem Indexed.addRef (indexed : v.Indexed) {hashRefBlock hashBlock : UInt256} (hashFork : UInt256)
    (received : v.Received ⟨.block, hashBlock⟩)
    (single : ∀ ref fork, v.refBlock ref hashBlock = some fork → ref = hashRefBlock) :
    (v.addRef hashRefBlock hashFork hashBlock).Indexed where
  __ := indexed
  refBlock ref hash fork found := by
    simp only [View.addRef] at found ⊢
    split_ifs at found with both
    · rw [both.1, both.2, update_self]
      exact ⟨received, rfl⟩
    · obtain ⟨before, refers⟩ := indexed.refBlock ref hash fork found
      refine ⟨before, ?_⟩
      by_cases here : hash = hashBlock
      · -- it can only be the same place
        rw [here] at found
        exact absurd ⟨single ref fork found, here⟩ both
      · rw [update_of_ne (by simp [here])]
        exact refers

end View

namespace Schedule
variable (s : Schedule)

def view : View where
  orphan
    | .tx => s.orphanTx
    | .block => s.orphanBlock
  recvTx := s.mapRecvTxDest.findAt
  refBlock := s.mapRefBlock.findAt
  heightBlock := s.mapHeightBlock.listAt
  object inv := ((s.mapState.find inv).map InvState.objReceived).getD .nil
  hashRef inv := ((s.mapState.find inv).map InvState.hashRefBlock).getD 0

variable (p : UInt64) (inv : Inv) (state : InvState)

theorem view_setState : (s.setState inv state).view = { s.view with
    object := Function.update s.view.object inv state.objReceived
    hashRef := Function.update s.view.hashRef inv state.hashRefBlock } := by
  apply View.ext
  all_goals try rfl
  all_goals
    funext other
    simp only [view, setState, find_insert, update_apply]
    split_ifs <;> rfl

theorem view_setState_same {inv : Inv} {state : InvState} (object : state.objReceived = s.view.object inv)
    (hashRef : state.hashRefBlock = s.view.hashRef inv) : (s.setState inv state).view = s.view := by
  rw [view_setState, object, hashRef, update_eq_self, update_eq_self]

theorem object_of_found {inv : Inv} {state : InvState} (found : s.mapState.find inv = some state) :
    s.view.object inv = state.objReceived ∧ s.view.hashRef inv = state.hashRefBlock := by
  simp [view, found]

theorem view_updatePeer (f : InvPeer → InvPeer) : (s.updatePeer p f).view = s.view := rfl

theorem object_erase (other : Inv) : (((s.mapState.erase inv).find other).map objReceived).getD .nil =
    if other = inv then .nil else s.view.object other := by
  rw [find_erase]
  split_ifs <;> rfl

theorem hashRef_erase (other : Inv) : (((s.mapState.erase inv).find other).map hashRefBlock).getD 0 =
    if other = inv then 0 else s.view.hashRef other := by
  rw [find_erase]
  split_ifs <;> rfl

theorem view_removeInvState : (s.removeInvState inv).view = s.view.remove inv := by
  obtain ⟨type, hash⟩ := inv
  cases type with
  | tx =>
    refine View.ext (funext fun type => ?_) (funext₂ fun payer nNonce => ?_) (funext₂ fun ref block => ?_)
      (funext fun nHeight => ?_) (funext (s.object_erase ⟨.tx, hash⟩)) (funext (s.hashRef_erase ⟨.tx, hash⟩))
    · cases type with
      | tx => simp [View.remove, view, removeInvState, removeOrphan, removeRecvTx]
      | block => simp [View.remove, view, removeInvState, removeOrphan, removeRecvTx]
    · simp only [View.remove, view, removeInvState, removeOrphan, removeRecvTx, getTransaction]
      cases found : s.mapState.find ⟨.tx, hash⟩ with
      | none => simp
      | some state =>
        cases object : state.objReceived with
        | nil => simp [object]
        | block block => simp [object]
        | tx tx => simp [object, findAt_eraseAt]
    · simp [View.remove, view, removeInvState, removeOrphan, removeRecvTx]
    · simp [View.remove, view, removeInvState, removeOrphan, removeRecvTx]
  | block =>
    refine View.ext (funext fun type => ?_) rfl (funext₂ fun ref block => ?_)
      (funext fun nHeight => ?_) (funext (s.object_erase ⟨.block, hash⟩)) (funext (s.hashRef_erase ⟨.block, hash⟩))
    · cases type with
      | tx => simp [View.remove, view, removeInvState, removeOrphan, removeHeightBlock, removeRefBlock]
      | block => simp [View.remove, view, removeInvState, removeOrphan, removeHeightBlock, removeRefBlock]
    · simp only [View.remove, view, removeInvState, removeOrphan, removeHeightBlock, removeRefBlock, Inv.mk.injEq,
        true_and]
      by_cases zero : ((s.mapState.find ⟨.block, hash⟩).map hashRefBlock).getD 0 = 0
      · simp only [zero, ne_eq, not_true_eq_false, if_false, findAt_eraseAll, true_or, and_true]
        simp only [eq_comm]
      · simp only [zero, ne_eq, not_false_eq_true, if_true, findAt_eraseAt, false_or]
        simp only [eq_comm, and_comm]
    · simp only [View.remove, view, removeInvState, removeOrphan, removeHeightBlock, removeRefBlock,
        listAt_filterAt, true_and]
      split_ifs with here
      · rw [here]
      · rfl

theorem view_checkAddInvIdleLocation (type : InvType) :
    (s.checkAddInvIdleLocation p type).2.view = s.view := by
  rw [checkAddInvIdleLocation]
  split_ifs <;> rfl

theorem view_addNewInv (p : UInt64) (nTime : ℤ) : (s.addNewInv inv p nTime).2.view = s.view := by
  have idle := s.view_checkAddInvIdleLocation p inv.nType
  rw [addNewInv]
  generalize s.checkAddInvIdleLocation p inv.nType = checked at idle ⊢
  obtain ⟨idle', s'⟩ := checked
  simp only at idle ⊢
  cases idle' with
  | false => exact idle
  | true =>
    simp only [if_true]
    rw [view_updatePeer, view_setState_same, idle] <;>
      cases found : s'.mapState.find inv <;> simp [view, found]

theorem view_forgetPeers (peers : List UInt64) :
    (peers.foldl (fun s p => s.updatePeer p (·.removeInv inv)) s).view = s.view :=
  peers.foldlRecOn (motive := fun s' : Schedule => s'.view = s.view) _ rfl fun _ same _ _ => same

theorem indexed_removeInv (peers : PeerSet) (indexed : s.view.Indexed) :
    (s.removeInv inv peers).2.1.view.Indexed := by
  rw [removeInv]
  cases s.mapState.find inv with
  | none => exact indexed
  | some state =>
    simp only
    rw [view_removeInvState, view_forgetPeers]
    exact indexed.remove inv

theorem indexed_removeInvs (invs : List Inv) (peers : PeerSet) (indexed : s.view.Indexed) :
    (s.removeInvs invs peers).1.view.Indexed := by
  unfold removeInvs
  induction invs generalizing s peers with
  | nil => exact indexed
  | cons inv invs ih => exact ih _ _ (s.indexed_removeInv inv peers indexed)

theorem view_assignKnownInv (type : InvType) (most : ℕ) (nTime : ℤ) :
    (s.assignKnownInv p type most nTime).sched.view = s.view := by
  apply s.assignKnownInv_keeps type (P := fun s' => s'.view = s.view)
  · intro s' inv state found _ _ same
    obtain ⟨object, hashRef⟩ := s'.object_of_found found
    rw [assignInv, view_updatePeer, ← same]
    exact s'.view_setState_same object.symm hashRef.symm
  · exact fun s' set same => same
  · rfl

theorem indexed_scheduleKnownInv (type : InvType) (most : ℕ) (nTime : ℤ) (indexed : s.view.Indexed) :
    (s.scheduleKnownInv p type most nTime).2.view.Indexed := by
  rw [scheduleKnownInv]
  apply foldlRecOn (motive := fun s' : Schedule => s'.view.Indexed)
  · apply foldlRecOn (motive := fun s' : Schedule => s'.view.Indexed)
    · rw [view_assignKnownInv]
      exact indexed
    · exact fun s' indexed inv _ => s'.indexed_removeInv inv .empty indexed
  · exact fun s' indexed inv _ => indexed

theorem indexed_scheduleBlockInv (vInv : List Inv) (most : ℕ) (nTime : ℤ) (indexed : s.view.Indexed) :
    (s.scheduleBlockInv p vInv most nTime).2.view.Indexed := by
  have after := s.indexed_scheduleKnownInv p .block most nTime indexed
  rw [scheduleBlockInv]
  cases s.mapPeer.find p with
  | none => exact indexed
  | some peer =>
    simp only
    split_ifs
    · exact indexed
    · exact after
    · rw [view_checkAddInvIdleLocation]
      exact after
    · exact after

theorem indexed_scheduleTxInv (vInv : List Inv) (most : ℕ) (nTime : ℤ) (indexed : s.view.Indexed) :
    (s.scheduleTxInv p vInv most nTime).2.view.Indexed := by
  have after := s.indexed_scheduleKnownInv p .tx most nTime indexed
  rw [scheduleTxInv]
  cases s.mapPeer.find p with
  | none => exact indexed
  | some peer =>
    simp only
    split_ifs
    · exact indexed
    · exact after
    · exact after

theorem indexed_cancelAssignedInv (indexed : s.view.Indexed) :
    (s.cancelAssignedInv p inv).2.view.Indexed := by
  rw [cancelAssignedInv]
  cases found : s.mapState.find inv with
  | none => exact indexed
  | some state =>
    obtain ⟨object, hashRef⟩ := s.object_of_found found
    have same : (s.setState inv { state with nAssigned := 0, setKnownPeer := state.setKnownPeer.remove p }).view = s.view :=
      s.view_setState_same object.symm hashRef.symm
    have kept := indexed
    rw [← same] at kept
    have removed := kept.remove inv
    rw [← view_removeInvState] at removed
    simp only
    split_ifs
    all_goals first | exact indexed | exact kept | exact removed

def LeavesSafely (p : UInt64) : Prop := ∀ inv state, s.mapState.find inv = some state → state.nAssigned = p →
  state.isReceived = true → (∃ q ∈ state.setKnownPeer, q ≠ p) → ¬s.view.Named inv

theorem LeavesSafely.of {s s' : Schedule} {p : UInt64} (safe : s.LeavesSafely p) (inv : Inv)
    (others : ∀ other ≠ inv, s'.mapState.find other = s.mapState.find other)
    (here : ∀ state, s'.mapState.find inv = some state → state.nAssigned = p → state.isReceived = false)
    (named : ∀ other, s'.view.Named other → s.view.Named other) : s'.LeavesSafely p := by
  intro other state found given received shared
  by_cases same : other = inv
  · rw [same] at found
    rw [here state found given] at received
    cases received
  · rw [others other same] at found
    exact fun after => safe other state found given received shared (named other after)

theorem find_setState (other : Inv) :
    (s.setState inv state).mapState.find other = if other = inv then some state else s.mapState.find other :=
  find_insert _ _ _ _

theorem isReceived_iff : state.isReceived = true ↔ state.objReceived ≠ .nil := by
  unfold isReceived
  cases state.objReceived <;> simp

theorem indexed_leaveInv {p : UInt64} {acc : Schedule × PeerSet} (indexed : acc.1.view.Indexed)
    (safe : acc.1.LeavesSafely p) (inv : Inv) :
    (leaveInv p acc inv).1.view.Indexed ∧ (leaveInv p acc inv).1.LeavesSafely p := by
  obtain ⟨s, setSchedPeer⟩ := acc
  simp only [leaveInv]
  cases found : s.mapState.find inv with
  | none => exact ⟨indexed, safe⟩
  | some state =>
    obtain ⟨object, hashRef⟩ := s.object_of_found found
    have same : (s.setState inv { state with setKnownPeer := state.setKnownPeer.remove p }).view = s.view :=
      s.view_setState_same object.symm hashRef.symm
    simp only
    split_ifs with alone given
    · have view : ((s.setState inv { state with setKnownPeer := state.setKnownPeer.remove p }).removeInvState inv).view =
          s.view.remove inv := by rw [view_removeInvState, same]
      refine ⟨view ▸ indexed.remove inv, LeavesSafely.of safe inv (fun other apart => ?_) (fun state' after => ?_) ?_⟩
      · rw [(removeInvState_frame _ inv).2, find_erase, if_neg apart, find_setState, if_neg apart]
      · rw [(removeInvState_frame _ inv).2, find_erase, if_pos rfl] at after
        cases after
      · rw [view]
        exact fun other => View.Named.of_remove
    · -- the object is lost, if it has come
      have view : ((s.setState inv { state with setKnownPeer := state.setKnownPeer.remove p }).setState inv
          { state with setKnownPeer := state.setKnownPeer.remove p, nAssigned := 0, objReceived := .nil }).view =
            s.view.lose inv := by
        rw [view_setState, same, ← hashRef, update_eq_self]
        rfl
      refine ⟨view ▸ ?_, LeavesSafely.of safe inv (fun other apart => ?_) (fun state' after => ?_) ?_⟩
      · by_cases received : state.isReceived = true
        · obtain ⟨q, mem⟩ := not_forall.1 fun none => alone (SortedSet.entries_eq_nil_iff.2 none)
          rw [not_not, SortedSet.mem_remove] at mem
          exact indexed.lose (safe inv state found given received ⟨q, mem⟩)
        · rw [isReceived_iff, not_not, ← object] at received
          rw [View.lose, ← received, update_eq_self]
          exact indexed
      · rw [find_setState, if_neg apart, find_setState, if_neg apart]
      · rw [find_setState, if_pos rfl] at after
        cases after
        exact fun _ => rfl
      · rw [view]
        exact fun other named => named
    · refine ⟨same ▸ indexed, LeavesSafely.of safe inv (fun other apart => ?_) (fun state' after => ?_) ?_⟩
      · rw [find_setState, if_neg apart]
      · rw [find_setState, if_pos rfl] at after
        cases after
        exact fun assigned => absurd assigned given
      · rw [same]
        exact fun other named => named

theorem indexed_removePeer {p : UInt64} (peers : PeerSet) (indexed : s.view.Indexed) (safe : s.LeavesSafely p) :
    (s.removePeer p peers).1.view.Indexed := by
  have loop (invs : List Inv) := invs.foldlRecOn (leaveInv p) (b := (s, peers))
    (motive := fun acc => acc.1.view.Indexed ∧ acc.1.LeavesSafely p) ⟨indexed, safe⟩
    fun _ kept inv _ => indexed_leaveInv kept.1 kept.2 inv
  rw [removePeer]
  cases s.mapPeer.find p with
  | none => exact indexed
  | some peer => exact (loop peer.getKnownInv).1

theorem receive_view {p : UInt64} {inv : Inv} {obj : InvObject} {nTime : ℤ} {after : Schedule × PeerSet}
    (received : s.receive p inv obj nTime = some after) : s.view.object inv = .nil ∧
      after.1.view = { s.view with object := Function.update s.view.object inv obj } ∧
      after.1.mapHeightBlock = s.mapHeightBlock ∧ after.1.mapRecvTxDest = s.mapRecvTxDest := by
  obtain ⟨state, found, received⟩ := bind_eq_some_iff.1 received
  split_ifs at received with asked
  obtain ⟨object, hashRef⟩ := s.object_of_found found
  have waiting : state.objReceived = .nil := by
    by_contra come
    have come := (isReceived_iff state).2 come
    simp [come] at asked
  cases received
  refine ⟨object.trans waiting, ?_, rfl, rfl⟩
  rw [view_updatePeer, view_setState, ← hashRef, update_eq_self]

theorem indexed_receiveBlock {hash : UInt256} {block : Block} (nTime : ℤ) (peers : PeerSet)
    (indexed : s.view.Indexed) (height : block.nHeight = getBlockHeightByHash hash) :
    (s.receiveBlock p hash block nTime peers).2.1.view.Indexed := by
  rw [receiveBlock]
  cases received : s.receive p ⟨.block, hash⟩ (.block block) nTime with
  | none => exact indexed
  | some after =>
    obtain ⟨absent, view, mapHeightBlock, _⟩ := s.receive_view received
    have come := indexed.comeBlock absent height
    obtain ⟨s', known⟩ := after
    simp only at view mapHeightBlock ⊢
    have same : (if (block.isPrimary && block.isProofOfPoa) = true then
        { s' with mapHeightBlock := s'.mapHeightBlock.pushAt block.nHeight (hash, .remote) } else s').view =
        s.view.comeBlock hash block := by
      split_ifs with poa
      · have pushed : Schedule.view { s' with mapHeightBlock := s'.mapHeightBlock.pushAt block.nHeight (hash, .remote) } =
            { s'.view with heightBlock := (s'.mapHeightBlock.pushAt block.nHeight (hash, .remote)).listAt } := rfl
        rw [pushed, view, mapHeightBlock]
        refine View.ext rfl rfl rfl (funext fun nHeight => ?_) rfl rfl
        simp only [View.comeBlock, poa, true_and, listAt_pushAt]
        split_ifs with here
        · rw [here]
          rfl
        · rfl
      · rw [view]
        refine View.ext rfl rfl rfl (funext fun nHeight => ?_) rfl rfl
        simp [View.comeBlock, poa]
    rw [same]
    exact come

variable {tx : Transaction} {txid : UInt256}

theorem indexed_receiveTx (nTime : ℤ) (peers : PeerSet) (indexed : s.view.Indexed)
    (free : ∀ other tx', other ≠ txid → s.view.object ⟨.tx, other⟩ = .tx tx' →
      ¬(tx'.destFrom = tx.destFrom ∧ tx'.nTxNonce = tx.nTxNonce))
    :
    (s.receiveTx p txid tx nTime peers).2.1.view.Indexed := by
  rw [receiveTx]
  cases received : s.receive p ⟨.tx, txid⟩ (.tx tx) nTime with
  | none => exact indexed
  | some after =>
    obtain ⟨absent, view, _, mapRecvTxDest⟩ := s.receive_view received
    have come : (s.view.comeTx txid tx).Indexed := by
      refine indexed.comeTx absent fun other tx' is => ?_
      by_cases here : other = txid
      · rw [here, absent] at is
        cases is
      · exact free other tx' here is
    have same : Schedule.view { after.1 with
        setMissPrevTxInv := after.1.setMissPrevTxInv.remove ⟨.tx, txid⟩
        mapRecvTxDest := after.1.mapRecvTxDest.insertAt tx.destFrom tx.nTxNonce txid } = s.view.comeTx txid tx := by
      have placed : Schedule.view { after.1 with
          setMissPrevTxInv := after.1.setMissPrevTxInv.remove ⟨.tx, txid⟩
          mapRecvTxDest := after.1.mapRecvTxDest.insertAt tx.destFrom tx.nTxNonce txid } =
            { after.1.view with recvTx := (after.1.mapRecvTxDest.insertAt tx.destFrom tx.nTxNonce txid).findAt } := rfl
      rw [placed, view, mapRecvTxDest]
      refine View.ext rfl (funext₂ fun payer nNonce => ?_) rfl rfl rfl rfl
      simp only [View.comeTx, findAt_insertAt]
      rfl
    simp only
    rw [same]
    exact come

theorem removeBranchLoop_subset (turns i : ℕ) (orphans : List (UInt256 × UInt256)) (vBranch : List UInt256) :
    (removeBranchLoop turns i orphans vBranch).1 ⊆ orphans := by
  fun_induction removeBranchLoop turns i orphans vBranch with
  | case1 | case2 => exact List.Subset.refl _
  | case3 i orphans vBranch turns hash here ih => exact List.Subset.trans ih filter_sublist.subset

theorem removeBranch_subset (orphans : List (UInt256 × UInt256)) (root : UInt256) :
    (removeBranch orphans root).1 ⊆ orphans :=
  List.Subset.trans (removeBranchLoop_subset _ _ _ _) filter_sublist.subset

theorem view_orphans (orphanTx orphanBlock : List (UInt256 × UInt256)) :
    view { s with orphanTx, orphanBlock } = { s.view with orphan := fun
      | .tx => orphanTx
      | .block => orphanBlock } := rfl

theorem indexed_orphans {orphanTx orphanBlock : List (UInt256 × UInt256)} (indexed : s.view.Indexed)
    (tx : ∀ prev txid, (prev, txid) ∈ orphanTx → (prev, txid) ∈ s.orphanTx ∨ s.view.Received ⟨.tx, txid⟩)
    (block : ∀ prev hash, (prev, hash) ∈ orphanBlock → (prev, hash) ∈ s.orphanBlock ∨ s.view.Received ⟨.block, hash⟩) :
    (view { s with orphanTx, orphanBlock }).Indexed := by
  rw [view_orphans]
  refine { indexed with orphan := fun type prev hash member => ?_ }
  cases type with
  | tx => exact (tx prev hash member).elim (indexed.orphan .tx prev hash) id
  | block => exact (block prev hash member).elim (indexed.orphan .block prev hash) id

theorem indexed_addRefBlock {hashRefBlock hashBlock : UInt256} (hashFork : UInt256) (indexed : s.view.Indexed)
    (received : s.view.Received ⟨.block, hashBlock⟩)
    (single : ∀ ref fork, s.mapRefBlock.findAt ref hashBlock = some fork → ref = hashRefBlock) :
    (s.addRefBlock hashRefBlock hashFork hashBlock).view.Indexed := by
  rw [addRefBlock]
  split_ifs
  · exact indexed
  · have placed : view { s with mapRefBlock := s.mapRefBlock.insertAt hashRefBlock hashBlock hashFork } =
        { s.view with refBlock := (s.mapRefBlock.insertAt hashRefBlock hashBlock hashFork).findAt } := rfl
    simp only
    cases found : s.mapState.find ⟨.block, hashBlock⟩ with
    | none =>
      refine absurd ?_ received
      simp [view, found]
    | some state =>
      have same : (setState { s with mapRefBlock := s.mapRefBlock.insertAt hashRefBlock hashBlock hashFork }
          ⟨.block, hashBlock⟩ { state with hashRefBlock }).view = s.view.addRef hashRefBlock hashFork hashBlock := by
        rw [view_setState, placed, ← (s.object_of_found found).1]
        refine View.ext rfl rfl (funext₂ fun ref hash => ?_) rfl (update_eq_self _ _) rfl
        simp only [View.addRef, findAt_insertAt]
        rfl
      simp only
      rw [same]
      exact indexed.addRef hashFork received single

def Received (inv : Inv) : Prop := ∃ state, s.mapState.find inv = some state ∧ state.isReceived = true

theorem received_iff : s.Received inv ↔ s.view.Received inv := by
  cases found : s.mapState.find inv with
  | none => simp [Received, View.Received, view, found]
  | some state => simpa [Received, View.Received, view, found] using isReceived_iff state

/-- What a call must look out for. A block is received under its own hash, and orphans and referring blocks
have been received. A peer leaves without losing what an index names. No transaction is received with the
sender and nonce of another one, and no block is put under two blocks. -/
def Careful : Call → Prop
  | .removePeer p => s.LeavesSafely p
  | .receiveBlock _ hash block _ => block.nHeight = getBlockHeightByHash hash
  | .receiveTx _ txid tx _ => ∀ other tx' sender, other ≠ txid → s.getTransaction other = some (tx', sender) →
    ¬(tx'.destFrom = tx.destFrom ∧ tx'.nTxNonce = tx.nTxNonce)
  | .addOrphanBlockPrev hash _ => s.Received ⟨.block, hash⟩
  | .addOrphanTxPrev txid _ => s.Received ⟨.tx, txid⟩
  | .addRefBlock hashRefBlock _ hashBlock => s.Received ⟨.block, hashBlock⟩ ∧
    ∀ ref fork, s.mapRefBlock.findAt ref hashBlock = some fork → ref = hashRefBlock
  | _ => True

def CarefulRun : Schedule → List Call → Prop
  | _, [] => True
  | s, call :: calls => s.Careful call ∧ CarefulRun (s.call call) calls

theorem getTransaction_of_object (is : s.view.object ⟨.tx, txid⟩ = .tx tx) :
    ∃ sender, s.getTransaction txid = some (tx, sender) := by
  rw [getTransaction]
  cases found : s.mapState.find ⟨.tx, txid⟩ with
  | none => simp [view, found] at is
  | some state =>
    rw [(s.object_of_found found).1] at is
    exact ⟨state.nAssigned, by simp [is]⟩

theorem object_of_getTransaction {sender : UInt64} (found : s.getTransaction txid = some (tx, sender))
    : s.view.object ⟨.tx, txid⟩ = .tx tx := by
  obtain ⟨state, here, found⟩ := bind_eq_some_iff.1 found
  rw [(s.object_of_found here).1]
  cases object : state.objReceived with
  | nil | block => simp [object] at found
  | tx tx' =>
    simp only [object, Option.some.injEq, Prod.mk.injEq] at found
    rw [found.1]

theorem indexed_call {call : Call} (careful : s.Careful call) (indexed : s.view.Indexed) :
    (s.call call).view.Indexed := by
  cases call with
  | addNewInv inv p nTime =>
    rw [Schedule.call, view_addNewInv]
    exact indexed
  | checkPrevTxInv inv =>
    have same : (s.checkPrevTxInv inv).2.view = s.view := by
      rw [checkPrevTxInv]
      cases s.mapState.find inv with
      | none => rfl
      | some state =>
        simp only
        split_ifs <;> rfl
    rw [Schedule.call, same]
    exact indexed
  | removePeer p => exact s.indexed_removePeer .empty indexed careful
  | removeInv inv => exact s.indexed_removeInv inv .empty indexed
  | receiveBlock p hash block nTime => exact s.indexed_receiveBlock p nTime .empty indexed careful
  | receiveTx p txid tx nTime =>
    refine s.indexed_receiveTx p nTime .empty indexed fun other tx' apart is => ?_
    obtain ⟨sender, found⟩ := s.getTransaction_of_object is
    exact careful other tx' sender apart found
  | addOrphanBlockPrev hash prev =>
    apply s.indexed_orphans indexed
    · exact fun _ _ mem => Or.inl mem
    · intro prev' hash' mem
      rcases mem_append.1 mem with before | last
      · exact Or.inl before
      · cases mem_singleton.1 last
        exact Or.inr ((s.received_iff _).1 careful)
  | addOrphanTxPrev txid prev =>
    apply s.indexed_orphans indexed
    · intro prev' txid' mem
      rcases mem_append.1 mem with before | last
      · exact Or.inl before
      · cases mem_singleton.1 last
        exact Or.inr ((s.received_iff _).1 careful)
    · exact fun _ _ mem => Or.inl mem
  | invalidateBlock hash =>
    apply indexed_removeInvs
    apply s.indexed_orphans indexed
    · exact fun _ _ mem => Or.inl mem
    · exact fun _ _ mem => Or.inl (removeBranch_subset _ _ mem)
  | invalidateTx txid =>
    apply indexed_removeInvs
    apply s.indexed_orphans indexed
    · exact fun _ _ mem => Or.inl (removeBranch_subset _ _ mem)
    · exact fun _ _ mem => Or.inl mem
  | scheduleBlockInv p nMaxCount nTime => exact s.indexed_scheduleBlockInv p [] nMaxCount nTime indexed
  | scheduleTxInv p nMaxCount nTime => exact s.indexed_scheduleTxInv p [] nMaxCount nTime indexed
  | cancelAssignedInv p inv => exact s.indexed_cancelAssignedInv p inv indexed
  | setNextGetBlocksTime p nWaitTime nTime => exact indexed
  | addRefBlock ref fork hashBlock =>
    exact s.indexed_addRefBlock fork indexed ((s.received_iff _).1 careful.1) careful.2
  | setDelayedClear inv nDelayedTime nTime =>
    rw [Schedule.call, setDelayedClear]
    cases found : s.mapState.find inv with
    | none => exact indexed
    | some state =>
      obtain ⟨object, hashRef⟩ := s.object_of_found found
      simp only
      rw [view_setState_same]
      · exact indexed
      · exact object.symm
      · exact hashRef.symm

theorem indexed_run {s : Schedule} {calls : List Call} (careful : s.CarefulRun calls) (indexed : s.view.Indexed) :
    (s.run calls).view.Indexed := by
  induction calls generalizing s with
  | nil => exact indexed
  | cons call calls ih => exact ih careful.2 (s.indexed_call careful.1 indexed)

/-- The indexes name what has come and nothing else, and what has come is found by sender and nonce. -/
structure Exact : Prop where
  orphanBlock : ∀ prev hash, (prev, hash) ∈ s.orphanBlock → s.Received ⟨.block, hash⟩
  orphanTx : ∀ prev txid, (prev, txid) ∈ s.orphanTx → s.Received ⟨.tx, txid⟩
  recvTx : ∀ destFrom nNonce txid, s.mapRecvTxDest.findAt destFrom nNonce = some txid → s.Received ⟨.tx, txid⟩
  heightBlock : ∀ nHeight hash, (hash, .remote) ∈ s.mapHeightBlock.listAt nHeight → s.Received ⟨.block, hash⟩
  refBlock : ∀ hashRefBlock hash hashFork, s.mapRefBlock.findAt hashRefBlock hash = some hashFork →
    s.Received ⟨.block, hash⟩
  once : ∀ nHeight, ((s.mapHeightBlock.listAt nHeight).map Prod.fst).Nodup
  next : ∀ txid tx sender, s.getTransaction txid = some (tx, sender) → ∃ tx' sender',
    s.getTransaction (s.getNextTx tx.destFrom tx.nTxNonce) = some (tx', sender') ∧
      tx'.destFrom = tx.destFrom ∧ tx'.nTxNonce = tx.nTxNonce

theorem exact_of_indexed {s : Schedule} (indexed : s.view.Indexed) : s.Exact where
  orphanBlock prev hash member := (s.received_iff _).2 (indexed.orphan .block prev hash member)
  orphanTx prev txid member := (s.received_iff _).2 (indexed.orphan .tx prev txid member)
  recvTx payer nNonce txid found := by
    obtain ⟨tx, is, _⟩ := (indexed.recvTx payer nNonce txid).1 found
    rw [received_iff, View.Received, is]
    nofun
  heightBlock nHeight hash member := (s.received_iff _).2 (indexed.heightBlock nHeight hash .remote member).1
  refBlock hashRefBlock hash fork found := (s.received_iff _).2 (indexed.refBlock hashRefBlock hash fork found).1
  once := indexed.once
  next txid tx sender found := by
    have own := (indexed.recvTx tx.destFrom tx.nTxNonce txid).2 ⟨tx, s.object_of_getTransaction found, rfl, rfl⟩
    have same : s.getNextTx tx.destFrom tx.nTxNonce = txid := congrArg (·.getD 0) own
    rw [same]
    exact ⟨tx, sender, found, rfl, rfl⟩

end Schedule

theorem indexed_empty : ({} : Schedule).view.Indexed where
  kindTx _ := Or.inl rfl
  kindBlock _ := Or.inl rfl
  orphan type _ _ member := by cases type <;> cases member
  recvTx _ _ _ := ⟨nofun, fun ⟨_, is, _⟩ => by cases is⟩
  heightBlock _ _ _ member := by cases member
  once _ := nodup_nil
  refBlock _ _ _ found := by cases found

/-- After any careful calls the indexes are exact. -/
theorem indexes_exact (calls : List Call) (careful : ({} : Schedule).CarefulRun calls) : (Schedule.run {} calls).Exact :=
  Schedule.exact_of_indexed (Schedule.indexed_run careful indexed_empty)

namespace Sample

theorem received_of {s : Schedule} {inv : Inv} (come : (s.mapState.find inv).map isReceived = some true) :
    s.Received inv := by
  obtain ⟨state, found, received⟩ := map_eq_some_iff.1 come
  exact ⟨state, found, received⟩

theorem not_received {s : Schedule} {inv : Inv} (lost : (s.mapState.find inv).map isReceived ≠ some true) :
    ¬s.Received inv := by
  rintro ⟨state, found, received⟩
  rw [found, map_some, received] at lost
  exact lost rfl

def tx : Transaction := ⟨9, 3⟩

/-- The peer that has brought a transaction leaves, and another peer knows the transaction. -/
def leaving : List Call := [.addNewInv ⟨.tx, 5⟩ 1 100, .addNewInv ⟨.tx, 5⟩ 2 100, .scheduleTxInv 1 8 101,
  .receiveTx 1 5 tx 102, .removePeer 1]

def sharing : List Call := [.addNewInv ⟨.tx, 5⟩ 1 100, .addNewInv ⟨.tx, 6⟩ 1 100, .scheduleTxInv 1 8 101,
  .receiveTx 1 5 tx 102, .receiveTx 1 6 tx 102, .removeInv ⟨.tx, 6⟩]

def hash : UInt256 := createBlockHash 201 7 0 5

def block : Block := ⟨0, .poa, 7⟩

def again : List Call := [.addNewInv ⟨.block, hash⟩ 1 100, .addNewInv ⟨.block, hash⟩ 2 100, .scheduleBlockInv 1 8 101,
  .receiveBlock 1 hash block 102, .removePeer 1, .scheduleBlockInv 2 8 103, .receiveBlock 2 hash block 104]

def moving : List Call := [.addNewInv ⟨.block, hash⟩ 1 100, .scheduleBlockInv 1 8 101, .receiveBlock 1 hash block 102,
  .addRefBlock 11 20 hash, .addRefBlock 12 20 hash, .removeInv ⟨.block, hash⟩]

theorem indexes_inexact :
    (¬(Schedule.run {} leaving).Exact ∧ ¬(Schedule.run {} sharing).Exact) ∧
      ¬(Schedule.run {} again).Exact ∧ ¬(Schedule.run {} moving).Exact := by
  refine ⟨⟨fun exact => ?_, fun exact => ?_⟩, fun exact => ?_, fun exact => ?_⟩
  · have named : (Schedule.run {} leaving).mapRecvTxDest.findAt 9 3 = some 5 := by decide +kernel
    exact not_received (by decide +kernel) (exact.recvTx 9 3 5 named)
  · have there : (Schedule.run {} sharing).getTransaction 5 = some (tx, 1) := rfl
    obtain ⟨tx', sender, found, _⟩ := exact.next 5 tx 1 there
    have none : (Schedule.run {} sharing).getTransaction ((Schedule.run {} sharing).getNextTx 9 3) = none := rfl
    exact absurd (none.symm.trans found) nofun
  · have twice : ((Schedule.run {} again).mapHeightBlock.listAt 7).map Prod.fst = [hash, hash] := by decide +kernel
    have once := exact.once 7
    rw [twice] at once
    simp at once
  · have named : (Schedule.run {} moving).mapRefBlock.findAt 11 hash = some 20 := by decide +kernel
    exact not_received (by decide +kernel) (exact.refBlock 11 hash 20 named)

/-- A block that comes and waits for its predecessor and for the block that it refers to. -/
def waiting : List Call := [.addNewInv ⟨.block, hash⟩ 1 100, .scheduleBlockInv 1 8 101, .receiveBlock 1 hash block 102,
  .addOrphanBlockPrev hash 4, .addRefBlock 11 20 hash]

theorem indexes_exact_waiting : ({} : Schedule).CarefulRun waiting ∧ (Schedule.run {} waiting).Exact ∧
    (4, hash) ∈ (Schedule.run {} waiting).orphanBlock := by
  have careful : ({} : Schedule).CarefulRun waiting := by
    refine ⟨trivial, trivial, ?_, received_of ?_, ⟨received_of ?_, fun ref fork found => ?_⟩, trivial⟩
    · show (7 : UInt32) = getBlockHeightByHash hash
      decide +kernel
    · decide +kernel
    · decide +kernel
    · cases found
  exact ⟨careful, indexes_exact waiting careful, by decide +kernel⟩

end Sample

end HashAhead.Fetch

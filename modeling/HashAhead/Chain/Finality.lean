import HashAhead.Chain.BlockTree

/-! The finality rule. A new block is checked against the last confirmed block on the way back from
it, up to the origin of the fork. The way back meets the long chain in one block, and the next block
of the long chain decides: the new block is rejected if that one is not above the confirmed block.
Two cases go wrong. The origin itself is not looked at, so a block that leaves the long chain there
is accepted. Further blocks of the long chain at the height of the confirmed block count as confirmed
too, so what leaves the long chain before the last of them is rejected. -/

namespace HashAhead.Chain
open State Relation Option

/-- The tree of blocks with their types and the last confirmed block of each fork. A block that is no
origin is on the fork of the previous block and has the next number. -/
structure ConfirmTree extends BlockTree where
  nType : UInt256 → BlockType
  getLastConfirmBlock : UInt256 → Option UInt256
  origin_iff : ∀ {hash index}, getIndex hash = some index → ((nType hash).isOrigin = true ↔ index.hashOrigin = hash)
  prev_own : ∀ {hash index prev}, getIndex hash = some index → index.hashOrigin ≠ hash →
    getIndex index.hashPrev = some prev → prev.hashOrigin = index.hashOrigin
  number_succ : ∀ {hash index prev}, getIndex hash = some index → getIndex index.hashPrev = some prev →
    prev.hashOrigin = index.hashOrigin → index.nNumber = prev.nNumber + 1

def BlockTree.getNextBlockIndex (tree : BlockTree) (index : BlockIndex) : Option BlockIndex :=
  (tree.retrieveBlockHashByNumber index.hashOrigin (index.nNumber + 1)).bind fun hashNextBlock =>
    (tree.getIndex hashNextBlock).filter fun next => next.hashPrev = index.hashBlock

def BlockTree.verifyBlockConfirmNoLock (tree : BlockTree) (hashFork hashBlock hashLastConfirmBlock : UInt256) : Bool :=
  if hashBlock = 0 then false
  else if hashBlock = hashFork ∨ hashBlock = hashLastConfirmBlock then true
  else tree.verifySameChainNoLock hashBlock hashLastConfirmBlock

namespace ConfirmTree
variable {tree : ConfirmTree} {hashFork hashLast hashConfirm hash : UInt256} {index : BlockIndex}

def stepsBack (tree : ConfirmTree) (hash : UInt256) : Nat :=
  match tree.getIndex hash with
  | none => 0
  | some _ => blockPlace hash + 1

theorem stepsBack_prev_lt (found : tree.getIndex hash = some index) (later : ¬(tree.nType hash).isOrigin) :
    tree.stepsBack index.hashPrev < tree.stepsBack hash := by
  have here : tree.stepsBack hash = blockPlace hash + 1 := by rw [stepsBack, found]
  rw [here, stepsBack]
  split
  next => exact Nat.succ_pos _
  next prev foundPrev =>
    have own := tree.prev_own found (mt (tree.origin_iff found).2 later) foundPrev
    exact Nat.succ_lt_succ (tree.later found foundPrev own)

/-- The loop of `CBlockBase::VerifyBlockConfirmChain` from a block on. -/
def confirmBack (tree : ConfirmTree) (hashFork hashLastConfirmBlock hash : UInt256) : Bool :=
  match _found : tree.getIndex hash with
  | none => true
  | some index =>
    if _later : (tree.nType hash).isOrigin then true
    else if (tree.getNextBlockIndex index).any fun next =>
        tree.verifyBlockConfirmNoLock hashFork next.hashBlock hashLastConfirmBlock then false
    else if tree.verifyBlockConfirmNoLock hashFork index.hashBlock hashLastConfirmBlock then true
    else confirmBack tree hashFork hashLastConfirmBlock index.hashPrev
termination_by tree.stepsBack hash
decreasing_by exact stepsBack_prev_lt _found _later

def verifyBlockConfirmChain (tree : ConfirmTree) (hashNew : UInt256) : Bool :=
  match tree.getIndex hashNew with
  | none => false
  | some new =>
    match tree.getLastConfirmBlock new.hashOrigin with
    | none => true
    | some hashLastConfirmBlock => tree.confirmBack new.hashOrigin hashLastConfirmBlock hashNew

/-- All ancestors of the blocks of the fork are indexed, up to its origin. -/
def Rooted (tree : BlockTree) (hashFork : UInt256) : Prop :=
  ∀ hash, tree.InFork hashFork hash → tree.AncestorOrSelf hashFork hashFork hash

structure LeavesAt (tree : BlockTree) (hashFork hashLast hash hashMet : UInt256) : Prop where
  old : tree.AncestorOrSelf hashFork hashMet hash
  onChain : tree.AncestorOrSelf hashFork hashMet hashLast
  latest : ∀ hashOld, tree.AncestorOrSelf hashFork hashOld hash → tree.AncestorOrSelf hashFork hashOld hashLast →
    tree.AncestorOrSelf hashFork hashOld hashMet

def Follows (tree : BlockTree) (hashFork hashLast hash hashNext : UInt256) : Prop :=
  tree.Prev hashFork hashNext hash ∧ tree.AncestorOrSelf hashFork hashNext hashLast

section Confirm
variable {hashMet hashPrev next : UInt256}

theorem inFork_of_prev (step : tree.Prev hashFork hash hashPrev) : tree.InFork hashFork hash := by
  obtain ⟨index, found, own, _, _⟩ := step
  exact ⟨index, found, own⟩

theorem Follows.onChain (follows : Follows tree.toBlockTree hashFork hashLast hash next) :
    tree.AncestorOrSelf hashFork hash hashLast := follows.2.tail follows.1

theorem getNextBlockIndex_eq_some (indexed : tree.Indexed hashFork hashLast) (found : tree.getIndex hash = some index)
    (own : index.hashOrigin = hashFork) {next : BlockIndex} : tree.getNextBlockIndex index = some next ↔
      tree.getIndex next.hashBlock = some next ∧ Follows tree.toBlockTree hashFork hashLast hash next.hashBlock := by
  have self := tree.hash_eq found
  rw [BlockTree.getNextBlockIndex, own, bind_eq_some_iff]
  constructor
  · rintro ⟨hNext, numbered, filtered⟩
    obtain ⟨foundNext, link⟩ := filter_eq_some_iff.1 filtered
    obtain ⟨onChain, _⟩ := (indexed.numbers _ _).1 numbered
    obtain ⟨next', foundNext', ownNext⟩ := indexed.last.ancestor onChain
    cases foundNext.symm.trans foundNext'
    cases tree.hash_eq foundNext
    refine ⟨foundNext, ⟨next, foundNext, ownNext, ?_, index, found, own⟩, onChain⟩
    rw [← self]
    exact of_decide_eq_true link
  · rintro ⟨foundNext, ⟨next', foundNext', ownNext, link, _⟩, onChain⟩
    cases foundNext.symm.trans foundNext'
    have foundPrev : tree.getIndex next.hashPrev = some index := link.symm ▸ found
    have number := tree.number_succ foundNext foundPrev (own.trans ownNext.symm)
    refine ⟨next.hashBlock, (indexed.numbers _ _).2 ⟨onChain, next, foundNext, number⟩, ?_⟩
    rw [foundNext, filter_some, if_pos (decide_eq_true (link.trans self.symm))]

theorem verifyBlockConfirmNoLock_iff (indexed : tree.Indexed hashFork hashLast) (rooted : Rooted tree.toBlockTree hashFork)
    (confirmed : tree.AncestorOrSelf hashFork hashConfirm hashLast) (own : tree.InFork hashFork hash) :
    tree.verifyBlockConfirmNoLock hashFork hash hashConfirm = true ↔
      tree.AncestorOrSelf hashFork hash hashLast ∧ getBlockHeightByHash hash ≤ getBlockHeightByHash hashConfirm := by
  have ownConfirm := indexed.last.ancestor confirmed
  have some : hash ≠ 0 := by
    rintro rfl
    obtain ⟨_, found, _⟩ := own
    cases tree.null.symm.trans found
  have first := rooted hashConfirm ownConfirm
  rw [BlockTree.verifyBlockConfirmNoLock, if_neg some]
  by_cases known : hash = hashFork ∨ hash = hashConfirm
  · rw [if_pos known]
    have old : tree.AncestorOrSelf hashFork hash hashConfirm := by
      rcases known with rfl | rfl
      · exact first
      · exact .refl
    exact iff_of_true rfl ⟨confirmed.trans old, old.height_le⟩
  · rw [if_neg known, BlockTree.verifySameChainNoLock_iff indexed ownConfirm own]
    -- Finding the block by its own height and slot is what the test for an ancestor does.
    have finds : tree.Finds hashFork hashLast (getBlockHeightByHash hash) (getBlockSlotByHash hash) hashConfirm hash ↔
        tree.AncestorOrSelf hashFork hash hashConfirm ∨ tree.Beside hashFork hashLast hashConfirm hash :=
      and_iff_right ⟨rfl, rfl⟩
    rw [← finds]
    by_cases low : getBlockHeightByHash hash ≤ getBlockHeightByHash hashConfirm
    · rw [BlockTree.finds_of_longchain confirmed low, and_iff_right ⟨rfl, rfl⟩, and_iff_left low]
    · exact iff_of_false (BlockTree.not_finds_of_lt (UInt32.not_le.1 low)) fun onChain => low onChain.2

theorem leavesAt_self (onChain : tree.AncestorOrSelf hashFork hash hashLast) :
    LeavesAt tree.toBlockTree hashFork hashLast hash hash := ⟨.refl, onChain, fun _ old _ => old⟩

/-- A block off the long chain and its previous block leave the long chain in one block. -/
theorem leavesAt_prev_iff (step : tree.Prev hashFork hash hashPrev)
    (off : ¬tree.AncestorOrSelf hashFork hash hashLast) :
    LeavesAt tree.toBlockTree hashFork hashLast hash hashMet ↔
      LeavesAt tree.toBlockTree hashFork hashLast hashPrev hashMet := by
  have back : ∀ {hashOld}, tree.AncestorOrSelf hashFork hashOld hashLast →
      (tree.AncestorOrSelf hashFork hashOld hash ↔ tree.AncestorOrSelf hashFork hashOld hashPrev) := by
    intro hashOld onChain
    constructor
    · intro old
      rcases old.cases_head with rfl | ⟨other, step', rest⟩
      · exact absurd onChain off
      · exact (tree.lineage hashFork).unique step' step ▸ rest
    · exact .head step
  constructor
  · rintro ⟨old, onChain, latest⟩
    exact ⟨(back onChain).1 old, onChain, fun _ old' onChain' => latest _ ((back onChain').2 old') onChain'⟩
  · rintro ⟨old, onChain, latest⟩
    exact ⟨(back onChain).2 old, onChain, fun _ old' onChain' => latest _ ((back onChain').1 old') onChain'⟩

theorem exists_leavesAt (rooted : Rooted tree.toBlockTree hashFork) (last : tree.InFork hashFork hashLast)
    (own : tree.InFork hashFork hash) : ∃ hashMet, LeavesAt tree.toBlockTree hashFork hashLast hash hashMet := by
  have path := rooted hash own
  induction path using ReflTransGen.head_induction_on with
  | refl => exact ⟨hashFork, leavesAt_self (rooted hashLast last)⟩
  | @head hash hashPrev step _ ih =>
    by_cases onChain : tree.AncestorOrSelf hashFork hash hashLast
    · exact ⟨hash, leavesAt_self onChain⟩
    · have ⟨_, _, _, _, ownPrev⟩ := step
      obtain ⟨hashMet, leaves⟩ := ih ownPrev
      exact ⟨hashMet, (leavesAt_prev_iff step onChain).2 leaves⟩

theorem confirmBack_here (found : tree.getIndex hash = some index) (own : index.hashOrigin = hashFork) :
    tree.confirmBack hashFork hashConfirm hash =
      if hash = hashFork then true
      else if (tree.getNextBlockIndex index).any fun next =>
        tree.verifyBlockConfirmNoLock hashFork next.hashBlock hashConfirm then false
      else if tree.verifyBlockConfirmNoLock hashFork hash hashConfirm then true
      else tree.confirmBack hashFork hashConfirm index.hashPrev := by
  have origin : (tree.nType hash).isOrigin = true ↔ hash = hashFork := by
    rw [tree.origin_iff found, own, eq_comm]
  rw [confirmBack]
  split
  next absent => cases absent.symm.trans found
  next index' found' =>
    cases found'.symm.trans found
    rw [tree.hash_eq found]
    by_cases first : hash = hashFork
    · rw [if_pos first, dif_pos (origin.2 first)]
    · rw [if_neg first, dif_neg (mt origin.1 first)]

theorem eq_of_ancestors (old : tree.AncestorOrSelf hashFork hashMet hash)
    (old' : tree.AncestorOrSelf hashFork hash hashMet) : hashMet = hash :=
  (tree.lineage hashFork).eq_of_rank_le old old'.place_le

theorem LeavesAt.eq_of_onChain (leaves : LeavesAt tree.toBlockTree hashFork hashLast hash hashMet)
    (onChain : tree.AncestorOrSelf hashFork hash hashLast) : hashMet = hash :=
  eq_of_ancestors leaves.old (leaves.latest hash .refl onChain)

theorem ne_origin_of_prev (rooted : Rooted tree.toBlockTree hashFork) (step : tree.Prev hashFork hash hashPrev) :
    hash ≠ hashFork := by
  rintro rfl
  have ⟨_, _, _, _, own⟩ := step
  exact absurd (rooted hashPrev own).place_le ((tree.lineage hash).falls step).not_ge

section
variable (indexed : tree.Indexed hashFork hashLast) (rooted : Rooted tree.toBlockTree hashFork)
  (confirmed : tree.AncestorOrSelf hashFork hashConfirm hashLast)
include indexed rooted confirmed

theorem nextConfirmed_iff (found : tree.getIndex hash = some index) (own : index.hashOrigin = hashFork) :
    ((tree.getNextBlockIndex index).any fun next =>
      tree.verifyBlockConfirmNoLock hashFork next.hashBlock hashConfirm) = true ↔
      ∃ hNext, Follows tree.toBlockTree hashFork hashLast hash hNext ∧
        getBlockHeightByHash hNext ≤ getBlockHeightByHash hashConfirm := by
  rw [any_eq_true_iff_get]
  constructor
  · rintro ⟨some, passes⟩
    obtain ⟨foundNext, follows⟩ := (getNextBlockIndex_eq_some indexed found own).1 (some_get some).symm
    refine ⟨_, follows, ?_⟩
    exact ((verifyBlockConfirmNoLock_iff indexed rooted confirmed (inFork_of_prev follows.1)).1 passes).2
  · rintro ⟨hNext, follows, low⟩
    obtain ⟨next, foundNext, _⟩ := inFork_of_prev follows.1
    cases tree.hash_eq foundNext
    have located := (getNextBlockIndex_eq_some indexed found own).2 ⟨foundNext, follows⟩
    refine ⟨by rw [located]; rfl, ?_⟩
    simp only [located, get_some]
    exact (verifyBlockConfirmNoLock_iff indexed rooted confirmed (inFork_of_prev follows.1)).2 ⟨follows.2, low⟩

/-- The loop accepts a block if it leaves the long chain at the origin, or in a block whose next one
in the long chain is above the confirmed block. -/
theorem confirmBack_iff (own : tree.InFork hashFork hash) :
    LeavesAt tree.toBlockTree hashFork hashLast hash hashMet →
    (tree.confirmBack hashFork hashConfirm hash = true ↔
      hashMet = hashFork ∨ ∀ hNext, Follows tree.toBlockTree hashFork hashLast hashMet hNext →
        getBlockHeightByHash hashConfirm < getBlockHeightByHash hNext) := by
  have path := rooted hash own
  induction path using ReflTransGen.head_induction_on generalizing hashMet with
  | refl =>
    intro leaves
    have ⟨index, found, fork⟩ := own
    rw [confirmBack_here found fork, if_pos rfl]
    exact iff_of_true rfl (Or.inl (leaves.eq_of_onChain (rooted hashLast indexed.last)))
  | @head hash hashPrev step _ ih =>
    intro leaves
    have later := ne_origin_of_prev rooted step
    have ⟨index, found, fork, link, ownPrev⟩ := step
    rw [confirmBack_here found fork, if_neg later, link]
    have next := nextConfirmed_iff indexed rooted confirmed found fork
    have here := verifyBlockConfirmNoLock_iff indexed rooted confirmed own
    by_cases onChain : tree.AncestorOrSelf hashFork hash hashLast
    · cases leaves.eq_of_onChain onChain
      by_cases held : ∃ hNext, Follows tree.toBlockTree hashFork hashLast hash hNext ∧
          getBlockHeightByHash hNext ≤ getBlockHeightByHash hashConfirm
      · rw [if_pos (next.2 held)]
        obtain ⟨hNext, follows, low⟩ := held
        refine iff_of_false nofun ?_
        rintro (first | above)
        · exact later first
        · exact UInt32.not_lt.2 low (above hNext follows)
      · rw [if_neg (mt next.1 held)]
        refine iff_of_true ?_ (Or.inr fun hNext follows => UInt32.not_le.1 fun low => held ⟨hNext, follows, low⟩)
        by_cases low : getBlockHeightByHash hash ≤ getBlockHeightByHash hashConfirm
        · rw [if_pos (here.2 ⟨onChain, low⟩)]
        · -- The previous block is on the long chain too, and this block is its next one.
          rw [if_neg fun passes => low (here.1 passes).2]
          refine (ih ownPrev (leavesAt_self (onChain.tail step))).2 (Or.inr fun hNext follows => ?_)
          rw [(tree.lineage hashFork).eq_of_before follows.2 onChain follows.1 step]
          exact UInt32.not_le.1 low
    · have none : ¬∃ hNext, Follows tree.toBlockTree hashFork hashLast hash hNext ∧
          getBlockHeightByHash hNext ≤ getBlockHeightByHash hashConfirm :=
        fun ⟨_, follows, _⟩ => onChain follows.onChain
      rw [if_neg (mt next.1 none), if_neg fun passes => onChain (here.1 passes).1]
      exact ih ownPrev ((leavesAt_prev_iff step onChain).1 leaves)

end

theorem exists_follows (confirmed : tree.AncestorOrSelf hashFork hashConfirm hashLast)
    (onChain : tree.AncestorOrSelf hashFork hashMet hashLast)
    (below : ¬tree.AncestorOrSelf hashFork hashConfirm hashMet) :
    ∃ next, Follows tree.toBlockTree hashFork hashLast hashMet next ∧
      getBlockHeightByHash next ≤ getBlockHeightByHash hashConfirm := by
  rcases ReflTransGen.total_of_right_unique (tree.lineage hashFork).unique onChain confirmed with down | up
  · exact absurd down below
  · rcases up.cases_tail with rfl | ⟨next, front, step⟩
    · exact absurd .refl below
    · have old : tree.AncestorOrSelf hashFork next hashConfirm := front
      exact ⟨next, ⟨step, confirmed.trans front⟩, old.height_le⟩

/-- The check of a new block accepts it just when the confirmed block is the block itself or an
ancestor of it, unless the block leaves the long chain at the origin below the confirmed block, or
at or after the confirmed block with a further block of the long chain at the same height to come. -/
theorem confirmChain_iff (tree : ConfirmTree) (hashFork hashLast hashConfirm : UInt256)
    (indexed : tree.Indexed hashFork hashLast) (rooted : Rooted tree.toBlockTree hashFork)
    (stored : tree.getLastConfirmBlock hashFork = some hashConfirm)
    (confirmed : tree.AncestorOrSelf hashFork hashConfirm hashLast)
    (hashNew : UInt256) (own : tree.InFork hashFork hashNew) :
    ∃ hashMet, LeavesAt tree.toBlockTree hashFork hashLast hashNew hashMet ∧
      ((tree.verifyBlockConfirmChain hashNew = true ↔ tree.AncestorOrSelf hashFork hashConfirm hashNew) ↔
        if hashMet = hashFork then hashConfirm = hashFork
        else ¬(tree.AncestorOrSelf hashFork hashConfirm hashMet ∧
          ∃ hashNext, Follows tree.toBlockTree hashFork hashLast hashMet hashNext ∧
            getBlockHeightByHash hashNext = getBlockHeightByHash hashConfirm)) := by
  obtain ⟨hashMet, leaves⟩ := exists_leavesAt rooted indexed.last own
  refine ⟨hashMet, leaves, ?_⟩
  have check : tree.verifyBlockConfirmChain hashNew = tree.confirmBack hashFork hashConfirm hashNew := by
    obtain ⟨new, found, fork⟩ := own
    rw [verifyBlockConfirmChain, found]
    dsimp only
    rw [fork, stored]
  have meets : tree.AncestorOrSelf hashFork hashConfirm hashNew ↔ tree.AncestorOrSelf hashFork hashConfirm hashMet :=
    ⟨fun old => leaves.latest hashConfirm old confirmed, fun old => leaves.old.trans old⟩
  rw [check, confirmBack_iff indexed rooted confirmed own leaves, meets]
  by_cases first : hashMet = hashFork
  · subst first
    rw [if_pos rfl]
    have start := rooted hashConfirm (indexed.last.ancestor confirmed)
    constructor
    · intro right
      exact eq_of_ancestors (right.1 (Or.inl rfl)) start
    · rintro rfl
      exact iff_of_true (Or.inl rfl) .refl
  · rw [if_neg first, or_iff_right first]
    by_cases reached : tree.AncestorOrSelf hashFork hashConfirm hashMet
    · rw [iff_true_right reached, and_iff_right reached]
      constructor
      · rintro above ⟨hashNext, follows, level⟩
        exact absurd level (UInt32.ne_of_lt (above hashNext follows)).symm
      · intro clear hashNext follows
        have order : tree.AncestorOrSelf hashFork hashConfirm hashNext := .head follows.1 reached
        refine UInt32.lt_of_le_of_ne order.height_le fun level => clear ⟨hashNext, follows, level.symm⟩
    · obtain ⟨hashNext, follows, low⟩ := exists_follows confirmed leaves.onChain reached
      refine iff_of_true (iff_of_false ?_ reached) fun both => reached both.1
      intro above
      exact UInt32.not_lt.2 low (above hashNext follows)

end Confirm

end ConfirmTree

namespace Sample
open ConfirmTree

theorem BlockList.rooted (list : BlockList) (linked : ∀ index ∈ list.blocks, index.hashBlock = list.hashFork ∨
    ∃ prev ∈ list.blocks, index.hashPrev = prev.hashBlock) : Rooted list.tree list.hashFork := by
  have each : ∀ place, ∀ index ∈ list.blocks, blockPlace index.hashBlock = place →
      list.tree.AncestorOrSelf list.hashFork list.hashFork index.hashBlock := by
    intro place
    induction place using Nat.strong_induction_on with
    | h place ih =>
      rintro index mem rfl
      rcases linked index mem with first | ⟨prev, memberPrev, link⟩
      · rw [first]
        exact .refl
      · have step := list.prev_of_link mem memberPrev link
        exact .head step (ih _ ((list.tree.lineage list.hashFork).falls step) prev memberPrev rfl)
  intro hash own
  obtain ⟨index, mem, rfl⟩ := list.inFork_iff.1 own
  exact each _ index mem rfl

def strayBlock : BlockIndex := ⟨createBlockHash 201 2 0 0xA400000000, originBlock.hashBlock, originBlock.hashBlock, 1⟩

def confirmList : BlockList where
  hashFork := originBlock.hashBlock
  blocks := forkBlocks ++ [strayBlock]
  chain := longChain
  last := extendedBlock
  distinct := by decide
  later := by decide
  null := by decide
  own := by decide
  listed := by decide
  linked := forkList.linked
  ends := forkList.ends
  closed := by decide
  numbered := forkList.numbered

def confirmTree : ConfirmTree where
  toBlockTree := confirmList.tree
  nType hash := if hash = originBlock.hashBlock then .origin else if hash = extendedBlock.hashBlock then .extended
    else .subsidiary
  getLastConfirmBlock _ := some metBlock.hashBlock
  origin_iff := by
    intro hash index found
    obtain ⟨member, rfl⟩ := BlockList.getIndex_iff.1 found
    revert member index
    decide
  prev_own := by
    intro hash index prev found _ foundPrev
    have own := confirmList.own index (BlockList.getIndex_iff.1 found).1
    exact (confirmList.own prev (BlockList.getIndex_iff.1 foundPrev).1).trans own.symm
  number_succ := by
    intro hash index prev found foundPrev _
    have each : ∀ index ∈ confirmList.blocks, ∀ prev ∈ confirmList.blocks, prev.hashBlock = index.hashPrev →
        index.nNumber = prev.nNumber + 1 := by decide
    obtain ⟨memberPrev, link⟩ := BlockList.getIndex_iff.1 foundPrev
    exact each index (BlockList.getIndex_iff.1 found).1 prev memberPrev link

theorem confirmTree_rooted : Rooted confirmTree.toBlockTree originBlock.hashBlock :=
  confirmList.rooted (by decide)

theorem confirmTree_confirmed :
    confirmTree.AncestorOrSelf originBlock.hashBlock metBlock.hashBlock extendedBlock.hashBlock :=
  BlockList.ancestorOrSelf_iff.2 ⟨metBlock, by decide, rfl⟩

/-- The last block of the long chain passes. -/
theorem confirmChain_iff_last : confirmTree.verifyBlockConfirmChain extendedBlock.hashBlock = true := by
  obtain ⟨hashMet, leaves, right⟩ := ConfirmTree.confirmChain_iff confirmTree originBlock.hashBlock extendedBlock.hashBlock
    metBlock.hashBlock confirmList.indexed confirmTree_rooted rfl confirmTree_confirmed extendedBlock.hashBlock
    (confirmList.inFork_iff.2 ⟨extendedBlock, by decide, rfl⟩)
  cases leaves.eq_of_onChain .refl
  refine (right.2 ?_).2 confirmTree_confirmed
  rw [if_neg (by decide)]
  rintro ⟨_, hashNext, follows, _⟩
  have above := (confirmTree.lineage originBlock.hashBlock).falls follows.1
  exact absurd follows.2.place_le above.not_ge

/-- The block on the confirmed one is rejected, and the one that leaves the long chain at the origin
is accepted. -/
theorem confirmed_child_rejected : confirmTree.Indexed originBlock.hashBlock extendedBlock.hashBlock ∧
    Rooted confirmTree.toBlockTree originBlock.hashBlock ∧
    confirmTree.AncestorOrSelf originBlock.hashBlock metBlock.hashBlock extendedBlock.hashBlock ∧
    confirmTree.AncestorOrSelf originBlock.hashBlock metBlock.hashBlock sideBlock.hashBlock ∧
    confirmTree.verifyBlockConfirmChain sideBlock.hashBlock = false ∧
    ¬confirmTree.AncestorOrSelf originBlock.hashBlock metBlock.hashBlock strayBlock.hashBlock ∧
    confirmTree.verifyBlockConfirmChain strayBlock.hashBlock = true := by
  refine ⟨confirmList.indexed, confirmTree_rooted, confirmTree_confirmed, ?_, ?_, ?_, ?_⟩
  · exact .single (confirmList.prev_of_link (by decide) (by decide) rfl)
  · change confirmTree.confirmBack originBlock.hashBlock metBlock.hashBlock sideBlock.hashBlock = false
    rw [confirmBack_here (rfl : confirmTree.getIndex sideBlock.hashBlock = some sideBlock)
      (rfl : _ = originBlock.hashBlock), if_neg (by decide), if_neg (by decide), if_neg (by decide)]
    change confirmTree.confirmBack originBlock.hashBlock metBlock.hashBlock metBlock.hashBlock = false
    rw [confirmBack_here (rfl : confirmTree.getIndex metBlock.hashBlock = some metBlock)
      (rfl : _ = originBlock.hashBlock), if_neg (by decide), if_pos (by decide)]
  · intro old
    rcases old.cases_head with same | ⟨hashPrev, step, rest⟩
    · exact absurd same (by decide)
    · have first : confirmTree.Prev originBlock.hashBlock strayBlock.hashBlock originBlock.hashBlock :=
        confirmList.prev_of_link (by decide) (by decide) rfl
      rw [(confirmTree.lineage _).unique step first] at rest
      exact absurd (BlockTree.AncestorOrSelf.place_le rest) (by decide)
  · change confirmTree.confirmBack originBlock.hashBlock metBlock.hashBlock strayBlock.hashBlock = true
    rw [confirmBack_here (rfl : confirmTree.getIndex strayBlock.hashBlock = some strayBlock)
      (rfl : _ = originBlock.hashBlock), if_neg (by decide), if_neg (by decide), if_neg (by decide)]
    change confirmTree.confirmBack originBlock.hashBlock metBlock.hashBlock originBlock.hashBlock = true
    rw [confirmBack_here (rfl : confirmTree.getIndex originBlock.hashBlock = some originBlock)
      (rfl : _ = originBlock.hashBlock), if_pos rfl]

end Sample

end HashAhead.Chain

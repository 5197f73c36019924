import HashAhead.Chain.BlockHash
import HashAhead.Foundation.Lineage

/-! The search for an ancestor by height and slot. It goes back over the previous blocks and changes
to the long chain as soon as it meets it. The long chain can have further blocks at the height at
which it is met, and the search gives those too, although they come after the block it starts from. -/

namespace HashAhead.Chain
open Foundation State Relation List Option

/-- `CBlockIndex`, as far as the search reads it. -/
structure BlockIndex where
  hashBlock : UInt256
  hashPrev : UInt256
  hashOrigin : UInt256
  nNumber : UInt64
deriving DecidableEq

namespace BlockIndex

def getBlockHeight (index : BlockIndex) : UInt32 := getBlockHeightByHash index.hashBlock

def getBlockSlot (index : BlockIndex) : UInt16 := getBlockSlotByHash index.hashBlock

end BlockIndex

def blockPlace (hash : UInt256) : Nat := (getBlockHeightByHash hash).toNat * 2 ^ 16 + (getBlockSlotByHash hash).toNat

theorem blockPlace_eq_iff {a b : UInt256} : blockPlace a = blockPlace b ↔
    getBlockHeightByHash a = getBlockHeightByHash b ∧ getBlockSlotByHash a = getBlockSlotByHash b := by
  have slotA := (getBlockSlotByHash a).toNat_lt
  have slotB := (getBlockSlotByHash b).toNat_lt
  rw [blockPlace, blockPlace, ← UInt32.toNat_inj, ← UInt16.toNat_inj]
  omega

theorem height_le_of_blockPlace_le {a b : UInt256} (le : blockPlace a ≤ blockPlace b) :
    getBlockHeightByHash a ≤ getBlockHeightByHash b := by
  have slotA := (getBlockSlotByHash a).toNat_lt
  have slotB := (getBlockSlotByHash b).toNat_lt
  rw [blockPlace, blockPlace] at le
  rw [UInt32.le_iff_toNat_le]
  omega

/-- The indexed blocks with the indexes by height and by number. A block is later than the previous
block if that one is on the same fork. -/
structure BlockTree where
  getIndex : UInt256 → Option BlockIndex
  retrieveBlockHashByHeight : UInt256 → UInt32 → Option (List UInt256)
  retrieveBlockHashByNumber : UInt256 → UInt64 → Option UInt256
  hash_eq : ∀ {hash index}, getIndex hash = some index → index.hashBlock = hash
  later : ∀ {hash index prev}, getIndex hash = some index → getIndex index.hashPrev = some prev →
    prev.hashOrigin = index.hashOrigin → blockPlace index.hashPrev < blockPlace hash
  null : getIndex 0 = none

namespace BlockTree
variable {tree : BlockTree} {hashFork hash : UInt256} {index : BlockIndex}

def isLongchainBlock (tree : BlockTree) (hashFork hashBlock : UInt256) : Bool :=
  match tree.getIndex hashBlock with
  | none => false
  | some index => tree.retrieveBlockHashByNumber hashFork index.nNumber = some hashBlock

def longchainBlock (tree : BlockTree) (hashFork : UInt256) (nHeight : UInt32) (nSlot : UInt16) : Option UInt256 :=
  (tree.retrieveBlockHashByHeight hashFork nHeight).bind fun vBlockHash =>
    vBlockHash.find? fun hash => getBlockSlotByHash hash = nSlot && tree.isLongchainBlock hashFork hash

def wayBack (tree : BlockTree) (hashFork hash : UInt256) : Nat :=
  match tree.getIndex hash with
  | none => 0
  | some index => if index.hashOrigin = hashFork then blockPlace hash + 1 else 0

theorem wayBack_prev_lt (found : tree.getIndex hash = some index) (own : index.hashOrigin = hashFork) :
    tree.wayBack hashFork index.hashPrev < tree.wayBack hashFork hash := by
  have here : tree.wayBack hashFork hash = blockPlace hash + 1 := by
    unfold wayBack
    rw [found]
    exact if_pos own
  rw [here, wayBack]
  split
  next => exact Nat.succ_pos _
  next prev foundPrev =>
    split
    next same => exact Nat.succ_lt_succ (tree.later found foundPrev (same.trans own.symm))
    next => exact Nat.succ_pos _

/-- The loop of `CBlockBase::GetBlockHashByHeightSlot` from a block on. -/
def searchBack (tree : BlockTree) (hashFork : UInt256) (nHeight : UInt32) (nSlot : UInt16) (hash : UInt256) :
    Option UInt256 :=
  match _found : tree.getIndex hash with
  | none => none
  | some index =>
    if _own : index.hashOrigin = hashFork ∧ index.getBlockHeight ≥ nHeight then
      if tree.isLongchainBlock hashFork index.hashBlock then tree.longchainBlock hashFork nHeight nSlot
      else if index.getBlockHeight = nHeight ∧ index.getBlockSlot = nSlot then some index.hashBlock
      else searchBack tree hashFork nHeight nSlot index.hashPrev
    else none
termination_by tree.wayBack hashFork hash
decreasing_by exact wayBack_prev_lt _found _own.1

def getBlockHashByHeightSlot (tree : BlockTree) (hashFork hashRefBlock : UInt256) (nHeight : UInt32) (nSlot : UInt16) :
    Option UInt256 :=
  if hashRefBlock = 0 then tree.longchainBlock hashFork nHeight nSlot
  else if getBlockHeightByHash hashRefBlock < nHeight then none
  else if tree.isLongchainBlock hashFork hashRefBlock then tree.longchainBlock hashFork nHeight nSlot
  else tree.searchBack hashFork nHeight nSlot hashRefBlock

def verifySameChainNoLock (tree : BlockTree) (hashPrevBlock hashAfterBlock : UInt256) : Bool :=
  match tree.getIndex hashAfterBlock with
  | none => false
  | some after =>
    hashPrevBlock ≠ 0 &&
      tree.getBlockHashByHeightSlot after.hashOrigin after.hashBlock (getBlockHeightByHash hashPrevBlock)
        (getBlockSlotByHash hashPrevBlock) = some hashPrevBlock

def InFork (tree : BlockTree) (hashFork hash : UInt256) : Prop :=
  ∃ index, tree.getIndex hash = some index ∧ index.hashOrigin = hashFork

def Prev (tree : BlockTree) (hashFork hash hashPrev : UInt256) : Prop :=
  ∃ index, tree.getIndex hash = some index ∧ index.hashOrigin = hashFork ∧ index.hashPrev = hashPrev ∧
    tree.InFork hashFork hashPrev

def AncestorOrSelf (tree : BlockTree) (hashFork hash hashAfter : UInt256) : Prop :=
  ReflTransGen (tree.Prev hashFork) hashAfter hash

/-- The index by height has all blocks of the fork, and the index by number those of the long chain
that ends in the last block. -/
structure Indexed (tree : BlockTree) (hashFork hashLast : UInt256) : Prop where
  last : tree.InFork hashFork hashLast
  heights : ∀ nHeight hash, (∃ vBlockHash, tree.retrieveBlockHashByHeight hashFork nHeight = some vBlockHash ∧
    hash ∈ vBlockHash) ↔ tree.InFork hashFork hash ∧ getBlockHeightByHash hash = nHeight
  numbers : ∀ nNumber hash, tree.retrieveBlockHashByNumber hashFork nNumber = some hash ↔
    tree.AncestorOrSelf hashFork hash hashLast ∧ ∃ index, tree.getIndex hash = some index ∧ index.nNumber = nNumber

/-- A block of the long chain at the height of an ancestor from the long chain, in a place that no
ancestor has. -/
structure Beside (tree : BlockTree) (hashFork hashLast hashRef hash : UInt256) : Prop where
  onChain : tree.AncestorOrSelf hashFork hash hashLast
  level : ∃ hashMet, tree.AncestorOrSelf hashFork hashMet hashRef ∧ tree.AncestorOrSelf hashFork hashMet hashLast ∧
    getBlockHeightByHash hashMet = getBlockHeightByHash hash
  absent : ∀ hashOld, tree.AncestorOrSelf hashFork hashOld hashRef → blockPlace hashOld ≠ blockPlace hash

section Search
variable {hashLast hashRef hashOld : UInt256} {nHeight : UInt32} {nSlot : UInt16}

theorem lineage (tree : BlockTree) (hashFork : UInt256) : Lineage (tree.Prev hashFork) blockPlace where
  unique := by
    rintro hash _ _ ⟨index, found, _, rfl, _⟩ ⟨index', found', _, rfl, _⟩
    cases found.symm.trans found'
    rfl
  falls := by
    rintro hash _ ⟨index, found, own, rfl, prev, foundPrev, ownPrev⟩
    exact tree.later found foundPrev (ownPrev.trans own.symm)

theorem AncestorOrSelf.place_le (old : tree.AncestorOrSelf hashFork hashOld hash) : blockPlace hashOld ≤ blockPlace hash :=
  (tree.lineage hashFork).rank_le old

theorem AncestorOrSelf.height_le (old : tree.AncestorOrSelf hashFork hashOld hash) :
    getBlockHeightByHash hashOld ≤ getBlockHeightByHash hash := height_le_of_blockPlace_le old.place_le

theorem isLongchainBlock_iff (indexed : tree.Indexed hashFork hashLast) (own : tree.InFork hashFork hash) :
    tree.isLongchainBlock hashFork hash = true ↔ tree.AncestorOrSelf hashFork hash hashLast := by
  obtain ⟨index, found, _⟩ := own
  unfold isLongchainBlock
  rw [found]
  dsimp only
  rw [decide_eq_true_iff, indexed.numbers, and_iff_left ⟨index, found, rfl⟩]

theorem InFork.ancestor (own : tree.InFork hashFork hash) (old : tree.AncestorOrSelf hashFork hashOld hash) :
    tree.InFork hashFork hashOld := by
  cases old with
  | refl => exact own
  | tail _ step =>
    obtain ⟨_, _, _, _, prev⟩ := step
    exact prev

theorem longchainBlock_sound (indexed : tree.Indexed hashFork hashLast)
    (found : tree.longchainBlock hashFork nHeight nSlot = some hash) :
    (getBlockHeightByHash hash = nHeight ∧ getBlockSlotByHash hash = nSlot) ∧
      tree.AncestorOrSelf hashFork hash hashLast := by
  obtain ⟨vBlockHash, listed, found⟩ := bind_eq_some_iff.1 found
  obtain ⟨own, height⟩ := (indexed.heights nHeight hash).1 ⟨vBlockHash, listed, mem_of_find?_eq_some found⟩
  have tested := List.find?_some found
  rw [Bool.and_eq_true, decide_eq_true_iff, isLongchainBlock_iff indexed own] at tested
  exact ⟨⟨height, tested.1⟩, tested.2⟩

theorem longchainBlock_eq_some (indexed : tree.Indexed hashFork hashLast) :
    tree.longchainBlock hashFork nHeight nSlot = some hash ↔
      (getBlockHeightByHash hash = nHeight ∧ getBlockSlotByHash hash = nSlot) ∧
        tree.AncestorOrSelf hashFork hash hashLast := by
  refine ⟨longchainBlock_sound indexed, ?_⟩
  rintro ⟨⟨rfl, rfl⟩, onChain⟩
  have own := indexed.last.ancestor onChain
  obtain ⟨vBlockHash, listed, mem⟩ := (indexed.heights _ hash).2 ⟨own, rfl⟩
  have some : (tree.longchainBlock hashFork (getBlockHeightByHash hash) (getBlockSlotByHash hash)).isSome := by
    rw [longchainBlock, listed, bind_some, List.find?_isSome]
    refine ⟨hash, mem, ?_⟩
    rw [Bool.and_eq_true, decide_eq_true_iff, isLongchainBlock_iff indexed own]
    exact ⟨rfl, onChain⟩
  obtain ⟨other, found⟩ := isSome_iff_exists.1 some
  obtain ⟨place, onChain'⟩ := longchainBlock_sound indexed found
  rw [found, (tree.lineage hashFork).eq_of_rank_eq onChain' onChain (blockPlace_eq_iff.2 place)]

def Finds (tree : BlockTree) (hashFork hashLast : UInt256) (nHeight : UInt32) (nSlot : UInt16)
    (hashRef hash : UInt256) : Prop :=
  (getBlockHeightByHash hash = nHeight ∧ getBlockSlotByHash hash = nSlot) ∧
    (tree.AncestorOrSelf hashFork hash hashRef ∨ tree.Beside hashFork hashLast hashRef hash)

theorem finds_of_longchain (onChain : tree.AncestorOrSelf hashFork hashRef hashLast)
    (high : nHeight ≤ getBlockHeightByHash hashRef) :
    tree.Finds hashFork hashLast nHeight nSlot hashRef hash ↔
      (getBlockHeightByHash hash = nHeight ∧ getBlockSlotByHash hash = nSlot) ∧
        tree.AncestorOrSelf hashFork hash hashLast := by
  unfold Finds
  apply and_congr_right
  rintro ⟨rfl, rfl⟩
  constructor
  · rintro (old | beside)
    · exact onChain.trans old
    · exact beside.onChain
  · intro other
    rcases le_or_gt (blockPlace hash) (blockPlace hashRef) with le | gt
    · exact Or.inl ((tree.lineage hashFork).path_of_rank_le other onChain le)
    · refine Or.inr ⟨other, ⟨hashRef, .refl, onChain, ?_⟩, ?_⟩
      · exact UInt32.le_antisymm (height_le_of_blockPlace_le gt.le) high
      · intro hashOld old
        exact (old.place_le.trans_lt gt).ne

theorem not_finds_of_lt (low : getBlockHeightByHash hashRef < nHeight) :
    ¬tree.Finds hashFork hashLast nHeight nSlot hashRef hash := by
  rintro ⟨⟨rfl, rfl⟩, old | ⟨_, ⟨hashMet, old, _, height⟩, _⟩⟩
  · exact UInt32.not_lt.2 old.height_le low
  · exact UInt32.not_lt.2 (height ▸ old.height_le) low

theorem finds_here (place : getBlockHeightByHash hashRef = nHeight ∧ getBlockSlotByHash hashRef = nSlot) :
    tree.Finds hashFork hashLast nHeight nSlot hashRef hash ↔ hash = hashRef := by
  constructor
  · rintro ⟨other, old | beside⟩
    · apply (tree.lineage hashFork).eq_of_rank_eq old .refl
      rw [blockPlace_eq_iff, other.1, other.2, place.1, place.2]
      exact ⟨rfl, rfl⟩
    · refine absurd (blockPlace_eq_iff.2 ?_) (beside.absent hashRef .refl)
      rw [other.1, other.2]
      exact place
  · rintro rfl
    exact ⟨place, Or.inl .refl⟩

theorem finds_prev (off : ¬tree.AncestorOrSelf hashFork hashRef hashLast)
    (other : ¬(getBlockHeightByHash hashRef = nHeight ∧ getBlockSlotByHash hashRef = nSlot)) :
    tree.Finds hashFork hashLast nHeight nSlot hashRef hash ↔
      ∃ hashPrev, tree.Prev hashFork hashRef hashPrev ∧ tree.Finds hashFork hashLast nHeight nSlot hashPrev hash := by
  constructor
  · rintro ⟨place, old | ⟨onChain, ⟨hashMet, met, metChain, height⟩, absent⟩⟩
    · rcases old.cases_head with rfl | ⟨hashPrev, prev, rest⟩
      · exact absurd place other
      · exact ⟨hashPrev, prev, place, Or.inl rest⟩
    · rcases met.cases_head with rfl | ⟨hashPrev, prev, rest⟩
      · exact absurd metChain off
      · refine ⟨hashPrev, prev, place, Or.inr ⟨onChain, ⟨hashMet, rest, metChain, height⟩, ?_⟩⟩
        intro hashOld old
        exact absent hashOld (.head prev old)
  · rintro ⟨hashPrev, prev, place, old | ⟨onChain, ⟨hashMet, met, metChain, height⟩, absent⟩⟩
    · exact ⟨place, Or.inl (.head prev old)⟩
    · refine ⟨place, Or.inr ⟨onChain, ⟨hashMet, .head prev met, metChain, height⟩, ?_⟩⟩
      intro hashOld old
      rcases old.cases_head with rfl | ⟨hashPrev', prev', rest⟩
      · rw [Ne, blockPlace_eq_iff, place.1, place.2]
        exact other
      · exact absent hashOld ((tree.lineage hashFork).unique prev prev' ▸ rest)

theorem searchBack_off (off : ¬tree.InFork hashFork hashRef) : tree.searchBack hashFork nHeight nSlot hashRef = none := by
  rw [searchBack]
  split
  next => rfl
  next index found =>
    rw [dif_neg]
    exact fun own => off ⟨index, found, own.1⟩

theorem searchBack_here (found : tree.getIndex hashRef = some index) (own : index.hashOrigin = hashFork) :
    tree.searchBack hashFork nHeight nSlot hashRef =
      if getBlockHeightByHash hashRef < nHeight then none
      else if tree.isLongchainBlock hashFork hashRef then tree.longchainBlock hashFork nHeight nSlot
      else if getBlockHeightByHash hashRef = nHeight ∧ getBlockSlotByHash hashRef = nSlot then some hashRef
      else tree.searchBack hashFork nHeight nSlot index.hashPrev := by
  have self := tree.hash_eq found
  rw [searchBack]
  split
  next absent => cases absent.symm.trans found
  next index' found' =>
    cases found'.symm.trans found
    have height : index.getBlockHeight = getBlockHeightByHash hashRef := congrArg getBlockHeightByHash self
    have slot : index.getBlockSlot = getBlockSlotByHash hashRef := congrArg getBlockSlotByHash self
    rw [height, slot, self]
    by_cases low : getBlockHeightByHash hashRef < nHeight
    · rw [if_pos low, dif_neg fun high => UInt32.not_le.2 low high.2]
    · rw [if_neg low, dif_pos ⟨own, UInt32.not_lt.1 low⟩]

/-- The loop gives what is to be found from the block on. -/
theorem searchBack_eq_some (indexed : tree.Indexed hashFork hashLast) {hashRef : UInt256}
    (own : tree.InFork hashFork hashRef) : tree.searchBack hashFork nHeight nSlot hashRef = some hash ↔
      tree.Finds hashFork hashLast nHeight nSlot hashRef hash := by
  induction hashRef using (measure (tree.wayBack hashFork)).wf.induction with
  | h hashRef ih =>
    have ⟨index, found, fork⟩ := own
    rw [searchBack_here found fork]
    by_cases low : getBlockHeightByHash hashRef < nHeight
    · rw [if_pos low]
      exact iff_of_false nofun (not_finds_of_lt low)
    rw [if_neg low]
    by_cases onChain : tree.AncestorOrSelf hashFork hashRef hashLast
    · rw [if_pos ((isLongchainBlock_iff indexed own).2 onChain), longchainBlock_eq_some indexed,
        finds_of_longchain onChain (UInt32.not_lt.1 low)]
    rw [if_neg (mt (isLongchainBlock_iff indexed own).1 onChain)]
    by_cases place : getBlockHeightByHash hashRef = nHeight ∧ getBlockSlotByHash hashRef = nSlot
    · rw [if_pos place, finds_here place, some_inj, eq_comm]
    rw [if_neg place, finds_prev onChain place]
    -- Further back the loop is right by induction, or it has left the fork.
    by_cases ownPrev : tree.InFork hashFork index.hashPrev
    · rw [ih index.hashPrev (wayBack_prev_lt found fork) ownPrev]
      constructor
      · exact fun finds => ⟨_, ⟨index, found, fork, rfl, ownPrev⟩, finds⟩
      · rintro ⟨hashPrev, prev, finds⟩
        rw [(tree.lineage hashFork).unique ⟨index, found, fork, rfl, ownPrev⟩ prev]
        exact finds
    · rw [searchBack_off ownPrev]
      refine iff_of_false nofun ?_
      rintro ⟨hashPrev, ⟨index', found', _, rfl, prev⟩, _⟩
      cases found.symm.trans found'
      exact ownPrev prev

theorem getBlockHashByHeightSlot_eq_some (indexed : tree.Indexed hashFork hashLast)
    (own : tree.InFork hashFork hashRef) : tree.getBlockHashByHeightSlot hashFork hashRef nHeight nSlot = some hash ↔
      tree.Finds hashFork hashLast nHeight nSlot hashRef hash := by
  rw [← searchBack_eq_some indexed own]
  have ⟨index, found, fork⟩ := own
  have some : hashRef ≠ 0 := by
    rintro rfl
    cases tree.null.symm.trans found
  -- The checks before the loop are those of its first turn.
  rw [getBlockHashByHeightSlot, if_neg some]
  by_cases low : getBlockHeightByHash hashRef < nHeight
  · rw [searchBack_here found fork, if_pos low, if_pos low]
  rw [if_neg low]
  by_cases onChain : tree.isLongchainBlock hashFork hashRef
  · rw [searchBack_here found fork, if_neg low, if_pos onChain, if_pos onChain]
  · rw [if_neg onChain]

theorem Beside.not_ancestor (beside : tree.Beside hashFork hashLast hashRef hash) :
    ¬tree.AncestorOrSelf hashFork hash hashRef := fun old => beside.absent hash old rfl

theorem verifySameChainNoLock_iff (indexed : tree.Indexed hashFork hashLast) (own : tree.InFork hashFork hashRef)
    (ownPrev : tree.InFork hashFork hash) : tree.verifySameChainNoLock hash hashRef = true ↔
      tree.AncestorOrSelf hashFork hash hashRef ∨ tree.Beside hashFork hashLast hashRef hash := by
  have ⟨index, found, fork⟩ := own
  have some : hash ≠ 0 := by
    rintro rfl
    obtain ⟨_, found, _⟩ := ownPrev
    cases tree.null.symm.trans found
  rw [verifySameChainNoLock, found]
  dsimp only
  rw [Bool.and_eq_true, decide_eq_true_iff, decide_eq_true_iff, and_iff_right some, fork, tree.hash_eq found,
    getBlockHashByHeightSlot_eq_some indexed own]
  exact and_iff_right ⟨rfl, rfl⟩

/-- The test for an ancestor is right, and the search from a block gives only ancestors of it, just
when no block of the long chain is in the place beside the ancestors. -/
theorem sameChain_iff (tree : BlockTree) (hashFork hashLast : UInt256) (indexed : tree.Indexed hashFork hashLast)
    (hashAfter : UInt256) (after : tree.InFork hashFork hashAfter) :
    (∀ hashPrev, tree.InFork hashFork hashPrev →
      ((tree.verifySameChainNoLock hashPrev hashAfter = true ↔ tree.AncestorOrSelf hashFork hashPrev hashAfter) ↔
        ¬tree.Beside hashFork hashLast hashAfter hashPrev)) ∧
    ∀ nHeight nSlot,
      (∀ hash, tree.getBlockHashByHeightSlot hashFork hashAfter nHeight nSlot = some hash →
        tree.AncestorOrSelf hashFork hash hashAfter) ↔
      ∀ hash, getBlockHeightByHash hash = nHeight → getBlockSlotByHash hash = nSlot →
        ¬tree.Beside hashFork hashLast hashAfter hash := by
  constructor
  · intro hashPrev own
    rw [verifySameChainNoLock_iff indexed after own]
    constructor
    · intro right beside
      exact beside.not_ancestor (right.1 (Or.inr beside))
    · intro clear
      exact or_iff_left clear
  · intro nHeight nSlot
    apply forall_congr'
    intro hash
    rw [getBlockHashByHeightSlot_eq_some indexed after, Finds]
    constructor
    · intro right height slot beside
      exact beside.not_ancestor (right ⟨⟨height, slot⟩, Or.inr beside⟩)
    · rintro clear ⟨⟨height, slot⟩, old | beside⟩
      · exact old
      · exact absurd beside (clear height slot)

end Search

end BlockTree

namespace Sample

/-- The blocks of a fork in a list, and the long chain among them from the origin on. -/
structure BlockList where
  hashFork : UInt256
  blocks : List BlockIndex
  chain : List BlockIndex
  last : BlockIndex
  distinct : ∀ index ∈ blocks, blocks.find? (fun other => other.hashBlock = index.hashBlock) = some index
  later : ∀ index ∈ blocks, ∀ prev ∈ blocks, prev.hashBlock = index.hashPrev →
    blockPlace index.hashPrev < blockPlace index.hashBlock
  null : ∀ index ∈ blocks, index.hashBlock ≠ 0
  own : ∀ index ∈ blocks, index.hashOrigin = hashFork
  listed : ∀ index ∈ chain, index ∈ blocks
  linked : chain.IsChain fun prev index => index.hashPrev = prev.hashBlock
  ends : chain.getLast? = some last
  closed : ∀ index ∈ chain, ∀ prev ∈ blocks, prev.hashBlock = index.hashPrev → prev ∈ chain
  numbered : ∀ index ∈ chain, chain.find? (fun other => other.nNumber = index.nNumber) = some index

namespace BlockList
variable {list : BlockList} {index prev : BlockIndex} {hash : UInt256}

def tree (list : BlockList) : BlockTree where
  getIndex hash := list.blocks.find? fun index => index.hashBlock = hash
  retrieveBlockHashByHeight _ nHeight :=
    some ((list.blocks.map BlockIndex.hashBlock).filter fun hash => getBlockHeightByHash hash = nHeight)
  retrieveBlockHashByNumber _ nNumber := (list.chain.find? fun index => index.nNumber = nNumber).map BlockIndex.hashBlock
  hash_eq found := by simpa using List.find?_some found
  later := by
    intro hash index prev found foundPrev _
    have self : index.hashBlock = hash := by simpa using List.find?_some found
    rw [← self]
    exact list.later index (mem_of_find?_eq_some found) prev (mem_of_find?_eq_some foundPrev)
      (by simpa using List.find?_some foundPrev)
  null := by
    rw [List.find?_eq_none]
    intro index member
    simpa using list.null index member

theorem getIndex_iff : list.tree.getIndex hash = some index ↔ index ∈ list.blocks ∧ index.hashBlock = hash := by
  constructor
  · intro found
    have listed : list.blocks.find? (fun index => index.hashBlock = hash) = some index := found
    exact ⟨mem_of_find?_eq_some listed, list.tree.hash_eq found⟩
  · rintro ⟨mem, rfl⟩
    exact list.distinct index mem

theorem inFork_iff (list : BlockList) : list.tree.InFork list.hashFork hash ↔ ∃ index ∈ list.blocks, index.hashBlock = hash := by
  constructor
  · rintro ⟨index, found, _⟩
    exact ⟨index, getIndex_iff.1 found⟩
  · rintro ⟨index, mem, self⟩
    exact ⟨index, getIndex_iff.2 ⟨mem, self⟩, list.own index mem⟩

theorem prev_of_link (list : BlockList) (mem : index ∈ list.blocks) (memberPrev : prev ∈ list.blocks)
    (link : index.hashPrev = prev.hashBlock) : list.tree.Prev list.hashFork index.hashBlock prev.hashBlock :=
  ⟨index, getIndex_iff.2 ⟨mem, rfl⟩, list.own index mem, link, list.inFork_iff.2 ⟨prev, memberPrev, rfl⟩⟩

theorem ancestorOrSelf_of_linked {last : BlockIndex} : ∀ {chain : List BlockIndex},
    (∀ index ∈ chain, index ∈ list.blocks) →
    (chain.IsChain fun prev index => index.hashPrev = prev.hashBlock) → chain.getLast? = some last →
    ∀ index ∈ chain, list.tree.AncestorOrSelf list.hashFork index.hashBlock last.hashBlock := by
  intro chain
  induction chain with
  | nil => exact fun _ _ _ _ mem => nomatch mem
  | cons first rest ih =>
    intro listed linked ends index mem
    cases rest with
    | nil =>
      cases ends
      rw [mem_singleton.1 mem]
      exact .refl
    | cons second rest =>
      obtain ⟨link, linked'⟩ := isChain_cons_cons.1 linked
      have onward := ih (fun index mem => listed index (mem_cons_of_mem _ mem)) linked' ends
      rcases mem_cons.1 mem with rfl | later
      · have step := list.prev_of_link (listed second (by simp)) (listed index (by simp)) link
        exact .tail (onward second (by simp)) step
      · exact onward index later

theorem ancestorOrSelf_iff : list.tree.AncestorOrSelf list.hashFork hash list.last.hashBlock ↔
    ∃ index ∈ list.chain, index.hashBlock = hash := by
  constructor
  · intro old
    induction old with
    | refl => exact ⟨list.last, mem_of_getLast? list.ends, rfl⟩
    | tail _ step ih =>
      obtain ⟨index, mem, rfl⟩ := ih
      obtain ⟨index', found, _, rfl, own⟩ := step
      cases found.symm.trans (getIndex_iff.2 ⟨list.listed index mem, rfl⟩)
      obtain ⟨prev, memberPrev, self⟩ := list.inFork_iff.1 own
      exact ⟨prev, list.closed index mem prev memberPrev self, self⟩
  · rintro ⟨index, mem, rfl⟩
    exact ancestorOrSelf_of_linked list.listed list.linked list.ends index mem

theorem indexed (list : BlockList) : list.tree.Indexed list.hashFork list.last.hashBlock where
  last := list.inFork_iff.2 ⟨list.last, list.listed _ (mem_of_getLast? list.ends), rfl⟩
  heights := by
    intro nHeight hash
    rw [inFork_iff]
    constructor
    · rintro ⟨_, ⟨⟩, member⟩
      obtain ⟨listed, height⟩ := mem_filter.1 member
      exact ⟨List.mem_map.1 listed, of_decide_eq_true height⟩
    · rintro ⟨listed, height⟩
      exact ⟨_, rfl, mem_filter.2 ⟨List.mem_map.2 listed, decide_eq_true height⟩⟩
  numbers := by
    intro nNumber hash
    rw [ancestorOrSelf_iff]
    constructor
    · intro found
      change Option.map _ (list.chain.find? _) = some hash at found
      obtain ⟨index, listed, rfl⟩ := map_eq_some_iff.1 found
      have member := mem_of_find?_eq_some listed
      refine ⟨⟨index, member, rfl⟩, index, getIndex_iff.2 ⟨list.listed index member, rfl⟩, ?_⟩
      simpa using List.find?_some listed
    · rintro ⟨⟨index, member, rfl⟩, index', found, rfl⟩
      cases found.symm.trans (getIndex_iff.2 ⟨list.listed index member, rfl⟩)
      exact congrArg (Option.map BlockIndex.hashBlock) (list.numbered index member)

end BlockList

def originBlock : BlockIndex := ⟨createBlockHash 201 1 0 0xA0, 0, createBlockHash 201 1 0 0xA0, 0⟩

def metBlock : BlockIndex := ⟨createBlockHash 201 2 0 0xA1, originBlock.hashBlock, originBlock.hashBlock, 1⟩

def extendedBlock : BlockIndex := ⟨createBlockHash 201 2 1 0xA2, metBlock.hashBlock, originBlock.hashBlock, 2⟩

def sideBlock : BlockIndex := ⟨createBlockHash 201 3 0 0xA3, metBlock.hashBlock, originBlock.hashBlock, 2⟩

def longChain : List BlockIndex := [originBlock, metBlock, extendedBlock]

def forkBlocks : List BlockIndex := longChain ++ [sideBlock]

def forkList : BlockList where
  hashFork := originBlock.hashBlock
  blocks := forkBlocks
  chain := longChain
  last := extendedBlock
  distinct := by decide
  later := by decide
  null := by decide
  own := by decide
  listed := by decide
  linked := by decide
  ends := rfl
  closed := by decide
  numbered := by decide

def forkTree : BlockTree where
  getIndex hash := forkBlocks.find? fun index => index.hashBlock = hash
  retrieveBlockHashByHeight _ nHeight :=
    some ((forkBlocks.map BlockIndex.hashBlock).filter fun hash => getBlockHeightByHash hash = nHeight)
  retrieveBlockHashByNumber _ nNumber := (longChain.find? fun index => index.nNumber = nNumber).map BlockIndex.hashBlock
  hash_eq := forkList.tree.hash_eq
  later := forkList.tree.later
  null := forkList.tree.null

theorem forkTree_inFork {index : BlockIndex} (mem : index ∈ forkBlocks) :
    forkTree.InFork originBlock.hashBlock index.hashBlock := forkList.inFork_iff.2 ⟨index, mem, rfl⟩

theorem forkTree_indexed : forkTree.Indexed originBlock.hashBlock extendedBlock.hashBlock := forkList.indexed

/-- The search from the side block meets the long chain and finds the origin there. -/
theorem sameChain_iff_side :
    forkTree.verifySameChainNoLock originBlock.hashBlock sideBlock.hashBlock = true := by
  have leaves : forkTree.Prev originBlock.hashBlock sideBlock.hashBlock metBlock.hashBlock :=
    forkList.prev_of_link (by decide) (by decide) rfl
  have first : forkTree.Prev originBlock.hashBlock metBlock.hashBlock originBlock.hashBlock :=
    forkList.prev_of_link (by decide) (by decide) rfl
  have old : forkTree.AncestorOrSelf originBlock.hashBlock originBlock.hashBlock sideBlock.hashBlock :=
    .head leaves (.single first)
  have right := (BlockTree.sameChain_iff forkTree _ _ forkTree_indexed sideBlock.hashBlock
    (forkTree_inFork (by decide))).1 originBlock.hashBlock (forkTree_inFork (by decide))
  exact (right.2 fun beside => beside.not_ancestor old).2 old

/-- The block after the met one at the same height passes for an ancestor of it. -/
theorem extended_block_as_ancestor : forkTree.Indexed originBlock.hashBlock extendedBlock.hashBlock ∧
    forkTree.verifySameChainNoLock extendedBlock.hashBlock metBlock.hashBlock = true ∧
    forkTree.getBlockHashByHeightSlot originBlock.hashBlock metBlock.hashBlock 2 1 = some extendedBlock.hashBlock ∧
    ¬forkTree.AncestorOrSelf originBlock.hashBlock extendedBlock.hashBlock metBlock.hashBlock := by
  refine ⟨forkTree_indexed, by decide, by decide, ?_⟩
  intro old
  exact absurd old.place_le (by decide)

end Sample

end HashAhead.Chain

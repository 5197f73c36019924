import HashAhead.Reward.Payout

/-! Every reward is paid once, unless a vacant block comes too early. From the sixth height of a
period on, a block pays nothing after one that has paid nothing, which is taken to mean that no list is
left. After a vacant block that is wrong, and the lists that were still to be paid are lost. -/

namespace HashAhead.Reward
open Foundation State Chain List Option

section Dispense
variable {Slot Tx : Type} (vacant late : Slot → Bool) (lists : List (List Tx))

/-- The lists as the slots take them. A slot takes the next list unless it is vacant or stopped by the
slot before it, which does so if it is late and has taken nothing. -/
def dispense (next : Nat) (stopped : Bool) : List Slot → List (List Tx)
  | [] => []
  | slot :: rest =>
    let taken := if vacant slot || stopped then [] else (lists[next]?).getD []
    taken :: dispense (if vacant slot then next else next + 1) (late slot && taken.isEmpty) rest

def Timely (next : Nat) (slots : List Slot) : Prop :=
  ∀ front slot rest, slots = front ++ slot :: rest → vacant slot → late slot →
    lists.length ≤ next + front.countP fun slot => !vacant slot

variable {vacant late lists} {next : Nat} {slot : Slot} {slots : List Slot}

theorem dispense_done (done : lists.length ≤ next) (stopped : Bool) :
    (dispense vacant late lists next stopped slots).flatten = [] := by
  induction slots generalizing next stopped with
  | nil => rfl
  | cons slot rest ih =>
    have nothing : (if vacant slot || stopped then [] else (lists[next]?).getD []) = [] := by
      rw [List.getElem?_eq_none done]
      exact ite_self _
    rw [dispense, nothing, flatten_cons, nil_append]
    apply ih
    split_ifs <;> omega

theorem dispense_stopped (allLate : ∀ slot ∈ slots, late slot) :
    (dispense vacant late lists next true slots).flatten = [] := by
  induction slots generalizing next with
  | nil => rfl
  | cons slot rest ih =>
    rw [dispense, Bool.or_true, if_pos rfl, allLate slot mem_cons_self, flatten_cons, nil_append]
    exact ih fun slot mem => allLate slot (mem_cons_of_mem _ mem)

theorem timely_cons : Timely vacant late lists next (slot :: slots) ↔
    (vacant slot → late slot → lists.length ≤ next) ∧
      Timely vacant late lists (if vacant slot then next else next + 1) slots := by
  have shift : ∀ front : List Slot, (next + (slot :: front).countP fun slot => !vacant slot) =
      (if vacant slot then next else next + 1) + front.countP fun slot => !vacant slot := by
    intro front
    rw [countP_cons]
    cases vacant slot <;> simp [Nat.add_assoc, Nat.add_comm]
  constructor
  · intro timely
    refine ⟨fun empty high => timely [] slot slots rfl empty high, fun front other rest split empty high => ?_⟩
    rw [← shift]
    exact timely (slot :: front) other rest (by rw [split, cons_append]) empty high
  · rintro ⟨first, timely⟩ front other rest split empty high
    cases front with
    | nil =>
      cases split
      exact first empty high
    | cons head front =>
      cases split
      rw [shift]
      exact timely front other rest rfl empty high

/-- All lists are taken, in order, exactly if the late vacant slots come after the last of them. -/
theorem dispense_eq_iff (next : Nat) (nonempty : ∀ list ∈ lists, list ≠ []) (rising : slots.Pairwise fun a b => late a → late b)
    (enough : lists.length ≤ next + slots.countP fun slot => !vacant slot) :
    (dispense vacant late lists next false slots).flatten = (lists.drop next).flatten ↔
      Timely vacant late lists next slots := by
  induction slots generalizing next with
  | nil =>
    rw [drop_of_length_le (by simpa using enough)]
    exact iff_of_true rfl fun front slot rest split => by simp at split
  | cons slot rest ih =>
    by_cases done : lists.length ≤ next
    · rw [drop_of_length_le done]
      refine iff_of_true (dispense_done done false) fun front _ _ _ _ _ => ?_
      omega
    · obtain ⟨first, rising⟩ := pairwise_cons.1 rising
      rw [timely_cons, dispense]
      cases empty : vacant slot with
      | true =>
        rw [countP_cons_of_neg (by simp [empty])] at enough
        rw [Bool.true_or, if_pos rfl, if_pos rfl, flatten_cons, nil_append, isEmpty_nil, Bool.and_true]
        cases high : late slot with
        | true =>
          -- the slot stops all that come after it
          rw [dispense_stopped fun other mem => first other mem high]
          refine iff_of_false (fun none => ?_) fun timely => done (timely.1 rfl rfl)
          rw [eq_comm, flatten_eq_nil_iff] at none
          have mem : lists[next] ∈ lists.drop next := by
            rw [drop_eq_getElem_cons (by omega)]
            exact mem_cons_self
          exact nonempty _ (getElem_mem _) (none _ mem)
        | false =>
          rw [ih _ rising enough]
          exact ⟨fun timely => ⟨fun _ => nofun, timely⟩, fun timely => timely.2⟩
      | false =>
        rw [countP_cons_of_pos (by simp [empty])] at enough
        have here : lists[next]? = some lists[next] := List.getElem?_eq_getElem (by omega)
        have taken : lists[next].isEmpty = false := by
          simpa using nonempty _ (getElem_mem (by omega))
        rw [Bool.or_false, if_neg nofun, if_neg nofun, here, getD_some, taken, Bool.and_false,
          flatten_cons, drop_eq_getElem_cons (by omega), flatten_cons, append_cancel_left_eq,
          ih _ rising (by omega)]
        exact ⟨fun timely => ⟨nofun, timely⟩, fun timely => timely.2⟩

end Dispense

section Cache
variable {Tx : Type} {base : PayoutBase Tx} {cache : RewardCache Tx}

def Calculated (base : PayoutBase Tx) (hashCalcEndBlock : UInt256) (vRewardList : List (List Tx)) : Prop :=
  ∃ call, call.hashCalcEndBlock = hashCalcEndBlock ∧ base.calcEndVoteReward call = some vRewardList

def CacheSound (base : PayoutBase Tx) (cache : RewardCache Tx) : Prop :=
  ∀ {hashFork hashCalcEndBlock vRewardList}, (cache hashFork).find hashCalcEndBlock = some vRewardList →
    Calculated base hashCalcEndBlock vRewardList

theorem CacheSound.update (sound : CacheSound base cache) {hashFork : UInt256} {rewards : ForkRewards Tx}
    (kept : ∀ {hash vRewardList}, rewards.find hash = some vRewardList → Calculated base hash vRewardList) :
    CacheSound base (Function.update cache hashFork rewards) := by
  intro fork hash vRewardList found
  by_cases here : fork = hashFork
  · rw [here, Function.update_self] at found
    exact kept found
  · rw [Function.update_of_ne here] at found
    exact sound found

theorem rewardLists_sound (sound : CacheSound base cache) (call : CalcEndCall) :
    CacheSound base (rewardLists base cache call).2 ∧
      ((rewardLists base cache call).1 = base.calcEndVoteReward call ∨
        ∃ vRewardList, (rewardLists base cache call).1 = some vRewardList ∧
          Calculated base call.hashCalcEndBlock vRewardList) := by
  have trimmed : ∀ {hash vRewardList}, (trimRewards call.hashCalcEndBlock (cache call.hashFork)).find hash =
      some vRewardList → Calculated base hash vRewardList := by
    intro hash vRewardList found
    apply sound
    rw [SortedMap.find_eq_some_iff] at found ⊢
    exact (eraseOthers_sublist _ _ _).subset found
  unfold rewardLists
  dsimp only
  split
  next vRewardList found => exact ⟨sound.update trimmed, Or.inr ⟨vRewardList, rfl, trimmed found⟩⟩
  next =>
    split
    next failed => exact ⟨sound.update trimmed, Or.inl failed.symm⟩
    next vRewardList done =>
      refine ⟨sound.update fun {hash _} found => ?_, Or.inl done.symm⟩
      rw [SortedMap.find_insert] at found
      split_ifs at found with here
      · cases found
        exact ⟨call, here.symm, done⟩
      · exact trimmed found

theorem Reached.sound (reached : Reached base cache) : CacheSound base cache := by
  induction reached with
  | empty => exact nofun
  | @call cache before call ih =>
    unfold calcBlockVoteRewardTx
    split
    next => exact ih
    next =>
      split
      next => exact ih
      next prev prevs found =>
        split
        next => exact ih
        next =>
          split
          next => exact ih
          next calcEnd rest stop =>
            split
            next => exact ih
            next => exact (rewardLists_sound ih _).1

theorem rewardLists_eq (reached : Reached base cache) {call : CalcEndCall} {vRewardList : List (List Tx)}
    (computed : ∀ other : CalcEndCall, other.hashCalcEndBlock = call.hashCalcEndBlock →
      base.calcEndVoteReward other = some vRewardList) : (rewardLists base cache call).1 = some vRewardList := by
  rcases (rewardLists_sound reached.sound call).2 with fresh | ⟨kept, same, other, period, calculated⟩
  · rw [fresh]
    exact computed call rfl
  · rw [same, ← calculated]
    exact computed other period

end Cache

section Period
variable {Tx : Type} {base : PayoutBase Tx} {calcEnd : RewardIndex} {before blocks : List RewardIndex}

/-- The blocks after the one that ends a period, up to the next multiple of the distribution height. They
are on one fork: the primary one, where each height has one block, or another one. -/
structure Period (base : PayoutBase Tx) (calcEnd : RewardIndex) (before blocks : List RewardIndex) : Prop where
  indexed : ∃ hash, base.retrieveIndex hash = blocks.reverse ++ calcEnd :: before
  start : periodHeight base calcEnd = 0
  positive : 0 < base.voteRewardDistributeHeight.toNat
  high : base.voteRewardDistributeHeight.toNat ≤ calcEnd.getBlockHeight.toNat
  above : ∀ index ∈ blocks, calcEnd.getBlockHeight.toNat < index.getBlockHeight.toNat
  below : ∀ index ∈ blocks, index.getBlockHeight.toNat <
    calcEnd.getBlockHeight.toNat + base.voteRewardDistributeHeight.toNat
  fork : ∀ index ∈ blocks, index.hashOrigin = calcEnd.hashOrigin
  kind : (calcEnd.nType.isPrimary ∧ (∀ index ∈ blocks, index.nType = .primary) ∧
      (blocks.reverse ++ [calcEnd]).IsChain fun index prev =>
        index.getBlockHeight.toNat = prev.getBlockHeight.toNat + 1) ∨
    (¬calcEnd.nType.isPrimary ∧
      ∀ index ∈ blocks, index.nType = .subsidiary ∨ index.nType = .extended ∨ index.nType = .vacant)

/-- Each block has the count of the one before it and one for each transaction it has to carry. -/
def Cumulative (base : PayoutBase Tx) (cacheOf : RewardIndex → RewardCache Tx) (prev : RewardIndex) :
    List RewardIndex → Prop
  | [] => True
  | index :: rest =>
    index.nRewardTxCount = prev.nRewardTxCount +
      ((calcBlockVoteRewardTx base (cacheOf index) (payoutCall prev index)).1.getD []).length ∧
    Cumulative base cacheOf index rest

def isLate (base : PayoutBase Tx) (index : RewardIndex) : Bool := periodHeight base index > maxSnapshotStateHeight / 2

def isVacant (index : RewardIndex) : Bool := index.nType = .vacant

namespace Period

theorem place (period : Period base calcEnd before blocks) {index : RewardIndex} (mem : index ∈ blocks) :
    (periodHeight base index).toNat = index.getBlockHeight.toNat - calcEnd.getBlockHeight.toNat := by
  have start : calcEnd.getBlockHeight.toNat % base.voteRewardDistributeHeight.toNat = 0 :=
    congrArg UInt32.toNat period.start
  have above := period.above index mem
  have below := period.below index mem
  rw [periodHeight, UInt32.toNat_mod]
  generalize calcEnd.getBlockHeight.toNat = first at *
  generalize index.getBlockHeight.toNat = nHeight at *
  have sum : nHeight = first + (nHeight - first) := by omega
  rw [sum, Nat.add_mod, start, Nat.zero_add, Nat.mod_mod, Nat.mod_eq_of_lt (by omega)]
  omega

theorem place_pos (period : Period base calcEnd before blocks) {index : RewardIndex} (mem : index ∈ blocks) :
    periodHeight base index > 0 := by
  have above := period.above index mem
  have place := period.place mem
  show (0 : UInt32).toNat < (periodHeight base index).toNat
  rw [place, show (0 : UInt32).toNat = 0 from rfl]
  omega

theorem late_rising (period : Period base calcEnd before blocks) :
    blocks.Pairwise fun a b => isLate base a → isLate base b := by
  obtain ⟨hash, indexed⟩ := period.indexed
  have falling := base.falling hash
  rw [indexed, pairwise_append, pairwise_reverse] at falling
  apply List.Pairwise.imp_of_mem _ falling.1
  intro a b memberA memberB ordered late
  rw [UInt32.le_iff_toNat_le] at ordered
  simp only [isLate, gt_iff_lt, decide_eq_true_eq, UInt32.lt_iff_toNat_lt] at late ⊢
  rw [period.place memberA] at late
  rw [period.place memberB]
  omega

variable {front rest prevs : List RewardIndex} {prev index : RewardIndex}

/-- The way back from a block of the period meets those before it and then the one before the period. -/
theorem back (period : Period base calcEnd before (front ++ rest))
    (chain : prev :: prevs = front.reverse ++ calcEnd :: before) :
    (prev :: prevs).takeWhile (fun index => periodHeight base index > 0) = front.reverse ∧
      (prev :: prevs).dropWhile (fun index => periodHeight base index > 0) = calcEnd :: before := by
  have inside : ∀ index ∈ front.reverse, decide (periodHeight base index > 0) = true := by
    intro index mem
    rw [mem_reverse] at mem
    exact decide_eq_true (period.place_pos (mem_append_left _ mem))
  have stop : decide (periodHeight base calcEnd > 0) = false := by
    rw [period.start]
    rfl
  rw [chain, takeWhile_append_of_pos inside, dropWhile_append_of_pos inside,
    takeWhile_cons_of_neg (by simpa using stop), dropWhile_cons_of_neg (by simpa using stop), append_nil]
  exact ⟨rfl, rfl⟩

theorem prev_cases (chain : prev :: prevs = front.reverse ++ calcEnd :: before) : prev = calcEnd ∨ prev ∈ front := by
  cases reversed : front.reverse with
  | nil =>
    rw [reversed] at chain
    exact Or.inl (List.cons.inj chain).1
  | cons head tail =>
    rw [reversed] at chain
    refine Or.inr (mem_reverse.1 ?_)
    rw [reversed, (List.cons.inj chain).1]
    exact mem_cons_self

theorem height_of_steps {later : List RewardIndex} : ∀ {prev prevs}, prev :: prevs = later ++ calcEnd :: before →
    ((later ++ [calcEnd]).IsChain fun index prev => index.getBlockHeight.toNat = prev.getBlockHeight.toNat + 1) →
    prev.getBlockHeight.toNat = calcEnd.getBlockHeight.toNat + later.length := by
  induction later with
  | nil =>
    intro prev prevs chain _
    rw [(List.cons.inj chain).1]
    rfl
  | cons last later ih =>
    intro prev prevs chain steps
    obtain ⟨rfl, back⟩ := List.cons.inj chain
    cases prevs with
    | nil => simp at back
    | cons prev' prevs =>
      have earlier := ih back steps.tail
      have step : prev.getBlockHeight.toNat = prev'.getBlockHeight.toNat + 1 := by
        cases later with
        | nil =>
          rw [(List.cons.inj back).1]
          exact (isChain_cons_cons.1 steps).1
        | cons next later =>
          rw [(List.cons.inj back).1]
          exact (isChain_cons_cons.1 steps).1
      rw [step, earlier, length_cons, Nat.add_assoc]

theorem txListIndex_eq (period : Period base calcEnd before (front ++ rest))
    (chain : prev :: prevs = front.reverse ++ calcEnd :: before) :
    txListIndex base prev prevs = front.countP fun index => !isVacant index := by
  unfold txListIndex
  rcases period.kind with ⟨first, primary, steps⟩ | ⟨first, others⟩
  · have every : ∀ index ∈ front, index.nType = .primary := fun index mem =>
      primary index (mem_append_left _ mem)
    have isPrimary : prev.nType.isPrimary := by
      rcases prev_cases chain with rfl | mem
      · exact first
      · rw [every prev mem]
        rfl
    rw [reverse_append, append_assoc] at steps
    have height := height_of_steps chain (isChain_append.1 steps).2.1
    rw [length_reverse] at height
    rw [if_pos isPrimary, countP_eq_length.2 fun index mem => by simp [isVacant, every index mem]]
    rcases prev_cases chain with rfl | mem
    · rw [period.start]
      show 0 = front.length
      omega
    · rw [period.place (mem_append_left _ mem)]
      omega
  · have notPrimary : ¬prev.nType.isPrimary := by
      rcases prev_cases chain with rfl | mem
      · exact first
      · rcases others prev (mem_append_left _ mem) with same | same | same <;> rw [same] <;> decide
    rw [if_neg notPrimary, (period.back chain).1, countP_reverse]
    exact countP_congr fun index _ => by simp [isVacant]

section
variable (period : Period base calcEnd before (front ++ index :: rest))
  (chain : prev :: prevs = front.reverse ++ calcEnd :: before)
include period chain

theorem required_eq {cache : RewardCache Tx} (reached : Reached base cache) {lists : List (List Tx)}
    (computed : ∀ call : CalcEndCall, call.hashCalcEndBlock = calcEnd.hashBlock → base.calcEndVoteReward call = some lists)
    :
    (calcBlockVoteRewardTx base cache (payoutCall prev index)).1 =
      some (if isVacant index || isPaidOut base prev then []
        else (lists[front.countP fun index => !isVacant index]?).getD []) := by
  have mem : index ∈ front ++ index :: rest := by simp
  have found : base.retrieveIndex prev.hashBlock = prev :: prevs := by
    obtain ⟨hash, indexed⟩ := period.indexed
    rw [reverse_append, append_assoc, ← chain] at indexed
    exact base.retrieve_of_before indexed
  have high : ¬prev.getBlockHeight < base.voteRewardDistributeHeight := by
    rw [UInt32.not_lt, UInt32.le_iff_toNat_le]
    rcases prev_cases chain with rfl | inside
    · exact period.high
    · exact period.high.trans (period.above prev (mem_append_left _ inside)).le
  have between : ¬index.getBlockHeight % base.voteRewardDistributeHeight = 0 :=
    fun zero => UInt32.lt_irrefl 0 (zero ▸ period.place_pos mem)
  have notOrigin : ¬index.nType.isOrigin := by
    rcases period.kind with ⟨_, primary, _⟩ | ⟨_, others⟩
    · rw [primary index mem]
      decide
    · rcases others index mem with same | same | same <;> rw [same] <;> decide
  have origin : calcEnd.hashOrigin = prev.hashOrigin := by
    rcases prev_cases chain with rfl | inside
    · rfl
    · exact (period.fork prev (mem_append_left _ inside)).symm
  unfold calcBlockVoteRewardTx payoutCall
  dsimp only
  by_cases vacant : index.nType = .vacant
  · rw [if_pos (Or.inr (Or.inr (Or.inr vacant))), isVacant, decide_eq_true vacant, Bool.true_or, if_pos rfl]
  · have go : ¬(getBlockHeightByHash prev.hashBlock < base.voteRewardDistributeHeight ∨
        index.getBlockHeight % base.voteRewardDistributeHeight = 0 ∨ index.nType.isOrigin ∨ index.nType = .vacant) := by
      rintro (low | multiple | isOrigin | isVacant)
      exacts [high low, between multiple, notOrigin isOrigin, vacant isVacant]
    rw [if_neg go, found, isVacant, decide_eq_false vacant, Bool.false_or]
    dsimp only
    cases paid : isPaidOut base prev with
    | true => rfl
    | false =>
      rw [if_neg nofun, (period.back chain).2, if_neg nofun]
      dsimp only
      rw [if_neg (not_not.2 origin), rewardLists_eq reached computed, period.txListIndex_eq chain]
      rfl

theorem isPaidOut_eq {vVoteRewardTx : List Tx}
    (count : index.nRewardTxCount = prev.nRewardTxCount + vVoteRewardTx.length) :
    isPaidOut base index = (isLate base index && vVoteRewardTx.isEmpty) := by
  have found : base.retrieveIndex index.hashBlock = index :: prev :: prevs := by
    obtain ⟨hash, indexed⟩ := period.indexed
    rw [reverse_append, reverse_cons, append_assoc, append_assoc, ← chain] at indexed
    exact base.retrieve_of_before indexed
  unfold isPaidOut isLate
  rw [base.linked found]
  dsimp only
  rw [count]
  cases vVoteRewardTx <;> simp

end

theorem requiredTxs_eq (front : List RewardIndex) {cacheOf : RewardIndex → RewardCache Tx} (reached : ∀ index, Reached base (cacheOf index))
    {lists : List (List Tx)} (computed : ∀ call : CalcEndCall, call.hashCalcEndBlock = calcEnd.hashBlock →
      base.calcEndVoteReward call = some lists)
    (period : Period base calcEnd before (front ++ rest)) (chain : prev :: prevs = front.reverse ++ calcEnd :: before)
    (cumulative : Cumulative base cacheOf prev rest) :
    requiredTxs base cacheOf prev rest = some (dispense isVacant (isLate base) lists
      (front.countP fun index => !isVacant index) (isPaidOut base prev) rest) := by
  induction rest generalizing front prev prevs with
  | nil => rfl
  | cons index rest ih =>
    obtain ⟨count, cumulative⟩ := cumulative
    have required := period.required_eq chain (reached index) computed
    rw [required, getD_some] at count
    have stops := period.isPaidOut_eq chain count
    have chain' : index :: prev :: prevs = (front ++ [index]).reverse ++ calcEnd :: before := by
      rw [reverse_append, reverse_singleton, singleton_append, cons_append, ← chain]
    have later := ih (front ++ [index]) (by rwa [append_assoc, singleton_append]) chain' cumulative
    have counted : ((front ++ [index]).countP fun index => !isVacant index) =
        if isVacant index then front.countP fun index => !isVacant index
        else (front.countP fun index => !isVacant index) + 1 := by
      rw [countP_append, countP_singleton]
      cases isVacant index <;> rfl
    rw [requiredTxs, required, later, counted, stops]
    rfl

end Period

end Period

namespace Sample

def forkHash (nHeight : UInt32) : UInt256 := createBlockHash 2 nHeight 0 0

def forkBlock (nType : BlockType) (nHeight : UInt32) (nRewardTxCount : Nat) : RewardIndex :=
  ⟨forkHash nHeight, forkHash (nHeight - 1), forkHash 8, 0, nType, 0, 0, 0, 0, nRewardTxCount⟩

def forkOrigin : RewardIndex := forkBlock .origin 8 0

def earlyVacancy : List RewardIndex :=
  [forkBlock .vacant 9 0, forkBlock .subsidiary 10 1, forkBlock .subsidiary 11 2, forkBlock .subsidiary 12 3,
    forkBlock .subsidiary 13 4, forkBlock .subsidiary 14 5, forkBlock .subsidiary 15 6]

def lateVacancy : List RewardIndex :=
  [forkBlock .subsidiary 9 1, forkBlock .subsidiary 10 2, forkBlock .subsidiary 11 3, forkBlock .subsidiary 12 4,
    forkBlock .subsidiary 13 5, forkBlock .vacant 14 5, forkBlock .subsidiary 15 5]

theorem earlyVacancy_linked : Linked (earlyVacancy.reverse ++ [forkOrigin]) where
  steps := by decide
  distinct := by decide
  first := by decide
  falling := by decide

theorem lateVacancy_linked : Linked (lateVacancy.reverse ++ [forkOrigin]) where
  steps := by decide
  distinct := by decide
  first := by decide
  falling := by decide

def sixLists : List (List Nat) := [[0], [1], [2], [3], [4], [5]]

def payoutBase {chain : List RewardIndex} (linked : Linked chain) : PayoutBase Nat :=
  ⟨linked.tree, 8, fun _ => some sixLists⟩

def emptyCache : RewardCache Nat := fun _ => .empty

theorem earlyVacancy_period : Period (payoutBase earlyVacancy_linked) forkOrigin [] earlyVacancy where
  indexed := ⟨forkHash 15, by decide⟩
  start := by decide
  positive := by decide
  high := by decide
  above := by decide
  below := by decide
  fork := by decide
  kind := Or.inr (by decide)

theorem lateVacancy_period : Period (payoutBase lateVacancy_linked) forkOrigin [] lateVacancy where
  indexed := ⟨forkHash 15, by decide⟩
  start := by decide
  positive := by decide
  high := by decide
  above := by decide
  below := by decide
  fork := by decide
  kind := Or.inr (by decide)

theorem earlyVacancy_cumulative :
    Cumulative (payoutBase earlyVacancy_linked) (fun _ => emptyCache) forkOrigin earlyVacancy :=
  ⟨by decide, by decide, by decide, by decide, by decide, by decide, by decide, trivial⟩

theorem lateVacancy_cumulative :
    Cumulative (payoutBase lateVacancy_linked) (fun _ => emptyCache) forkOrigin lateVacancy :=
  ⟨by decide, by decide, by decide, by decide, by decide, by decide, by decide, trivial⟩

end Sample

end HashAhead.Reward

import HashAhead.Dex.Market

/-! What the fills of `MatchOrder` add up to. No order gives more than its amount, each fill
completes an order, the better orders of a pass come first, and in the end no two orders that are
still open cross. -/

namespace HashAhead.Dex
open Foundation State List

namespace CoinDexPair
variable {pair : CoinDexPair} {nEnd : Nat} {st st' : Progress}

/-- With the fills before it a fill stays within the amounts of its orders, and one of them it
completes. -/
structure Exact (pair : CoinDexPair) (before : List Fill) (fill : Fill) : Prop where
  within : ∀ type, ∃ value, (fill.key type, value) ∈ (pair.book type).entries ∧
    value.nCompleteAmount.toNat + Fill.total before type (fill.key type) + (fill.amount type).toNat ≤
      value.nOrderAmount.toNat
  completes : ∃ type value, (fill.key type, value) ∈ (pair.book type).entries ∧
    value.nCompleteAmount.toNat + Fill.total before type (fill.key type) + (fill.amount type).toNat =
      value.nOrderAmount.toNat

/-- Every order of the pass that stands before one of the two orders is completely filled. -/
def InPriority (pair : CoinDexPair) (before : List Fill) (fill : Fill) : Prop :=
  ∀ type, ∀ kv ∈ (pair.book type).entries, type.comparator.before kv.1 (fill.key type) = true →
    kv.1.getHeightSlotValue ≤ fill.nMatchEndHeightSlot →
    kv.2.nOrderAmount.toNat ≤ kv.2.nCompleteAmount.toNat + Fill.total before type kv.1

/-- The complete amounts are the former ones with the fills, and the fills are as they should. -/
structure Accounted (pair : CoinDexPair) (st : Progress) : Prop where
  booked : ∀ type, ∀ kv ∈ (pair.book type).entries,
    (st.offer type kv).nCompAmount.toNat = kv.2.nCompleteAmount.toNat + Fill.total st.fills type kv.1
  bounded : ∀ type, ∀ kv ∈ (pair.book type).entries, (∃ fill ∈ st.fills, fill.key type = kv.1) →
    (st.offer type kv).nCompAmount.toNat ≤ kv.2.nOrderAmount.toNat
  exact : Throughout pair.Exact st.fills
  priority : Throughout pair.InPriority st.fills

theorem accounted_startMatch (pair : CoinDexPair) : pair.Accounted pair.startMatch where
  booked _ _ _ := rfl
  bounded := by
    rintro _ _ _ ⟨_, mem, _⟩
    cases mem
  exact := .nil
  priority := .nil

section
variable {fill : Fill} {orders : OrderType → DexOrderKey × DexOrderValue}
  (trade : TradeOf pair nEnd st st' fill orders)
include trade

theorem TradeOf.toNat_comp (type : OrderType) :
    (st'.offer type (orders type)).nCompAmount.toNat =
        (st.offer type (orders type)).nCompAmount.toNat + (fill.amount type).toNat ∧
      (st.offer type (orders type)).nCompAmount.toNat + (fill.amount type).toNat ≤
        (orders type).2.nOrderAmount.toNat ∧
      (fill.amount type = (st.offer type (orders type)).left →
        (st.offer type (orders type)).nCompAmount.toNat + (fill.amount type).toNat =
          (orders type).2.nOrderAmount.toNat) := by
  obtain ⟨_, _, _, isOpen, _⟩ := mem_offers.mp (mem_of_mem_head? (trade.best type))
  have within := trade.within type
  have left := Offer.toNat_left isOpen
  have amount : (st.offer type (orders type)).nOrderAmount = (orders type).2.nOrderAmount := rfl
  refine ⟨?_, ?_, fun whole => ?_⟩
  · rw [trade.comp, Offer.toNat_comp_add isOpen within]
  · rw [BitVec.lt_def] at isOpen
    rw [← amount]
    omega
  · rw [BitVec.lt_def] at isOpen
    rw [whole, left, ← amount]
    omega

theorem TradeOf.eq_order {type : OrderType} {kv : DexOrderKey × DexOrderValue}
    (mem : kv ∈ (pair.book type).entries) (same : fill.key type = kv.1) : kv = orders type := by
  have keys : (orders type).1 = kv.1 := (trade.key type).symm.trans same
  exact Prod.ext keys.symm ((pair.book type).unique mem (keys ▸ trade.held type))

theorem TradeOf.exact (past : pair.Accounted st) : pair.Exact st.fills fill := by
  constructor
  · intro type
    refine ⟨(orders type).2, trade.key type ▸ trade.held type, ?_⟩
    rw [trade.key, ← past.booked type _ (trade.held type)]
    exact (trade.toNat_comp type).2.1
  · obtain ⟨type, whole⟩ := trade.full
    refine ⟨type, (orders type).2, trade.key type ▸ trade.held type, ?_⟩
    rw [trade.key, ← past.booked type _ (trade.held type)]
    exact (trade.toNat_comp type).2.2 whole

/-- An open order of the pass that stands before the best one would have been the best one. -/
theorem TradeOf.inPriority (past : pair.Accounted st) : pair.InPriority st.fills fill := by
  intro type kv mem better slot
  by_contra short
  rw [← past.booked type kv mem, Nat.not_le] at short
  rw [trade.slot] at slot
  rw [trade.key] at better
  have inPass : InPass nEnd kv.1 := by
    unfold InPass
    omega
  have offered := mem_offers.mpr ⟨kv, mem, inPass, short, rfl⟩
  obtain ⟨rest, split⟩ := List.head?_eq_some_iff.mp (trade.best type)
  have sorted := pair.sorted_offers nEnd st type
  rw [split] at sorted offered
  rcases mem_cons.mp offered with same | later
  · exact type.comparator.ne_of_before better (congrArg Offer.key same)
  · have after : type.comparator.before (orders type).1 kv.1 = true := (pairwise_cons.mp sorted).1 _ later
    rw [type.comparator.asymm better] at after
    cases after

end

theorem accounted_trade (past : pair.Accounted st) (traded : pair.trade nEnd st = some st') :
    pair.Accounted st' := by
  obtain ⟨fill, orders, trade⟩ := tradeOf traded
  constructor
  · intro type kv mem
    rw [trade.fills, Fill.total_snoc]
    split_ifs with same
    · rw [trade.eq_order mem same, (trade.toNat_comp type).1, past.booked type _ (trade.held type)]
      omega
    · have apart : kv.1 ≠ (orders type).1 := fun shared => same ((trade.key type).trans shared.symm)
      rw [trade.others type kv apart, past.booked type kv mem, Nat.add_zero]
  · rintro type kv mem ⟨touching, inFills, key⟩
    by_cases same : fill.key type = kv.1
    · rw [trade.eq_order mem same, (trade.toNat_comp type).1]
      exact (trade.toNat_comp type).2.1
    · have apart : kv.1 ≠ (orders type).1 := fun shared => same ((trade.key type).trans shared.symm)
      rw [trade.others type kv apart]
      rw [trade.fills] at inFills
      rcases mem_append.mp inFills with earlier | last
      · exact past.bounded type kv mem ⟨touching, earlier, key⟩
      · rw [mem_singleton.mp last] at key
        exact absurd key same
  · rw [trade.fills]
    exact past.exact.snoc (trade.exact past)
  · rw [trade.fills]
    exact past.priority.snoc (trade.inPriority past)

theorem Accounted.offered (accounted : pair.Accounted st) {type : OrderType} {kv : DexOrderKey × DexOrderValue}
    (mem : kv ∈ (pair.book type).entries) (slot : kv.1.getHeightSlotValue ≤ nEnd)
    (short : kv.2.nCompleteAmount.toNat + Fill.total st.fills type kv.1 < kv.2.nOrderAmount.toNat) :
    st.offer type kv ∈ pair.offers nEnd st type := by
  refine mem_offers.mpr ⟨kv, mem, fun late => absurd late.2 (Nat.not_lt.mpr slot), ?_, rfl⟩
  rw [BitVec.lt_def, accounted.booked type kv mem]
  exact short

theorem matchPasses_invariant {I : Progress → Prop}
    (keeps : ∀ nEnd st st', I st → pair.trade nEnd st = some st' → I st') (slots : List Nat) (start : I st) :
    I (pair.matchPasses slots st) := by
  induction slots generalizing st with
  | nil => exact start
  | cons nEnd slots ih => exact ih ((funcMatch_exhausts nEnd st).invariant (keeps nEnd) start)

theorem accounted_matched : pair.Accounted pair.matched :=
  matchPasses_invariant (fun _ _ _ => accounted_trade) _ pair.accounted_startMatch

/-- After passes in rising order the market stands still in each of them. -/
theorem matchPasses_still {slots : List Nat} (rising : slots.Pairwise (· ≤ ·))
    (positive : ∀ nEnd ∈ slots, nEnd ≠ 0) (st : Progress) {nEnd : Nat} (mem : nEnd ∈ slots) :
    pair.trade nEnd (pair.matchPasses slots st) = none := by
  obtain ⟨before, last, rfl⟩ : ∃ before last, slots = before ++ [last] := by
    rcases eq_nil_or_concat slots with rfl | ⟨before, last, rfl⟩
    · cases mem
    · exact ⟨before, last, concat_eq_append⟩
  have ends : pair.matchPasses (before ++ [last]) st = pair.funcMatch last (pair.matchPasses before st) := by
    simp [matchPasses]
  rw [ends]
  apply trade_eq_none_of_le (positive nEnd mem) _ (funcMatch_exhausts last _).stuck
  rcases mem_append.mp mem with earlier | this
  · exact (pairwise_append.mp rising).2.2 nEnd earlier last (mem_singleton_self last)
  · rw [mem_singleton.mp this]

theorem mem_setMatchHeightSlot {nEnd : Nat} : nEnd ∈ pair.setMatchHeightSlot ↔
    ∃ type, ∃ kv ∈ (pair.book type).entries, pair.InLimit kv.1 ∧ kv.2.nCompleteAmount < kv.2.nOrderAmount ∧
      kv.1.getHeightSlotValue = nEnd := by
  unfold setMatchHeightSlot openHeightSlots
  rw [mem_insertionSort, mem_dedup, mem_append]
  simp only [List.mem_map, mem_filter, decide_eq_true_eq, gt_iff_lt]
  constructor
  · rintro (⟨kv, ⟨mem, inLimit, isOpen⟩, slot⟩ | ⟨kv, ⟨mem, inLimit, isOpen⟩, slot⟩)
    exacts [⟨.sell, kv, mem, inLimit, isOpen, slot⟩, ⟨.buy, kv, mem, inLimit, isOpen, slot⟩]
  · rintro ⟨_ | _, kv, mem, inLimit, isOpen, slot⟩
    exacts [Or.inl ⟨kv, ⟨mem, inLimit, isOpen⟩, slot⟩, Or.inr ⟨kv, ⟨mem, inLimit, isOpen⟩, slot⟩]

theorem rising_setMatchHeightSlot (pair : CoinDexPair) : pair.setMatchHeightSlot.Pairwise (· ≤ ·) :=
  pairwise_insertionSort _ _

def Placed (pair : CoinDexPair) : Prop := ∀ type, ∀ kv ∈ (pair.book type).entries, kv.1.nHeight ≠ 0

theorem Placed.positive (placed : pair.Placed) {nEnd : Nat} (mem : nEnd ∈ pair.setMatchHeightSlot) : nEnd ≠ 0 := by
  obtain ⟨type, kv, held, _, _, rfl⟩ := mem_setMatchHeightSlot.mp mem
  exact Nat.ne_of_gt (DexOrderKey.getHeightSlotStatic_pos (placed type kv held) _)

/-- In the records of `MatchOrder` no order is filled beyond its amount, and each record fills
one of its orders completely. -/
theorem matchOrder_exact (pair : CoinDexPair) (_fits : pair.Fits) :
    pair.matchOrder.1.vMatchOrderRecord = pair.matched.fills.map Fill.record ∧
      Throughout pair.Exact pair.matched.fills ∧
      ∀ type, ∀ kv ∈ (pair.book type).entries, (∃ fill ∈ pair.matched.fills, fill.key type = kv.1) →
        kv.2.nCompleteAmount.toNat + Fill.total pair.matched.fills type kv.1 ≤ kv.2.nOrderAmount.toNat := by
  have accounted := pair.accounted_matched
  refine ⟨rfl, accounted.exact, fun type kv member touched => ?_⟩
  rw [← accounted.booked type kv member]
  exact accounted.bounded type kv member touched

end CoinDexPair

namespace Sample

/-- An order of a small book, with its number for all that tells it from others. -/
def entry (nPrice : UInt256) (nHeight : UInt32) (nNumber : UInt64) (nAmount : UInt256) : DexOrderKey × DexOrderValue :=
  (⟨nPrice, nHeight, 0, BitVec.ofNat 256 nNumber.toNat⟩, ⟨BitVec.ofNat 160 nNumber.toNat, nNumber, nAmount, 0, 0, 1, 0⟩)

def bazaar : CoinDexPair :=
  { CoinDexPair.new [0x41] [0x42] 1 2 10 0 with
    mapSellOrder := (SortedMap.empty.insert (entry 20 1 1 5).1 (entry 20 1 1 5).2).insert
      (entry 25 2 2 7).1 (entry 25 2 2 7).2
    mapBuyOrder := (SortedMap.empty.insert (entry 30 2 3 12).1 (entry 30 2 3 12).2).insert
      (entry 22 1 4 8).1 (entry 22 1 4 8).2 }

theorem bazaar_fits : bazaar.Fits := by
  constructor
  · rintro (_ | _) (_ | _) <;> decide
  · rintro (_ | _) <;> decide

theorem matchOrder_exact_bazaar : bazaar.matched.fills.length = 3 ∧ Throughout bazaar.Exact bazaar.matched.fills :=
  ⟨by decide, (CoinDexPair.matchOrder_exact bazaar bazaar_fits).2.1⟩

end Sample

namespace CoinDexPair

/-- `MatchOrder` leaves no two open orders within the limit that cross, and fills the better
orders of a pass first. -/
theorem matchOrder_complete (pair : CoinDexPair) (_fits : pair.Fits) (placed : pair.Placed) :
    (∀ sell ∈ pair.mapSellOrder.entries, ∀ buy ∈ pair.mapBuyOrder.entries, pair.InLimit sell.1 → pair.InLimit buy.1 →
      sell.2.nCompleteAmount.toNat + Fill.total pair.matched.fills .sell sell.1 < sell.2.nOrderAmount.toNat →
      buy.2.nCompleteAmount.toNat + Fill.total pair.matched.fills .buy buy.1 < buy.2.nOrderAmount.toNat →
      buy.1.nPrice.toNat < sell.1.nPrice.toNat) ∧
      Throughout pair.InPriority pair.matched.fills := by
  have accounted := pair.accounted_matched
  refine ⟨?_, accounted.priority⟩
  intro sell inSells buy inBuys sellLimit buyLimit sellOpen buyOpen
  have sellSlot : sell.1.getHeightSlotValue ∈ pair.setMatchHeightSlot :=
    mem_setMatchHeightSlot.mpr ⟨.sell, sell, inSells, sellLimit, by rw [BitVec.lt_def]; omega, rfl⟩
  have buySlot : buy.1.getHeightSlotValue ∈ pair.setMatchHeightSlot :=
    mem_setMatchHeightSlot.mpr ⟨.buy, buy, inBuys, buyLimit, by rw [BitVec.lt_def]; omega, rfl⟩
  -- the pass of the later of the two orders sees both
  obtain ⟨nEnd, last, sellIn, buyIn⟩ : ∃ nEnd ∈ pair.setMatchHeightSlot,
      sell.1.getHeightSlotValue ≤ nEnd ∧ buy.1.getHeightSlotValue ≤ nEnd := by
    rcases Nat.le_total sell.1.getHeightSlotValue buy.1.getHeightSlotValue with later | later
    · exact ⟨_, buySlot, later, le_rfl⟩
    · exact ⟨_, sellSlot, le_rfl, later⟩
  have still : pair.trade nEnd pair.matched = none :=
    matchPasses_still pair.rising_setMatchHeightSlot (fun _ => placed.positive) _ last
  exact trade_eq_none still (accounted.offered inSells sellIn sellOpen) (accounted.offered inBuys buyIn buyOpen)

end CoinDexPair

namespace Sample

theorem bazaar_placed : bazaar.Placed := by
  rintro (_ | _) <;> decide

theorem matchOrder_complete_bazaar : bazaar.matched.fills.length = 3 ∧ Throughout bazaar.InPriority bazaar.matched.fills :=
  ⟨by decide, (CoinDexPair.matchOrder_complete bazaar bazaar_fits bazaar_placed).2⟩

end Sample
end HashAhead.Dex

import HashAhead.Dex.Fills

/-! The records of `MatchOrder` one after the other: each is made from the rests that the records
before it leave of its two orders, and from the price of the record before. Amounts and prices are
any 256-bit words. The last complete price stays in the pair, so a second match starts from another price. -/

namespace HashAhead.Dex
open Foundation State List

section Price
variable {nBuyPrice nSellPrice : UInt256} (crossed : nSellPrice ≤ nBuyPrice) (nPrev : UInt256)
include crossed

theorem calcCompletePrice_le : calcCompletePrice nBuyPrice nSellPrice nPrev ≤ nBuyPrice := by
  unfold calcCompletePrice
  split_ifs with above below
  · exact crossed
  · exact below
  · exact BitVec.le_refl _

theorem le_calcCompletePrice : nSellPrice ≤ calcCompletePrice nBuyPrice nSellPrice nPrev := by
  unfold calcCompletePrice
  split_ifs with above below
  · exact BitVec.le_refl _
  · exact BitVec.le_of_lt (BitVec.not_le.mp above)
  · exact crossed

end Price

namespace MatchOrderRecord

structure Between (record : MatchOrderRecord) (sell buy : DexOrderKey × DexOrderValue) : Prop where
  destSell : record.destSellOrder = sell.2.destOrder
  sellNumber : record.nSellOrderNumber = sell.2.nOrderNumber
  sellPrice : record.nSellCompletePrice = sell.1.nPrice
  destBuy : record.destBuyOrder = buy.2.destOrder
  buyNumber : record.nBuyOrderNumber = buy.2.nOrderNumber
  buyPrice : record.nBuyCompletePrice = buy.1.nPrice

def nextPrice (nPrev : UInt256) (record : MatchOrderRecord) : UInt256 :=
  calcCompletePrice record.nBuyCompletePrice record.nSellCompletePrice nPrev

/-- One of the two amounts is the other one at the price, rounded down over the integers. -/
def Settles (record : MatchOrderRecord) (nSellPriceAnchor : UInt256) : Prop :=
  record.nBuyCompleteAmount.toNat =
      record.nSellCompleteAmount.toNat * record.nCompletePrice.toNat / nSellPriceAnchor.toNat ∨
    record.nSellCompleteAmount.toNat =
      record.nBuyCompleteAmount.toNat * nSellPriceAnchor.toNat / record.nCompletePrice.toNat

end MatchOrderRecord

open MatchOrderRecord

namespace CoinDexPair

def lastPrice (pair : CoinDexPair) (before : List Fill) : UInt256 :=
  (before.map Fill.record).foldl nextPrice pair.nPrevCompletePrice

def rest (pair : CoinDexPair) (before : List Fill) (type : OrderType) (key : DexOrderKey) : Nat :=
  match (pair.book type).find key with
  | some value => value.nOrderAmount.toNat - (value.nCompleteAmount.toNat + Fill.total before type key)
  | none => 0

def asked (pair : CoinDexPair) (before : List Fill) (fill : Fill) : Nat :=
  worth (pair.rest before .sell fill.keySell) (nextPrice (pair.lastPrice before) fill.record).toNat
    pair.nSellPriceAnchor.toNat

structure Recorded (pair : CoinDexPair) (before : List Fill) (fill : Fill) : Prop where
  orders : ∃ sell ∈ pair.mapSellOrder.entries, ∃ buy ∈ pair.mapBuyOrder.entries,
    fill.record.Between sell buy ∧ sell.1.nPrice ≤ buy.1.nPrice
  price : fill.record.nCompletePrice = nextPrice (pair.lastPrice before) fill.record
  isOpen : ∀ type, 0 < pair.rest before type (fill.key type)
  within : ∀ type, (fill.amount type).toNat ≤ pair.rest before type (fill.key type)
  sold : fill.record.nSellCompleteAmount.toNat =
    if pair.rest before .buy fill.keyBuy < pair.asked before fill then
      pair.rest before .buy fill.keyBuy * pair.nSellPriceAnchor.toNat / fill.record.nCompletePrice.toNat
    else pair.rest before .sell fill.keySell
  bought : fill.record.nBuyCompleteAmount.toNat = min (pair.rest before .buy fill.keyBuy) (pair.asked before fill)

section Run
variable {pair : CoinDexPair} {nEnd : Nat} {st st' : Progress}

theorem Accounted.left {offer : Offer} {type : OrderType} (past : pair.Accounted st)
    (offered : offer ∈ pair.offers nEnd st type) :
    offer.left.toNat = pair.rest st.fills type offer.key ∧ 0 < offer.left.toNat := by
  obtain ⟨kv, mem, _, isOpen, rfl⟩ := mem_offers.mp offered
  have found := ((pair.book type).find_eq_some_iff kv.1 kv.2).mpr mem
  have booked := past.booked type kv mem
  have left := Offer.toNat_left isOpen
  rw [BitVec.lt_def] at isOpen
  refine ⟨?_, by omega⟩
  rw [left, booked]
  unfold rest
  rw [show (st.offer type kv).key = kv.1 from rfl, found]
  rfl

theorem recorded_of_trade (past : pair.Accounted st) (price : st.nPrevCompletePrice = pair.lastPrice st.fills)
    (traded : pair.trade nEnd st = some st') :
    ∃ fill, st'.fills = st.fills ++ [fill] ∧ st'.nPrevCompletePrice = fill.record.nCompletePrice ∧
      pair.Recorded st.fills fill := by
  obtain ⟨sell, buy, bestSell, bestBuy, crossed, rfl⟩ := trade_eq_some traded
  have memberSell := mem_of_mem_head? bestSell
  have memberBuy := mem_of_mem_head? bestBuy
  obtain ⟨leftSell, openSell⟩ := past.left memberSell
  obtain ⟨leftBuy, openBuy⟩ := past.left memberBuy
  obtain ⟨sold, bought⟩ := makeFill_amounts pair.nSellPriceAnchor st.nPrevCompletePrice sell.left buy.left nEnd sell buy
  obtain ⟨fromSell, fromBuy, _⟩ := makeFill_spec pair.nSellPriceAnchor st.nPrevCompletePrice sell.left buy.left nEnd
    sell buy
  obtain ⟨kvSell, heldSell, _, _, rfl⟩ := mem_offers.mp memberSell
  obtain ⟨kvBuy, heldBuy, _, _, rfl⟩ := mem_offers.mp memberBuy
  rw [price] at sold bought fromSell fromBuy ⊢
  rw [leftSell, leftBuy] at sold bought
  rw [leftSell] at fromSell openSell
  rw [leftBuy] at fromBuy openBuy
  refine ⟨_, rfl, rfl, ⟨kvSell, heldSell, kvBuy, heldBuy, ⟨rfl, rfl, rfl, rfl, rfl, rfl⟩, crossed⟩, rfl, ?_, ?_, sold, bought⟩
  · rintro (_ | _)
    exacts [openSell, openBuy]
  · rintro (_ | _)
    exacts [fromSell, fromBuy]

structure Noted (pair : CoinDexPair) (st : Progress) : Prop where
  accounted : pair.Accounted st
  price : st.nPrevCompletePrice = pair.lastPrice st.fills
  prices : pair.nPrevCompletePrice :: (st.fills.map Fill.record).map (·.nCompletePrice) =
    (st.fills.map Fill.record).scanl nextPrice pair.nPrevCompletePrice
  recorded : Throughout pair.Recorded st.fills

theorem noted_trade (past : pair.Noted st) (traded : pair.trade nEnd st = some st') : pair.Noted st' := by
  obtain ⟨fill, fills, price, noted⟩ := recorded_of_trade past.accounted past.price traded
  have last : pair.lastPrice st'.fills = fill.record.nCompletePrice := by
    rw [noted.price, fills]
    simp [lastPrice]
  refine ⟨accounted_trade past.accounted traded, price.trans last.symm, ?_, ?_⟩
  · rw [fills, map_append, scanl_append, map_append, ← cons_append, past.prices]
    congr 1
    exact congrArg (fun nPrice => [nPrice]) noted.price
  · rw [fills]
    exact past.recorded.snoc noted

theorem noted_matched (pair : CoinDexPair) : pair.Noted pair.matched :=
  matchPasses_invariant (fun _ _ _ => noted_trade) _ ⟨pair.accounted_startMatch, rfl, rfl, .nil⟩

end Run

/-- Every record trades within the prices of its orders, at the price that follows from the one before. -/
theorem matchOrder_prices (pair : CoinDexPair) :
    let records := pair.matchOrder.1.vMatchOrderRecord
    (∀ record ∈ records, ∃ sell ∈ pair.mapSellOrder.entries, ∃ buy ∈ pair.mapBuyOrder.entries,
      record.Between sell buy ∧ sell.1.nPrice ≤ record.nCompletePrice ∧ record.nCompletePrice ≤ buy.1.nPrice) ∧
    pair.nPrevCompletePrice :: records.map (·.nCompletePrice) = records.scanl nextPrice pair.nPrevCompletePrice := by
  refine ⟨fun record member => ?_, pair.noted_matched.prices⟩
  obtain ⟨fill, inFills, rfl⟩ := List.mem_map.mp member
  obtain ⟨before, after, split⟩ := append_of_mem inFills
  have recorded := pair.noted_matched.recorded before fill after split
  obtain ⟨sell, heldSell, buy, heldBuy, between, crossed⟩ := recorded.orders
  refine ⟨sell, heldSell, buy, heldBuy, between, ?_⟩
  rw [recorded.price, nextPrice, between.sellPrice, between.buyPrice]
  exact ⟨le_calcCompletePrice crossed _, calcCompletePrice_le crossed _⟩

/-- The rest of the sell order is worth something and, if it is worth more than the rest of the
buy order, that rest is worth one unit of the sell coin. -/
def Worthwhile (pair : CoinDexPair) (before : List Fill) (fill : Fill) : Prop :=
  0 < pair.asked before fill ∧ (pair.rest before .buy fill.keyBuy < pair.asked before fill →
    (nextPrice (pair.lastPrice before) fill.record).toNat ≤
      pair.rest before .buy fill.keyBuy * pair.nSellPriceAnchor.toNat)

/-- The rest of the sell order at the price is a 256-bit word, where it is used. -/
def Unwrapped (pair : CoinDexPair) (before : List Fill) (fill : Fill) : Prop :=
  pair.rest before .buy fill.keyBuy < pair.asked before fill ∨ pair.nSellPriceAnchor = 0 ∨
    pair.rest before .sell fill.keySell * (nextPrice (pair.lastPrice before) fill.record).toNat < 2 ^ 256

variable {pair : CoinDexPair} {before : List Fill} {fill : Fill}

theorem Recorded.pays_iff (noted : pair.Recorded before fill)
    (priced : ∀ kv ∈ pair.mapSellOrder.entries, 0 < kv.1.nPrice) :
    0 < fill.record.nSellCompleteAmount ∧ 0 < fill.record.nBuyCompleteAmount ↔ pair.Worthwhile before fill := by
  have positive : 0 < fill.record.nCompletePrice.toNat := by
    obtain ⟨sell, held, buy, _, between, crossed⟩ := noted.orders
    have least := le_calcCompletePrice crossed (pair.lastPrice before)
    rw [← between.sellPrice, ← between.buyPrice, ← nextPrice, ← noted.price, between.sellPrice] at least
    exact Nat.lt_of_lt_of_le (priced sell held) least
  have openSell := noted.isOpen .sell
  have openBuy := noted.isOpen .buy
  unfold Worthwhile
  rw [← noted.price, BitVec.lt_def, BitVec.lt_def, noted.sold, noted.bought]
  change 0 < pair.rest before .sell fill.keySell at openSell
  change 0 < pair.rest before .buy fill.keyBuy at openBuy
  rw [show (0 : UInt256).toNat = 0 from rfl, lt_min_iff, and_comm, and_iff_right openBuy]
  apply and_congr_right
  intro _
  split_ifs with exceeds
  · rw [Nat.div_pos_iff]
    simp [positive, exceeds]
  · simp [openSell, exceeds]

/-- A product that wraps loses more than one unit of the anchor. -/
theorem worth_lt {nSell nPrice nAnchor : Nat} (positive : 0 < nAnchor) (word : nAnchor < 2 ^ 256)
    (wraps : 2 ^ 256 ≤ nSell * nPrice) : worth nSell nPrice nAnchor < nSell * nPrice / nAnchor := by
  have parts := Nat.mod_add_div (nSell * nPrice) (2 ^ 256)
  have full : 0 < nSell * nPrice / 2 ^ 256 := Nat.div_pos wraps (by decide)
  unfold worth
  calc
    _ < (nSell * nPrice % 2 ^ 256 + nAnchor) / nAnchor := by
      rw [Nat.add_div_right _ positive]
      exact Nat.lt_succ_self _
    _ ≤ _ := Nat.div_le_div_right (by omega)

theorem Recorded.settles_iff (noted : pair.Recorded before fill) :
    fill.record.Settles pair.nSellPriceAnchor ↔ pair.Unwrapped before fill := by
  unfold Settles Unwrapped
  rw [noted.sold, noted.bought]
  by_cases exceeds : pair.rest before .buy fill.keyBuy < pair.asked before fill
  · rw [if_pos exceeds, min_eq_left (Nat.le_of_lt exceeds)]
    exact iff_of_true (.inr rfl) (.inl exceeds)
  rw [if_neg exceeds, min_eq_right (Nat.le_of_not_lt exceeds), or_iff_right exceeds, ← noted.price]
  unfold asked
  rw [← noted.price]
  generalize pair.rest before .sell fill.keySell = nSell, fill.record.nCompletePrice.toNat = nPrice
  by_cases free : pair.nSellPriceAnchor = 0
  · exact iff_of_true (.inl (by simp [worth, free])) (.inl free)
  rw [or_iff_right free]
  constructor
  · intro exact_
    by_contra wraps
    rw [Nat.not_lt] at wraps
    have positive : 0 < pair.nSellPriceAnchor.toNat := by
      rw [Nat.pos_iff_ne_zero]
      exact fun zero => free (BitVec.eq_of_toNat_eq zero)
    rcases exact_ with bought | sold
    · exact absurd bought (Nat.ne_of_lt (worth_lt positive pair.nSellPriceAnchor.isLt wraps))
    · have less := worth_mul_le nSell nPrice pair.nSellPriceAnchor.toNat
      have back := Nat.div_mul_le_self (worth nSell nPrice pair.nSellPriceAnchor.toNat * pair.nSellPriceAnchor.toNat) nPrice
      rw [← sold] at back
      have word := Nat.mod_lt (nSell * nPrice) (show 0 < 2 ^ 256 by decide)
      omega
  · intro small
    left
    rw [worth, Nat.mod_eq_of_lt small]

end CoinDexPair

namespace Sample

def booth (nPrice nSellAmount nBuyAmount : UInt256) : CoinDexPair :=
  { CoinDexPair.new [0x41] [0x42] 1 2 10 0 with
    mapSellOrder := SortedMap.empty.insert (entry nPrice 1 1 nSellAmount).1 (entry nPrice 1 1 nSellAmount).2
    mapBuyOrder := SortedMap.empty.insert (entry nPrice 1 2 nBuyAmount).1 (entry nPrice 1 2 nBuyAmount).2 }

def half : UInt256 := BitVec.ofNat 256 (2 ^ 255)

end Sample

namespace CoinDexPair
variable {pair : CoinDexPair}

def startFrom (nPrevCompletePrice : UInt256) : Progress := ⟨fun _ _ => none, nPrevCompletePrice, []⟩

/-- The best offers of a pass before any trade, if they cross. -/
def crossing (pair : CoinDexPair) (nEnd : Nat) : Option (Offer × Offer) :=
  match (pair.offers nEnd (startFrom 0) .sell).head?, (pair.offers nEnd (startFrom 0) .buy).head? with
  | some sell, some buy => if sell.key.nPrice ≤ buy.key.nPrice then some (sell, buy) else none
  | _, _ => none

def firstFill (pair : CoinDexPair) (nEnd : Nat) (best : Offer × Offer) (prev : UInt256) : Fill :=
  makeFill pair.nSellPriceAnchor prev nEnd best.1 best.2 best.1.left best.2.left

theorem trade_startFrom (nEnd : Nat) (prev : UInt256) : pair.trade nEnd (startFrom prev) =
    (pair.crossing nEnd).map fun best => (startFrom 0).push best.1 best.2 (pair.firstFill nEnd best prev) := by
  show (match (pair.offers nEnd (startFrom 0) .sell).head?, (pair.offers nEnd (startFrom 0) .buy).head? with
    | some sell, some buy => _
    | _, _ => none) = _
  unfold crossing
  split
  · split_ifs <;> rfl
  · rfl

/-- The passes from any price: nothing is traded, or the first trade is of the same two offers. -/
theorem matchPasses_startFrom (slots : List Nat) :
    (∀ prev, pair.matchPasses slots (startFrom prev) = startFrom prev) ∨
    ∃ rest nEnd best, ∀ prev, pair.matchPasses slots (startFrom prev) = pair.matchPasses rest
      (pair.funcMatch nEnd ((startFrom 0).push best.1 best.2 (pair.firstFill nEnd best prev))) := by
  induction slots with
  | nil => exact Or.inl fun _ => rfl
  | cons nEnd rest ih =>
    cases crossed : pair.crossing nEnd with
    | some best =>
      refine Or.inr ⟨rest, nEnd, best, fun prev => congrArg (pair.matchPasses rest) ?_⟩
      have traded := pair.trade_startFrom nEnd prev
      rw [crossed] at traded
      exact (funcMatch_exhausts nEnd _).unique (.next traded (funcMatch_exhausts nEnd _))
    | none =>
      have still : ∀ prev, pair.matchPasses (nEnd :: rest) (startFrom prev) = pair.matchPasses rest (startFrom prev) := by
        intro prev
        have stuck := pair.trade_startFrom nEnd prev
        rw [crossed] at stuck
        exact congrArg (pair.matchPasses rest) ((funcMatch_exhausts nEnd _).eq_of_stuck stuck)
      simpa only [still] using ih

theorem matchPasses_matchOrder (slots : List Nat) (st : Progress) :
    pair.matchOrder.2.matchPasses slots st = pair.matchPasses slots st := by
  induction slots generalizing st with
  | nil => rfl
  | cons nEnd rest ih =>
    have run : Exhausts (pair.trade nEnd) st (pair.matchOrder.2.funcMatch nEnd st) :=
      pair.matchOrder.2.funcMatch_exhausts nEnd st
    exact (ih _).trans (congrArg (pair.matchPasses rest) (run.unique (funcMatch_exhausts nEnd st)))

end CoinDexPair

end HashAhead.Dex

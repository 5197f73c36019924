import HashAhead.Dex.Match
import HashAhead.Foundation.Exhaust

/-! The market behind the loops of `MatchOrder`. A pass sees the open offers of both sides, best
first; the two best trade while their prices cross. The nested loops of a pass take exactly the
trades of this market, until there is none. -/

namespace HashAhead.Dex
open Foundation State List Option Progress Offer

section Amounts
variable (nAnchor nPrev nCalcSell nCalcBuy : UInt256) (nEnd : Nat) (sell buy : Offer)

def worth (nSellAmount nCompletePrice nSellPriceAnchor : Nat) : Nat :=
  nSellAmount * nCompletePrice % 2 ^ 256 / nSellPriceAnchor

theorem worth_mul_le (nSellAmount nCompletePrice nSellPriceAnchor : Nat) :
    worth nSellAmount nCompletePrice nSellPriceAnchor * nSellPriceAnchor ≤ nSellAmount * nCompletePrice % 2 ^ 256 :=
  Nat.div_mul_le_self _ _

theorem toNat_calcBuyAmount (nAmount nPrice : UInt256) :
    (calcBuyAmount nAmount nPrice nAnchor).toNat = worth nAmount.toNat nPrice.toNat nAnchor.toNat := by
  unfold calcBuyAmount worth
  split_ifs with zero
  · rw [zero, show (0 : UInt256).toNat = 0 from rfl, Nat.div_zero]
  · rw [BitVec.toNat_udiv, BitVec.toNat_mul]

/-- The amounts of a fill over the integers: only the product of the seller's rest and the price can wrap. -/
theorem makeFill_amounts :
    let record := (makeFill nAnchor nPrev nEnd sell buy nCalcSell nCalcBuy).record
    let nWorth := worth nCalcSell.toNat record.nCompletePrice.toNat nAnchor.toNat
    record.nSellCompleteAmount.toNat = (if nCalcBuy.toNat < nWorth then
        nCalcBuy.toNat * nAnchor.toNat / record.nCompletePrice.toNat else nCalcSell.toNat) ∧
      record.nBuyCompleteAmount.toNat = min nCalcBuy.toNat nWorth := by
  unfold makeFill
  generalize calcCompletePrice buy.key.nPrice sell.key.nPrice nPrev = nPrice
  dsimp only
  rw [← toNat_calcBuyAmount]
  simp only [gt_iff_lt, BitVec.lt_def]
  split_ifs with exceeds
  · refine ⟨?_, (min_eq_left (Nat.le_of_lt exceeds)).symm⟩
    rw [toNat_calcBuyAmount] at exceeds
    have small : nCalcBuy.toNat * nAnchor.toNat < 2 ^ 256 := by
      apply Nat.lt_of_le_of_lt ((Nat.mul_le_mul_right _ (Nat.le_of_lt exceeds)).trans (worth_mul_le _ _ _))
      exact Nat.mod_lt _ (by decide)
    unfold calcSellAmount
    split_ifs with free
    · rw [free, show (0 : UInt256).toNat = 0 from rfl, Nat.div_zero]
    · rw [BitVec.toNat_udiv, BitVec.toNat_mul, Nat.mod_eq_of_lt small]
  · exact ⟨rfl, (min_eq_right (Nat.le_of_not_lt exceeds)).symm⟩

/-- The amounts of a fill are within what is left, and one side is filled completely. -/
theorem makeFill_spec :
    let fill := makeFill nAnchor nPrev nEnd sell buy nCalcSell nCalcBuy
    (fill.amount .sell).toNat ≤ nCalcSell.toNat ∧ (fill.amount .buy).toNat ≤ nCalcBuy.toNat ∧
      (fill.amount .sell = nCalcSell ∨ fill.amount .buy = nCalcBuy) := by
  intro fill
  obtain ⟨sold, bought⟩ := makeFill_amounts nAnchor nPrev nCalcSell nCalcBuy nEnd sell buy
  have within : (fill.amount .buy).toNat ≤ nCalcBuy.toNat := bought.trans_le (min_le_left _ _)
  split_ifs at sold with exceeds
  · -- the buyer's rest is worth less than the seller's, so the seller gives no more than there is
    refine ⟨sold.trans_le ?_, within, .inr (BitVec.eq_of_toNat_eq (bought.trans (min_eq_left (Nat.le_of_lt exceeds))))⟩
    apply Nat.div_le_of_le_mul
    calc
      _ ≤ worth _ _ _ * nAnchor.toNat := Nat.mul_le_mul_right _ (Nat.le_of_lt exceeds)
      _ ≤ _ := (worth_mul_le _ _ _).trans (Nat.mod_le _ _)
      _ = _ := Nat.mul_comm _ _
  · exact ⟨sold.le, within, .inl (BitVec.eq_of_toNat_eq sold)⟩

end Amounts

section Offers

def Offer.reduce (key : DexOrderKey) (nAmount : UInt256) (offer : Offer) : Option Offer :=
  if offer.key = key then
    if offer.nCompAmount + nAmount < offer.nOrderAmount then
      some { offer with nCompAmount := offer.nCompAmount + nAmount }
    else none
  else some offer

def InPass (nEnd : Nat) (key : DexOrderKey) : Prop := ¬(nEnd ≠ 0 ∧ key.getHeightSlotValue > nEnd)

instance (nEnd : Nat) (key : DexOrderKey) : Decidable (InPass nEnd key) := by
  unfold InPass
  infer_instance

def Progress.openOffer (st : Progress) (nEnd : Nat) (type : OrderType) (kv : DexOrderKey × DexOrderValue) :
    Option Offer :=
  if InPass nEnd kv.1 ∧ (st.offer type kv).nCompAmount < (st.offer type kv).nOrderAmount then some (st.offer type kv)
  else none

theorem Progress.openOffer_eq_some {st : Progress} {nEnd : Nat} {type : OrderType} {kv : DexOrderKey × DexOrderValue}
    {offer : Offer} : st.openOffer nEnd type kv = some offer ↔
      InPass nEnd kv.1 ∧ offer.nCompAmount < offer.nOrderAmount ∧ st.offer type kv = offer := by
  unfold openOffer
  rw [ite_none_right_eq_some, some_inj]
  constructor
  · rintro ⟨⟨inPass, isOpen⟩, rfl⟩
    exact ⟨inPass, isOpen, rfl⟩
  · rintro ⟨inPass, isOpen, rfl⟩
    exact ⟨⟨inPass, isOpen⟩, rfl⟩

/-- Both loops pass over an order that is too late and one that is filled. -/
theorem Progress.ite_openOffer {α : Type} (st : Progress) (nEnd : Nat) (type : OrderType)
    (kv : DexOrderKey × DexOrderValue) (go skip : α) :
    (if nEnd ≠ 0 ∧ kv.1.getHeightSlotValue > nEnd then skip
      else if (st.offer type kv).nOrderAmount > (st.offer type kv).nCompAmount then go else skip) =
      (st.openOffer nEnd type kv).elim skip fun _ => go := by
  unfold openOffer InPass
  split_ifs <;> simp_all

namespace CoinDexPair

def offers (pair : CoinDexPair) (nEnd : Nat) (st : Progress) (type : OrderType) : List Offer :=
  (pair.book type).entries.filterMap (st.openOffer nEnd type)

def trade (pair : CoinDexPair) (nEnd : Nat) (st : Progress) : Option Progress :=
  match (pair.offers nEnd st .sell).head?, (pair.offers nEnd st .buy).head? with
  | some sell, some buy =>
    if sell.key.nPrice ≤ buy.key.nPrice then
      some (st.push sell buy
        (makeFill pair.nSellPriceAnchor st.nPrevCompletePrice nEnd sell buy sell.left buy.left))
    else none
  | _, _ => none

variable {pair : CoinDexPair} {nEnd nOther : Nat} {st : Progress} {type : OrderType} {offer sell buy : Offer}

theorem mem_offers : offer ∈ pair.offers nEnd st type ↔
    ∃ kv ∈ (pair.book type).entries, InPass nEnd kv.1 ∧ offer.nCompAmount < offer.nOrderAmount ∧
      st.offer type kv = offer := by
  simp only [offers, mem_filterMap, openOffer_eq_some]

theorem sorted_offers (pair : CoinDexPair) (nEnd : Nat) (st : Progress) (type : OrderType) :
    (pair.offers nEnd st type).Pairwise fun a b => type.comparator.before a.key b.key = true := by
  apply (pair.book type).sorted.filterMap
  intro kv kv' ordered a here b there
  obtain ⟨_, _, rfl⟩ := openOffer_eq_some.mp here
  obtain ⟨_, _, rfl⟩ := openOffer_eq_some.mp there
  exact ordered

section
variable {fill : Fill} (bestSell : sell ∈ pair.offers nOther st .sell) (bestBuy : buy ∈ pair.offers nOther st .buy)
  (keySell : fill.keySell = sell.key) (keyBuy : fill.keyBuy = buy.key)
include bestSell bestBuy keySell keyBuy

theorem openOffer_push {kv : DexOrderKey × DexOrderValue} (mem : kv ∈ (pair.book type).entries) :
    (st.push sell buy fill).openOffer nEnd type kv =
      (st.openOffer nEnd type kv).bind (reduce (fill.key type) (fill.amount type)) := by
  have traded : ∃ best ∈ pair.offers nOther st type, fill.key type = best.key ∧
      (st.push sell buy fill).mapCompleteAmount type =
        Function.update (st.mapCompleteAmount type) best.key (some (best.nCompAmount + fill.amount type)) := by
    cases type with
    | sell => exact ⟨sell, bestSell, keySell, rfl⟩
    | buy => exact ⟨buy, bestBuy, keyBuy, rfl⟩
  obtain ⟨best, inOffers, key, amounts⟩ := traded
  obtain ⟨kv', mem', _, isOpen, rfl⟩ := mem_offers.mp inOffers
  unfold openOffer
  by_cases same : kv.1 = kv'.1
  · -- the order that traded
    have entry : kv = kv' := Prod.ext same ((pair.book type).unique (same ▸ mem) mem')
    subst entry
    have after : (st.push sell buy fill).offer type kv =
        { st.offer type kv with nCompAmount := (st.offer type kv).nCompAmount + fill.amount type } := by
      unfold offer at amounts ⊢
      rw [amounts]
      simp
    rw [after]
    by_cases inPass : InPass nEnd kv.1
    · simp only [inPass, isOpen, and_true, if_true, bind_some, reduce, key, true_and]
    · simp [inPass]
  · have after : (st.push sell buy fill).offer type kv = st.offer type kv := by
      unfold offer at amounts ⊢
      rw [amounts, Function.update_of_ne same]
    rw [after]
    have apart : ¬(st.offer type kv).key = fill.key type := fun shared => same (shared.trans key)
    split_ifs with isIn
    · simp only [bind_some, reduce, if_neg apart]
    · rfl

/-- The offers after a trade, of any pass, follow from those before it. -/
theorem offers_push :
    pair.offers nEnd (st.push sell buy fill) type =
      (pair.offers nEnd st type).filterMap (reduce (fill.key type) (fill.amount type)) := by
  unfold offers
  rw [filterMap_filterMap]
  apply filterMap_congr
  intro kv mem
  exact openOffer_push bestSell bestBuy keySell keyBuy mem

end

theorem trade_eq_some {st' : Progress} (traded : pair.trade nEnd st = some st') :
    ∃ sell buy, (pair.offers nEnd st .sell).head? = some sell ∧ (pair.offers nEnd st .buy).head? = some buy ∧
      sell.key.nPrice ≤ buy.key.nPrice ∧ st' = st.push sell buy
        (makeFill pair.nSellPriceAnchor st.nPrevCompletePrice nEnd sell buy sell.left buy.left) := by
  unfold trade at traded
  split at traded
  · next sell buy bestSell bestBuy =>
    obtain ⟨crossed, pushed⟩ := ite_none_right_eq_some.mp traded
    exact ⟨sell, buy, bestSell, bestBuy, crossed, (some_inj.mp pushed).symm⟩
  · cases traded

/-- The market stands still when no two of its offers cross. -/
theorem trade_eq_none (still : pair.trade nEnd st = none) (sells : sell ∈ pair.offers nEnd st .sell)
    (buys : buy ∈ pair.offers nEnd st .buy) : buy.key.nPrice.toNat < sell.key.nPrice.toNat := by
  have sellers := pair.sorted_offers nEnd st .sell
  have buyers := pair.sorted_offers nEnd st .buy
  unfold trade at still
  cases asked : pair.offers nEnd st .sell with
  | nil =>
    rw [asked] at sells
    cases sells
  | cons bestSell otherSells =>
    cases bid : pair.offers nEnd st .buy with
    | nil =>
      rw [bid] at buys
      cases buys
    | cons bestBuy otherBuys =>
      rw [asked] at sells sellers
      rw [bid] at buys buyers
      simp only [asked, bid, List.head?_cons, ite_eq_right_iff, reduceCtorEq, imp_false] at still
      have apart : bestBuy.key.nPrice.toNat < bestSell.key.nPrice.toNat := Nat.lt_of_not_le still
      have above : bestSell.key.nPrice.toNat ≤ sell.key.nPrice.toNat := by
        rcases mem_cons.mp sells with rfl | later
        · exact le_rfl
        · have ordered := (DexOrderKey.compareSellOrder_iff _ _).mp ((pairwise_cons.mp sellers).1 sell later)
          omega
      have below : buy.key.nPrice.toNat ≤ bestBuy.key.nPrice.toNat := by
        rcases mem_cons.mp buys with rfl | later
        · exact le_rfl
        · have ordered := (DexOrderKey.compareBuyOrder_iff _ _).mp ((pairwise_cons.mp buyers).1 buy later)
          omega
      omega

/-- A market that stands still in one pass stands still in the earlier ones. -/
theorem trade_eq_none_of_le (some : nEnd ≠ 0) (later : nEnd ≤ nOther) (still : pair.trade nOther st = none) :
    pair.trade nEnd st = none := by
  have more : ∀ type, pair.offers nEnd st type ⊆ pair.offers nOther st type := by
    intro type offer mem
    obtain ⟨kv, held, inPass, isOpen, same⟩ := mem_offers.mp mem
    unfold InPass at inPass
    exact mem_offers.mpr ⟨kv, held, by unfold InPass; omega, isOpen, same⟩
  cases traded : pair.trade nEnd st with
  | none => rfl
  | some next =>
    obtain ⟨sell, buy, bestSell, bestBuy, crossed, _⟩ := trade_eq_some traded
    have apart := trade_eq_none still (more _ (mem_of_mem_head? bestSell)) (more _ (mem_of_mem_head? bestBuy))
    exact absurd crossed (BitVec.not_le.mpr apart)

end CoinDexPair
end Offers

section Sweep

/-- No product of an amount of the book with a price of the book or with the anchor wraps. -/
structure CoinDexPair.Fits (pair : CoinDexPair) : Prop where
  priced : ∀ type type', ∀ kv ∈ (pair.book type).entries, ∀ kv' ∈ (pair.book type').entries,
    kv.2.nOrderAmount.toNat * kv'.1.nPrice.toNat < 2 ^ 256
  anchored : ∀ type, ∀ kv ∈ (pair.book type).entries,
    kv.2.nOrderAmount.toNat * pair.nSellPriceAnchor.toNat < 2 ^ 256

namespace Offer
variable {offer : Offer} {nAmount : UInt256}

section
variable (isOpen : offer.nCompAmount < offer.nOrderAmount)
include isOpen

theorem toNat_left :
    offer.left.toNat = offer.nOrderAmount.toNat - offer.nCompAmount.toNat :=
  BitVec.toNat_sub_of_le (BitVec.le_of_lt isOpen)

theorem left_ne_zero : offer.left ≠ 0 := by
  intro zero
  have least : offer.left.toNat = 0 := congrArg BitVec.toNat zero
  rw [toNat_left isOpen] at least
  rw [BitVec.lt_def] at isOpen
  omega

/-- What an open offer can give adds up without wrapping. -/
theorem toNat_comp_add (within : nAmount.toNat ≤ offer.left.toNat) :
    (offer.nCompAmount + nAmount).toNat = offer.nCompAmount.toNat + nAmount.toNat := by
  rw [toNat_left isOpen] at within
  rw [BitVec.lt_def] at isOpen
  have bound := offer.nOrderAmount.isLt
  rw [BitVec.toNat_add, Nat.mod_eq_of_lt (by omega)]

end

theorem rest_eq_zero_iff (whole part : UInt256) : whole - part = 0 ↔ part = whole := by
  constructor
  · intro none
    bv_omega
  · intro all
    bv_omega

theorem reduce_left (offer : Offer) : offer.reduce offer.key offer.left = none := by
  have full : offer.nCompAmount + offer.left = offer.nOrderAmount := by
    unfold left
    rw [BitVec.add_comm, BitVec.sub_add_cancel]
  unfold reduce
  rw [if_pos rfl, full, if_neg (BitVec.lt_irrefl _)]

theorem reduce_part (isOpen : offer.nCompAmount < offer.nOrderAmount) (within : nAmount.toNat ≤ offer.left.toNat)
    (part : nAmount ≠ offer.left) :
    offer.reduce offer.key nAmount = some { offer with nCompAmount := offer.nCompAmount + nAmount } := by
  have less : nAmount.toNat ≠ offer.left.toNat := fun same => part (BitVec.eq_of_toNat_eq same)
  have rest : offer.nCompAmount + nAmount < offer.nOrderAmount := by
    have sum := toNat_comp_add isOpen within
    rw [toNat_left isOpen] at within less
    rw [BitVec.lt_def]
    omega
  unfold reduce
  rw [if_pos rfl, if_pos rest]

end Offer

namespace CoinDexPair
variable {pair : CoinDexPair} {nEnd : Nat} {st : Progress}

structure TradeOf (pair : CoinDexPair) (nEnd : Nat) (st st' : Progress) (fill : Fill)
    (orders : OrderType → DexOrderKey × DexOrderValue) : Prop where
  fills : st'.fills = st.fills ++ [fill]
  slot : fill.nMatchEndHeightSlot = nEnd
  held : ∀ type, orders type ∈ (pair.book type).entries
  key : ∀ type, fill.key type = (orders type).1
  best : ∀ type, (pair.offers nEnd st type).head? = some (st.offer type (orders type))
  within : ∀ type, (fill.amount type).toNat ≤ (st.offer type (orders type)).left.toNat
  full : ∃ type, fill.amount type = (st.offer type (orders type)).left
  comp : ∀ type, (st'.offer type (orders type)).nCompAmount =
    (st.offer type (orders type)).nCompAmount + fill.amount type
  others : ∀ type kv, kv.1 ≠ (orders type).1 → st'.offer type kv = st.offer type kv

theorem tradeOf {st' : Progress} (traded : pair.trade nEnd st = some st') :
    ∃ fill orders, TradeOf pair nEnd st st' fill orders := by
  obtain ⟨sell, buy, bestSell, bestBuy, crossed, rfl⟩ := trade_eq_some traded
  have memberSell := mem_of_mem_head? bestSell
  have memberBuy := mem_of_mem_head? bestBuy
  obtain ⟨fromSell, fromBuy, full⟩ := makeFill_spec pair.nSellPriceAnchor st.nPrevCompletePrice sell.left buy.left nEnd sell buy
  obtain ⟨kvSell, heldSell, _, _, rfl⟩ := mem_offers.mp memberSell
  obtain ⟨kvBuy, heldBuy, _, _, rfl⟩ := mem_offers.mp memberBuy
  refine ⟨_, OrderType.pick kvSell kvBuy, rfl, rfl, ?_, ?_, ?_, ?_, ?_, ?_, ?_⟩
  · rintro (_ | _)
    exacts [heldSell, heldBuy]
  · rintro (_ | _) <;> rfl
  · rintro (_ | _)
    exacts [bestSell, bestBuy]
  · rintro (_ | _)
    exacts [fromSell, fromBuy]
  · rcases full with whole | whole
    exacts [⟨.sell, whole⟩, ⟨.buy, whole⟩]
  · rintro (_ | _) <;> simp [OrderType.pick, offer, push, Fill.amount]
  · rintro (_ | _) kv apart <;> dsimp only [OrderType.pick] at apart <;>
      simp [offer, push, Function.update_of_ne apart]

variable {done rest : List (DexOrderKey × DexOrderValue)}

theorem head_offers {type : OrderType} {kv : DexOrderKey × DexOrderValue} {offer : Offer}
    (split : (pair.book type).entries = done ++ kv :: rest) (closed : ∀ kv ∈ done, st.openOffer nEnd type kv = none)
    (isOpen : st.openOffer nEnd type kv = some offer) :
    (pair.offers nEnd st type).head? = some offer := by
  unfold offers
  rw [split, filterMap_append, filterMap_eq_nil_iff.mpr closed, nil_append,
    filterMap_cons_some isOpen, List.head?_cons]

theorem trade_eq_none_of_closed {type : OrderType}
    (closed : ∀ kv ∈ (pair.book type).entries, st.openOffer nEnd type kv = none) : pair.trade nEnd st = none := by
  have nobody : pair.offers nEnd st type = [] := filterMap_eq_nil_iff.mpr closed
  unfold trade
  cases type <;> simp [nobody]

theorem closed_of_closes {next : Progress} {type : OrderType}
    (closes : ∀ type, ∀ kv ∈ (pair.book type).entries, st.openOffer nEnd type kv = none →
      next.openOffer nEnd type kv = none)
    (split : (pair.book type).entries = done ++ rest) (closed : ∀ kv ∈ done, st.openOffer nEnd type kv = none) :
    ∀ kv ∈ done, next.openOffer nEnd type kv = none := by
  intro kv mem
  apply closes type kv _ (closed kv mem)
  rw [split]
  exact mem_append_left _ mem

structure BuysMatched (pair : CoinDexPair) (nEnd : Nat) (kvSell : DexOrderKey × DexOrderValue) (st : Progress)
    (result : UInt256 × Progress) : Prop where
  through : ∀ final, Exhausts (pair.trade nEnd) result.2 final → Exhausts (pair.trade nEnd) st final
  closes : ∀ type, ∀ kv ∈ (pair.book type).entries,
    st.openOffer nEnd type kv = none → result.2.openOffer nEnd type kv = none
  emptied : result.1 = 0 → result.2.openOffer nEnd .sell kvSell = none
  still : result.1 ≠ 0 → pair.trade nEnd result.2 = none

variable {kvSell : DexOrderKey × DexOrderValue}

theorem buysMatched_still {nCalc : UInt256} (asked : st.openOffer nEnd .sell kvSell = some (st.offer .sell kvSell))
    (left : nCalc = (st.offer .sell kvSell).left) (still : pair.trade nEnd st = none) :
    BuysMatched pair nEnd kvSell st (nCalc, st) := by
  have isOpen := (openOffer_eq_some.mp asked).2.1
  refine ⟨fun _ run => run, fun _ _ _ none => none, fun zero => ?_, fun _ => still⟩
  exact absurd (left.symm.trans zero) (left_ne_zero isOpen)

/-- The trade of the best two offers either fills the sell order or fills the buy order and
leaves the sell order open for the rest. -/
structure BestTraded (pair : CoinDexPair) (nEnd : Nat) (kvSell kvBuy : DexOrderKey × DexOrderValue) (st : Progress)
    (nLeft : UInt256) (next : Progress) : Prop where
  traded : pair.trade nEnd st = some next
  closes : ∀ type, ∀ kv ∈ (pair.book type).entries,
    st.openOffer nEnd type kv = none → next.openOffer nEnd type kv = none
  filled : nLeft = 0 → next.openOffer nEnd .sell kvSell = none
  open_rest : nLeft ≠ 0 → next.openOffer nEnd .sell kvSell = some (next.offer .sell kvSell) ∧
    nLeft = (next.offer .sell kvSell).left ∧ next.openOffer nEnd .buy kvBuy = none

theorem bestTraded {kvBuy : DexOrderKey × DexOrderValue} (inSells : kvSell ∈ (pair.book .sell).entries)
    (inBuys : kvBuy ∈ (pair.book .buy).entries)
    (asked : st.openOffer nEnd .sell kvSell = some (st.offer .sell kvSell))
    (bid : st.openOffer nEnd .buy kvBuy = some (st.offer .buy kvBuy))
    (bestSell : (pair.offers nEnd st .sell).head? = some (st.offer .sell kvSell))
    (bestBuy : (pair.offers nEnd st .buy).head? = some (st.offer .buy kvBuy))
    (crossed : kvSell.1.nPrice ≤ kvBuy.1.nPrice) :
    let fill := makeFill pair.nSellPriceAnchor st.nPrevCompletePrice nEnd (st.offer .sell kvSell)
      (st.offer .buy kvBuy) (st.offer .sell kvSell).left (st.offer .buy kvBuy).left
    BestTraded pair nEnd kvSell kvBuy st ((st.offer .sell kvSell).left - fill.record.nSellCompleteAmount)
      (st.push (st.offer .sell kvSell) (st.offer .buy kvBuy) fill) := by
  intro fill
  have memberSell := mem_of_mem_head? bestSell
  have memberBuy := mem_of_mem_head? bestBuy
  obtain ⟨fromSell, fromBuy, full⟩ := makeFill_spec pair.nSellPriceAnchor st.nPrevCompletePrice
    (st.offer .sell kvSell).left (st.offer .buy kvBuy).left nEnd (st.offer .sell kvSell) (st.offer .buy kvBuy)
  have after : ∀ type, ∀ kv ∈ (pair.book type).entries,
      (st.push (st.offer .sell kvSell) (st.offer .buy kvBuy) fill).openOffer nEnd type kv =
        (st.openOffer nEnd type kv).bind (reduce (fill.key type) (fill.amount type)) :=
    fun type kv mem => openOffer_push memberSell memberBuy rfl rfl mem
  have isOpen := (openOffer_eq_some.mp asked).2.1
  constructor
  · unfold trade
    rw [bestSell, bestBuy]
    exact if_pos crossed
  · intro type kv mem none
    rw [after type kv mem, none]
    rfl
  · intro zero
    have whole : fill.amount .sell = (st.offer .sell kvSell).left := (rest_eq_zero_iff _ _).mp zero
    rw [after .sell kvSell inSells, asked, whole]
    exact reduce_left _
  · intro some
    have part : fill.amount .sell ≠ (st.offer .sell kvSell).left :=
      fun whole => some ((rest_eq_zero_iff _ _).mpr whole)
    have rest := after .sell kvSell inSells
    rw [asked, bind_some, show fill.key .sell = (st.offer .sell kvSell).key from rfl,
      reduce_part isOpen fromSell part] at rest
    have shape := (openOffer_eq_some.mp rest).2.2
    refine ⟨by rw [rest, shape], ?_, ?_⟩
    · rw [shape]
      exact BitVec.sub_sub _ _ _
    · rw [after .buy kvBuy inBuys, bid, full.resolve_left part]
      exact reduce_left _

theorem buysMatched {before after : List (DexOrderKey × DexOrderValue)} {nCalc : UInt256}
    (sells : (pair.book .sell).entries = before ++ kvSell :: after)
    (passed : ∀ kv ∈ before, st.openOffer nEnd .sell kv = none) (buys : (pair.book .buy).entries = done ++ rest)
    (closed : ∀ kv ∈ done, st.openOffer nEnd .buy kv = none)
    (asked : st.openOffer nEnd .sell kvSell = some (st.offer .sell kvSell))
    (left : nCalc = (st.offer .sell kvSell).left) :
    BuysMatched pair nEnd kvSell st (pair.matchBuys nEnd kvSell rest nCalc st) := by
  induction rest generalizing done st nCalc with
  | nil =>
    rw [append_nil] at buys
    exact buysMatched_still asked left (trade_eq_none_of_closed (buys ▸ closed))
  | cons kvBuy rest ih =>
    have inSells : kvSell ∈ (pair.book .sell).entries := by simp [sells]
    have inBuys : kvBuy ∈ (pair.book .buy).entries := by simp [buys]
    have split : (pair.book .buy).entries = (done ++ [kvBuy]) ++ rest := by rw [buys, append_cons]
    have skip : st.openOffer nEnd .buy kvBuy = none →
        BuysMatched pair nEnd kvSell st (pair.matchBuys nEnd kvSell rest nCalc st) := fun none =>
      ih passed split (forall_mem_append.mpr ⟨closed, forall_mem_singleton.mpr none⟩) asked left
    have bestSell := head_offers sells passed asked
    unfold matchBuys
    dsimp only
    rw [ite_openOffer]
    rcases bid : st.openOffer nEnd .buy kvBuy with _ | offer
    · exact skip bid
    cases (openOffer_eq_some.mp bid).2.2
    rw [Option.elim_some]
    have bestBuy := head_offers buys closed bid
    by_cases dear : kvSell.1.nPrice > kvBuy.1.nPrice
    · rw [if_pos dear]
      apply buysMatched_still asked left
      unfold trade
      rw [bestSell, bestBuy]
      exact if_neg (BitVec.not_le.mpr dear)
    rw [if_neg dear]
    have best := bestTraded inSells inBuys asked bid bestSell bestBuy (BitVec.not_lt.mp dear)
    subst left
    change BestTraded pair nEnd kvSell kvBuy st _ _ at best
    split_ifs with zero
    · exact ⟨fun _ run => .next best.traded run, best.closes, best.filled, fun some => absurd zero some⟩
    · obtain ⟨asked', left', full⟩ := best.open_rest zero
      have before' := closed_of_closes best.closes sells passed
      have done' := closed_of_closes best.closes buys closed
      have rest := ih before' split (forall_mem_append.mpr ⟨done', forall_mem_singleton.mpr full⟩) asked' left'
      exact ⟨fun final run => .next best.traded (rest.through final run),
        fun type kv mem none => rest.closes type kv mem (best.closes type kv mem none), rest.emptied, rest.still⟩

/-- A pass takes the trades of the market until there is none. -/
theorem matchSells_exhausts {before : List (DexOrderKey × DexOrderValue)}
    (sells : (pair.book .sell).entries = before ++ rest) (passed : ∀ kv ∈ before, st.openOffer nEnd .sell kv = none) :
    Exhausts (pair.trade nEnd) st (pair.matchSells nEnd rest st) := by
  induction rest generalizing before st with
  | nil =>
    rw [append_nil] at sells
    exact .stop (trade_eq_none_of_closed (sells ▸ passed))
  | cons kvSell rest ih =>
    have split : (pair.book .sell).entries = (before ++ [kvSell]) ++ rest := by rw [sells, append_cons]
    have skip : st.openOffer nEnd .sell kvSell = none →
        Exhausts (pair.trade nEnd) st (pair.matchSells nEnd rest st) := fun none =>
      ih split (forall_mem_append.mpr ⟨passed, forall_mem_singleton.mpr none⟩)
    unfold matchSells
    dsimp only
    rw [ite_openOffer]
    rcases asked : st.openOffer nEnd .sell kvSell with _ | offer
    · exact skip asked
    cases (openOffer_eq_some.mp asked).2.2
    rw [Option.elim_some]
    have inner := buysMatched sells passed (nil_append _).symm (by simp) asked rfl
    change BuysMatched pair nEnd kvSell st (pair.matchBuys nEnd kvSell pair.mapBuyOrder.entries
      ((st.offer .sell kvSell).nOrderAmount - (st.offer .sell kvSell).nCompAmount) st) at inner
    split_ifs with partly
    · exact inner.through _ (.stop (inner.still partly))
    · have before' := closed_of_closes inner.closes sells passed
      have filled := inner.emptied (not_not.mp partly)
      exact inner.through _ (ih split (forall_mem_append.mpr ⟨before', forall_mem_singleton.mpr filled⟩))

theorem funcMatch_exhausts (nEnd : Nat) (st : Progress) :
    Exhausts (pair.trade nEnd) st (pair.funcMatch nEnd st) :=
  matchSells_exhausts (nil_append _).symm (by simp)

end CoinDexPair
end Sweep
end HashAhead.Dex

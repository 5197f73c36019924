import HashAhead.Dex.Book

/-! Matching of a coin pair. For each height slot with an open order, in rising order, the sell
orders up to that slot meet the buy orders up to it, at the price that the two limits and the
last price give. -/

namespace HashAhead.Dex
open Trie State Chain List

section MatchTools

def calcCompletePrice (nBuyPrice nSellPrice nPrevCompletePrice : UInt256) : UInt256 :=
  if nSellPrice ≥ nPrevCompletePrice then nSellPrice
  else if nBuyPrice ≥ nPrevCompletePrice then nPrevCompletePrice
  else nBuyPrice

def calcBuyAmount (nSellAmount nCompletePrice nSellPriceAnchor : UInt256) : UInt256 :=
  if nSellPriceAnchor = 0 then 0 else nSellAmount * nCompletePrice / nSellPriceAnchor

def calcSellAmount (nBuyAmount nCompletePrice nSellPriceAnchor : UInt256) : UInt256 :=
  if nCompletePrice = 0 then 0 else nBuyAmount * nSellPriceAnchor / nCompletePrice

end MatchTools

structure MatchOrderRecord where
  destSellOrder : Destination
  nSellOrderNumber : UInt64
  nSellCompleteAmount : UInt256
  nSellCompletePrice : UInt256
  nSellOrderAtChainId : ChainId
  destBuyOrder : Destination
  nBuyOrderNumber : UInt64
  nBuyCompleteAmount : UInt256
  nBuyCompletePrice : UInt256
  nBuyOrderAtChainId : ChainId
  nCompletePrice : UInt256
  deriving DecidableEq, Repr

structure MatchOrderResult where
  vMatchOrderRecord : List MatchOrderRecord
  nSellPriceAnchor : UInt256
  strCoinSymbolSell : Bytes
  strCoinSymbolBuy : Bytes

/-- A record with the keys of its two orders and the height slot of the pass that made it. -/
structure Fill where
  nMatchEndHeightSlot : Nat
  keySell : DexOrderKey
  keyBuy : DexOrderKey
  record : MatchOrderRecord
  deriving DecidableEq, Repr

namespace Fill

def key (fill : Fill) : OrderType → DexOrderKey
  | .sell => fill.keySell
  | .buy => fill.keyBuy

def amount (fill : Fill) : OrderType → UInt256
  | .sell => fill.record.nSellCompleteAmount
  | .buy => fill.record.nBuyCompleteAmount

def total (fills : List Fill) (type : OrderType) (key : DexOrderKey) : Nat :=
  ((fills.filter fun fill => fill.key type = key).map fun fill => (fill.amount type).toNat).sum

theorem total_snoc (fills : List Fill) (fill : Fill) (type : OrderType) (key : DexOrderKey) :
    total (fills ++ [fill]) type key =
      total fills type key + if fill.key type = key then (fill.amount type).toNat else 0 := by
  unfold total
  rw [filter_append, map_append, sum_append]
  split_ifs with same <;> simp [same]

end Fill

/-- An order as the loops see it: its key, its value and its complete amount so far. -/
structure Offer where
  key : DexOrderKey
  destOrder : Destination
  nOrderNumber : UInt64
  nOrderAtChainId : ChainId
  nOrderAmount : UInt256
  nCompAmount : UInt256
  deriving DecidableEq, Repr

def Offer.left (offer : Offer) : UInt256 := offer.nOrderAmount - offer.nCompAmount

/-- The state of `MatchOrder`. -/
structure Progress where
  mapCompleteAmount : OrderType → DexOrderKey → Option UInt256
  nPrevCompletePrice : UInt256
  fills : List Fill

namespace Progress

def offer (st : Progress) (type : OrderType) (kv : DexOrderKey × DexOrderValue) : Offer :=
  ⟨kv.1, kv.2.destOrder, kv.2.nOrderNumber, kv.2.nOrderAtChainId, kv.2.nOrderAmount,
    (st.mapCompleteAmount type kv.1).getD kv.2.nCompleteAmount⟩

end Progress

def makeFill (nSellPriceAnchor nPrevCompletePrice : UInt256) (nMatchEndHeightSlot : Nat) (sell buy : Offer)
    (nCalcSellOrderAmount nCalcBuyOrderAmount : UInt256) : Fill :=
  let nCompletePrice := calcCompletePrice buy.key.nPrice sell.key.nPrice nPrevCompletePrice
  let nBuyCompleteAmount := calcBuyAmount nCalcSellOrderAmount nCompletePrice nSellPriceAnchor
  let amounts :=
    if nBuyCompleteAmount > nCalcBuyOrderAmount then
      (calcSellAmount nCalcBuyOrderAmount nCompletePrice nSellPriceAnchor, nCalcBuyOrderAmount)
    else (nCalcSellOrderAmount, nBuyCompleteAmount)
  ⟨nMatchEndHeightSlot, sell.key, buy.key,
    ⟨sell.destOrder, sell.nOrderNumber, amounts.1, sell.key.nPrice, sell.nOrderAtChainId,
      buy.destOrder, buy.nOrderNumber, amounts.2, buy.key.nPrice, buy.nOrderAtChainId, nCompletePrice⟩⟩

namespace Progress

def push (st : Progress) (sell buy : Offer) (fill : Fill) : Progress where
  mapCompleteAmount
    | .sell => Function.update (st.mapCompleteAmount .sell) sell.key
        (some (sell.nCompAmount + fill.record.nSellCompleteAmount))
    | .buy => Function.update (st.mapCompleteAmount .buy) buy.key
        (some (buy.nCompAmount + fill.record.nBuyCompleteAmount))
  nPrevCompletePrice := fill.record.nCompletePrice
  fills := st.fills ++ [fill]

end Progress

namespace CoinDexPair

/-- The loop of `funcMatch` over the buy orders, with what is left of the sell order. -/
def matchBuys (pair : CoinDexPair) (nMatchEndHeightSlot : Nat) (kvSell : DexOrderKey × DexOrderValue) :
    List (DexOrderKey × DexOrderValue) → UInt256 → Progress → UInt256 × Progress
  | [], nCalcSellOrderAmount, st => (nCalcSellOrderAmount, st)
  | kvBuy :: rest, nCalcSellOrderAmount, st =>
    let buy := st.offer .buy kvBuy
    if nMatchEndHeightSlot ≠ 0 ∧ kvBuy.1.getHeightSlotValue > nMatchEndHeightSlot then
      pair.matchBuys nMatchEndHeightSlot kvSell rest nCalcSellOrderAmount st
    else if buy.nOrderAmount > buy.nCompAmount then
      let nCalcBuyOrderAmount := buy.nOrderAmount - buy.nCompAmount
      if kvSell.1.nPrice > kvBuy.1.nPrice then (nCalcSellOrderAmount, st)
      else
        let sell := st.offer .sell kvSell
        let fill := makeFill pair.nSellPriceAnchor st.nPrevCompletePrice nMatchEndHeightSlot sell buy
          nCalcSellOrderAmount nCalcBuyOrderAmount
        let nCalcSellOrderAmount := nCalcSellOrderAmount - fill.record.nSellCompleteAmount
        let st := st.push sell buy fill
        if nCalcSellOrderAmount = 0 then (nCalcSellOrderAmount, st)
        else pair.matchBuys nMatchEndHeightSlot kvSell rest nCalcSellOrderAmount st
    else pair.matchBuys nMatchEndHeightSlot kvSell rest nCalcSellOrderAmount st

def matchSells (pair : CoinDexPair) (nMatchEndHeightSlot : Nat) :
    List (DexOrderKey × DexOrderValue) → Progress → Progress
  | [], st => st
  | kvSell :: rest, st =>
    let sell := st.offer .sell kvSell
    if nMatchEndHeightSlot ≠ 0 ∧ kvSell.1.getHeightSlotValue > nMatchEndHeightSlot then
      pair.matchSells nMatchEndHeightSlot rest st
    else if sell.nOrderAmount > sell.nCompAmount then
      let (nCalcSellOrderAmount, st) := pair.matchBuys nMatchEndHeightSlot kvSell pair.mapBuyOrder.entries
        (sell.nOrderAmount - sell.nCompAmount) st
      if nCalcSellOrderAmount ≠ 0 then st else pair.matchSells nMatchEndHeightSlot rest st
    else pair.matchSells nMatchEndHeightSlot rest st

/-- `funcMatch` of `CCoinDexPair::MatchOrder` -/
def funcMatch (pair : CoinDexPair) (nMatchEndHeightSlot : Nat) (st : Progress) : Progress :=
  pair.matchSells nMatchEndHeightSlot pair.mapSellOrder.entries st

/-- The order is not beyond the match limit, which is 0 where there is none. -/
def InLimit (pair : CoinDexPair) (key : DexOrderKey) : Prop :=
  ¬(pair.nMatchHeightSlot ≠ 0 ∧ key.getHeightSlotValue > pair.nMatchHeightSlot)

instance (pair : CoinDexPair) (key : DexOrderKey) : Decidable (pair.InLimit key) := by
  unfold InLimit
  infer_instance

/-- The height slots that one of the two first loops of `MatchOrder` puts into the set. -/
def openHeightSlots (pair : CoinDexPair) (type : OrderType) : List Nat :=
  ((pair.book type).entries.filter fun kv => pair.InLimit kv.1 ∧ kv.2.nOrderAmount > kv.2.nCompleteAmount).map
    fun kv => kv.1.getHeightSlotValue

def setMatchHeightSlot (pair : CoinDexPair) : List Nat :=
  (pair.openHeightSlots .sell ++ pair.openHeightSlots .buy).dedup.insertionSort (· ≤ ·)

def startMatch (pair : CoinDexPair) : Progress := ⟨fun _ _ => none, pair.nPrevCompletePrice, []⟩

/-- The passes of `MatchOrder`. -/
def matchPasses (pair : CoinDexPair) (slots : List Nat) (st : Progress) : Progress :=
  slots.foldl (fun st nHeightSlot => pair.funcMatch nHeightSlot st) st

def matched (pair : CoinDexPair) : Progress := pair.matchPasses pair.setMatchHeightSlot pair.startMatch

def matchOrder (pair : CoinDexPair) : MatchOrderResult × CoinDexPair :=
  (⟨pair.matched.fills.map Fill.record, pair.nSellPriceAnchor, pair.strCoinSymbolSell, pair.strCoinSymbolBuy⟩,
    { pair with nPrevCompletePrice := pair.matched.nPrevCompletePrice })

end CoinDexPair
end HashAhead.Dex

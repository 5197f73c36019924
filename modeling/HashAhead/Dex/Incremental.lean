import HashAhead.Dex.Fills
import Mathlib.Data.List.Pairwise

/-! Matching in two rounds. The orders up to a height slot are matched, the filled ones are
updated in the book, the later orders come in and the pair is matched again: the two rounds make
the records of one match over all orders. Both rounds see the offers that the one match sees, and
the passes that the second round repeats find nothing to trade. -/

namespace HashAhead.Dex
open Trie State Chain List Option Function

namespace CoinDexPair

/-- `AddOrder` for a list of orders. -/
def addOrders (pair : CoinDexPair) : List DexOrder → Option CoinDexPair
  | [] => some pair
  | order :: rest => (pair.addOrder order).bind fun pair => pair.addOrders rest

def completeWith (fills : List Fill) (type : OrderType) (order : DexOrder) : UInt256 :=
  order.nCompleteAmount + BitVec.ofNat 256 (Fill.total fills type order.key)

/-- `UpdateCompleteOrder` for the orders of a list that have a fill, with their new totals. -/
def updateFilled (pair : CoinDexPair) (fills : List Fill) (nCompleteCount : UInt256 → UInt64) :
    List DexOrder → Option CoinDexPair
  | [] => some pair
  | order :: rest =>
    match pair.orderType order.strCoinSymbolOwner with
    | none => none
    | some type =>
      if ∃ fill ∈ fills, fill.key type = order.key then
        (pair.updateCompleteOrder order.hashDexOrder (completeWith fills type order)
          (nCompleteCount order.hashDexOrder)).bind fun pair => pair.updateFilled fills nCompleteCount rest
      else pair.updateFilled fills nCompleteCount rest

/-- Orders for a pair: each is on one of its sides, has a hash and a place of its own and stands
at the height and slot of its block, and no product of their amounts wraps. -/
structure Orders (pair : CoinDexPair) (orders : List DexOrder) : Prop where
  sided : ∀ order ∈ orders, (pair.orderType order.strCoinSymbolOwner).isSome
  hashes : orders.Pairwise fun a b => a.hashDexOrder ≠ b.hashDexOrder
  keys : orders.Pairwise fun a b =>
    pair.orderType a.strCoinSymbolOwner = pair.orderType b.strCoinSymbolOwner → a.key ≠ b.key
  height : ∀ order ∈ orders, order.nHeight = getBlockHeightByHash order.hashOrderAtBlock
  slot : ∀ order ∈ orders, order.nSlot = getBlockSlotByHash order.hashOrderAtBlock
  placed : ∀ order ∈ orders, order.nHeight ≠ 0
  priced : ∀ a ∈ orders, ∀ b ∈ orders, a.nOrderAmount.toNat * b.nOrderPrice.toNat < 2 ^ 256
  anchored : ∀ order ∈ orders, order.nOrderAmount.toNat * pair.nSellPriceAnchor.toNat < 2 ^ 256

variable {pair pair' : CoinDexPair} {orders : List DexOrder} {order other : DexOrder} {type : OrderType}

section Adding

theorem Orders.sublist {fewer : List DexOrder} (listed : pair.Orders orders) (sub : fewer.Sublist orders) :
    pair.Orders fewer where
  sided order member := listed.sided order (sub.subset member)
  hashes := listed.hashes.sublist sub
  keys := listed.keys.sublist sub
  height order member := listed.height order (sub.subset member)
  slot order member := listed.slot order (sub.subset member)
  placed order member := listed.placed order (sub.subset member)
  priced a first b second := listed.priced a (sub.subset first) b (sub.subset second)
  anchored order member := listed.anchored order (sub.subset member)

theorem Orders.eq_of_key (listed : pair.Orders orders) (first : order ∈ orders) (second : other ∈ orders)
    (side : pair.orderType order.strCoinSymbolOwner = some type)
    (side' : pair.orderType other.strCoinSymbolOwner = some type) (same : order.key = other.key) : order = other := by
  by_contra apart
  have : Std.Symm fun a b : DexOrder =>
      pair.orderType a.strCoinSymbolOwner = pair.orderType b.strCoinSymbolOwner → a.key ≠ b.key :=
    ⟨fun a b differ sides => (differ sides.symm).symm⟩
  exact listed.keys.forall first second apart (side.trans side'.symm) same

structure OrdersAdded (pair : CoinDexPair) (orders : List DexOrder) (pair' : CoinDexPair) : Prop where
  terms : SameTerms pair pair'
  mem : ∀ side kv, kv ∈ (pair'.book side).entries ↔ kv ∈ (pair.book side).entries ∨
    ∃ order ∈ orders, pair.orderType order.strCoinSymbolOwner = some side ∧ kv = (order.key, order.value)
  index : ∀ order ∈ orders, ∀ type, pair.orderType order.strCoinSymbolOwner = some type →
    pair'.mapDexOrderIndex order.hashDexOrder = some (order.key, type)
  untouched : ∀ hash, (¬∃ order ∈ orders, order.hashDexOrder = hash) →
    pair'.mapDexOrderIndex hash = pair.mapDexOrderIndex hash
  raised : pair.nMatchHeightSlot ≤ pair'.nMatchHeightSlot
  limit : pair.OneChain → ∀ order ∈ orders, order.key.getHeightSlotValue ≤ pair'.nMatchHeightSlot
  kept : ¬pair.OneChain → pair'.nMatchHeightSlot = pair.nMatchHeightSlot

theorem SameTerms.oneChain (same : SameTerms pair pair') : pair'.OneChain ↔ pair.OneChain := by
  unfold OneChain
  rw [same.nSellChainId, same.nBuyChainId]

theorem Orders.sameTerms (listed : pair.Orders orders) (same : SameTerms pair pair') : pair'.Orders orders where
  __ := listed
  sided order member := by
    rw [same.orderType]
    exact listed.sided order member
  keys := by
    simp only [same.orderType]
    exact listed.keys
  anchored := by
    rw [same.nSellPriceAnchor]
    exact listed.anchored

theorem getBlockHeightByHash_zero : getBlockHeightByHash 0 = 0 := by decide

section
variable (added : OrderAdded pair order type pair')
include added

theorem OrderAdded.reaches (height : order.nHeight = getBlockHeightByHash order.hashOrderAtBlock)
    (slot : order.nSlot = getBlockSlotByHash order.hashOrderAtBlock) (placed : order.nHeight ≠ 0)
    (chain : pair.OneChain) :
    order.key.getHeightSlotValue ≤ pair'.nMatchHeightSlot := by
  have atBlock : order.hashOrderAtBlock ≠ 0 := by
    intro none
    rw [height, none, getBlockHeightByHash_zero] at placed
    exact placed rfl
  rw [added.limit, if_pos ⟨chain, atBlock⟩, ← height, ← slot]
  exact Nat.le_max_right _ _

theorem OrderAdded.raised : pair.nMatchHeightSlot ≤ pair'.nMatchHeightSlot := by
  rw [added.limit]
  split_ifs
  · exact Nat.le_max_left _ _
  · exact le_rfl

theorem OrderAdded.mem_fresh (fresh : ∀ value, (order.key, value) ∉ (pair.book type).entries) (side : OrderType)
    (kv : DexOrderKey × DexOrderValue) :
    kv ∈ (pair'.book side).entries ↔ kv ∈ (pair.book side).entries ∨ type = side ∧ kv = (order.key, order.value) := by
  rw [added.mem]
  constructor
  · rintro (⟨rfl, entry⟩ | ⟨old, _⟩)
    exacts [Or.inr ⟨rfl, entry⟩, Or.inl old]
  · rintro (old | ⟨rfl, entry⟩)
    · refine Or.inr ⟨old, ?_⟩
      rintro ⟨rfl, key⟩
      rw [← key] at fresh
      exact fresh kv.2 old
    · exact Or.inl ⟨rfl, entry⟩

end

theorem OrdersAdded.cons {next : CoinDexPair} {rest : List DexOrder} (listed : pair.Orders (order :: rest))
    (side : pair.orderType order.strCoinSymbolOwner = some type)
    (fresh : ∀ value, (order.key, value) ∉ (pair.book type).entries) (added : OrderAdded pair order type next)
    (others : OrdersAdded next rest pair') : OrdersAdded pair (order :: rest) pair' where
  terms := added.terms.trans others.terms
  mem side' kv := by
    rw [others.mem, added.mem_fresh fresh]
    simp only [added.terms.orderType, mem_cons, exists_eq_or_imp, side, some_inj]
    tauto
  index := by
    intro other member side' sided
    rcases mem_cons.mp member with rfl | member
    · cases side.symm.trans sided
      rw [others.untouched, added.index, update_self]
      rintro ⟨another, member, same⟩
      exact (pairwise_cons.mp listed.hashes).1 another member same.symm
    · rw [← added.terms.orderType] at sided
      exact others.index other member side' sided
  untouched := by
    intro hash missing
    rw [others.untouched, added.index, update_of_ne]
    · exact fun same => missing ⟨order, mem_cons_self, same.symm⟩
    · rintro ⟨another, member, same⟩
      exact missing ⟨another, .tail _ member, same⟩
  raised := added.raised.trans others.raised
  limit := by
    intro chain other member
    rcases mem_cons.mp member with rfl | member
    · have reached := added.reaches (listed.height _ mem_cons_self) (listed.slot _ mem_cons_self)
        (listed.placed _ mem_cons_self) chain
      exact reached.trans others.raised
    · exact others.limit (added.terms.oneChain.mpr chain) other member
  kept := by
    intro chain
    rw [others.kept (mt added.terms.oneChain.mp chain), added.limit, if_neg fun there => chain there.1]

theorem ordersAdded (listed : pair.Orders orders)
    (fresh : ∀ order ∈ orders, ∀ type, pair.orderType order.strCoinSymbolOwner = some type →
      ∀ value, (order.key, value) ∉ (pair.book type).entries) :
    ∃ pair', pair.addOrders orders = some pair' ∧ OrdersAdded pair orders pair' := by
  induction orders generalizing pair with
  | nil => exact ⟨pair, rfl, .refl pair, by simp, by simp, fun _ _ => rfl, le_rfl, by simp, fun _ => rfl⟩
  | cons order rest ih =>
    obtain ⟨type, side⟩ := isSome_iff_exists.mp (listed.sided order mem_cons_self)
    obtain ⟨next, ran, added⟩ := orderAdded side
    have free : ∀ other ∈ rest, ∀ side', next.orderType other.strCoinSymbolOwner = some side' →
        ∀ value, (other.key, value) ∉ (next.book side').entries := by
      intro other mem side' sided value held
      rw [added.terms.orderType] at sided
      rcases (added.mem side' _).mp held with ⟨rfl, entry⟩ | ⟨old, _⟩
      · have apart := (pairwise_cons.mp listed.keys).1 other mem (side.trans sided.symm)
        exact apart (congrArg Prod.fst entry).symm
      · exact fresh other (.tail _ mem) side' sided value old
    obtain ⟨final, runs, others⟩ := ih ((listed.sublist (sublist_cons_self _ _)).sameTerms added.terms) free
    refine ⟨final, ?_, .cons listed side (fresh order mem_cons_self type side) added others⟩
    rw [addOrders, ran, bind_some, runs]

end Adding

section Updating
variable {fills : List Fill} {count : UInt256 → UInt64}

def updatedValue (fills : List Fill) (nCompleteCount : UInt256 → UInt64) (type : OrderType) (order : DexOrder) :
    DexOrderValue :=
  { order.value with
    nCompleteAmount := completeWith fills type order
    nCompleteCount := nCompleteCount order.hashDexOrder }

def Touched (fills : List Fill) (type : OrderType) (order : DexOrder) : Prop := ∃ fill ∈ fills, fill.key type = order.key

theorem completeWith_of_untouched (idle : ¬Touched fills type order) :
    completeWith fills type order = order.nCompleteAmount := by
  unfold completeWith Fill.total
  rw [filter_eq_nil_iff.mpr fun fill mem => by simpa using fun same => idle ⟨fill, mem, same⟩]
  exact BitVec.add_zero _

structure FilledUpdated (pair : CoinDexPair) (fills : List Fill) (nCompleteCount : UInt256 → UInt64)
    (orders : List DexOrder) (pair' : CoinDexPair) : Prop where
  terms : SameTerms pair pair'
  touched : ∀ order ∈ orders, ∀ type, pair.orderType order.strCoinSymbolOwner = some type → Touched fills type order →
    ∀ value, (order.key, value) ∈ (pair'.book type).entries ↔
      value = updatedValue fills nCompleteCount type order ∧ value.getSurplusAmount ≠ 0
  others : ∀ type kv, (∀ order ∈ orders, pair.orderType order.strCoinSymbolOwner = some type →
    Touched fills type order → kv.1 ≠ order.key) → (kv ∈ (pair'.book type).entries ↔ kv ∈ (pair.book type).entries)
  limit : pair'.nMatchHeightSlot = pair.nMatchHeightSlot

theorem FilledUpdated.cons {next : CoinDexPair} {rest : List DexOrder} (listed : pair.Orders (order :: rest))
    (side : pair.orderType order.strCoinSymbolOwner = some type) (touched : Touched fills type order)
    (updated : OrderUpdated pair order.hashDexOrder order.key type (updatedValue fills count type order) next)
    (others : FilledUpdated next fills count rest pair') :
    FilledUpdated pair fills count (order :: rest) pair' where
  terms := updated.terms.trans others.terms
  touched := by
    intro other mem side' sided filled value
    rcases mem_cons.mp mem with rfl | mem
    · cases side.symm.trans sided
      refine (others.others _ _ fun another mem there _ => ?_).trans (updated.mem_own value)
      rw [updated.terms.orderType] at there
      exact (pairwise_cons.mp listed.keys).1 another mem (side.trans there.symm)
    · rw [← updated.terms.orderType] at sided
      exact others.touched other mem side' sided filled value
  others := by
    intro side' kv away
    have own : ¬(side' = type ∧ kv.1 = order.key) := by
      rintro ⟨rfl, same⟩
      exact away order mem_cons_self side touched same
    refine (others.others _ _ fun another mem there filled => ?_).trans (updated.mem_others own)
    rw [updated.terms.orderType] at there
    exact away another (.tail _ mem) there filled
  limit := others.limit.trans updated.limit

theorem FilledUpdated.skip {rest : List DexOrder} (side : pair.orderType order.strCoinSymbolOwner = some type)
    (idle : ¬Touched fills type order) (others : FilledUpdated pair fills count rest pair') :
    FilledUpdated pair fills count (order :: rest) pair' where
  terms := others.terms
  touched := by
    intro other mem side' sided filled
    rcases mem_cons.mp mem with rfl | mem
    · cases side.symm.trans sided
      exact absurd filled idle
    · exact others.touched other mem side' sided filled
  others side' kv away := others.others side' kv fun another mem => away another (.tail _ mem)
  limit := others.limit

theorem filledUpdated (listed : pair.Orders orders) (fills : List Fill) (count : UInt256 → UInt64)
    (indexed : ∀ order ∈ orders, ∀ type, pair.orderType order.strCoinSymbolOwner = some type →
      pair.mapDexOrderIndex order.hashDexOrder = some (order.key, type))
    (held : ∀ order ∈ orders, ∀ type, pair.orderType order.strCoinSymbolOwner = some type →
      (order.key, order.value) ∈ (pair.book type).entries) :
    ∃ pair', pair.updateFilled fills count orders = some pair' ∧
      FilledUpdated pair fills count orders pair' := by
  induction orders generalizing pair with
  | nil => exact ⟨pair, rfl, .refl pair, by simp, fun _ _ _ => Iff.rfl, rfl⟩
  | cons order rest ih =>
    obtain ⟨type, side⟩ := isSome_iff_exists.mp (listed.sided order mem_cons_self)
    have later : pair.Orders rest := listed.sublist (sublist_cons_self _ _)
    rw [updateFilled]
    simp only [side]
    split_ifs with touched
    · obtain ⟨next, ran, updated⟩ := orderUpdated (indexed order mem_cons_self type side)
        (held order mem_cons_self type side) (completeWith fills type order) (count order.hashDexOrder)
      have indexed' : ∀ other ∈ rest, ∀ side', next.orderType other.strCoinSymbolOwner = some side' →
          next.mapDexOrderIndex other.hashDexOrder = some (other.key, side') := by
        intro other mem side' sided
        rw [updated.terms.orderType] at sided
        rw [updated.index, update_of_ne ((pairwise_cons.mp listed.hashes).1 other mem).symm]
        exact indexed other (.tail _ mem) side' sided
      have held' : ∀ other ∈ rest, ∀ side', next.orderType other.strCoinSymbolOwner = some side' →
          (other.key, other.value) ∈ (next.book side').entries := by
        intro other mem side' sided
        rw [updated.terms.orderType] at sided
        refine (updated.mem side' _).mpr (Or.inr ⟨held other (.tail _ mem) side' sided, ?_⟩)
        rintro ⟨rfl, same⟩
        exact (pairwise_cons.mp listed.keys).1 other mem (side.trans sided.symm) same.symm
      obtain ⟨final, runs, others⟩ := ih (later.sameTerms updated.terms) indexed' held'
      refine ⟨final, ?_, .cons listed side touched updated others⟩
      rw [ran, bind_some, runs]
    · obtain ⟨final, runs, others⟩ := ih later (fun o m => indexed o (.tail _ m)) (fun o m => held o (.tail _ m))
      exact ⟨final, runs, others.skip side touched⟩

end Updating

section Alike

/-- Two pairs show the same offers to the passes of a set, and the first has some fills more in
its past. -/
structure Alike (pair pair' : CoinDexPair) (passes : Nat → Prop) (past : List Fill) (st st' : Progress) : Prop where
  price : st.nPrevCompletePrice = st'.nPrevCompletePrice
  offers : ∀ nEnd, passes nEnd → ∀ type, pair.offers nEnd st type = pair'.offers nEnd st' type
  fills : st.fills = past ++ st'.fills

variable {passes : Nat → Prop} {past : List Fill} {st st' : Progress} {nEnd : Nat}

section
variable (anchor : pair.nSellPriceAnchor = pair'.nSellPriceAnchor) (alike : Alike pair pair' passes past st st')
  (inside : passes nEnd)
include anchor alike inside

theorem Alike.trade : Option.Rel (Alike pair pair' passes past) (pair.trade nEnd st) (pair'.trade nEnd st') := by
  have asked := alike.offers nEnd inside .sell
  have bid := alike.offers nEnd inside .buy
  cases traded : pair.trade nEnd st with
  | none =>
    cases traded' : pair'.trade nEnd st' with
    | none => exact .none
    | some next' =>
      obtain ⟨sell, buy, bestSell, bestBuy, crossed, _⟩ := trade_eq_some traded'
      unfold CoinDexPair.trade at traded
      rw [asked, bid, bestSell, bestBuy] at traded
      simp [crossed] at traded
  | some next =>
    obtain ⟨sell, buy, bestSell, bestBuy, crossed, rfl⟩ := trade_eq_some traded
    have memberSell := mem_of_mem_head? bestSell
    have memberBuy := mem_of_mem_head? bestBuy
    rw [asked] at bestSell
    rw [bid] at bestBuy
    unfold CoinDexPair.trade
    rw [bestSell, bestBuy]
    simp only [if_pos crossed]
    refine .some ⟨?_, fun nOther passing type => ?_, ?_⟩
    · rw [anchor, alike.price]
      rfl
    · rw [offers_push memberSell memberBuy rfl rfl,
        offers_push (mem_of_mem_head? bestSell) (mem_of_mem_head? bestBuy) rfl rfl,
        alike.offers nOther passing type, anchor, alike.price]
    · show st.fills ++ [_] = past ++ (st'.fills ++ [_])
      rw [alike.fills, anchor, alike.price, append_assoc]

theorem Alike.still (still : pair.trade nEnd st = none) : pair'.trade nEnd st' = none := by
  have related := alike.trade anchor inside
  rw [still] at related
  generalize pair'.trade nEnd st' = next at related ⊢
  cases related
  rfl

end

theorem Alike.matchPasses (anchor : pair.nSellPriceAnchor = pair'.nSellPriceAnchor)
    {slots : List Nat} (inside : ∀ nEnd ∈ slots, passes nEnd) (alike : Alike pair pair' passes past st st') :
    Alike pair pair' passes past (pair.matchPasses slots st) (pair'.matchPasses slots st') := by
  induction slots generalizing st st' with
  | nil => exact alike
  | cons nEnd slots ih =>
    apply ih fun nOther mem => inside nOther (.tail _ mem)
    exact (funcMatch_exhausts nEnd st).lockstep (fun _ _ so => so.trade anchor (inside nEnd mem_cons_self))
      alike (funcMatch_exhausts nEnd st')

theorem matchPasses_of_still {slots : List Nat} (still : ∀ nEnd ∈ slots, pair.trade nEnd st = none) :
    pair.matchPasses slots st = st := by
  induction slots with
  | nil => rfl
  | cons nEnd slots ih =>
    have here := (funcMatch_exhausts nEnd st).eq_of_stuck (still nEnd mem_cons_self)
    show pair.matchPasses slots (pair.funcMatch nEnd st) = st
    rw [here]
    exact ih fun nOther mem => still nOther (.tail _ mem)

end Alike

section Rounds
variable {st : Progress} {nEnd : Nat} {offer : Offer}

def orderOffer (order : DexOrder) (nCompAmount : UInt256) : Offer :=
  ⟨order.key, order.destOrder, order.nOrderNumber, order.nOrderAtChainId, order.nOrderAmount, nCompAmount⟩

def Lists (pair : CoinDexPair) (orders : List DexOrder) : Prop :=
  ∀ side kv, kv ∈ (pair.book side).entries ↔
    ∃ order ∈ orders, pair.orderType order.strCoinSymbolOwner = some side ∧ kv = (order.key, order.value)

theorem Accounted.toNat_completeWith (accounted : pair.Accounted st)
    (held : (order.key, order.value) ∈ (pair.book type).entries) :
    st.offer type (order.key, order.value) = orderOffer order (completeWith st.fills type order) ∧
      (completeWith st.fills type order).toNat = order.nCompleteAmount.toNat + Fill.total st.fills type order.key := by
  have booked := accounted.booked type _ held
  have bound := (st.offer type (order.key, order.value)).nCompAmount.isLt
  have sum : (completeWith st.fills type order).toNat =
      order.nCompleteAmount.toNat + Fill.total st.fills type order.key := by
    unfold completeWith
    have whole : (order.key, order.value).2.nCompleteAmount = order.nCompleteAmount := rfl
    rw [booked, whole] at bound
    rw [BitVec.toNat_add, BitVec.toNat_ofNat, Nat.add_mod_mod, Nat.mod_eq_of_lt bound]
  refine ⟨?_, sum⟩
  have comp : (st.offer type (order.key, order.value)).nCompAmount = completeWith st.fills type order :=
    BitVec.eq_of_toNat_eq (booked.trans sum.symm)
  unfold orderOffer
  rw [← comp]
  rfl

theorem Lists.mem_offers (lists : pair.Lists orders) (accounted : pair.Accounted st) :
    offer ∈ pair.offers nEnd st type ↔ ∃ order ∈ orders, pair.orderType order.strCoinSymbolOwner = some type ∧
      InPass nEnd order.key ∧ offer = orderOffer order (completeWith st.fills type order) ∧
      offer.nCompAmount < offer.nOrderAmount := by
  rw [CoinDexPair.mem_offers]
  constructor
  · rintro ⟨kv, held, inPass, isOpen, rfl⟩
    obtain ⟨order, mem, sided, rfl⟩ := (lists type kv).mp held
    exact ⟨order, mem, sided, inPass, (accounted.toNat_completeWith held).1, isOpen⟩
  · rintro ⟨order, mem, sided, inPass, rfl, isOpen⟩
    have held := (lists type (order.key, order.value)).mpr ⟨order, mem, sided, rfl⟩
    exact ⟨(order.key, order.value), held, inPass, isOpen, (accounted.toNat_completeWith held).1⟩

theorem Lists.placed (lists : pair.Lists orders) (listed : pair.Orders orders) : pair.Placed := by
  intro type kv held
  obtain ⟨order, mem, _, rfl⟩ := (lists type kv).mp held
  exact listed.placed order mem

theorem startMatch_offer_eq {kv : DexOrderKey × DexOrderValue} {nCompAmount : UInt256}
    (same : pair.startMatch.offer type kv = orderOffer order nCompAmount) :
    kv.1 = order.key ∧ kv.2.nOrderAmount = order.nOrderAmount ∧ kv.2.nCompleteAmount = nCompAmount :=
  ⟨congrArg Offer.key same, congrArg Offer.nOrderAmount same, congrArg Offer.nCompAmount same⟩

/-- A pair that shows the orders of a list with complete amounts of its own; those that are
complete it may leave out. -/
structure Shows (pair : CoinDexPair) (orders : List DexOrder) (complete : OrderType → DexOrder → UInt256) : Prop where
  sound : ∀ side kv, kv ∈ (pair.book side).entries → ∃ order ∈ orders,
    pair.orderType order.strCoinSymbolOwner = some side ∧
      pair.startMatch.offer side kv = orderOffer order (complete side order)
  shown : ∀ order ∈ orders, ∀ side, pair.orderType order.strCoinSymbolOwner = some side →
    complete side order < order.nOrderAmount → ∃ kv ∈ (pair.book side).entries,
      pair.startMatch.offer side kv = orderOffer order (complete side order)

theorem Lists.shows (lists : pair.Lists orders) : pair.Shows orders fun _ order => order.nCompleteAmount where
  sound side kv held := by
    obtain ⟨order, mem, sided, rfl⟩ := (lists side kv).mp held
    exact ⟨order, mem, sided, rfl⟩
  shown order mem side sided _ :=
    ⟨(order.key, order.value), (lists side _).mpr ⟨order, mem, sided, rfl⟩, rfl⟩

namespace Shows
variable {complete : OrderType → DexOrder → UInt256}

theorem mem_offers (shows_ : pair.Shows orders complete) : offer ∈ pair.offers nEnd pair.startMatch type ↔
    ∃ order ∈ orders, pair.orderType order.strCoinSymbolOwner = some type ∧ InPass nEnd order.key ∧
      offer = orderOffer order (complete type order) ∧
      offer.nCompAmount < offer.nOrderAmount := by
  rw [CoinDexPair.mem_offers]
  constructor
  · rintro ⟨kv, held, inPass, isOpen, rfl⟩
    obtain ⟨order, mem, sided, same⟩ := shows_.sound type kv held
    rw [(startMatch_offer_eq same).1] at inPass
    exact ⟨order, mem, sided, inPass, same, isOpen⟩
  · rintro ⟨order, mem, sided, inPass, rfl, isOpen⟩
    obtain ⟨kv, held, same⟩ := shows_.shown order mem type sided isOpen
    rw [← (startMatch_offer_eq same).1] at inPass
    exact ⟨kv, held, inPass, isOpen, same⟩

theorem mem_slots (shows_ : pair.Shows orders complete) : nEnd ∈ pair.setMatchHeightSlot ↔
    ∃ order ∈ orders, ∃ type, pair.orderType order.strCoinSymbolOwner = some type ∧ pair.InLimit order.key ∧
      complete type order < order.nOrderAmount ∧ order.key.getHeightSlotValue = nEnd := by
  rw [mem_setMatchHeightSlot]
  constructor
  · rintro ⟨type, kv, held, inLimit, isOpen, slot⟩
    obtain ⟨order, mem, sided, same⟩ := shows_.sound type kv held
    obtain ⟨key, amount, completed⟩ := startMatch_offer_eq same
    rw [key] at inLimit slot
    rw [amount, completed] at isOpen
    exact ⟨order, mem, type, sided, inLimit, isOpen, slot⟩
  · rintro ⟨order, mem, type, sided, inLimit, isOpen, slot⟩
    obtain ⟨kv, held, same⟩ := shows_.shown order mem type sided isOpen
    obtain ⟨key, amount, completed⟩ := startMatch_offer_eq same
    rw [← key] at inLimit slot
    rw [← amount, ← completed] at isOpen
    exact ⟨type, kv, held, inLimit, isOpen, slot⟩

end Shows

theorem inLimit_iff {key : DexOrderKey} (reach : pair.OneChain → key.getHeightSlotValue ≤ pair'.nMatchHeightSlot)
    (kept : ¬pair.OneChain → pair'.nMatchHeightSlot = pair.nMatchHeightSlot) :
    pair'.InLimit key ↔ pair.OneChain ∨ pair.InLimit key := by
  by_cases chain : pair.OneChain
  · have near := reach chain
    unfold InLimit
    constructor
    · exact fun _ => Or.inl chain
    · exact fun _ late => absurd late.2 (Nat.not_lt.mpr near)
  · unfold InLimit
    rw [kept chain]
    simp [chain]

theorem strictly_setMatchHeightSlot (pair : CoinDexPair) : pair.setMatchHeightSlot.Pairwise (· < ·) := by
  have distinct : pair.setMatchHeightSlot.Nodup := (perm_insertionSort _ _).nodup_iff.mpr (nodup_dedup _)
  exact (pair.rising_setMatchHeightSlot.and distinct).imp fun both => Nat.lt_of_le_of_ne both.1 both.2

def upTo (nHeightSlot : Nat) (orders : List DexOrder) : List DexOrder :=
  orders.filter fun order => order.key.getHeightSlotValue ≤ nHeightSlot

def after (nHeightSlot : Nat) (orders : List DexOrder) : List DexOrder :=
  orders.filter fun order => nHeightSlot < order.key.getHeightSlotValue

theorem mem_upTo {nHeightSlot : Nat} : order ∈ upTo nHeightSlot orders ↔
    order ∈ orders ∧ order.key.getHeightSlotValue ≤ nHeightSlot := by
  simp [upTo]

theorem mem_after {slot : Nat} : order ∈ after slot orders ↔
    order ∈ orders ∧ slot < order.key.getHeightSlotValue := by
  simp [after]

theorem mem_upTo_or_after {slot : Nat} (order : DexOrder) :
    order ∈ orders ↔ order ∈ upTo slot orders ∨ order ∈ after slot orders := by
  rw [mem_upTo, mem_after, ← and_or_left, and_iff_left (Nat.lt_or_ge _ _).symm]

theorem book_matchOrder (pair : CoinDexPair) (type : OrderType) : pair.matchOrder.2.book type = pair.book type := by
  cases type <;> rfl

theorem OrdersAdded.lists (added : OrdersAdded pair orders pair') (empty : ∀ type, (pair.book type).entries = []) :
    pair'.Lists orders := by
  intro side kv
  rw [added.mem, empty]
  simp only [not_mem_nil, false_or, added.terms.orderType]

section
variable {nHeightSlot : Nat} {count : UInt256 → UInt64} {batch early done full : CoinDexPair}

/-- The fills of the first round are of its own orders. -/
theorem Touched.upTo (listed : pair.Orders orders) (lists : early.Lists (upTo nHeightSlot orders))
    (terms : SameTerms pair early) (accounted : early.Accounted early.matched) (mem : order ∈ orders)
    (sided : pair.orderType order.strCoinSymbolOwner = some type) (touched : Touched early.matched.fills type order) :
    order ∈ upTo nHeightSlot orders := by
  obtain ⟨fill, inFills, key⟩ := touched
  obtain ⟨before, rest, split⟩ := append_of_mem inFills
  obtain ⟨value, held, _⟩ := (accounted.exact before fill rest split).within type
  obtain ⟨other, inEarly, side, entry⟩ := (lists type _).mp held
  rw [terms.orderType] at side
  have same : order.key = other.key := key.symm.trans (congrArg Prod.fst entry)
  rw [listed.eq_of_key mem (mem_upTo.mp inEarly).1 sided side same]
  exact inEarly

theorem settled_shows (listed : pair.Orders orders) (empty : ∀ type, (pair.book type).entries = [])
    (added : OrdersAdded pair orders early)
    (updated : FilledUpdated early.matchOrder.2 early.matched.fills count orders done) :
    done.Shows orders (completeWith early.matched.fills) := by
  have lists := added.lists empty
  have sideEarly : ∀ symbol, early.matchOrder.2.orderType symbol = pair.orderType symbol := added.terms.orderType
  have sideSettled : ∀ symbol, done.orderType symbol = pair.orderType symbol :=
    fun symbol => (updated.terms.orderType symbol).trans (sideEarly symbol)
  have plain : ∀ order side, ¬Touched early.matched.fills side order →
      done.startMatch.offer side (order.key, order.value) =
        orderOffer order (completeWith early.matched.fills side order) := by
    intro order side idle
    rw [completeWith_of_untouched idle]
    rfl
  constructor
  · intro side kv held
    by_cases own : ∃ order ∈ orders, pair.orderType order.strCoinSymbolOwner = some side ∧
        Touched early.matched.fills side order ∧ kv.1 = order.key
    · obtain ⟨order, mem, sided, touched, key⟩ := own
      refine ⟨order, mem, (sideSettled _).trans sided, ?_⟩
      obtain ⟨value, _⟩ := (updated.touched order mem side ((sideEarly _).trans sided) touched kv.2).mp (key ▸ held)
      obtain ⟨k, v⟩ := kv
      cases key
      cases value
      rfl
    · have kept := (updated.others side kv fun order mem sided touched key =>
        own ⟨order, mem, (sideEarly _).symm.trans sided, touched, key⟩).mp held
      rw [book_matchOrder] at kept
      obtain ⟨order, mem, sided, rfl⟩ := (lists side kv).mp kept
      rw [added.terms.orderType] at sided
      exact ⟨order, mem, (sideSettled _).trans sided,
        plain order side fun touched => own ⟨order, mem, sided, touched, rfl⟩⟩
  · intro order mem side sided isOpen
    rw [sideSettled] at sided
    by_cases touched : Touched early.matched.fills side order
    · have held := (updated.touched order mem side ((sideEarly _).trans sided) touched _).mpr
        ⟨rfl, DexOrderValue.getSurplusAmount_ne_zero.mpr isOpen⟩
      exact ⟨_, held, rfl⟩
    · have held : (order.key, order.value) ∈ (done.book side).entries := by
        rw [updated.others, book_matchOrder]
        · exact (lists side _).mpr ⟨order, mem, (added.terms.orderType _).trans sided, rfl⟩
        · intro other mem' sided' touched' same
          have twin := listed.eq_of_key mem mem' sided ((sideEarly _).symm.trans sided') same
          exact touched (twin ▸ touched')
      exact ⟨_, held, plain order side touched⟩

theorem OrdersAdded.shows {old new : List DexOrder} {complete : OrderType → DexOrder → UInt256}
    (added : OrdersAdded pair new pair') (shows_ : pair.Shows old complete)
    (idle : ∀ order ∈ new, ∀ side, pair.orderType order.strCoinSymbolOwner = some side →
      complete side order = order.nCompleteAmount) (all : ∀ order, order ∈ orders ↔ order ∈ old ∨ order ∈ new) :
    pair'.Shows orders complete := by
  constructor
  · intro side kv held
    simp only [added.terms.orderType]
    rcases (added.mem side kv).mp held with old | ⟨order, mem, sided, rfl⟩
    · obtain ⟨order, mem, sided, same⟩ := shows_.sound side kv old
      exact ⟨order, (all order).mpr (Or.inl mem), sided, same⟩
    · refine ⟨order, (all order).mpr (Or.inr mem), sided, ?_⟩
      rw [idle order mem side sided]
      rfl
  · intro order mem side sided isOpen
    rw [added.terms.orderType] at sided
    rcases (all order).mp mem with old | new
    · obtain ⟨kv, held, same⟩ := shows_.shown order old side sided isOpen
      exact ⟨kv, (added.mem side kv).mpr (Or.inl held), same⟩
    · refine ⟨_, (added.mem side _).mpr (Or.inr ⟨order, new, sided, rfl⟩), ?_⟩
      rw [idle order new side sided]
      rfl

theorem Orders.matchOrder (listed : pair.Orders orders) : pair.matchOrder.2.Orders orders :=
  ⟨listed.1, listed.2, listed.3, listed.4, listed.5, listed.6, listed.7, listed.8⟩

theorem offers_eq_of_mem_iff {st st' : Progress}
    (same : ∀ offer, offer ∈ pair.offers nEnd st type ↔ offer ∈ pair'.offers nEnd st' type) :
    pair.offers nEnd st type = pair'.offers nEnd st' type :=
  type.comparator.eq_of_mem_iff (pair.sorted_offers nEnd st type) (pair'.sorted_offers nEnd st' type) same

structure TwoRounds (pair : CoinDexPair) (orders : List DexOrder) (nHeightSlot : Nat)
    (nCompleteCount : UInt256 → UInt64) (batch early settled full : CoinDexPair) : Prop where
  empty : ∀ type, (pair.book type).entries = []
  listed : pair.Orders orders
  batchAdded : OrdersAdded pair orders batch
  earlyAdded : OrdersAdded pair (upTo nHeightSlot orders) early
  updated : FilledUpdated early.matchOrder.2 early.matched.fills nCompleteCount (upTo nHeightSlot orders) settled
  fullAdded : OrdersAdded settled (after nHeightSlot orders) full

namespace TwoRounds

def laterSlots (batch : CoinDexPair) (nHeightSlot : Nat) : List Nat :=
  batch.setMatchHeightSlot.filter fun nEnd => nHeightSlot < nEnd

/-- A rising list of slots falls into those up to a height slot and those after it. -/
theorem slots_eq (slot : Nat) {slots soon late : List Nat} (rising : slots.Pairwise (· < ·))
    (risingSoon : soon.Pairwise (· < ·)) (risingLate : late.Pairwise (· < ·))
    (inSoon : ∀ nEnd, nEnd ∈ soon ↔ nEnd ∈ slots ∧ nEnd ≤ slot)
    (inLate : ∀ nEnd, nEnd ∈ late ↔ nEnd ∈ slots ∧ slot < nEnd) : slots = soon ++ late := by
  apply rising.eq_of_mem_iff
  · refine pairwise_append.mpr ⟨risingSoon, risingLate, fun a first b second => ?_⟩
    exact Nat.lt_of_le_of_lt ((inSoon a).mp first).2 ((inLate b).mp second).2
  · intro nEnd
    rw [mem_append, inSoon, inLate, ← and_or_left, and_iff_left (Nat.lt_or_ge _ _).symm]

variable (rounds : TwoRounds pair orders nHeightSlot count batch early done full)
include rounds

theorem batchLists : batch.Lists orders := rounds.batchAdded.lists rounds.empty

theorem earlyLists : early.Lists (CoinDexPair.upTo nHeightSlot orders) := rounds.earlyAdded.lists rounds.empty

theorem earlyListed : early.Orders (CoinDexPair.upTo nHeightSlot orders) :=
  (rounds.listed.sublist filter_sublist).sameTerms rounds.earlyAdded.terms

theorem sideFull (symbol : Bytes) :
    full.orderType symbol = pair.orderType symbol :=
  (rounds.fullAdded.terms.orderType symbol).trans
    ((rounds.updated.terms.orderType symbol).trans (rounds.earlyAdded.terms.orderType symbol))

theorem completeWith_late
    (mem : order ∈ orders) (sided : pair.orderType order.strCoinSymbolOwner = some type)
    (late : nHeightSlot < order.key.getHeightSlotValue) :
    completeWith early.matched.fills type order = order.nCompleteAmount := by
  apply completeWith_of_untouched
  intro touched
  have soon := touched.upTo rounds.listed rounds.earlyLists rounds.earlyAdded.terms
    accounted_matched mem sided
  exact absurd (mem_upTo.mp soon).2 (Nat.not_le.mpr late)

/-- The second round shows all orders with what the first round filled of them. -/
theorem fullShows :
    full.Shows orders (completeWith early.matched.fills) := by
  have shown := settled_shows (rounds.listed.sublist filter_sublist) rounds.empty rounds.earlyAdded rounds.updated
  apply rounds.fullAdded.shows shown _ mem_upTo_or_after
  intro order mem side sided
  rw [← rounds.fullAdded.terms.orderType, rounds.sideFull] at sided
  exact rounds.completeWith_late (mem_after.mp mem).1 sided (mem_after.mp mem).2

/-- Whether an order is within the limit is the same for one match and for the two rounds. -/
theorem inLimit
    (mem : order ∈ orders) : (batch.InLimit order.key ↔ pair.OneChain ∨ pair.InLimit order.key) ∧
      (order ∈ upTo nHeightSlot orders → (early.InLimit order.key ↔ pair.OneChain ∨ pair.InLimit order.key)) ∧
      (full.InLimit order.key ↔ pair.OneChain ∨ pair.InLimit order.key) := by
  have chain : done.OneChain ↔ pair.OneChain :=
    (rounds.updated.terms.oneChain).trans rounds.earlyAdded.terms.oneChain
  have limit : done.nMatchHeightSlot = early.nMatchHeightSlot := rounds.updated.limit
  refine ⟨inLimit_iff (fun one => rounds.batchAdded.limit one order mem) rounds.batchAdded.kept,
    fun soon => inLimit_iff (fun one => rounds.earlyAdded.limit one order soon) rounds.earlyAdded.kept,
    inLimit_iff (fun one => ?_) fun two => ?_⟩
  · rcases mem_upTo_or_after order |>.mp mem with soon | late
    · exact (rounds.earlyAdded.limit one order soon).trans (limit ▸ rounds.fullAdded.raised)
    · exact rounds.fullAdded.limit (chain.mpr one) order late
  · rw [rounds.fullAdded.kept fun there => two (chain.mp there), limit, rounds.earlyAdded.kept two]

/-- The first round goes through the passes of one match up to the height slot. -/
theorem first :
    Alike batch early (fun nEnd => nEnd ≠ 0 ∧ nEnd ≤ nHeightSlot) []
      (batch.matchPasses early.setMatchHeightSlot batch.startMatch) early.matched := by
  apply Alike.matchPasses
  · rw [rounds.batchAdded.terms.nSellPriceAnchor, rounds.earlyAdded.terms.nSellPriceAnchor]
  · intro nEnd mem
    obtain ⟨order, soon, _, _, _, _, rfl⟩ := rounds.earlyLists.shows.mem_slots.mp mem
    exact ⟨(rounds.earlyLists.placed rounds.earlyListed).positive mem, (mem_upTo.mp soon).2⟩
  · refine ⟨?_, fun nEnd inside type => offers_eq_of_mem_iff fun offer => ?_, rfl⟩
    · show batch.nPrevCompletePrice = early.nPrevCompletePrice
      rw [rounds.batchAdded.terms.nPrevCompletePrice, rounds.earlyAdded.terms.nPrevCompletePrice]
    · rw [rounds.batchLists.shows.mem_offers, rounds.earlyLists.shows.mem_offers]
      simp only [rounds.batchAdded.terms.orderType, rounds.earlyAdded.terms.orderType]
      constructor
      · rintro ⟨order, mem, sided, inPass, same, isOpen⟩
        have soon : order.key.getHeightSlotValue ≤ nHeightSlot := by
          unfold InPass at inPass
          omega
        exact ⟨order, mem_upTo.mpr ⟨mem, soon⟩, sided, inPass, same, isOpen⟩
      · rintro ⟨order, soon, rest⟩
        exact ⟨order, (mem_upTo.mp soon).1, rest⟩

/-- After these passes the second round sees what one match sees. -/
theorem second :
    Alike batch full (fun _ => True) early.matched.fills
      (batch.matchPasses early.setMatchHeightSlot batch.startMatch) full.startMatch := by
  have first := rounds.first
  have accounted := matchPasses_invariant (fun _ _ _ => accounted_trade)
    early.setMatchHeightSlot batch.accounted_startMatch
  refine ⟨first.price.trans ?_, fun nEnd _ type => offers_eq_of_mem_iff fun offer => ?_, ?_⟩
  · show early.matched.nPrevCompletePrice = full.nPrevCompletePrice
    rw [rounds.fullAdded.terms.nPrevCompletePrice, rounds.updated.terms.nPrevCompletePrice]
    rfl
  · have fills := first.fills
    rw [nil_append] at fills
    rw [rounds.batchLists.mem_offers accounted, rounds.fullShows.mem_offers, fills]
    simp only [rounds.batchAdded.terms.orderType, rounds.sideFull]
  · rw [first.fills]
    exact (append_nil _).symm

theorem batchSlots :
    batch.setMatchHeightSlot = early.setMatchHeightSlot ++ laterSlots batch nHeightSlot := by
  apply slots_eq nHeightSlot batch.strictly_setMatchHeightSlot early.strictly_setMatchHeightSlot
    (batch.strictly_setMatchHeightSlot.filter _)
  · intro nEnd
    rw [rounds.batchLists.shows.mem_slots, rounds.earlyLists.shows.mem_slots]
    simp only [rounds.batchAdded.terms.orderType, rounds.earlyAdded.terms.orderType]
    constructor
    · rintro ⟨order, soon, type, sided, inLimit, isOpen, rfl⟩
      obtain ⟨mem, slot⟩ := mem_upTo.mp soon
      rw [(rounds.inLimit mem).2.1 soon, ← (rounds.inLimit mem).1] at inLimit
      exact ⟨⟨order, mem, type, sided, inLimit, isOpen, rfl⟩, slot⟩
    · rintro ⟨⟨order, mem, type, sided, inLimit, isOpen, rfl⟩, slot⟩
      have soon := mem_upTo.mpr ⟨mem, slot⟩
      rw [(rounds.inLimit mem).1, ← (rounds.inLimit mem).2.1 soon] at inLimit
      exact ⟨order, soon, type, sided, inLimit, isOpen, rfl⟩
  · intro nEnd
    simp

/-- The second round goes again through some slots of the first, and then through the later ones. -/
theorem fullSlots :
    ∃ again, (∀ nEnd ∈ again, nEnd ∈ early.setMatchHeightSlot) ∧
      full.setMatchHeightSlot = again ++ laterSlots batch nHeightSlot := by
  have accounted := early.accounted_matched
  refine ⟨full.setMatchHeightSlot.filter fun nEnd => nEnd ≤ nHeightSlot, ?_, ?_⟩
  · intro nEnd mem
    simp only [mem_filter, decide_eq_true_eq] at mem
    obtain ⟨inSlots, slot⟩ := mem
    obtain ⟨order, inOrders, type, sided, inLimit, isOpen, rfl⟩ := rounds.fullShows.mem_slots.mp inSlots
    have soon := mem_upTo.mpr ⟨inOrders, slot⟩
    have sidedEarly : early.orderType order.strCoinSymbolOwner = some type := by
      rw [rounds.earlyAdded.terms.orderType, ← rounds.sideFull]
      exact sided
    have sum := (accounted.toNat_completeWith ((rounds.earlyLists type _).mpr ⟨order, soon, sidedEarly, rfl⟩)).2
    rw [(rounds.inLimit inOrders).2.2, ← (rounds.inLimit inOrders).2.1 soon] at inLimit
    refine rounds.earlyLists.shows.mem_slots.mpr ⟨order, soon, type, sidedEarly, inLimit, ?_, rfl⟩
    rw [BitVec.lt_def] at isOpen ⊢
    omega
  · apply slots_eq nHeightSlot full.strictly_setMatchHeightSlot (full.strictly_setMatchHeightSlot.filter _)
      (batch.strictly_setMatchHeightSlot.filter _)
    · intro nEnd
      simp
    · intro nEnd
      rw [mem_filter, rounds.batchLists.shows.mem_slots, rounds.fullShows.mem_slots]
      simp only [rounds.batchAdded.terms.orderType, rounds.sideFull, decide_eq_true_eq]
      apply and_congr_left
      intro late
      constructor
      · rintro ⟨order, mem, type, sided, inLimit, isOpen, rfl⟩
        rw [(rounds.inLimit mem).1, ← (rounds.inLimit mem).2.2] at inLimit
        rw [← rounds.completeWith_late mem sided late] at isOpen
        exact ⟨order, mem, type, sided, inLimit, isOpen, rfl⟩
      · rintro ⟨order, mem, type, sided, inLimit, isOpen, rfl⟩
        rw [(rounds.inLimit mem).2.2, ← (rounds.inLimit mem).1] at inLimit
        rw [rounds.completeWith_late mem sided late] at isOpen
        exact ⟨order, mem, type, sided, inLimit, isOpen, rfl⟩

theorem anchor : batch.nSellPriceAnchor = full.nSellPriceAnchor := by
  rw [rounds.batchAdded.terms.nSellPriceAnchor, rounds.fullAdded.terms.nSellPriceAnchor,
    rounds.updated.terms.nSellPriceAnchor]
  exact rounds.earlyAdded.terms.nSellPriceAnchor.symm

/-- The fills of one match are those of the first round and then those of the second. -/
theorem fills_eq : batch.matched.fills = early.matched.fills ++ full.matched.fills := by
  obtain ⟨again, repeated, fullSlots⟩ := rounds.fullSlots
  have one : batch.matched = batch.matchPasses (laterSlots batch nHeightSlot)
      (batch.matchPasses early.setMatchHeightSlot batch.startMatch) := by
    unfold matched matchPasses
    rw [rounds.batchSlots, foldl_append]
  have two : full.matched = full.matchPasses (laterSlots batch nHeightSlot) full.startMatch := by
    -- the slots of the first round are still in one match after them, and so in the second round
    have idle := matchPasses_of_still fun nEnd mem => rounds.second.still rounds.anchor trivial
      (matchPasses_still early.rising_setMatchHeightSlot
        (fun _ => (rounds.earlyLists.placed rounds.earlyListed).positive) _ (repeated nEnd mem))
    unfold matched
    rw [fullSlots]
    unfold matchPasses at idle ⊢
    rw [foldl_append, idle]
  rw [one, two]
  exact (rounds.second.matchPasses rounds.anchor fun _ _ => trivial).fills

end TwoRounds

theorem exists_twoRounds (empty : ∀ type, (pair.book type).entries = []) (listed : pair.Orders orders)
    (slot : Nat) (count : UInt256 → UInt64) :
    ∃ batch early done full, pair.addOrders orders = some batch ∧
      pair.addOrders (upTo slot orders) = some early ∧
      early.matchOrder.2.updateFilled early.matched.fills count (upTo slot orders) = some done ∧
      done.addOrders (after slot orders) = some full ∧
      TwoRounds pair orders slot count batch early done full := by
  have soonListed : pair.Orders (upTo slot orders) := listed.sublist filter_sublist
  have nowhere : ∀ (orders : List DexOrder), ∀ order ∈ orders, ∀ type,
      pair.orderType order.strCoinSymbolOwner = some type → ∀ value, (order.key, value) ∉ (pair.book type).entries := by
    intro _ _ _ type _ _
    simp [empty]
  obtain ⟨batch, batchRan, batchAdded⟩ := ordersAdded listed (nowhere _)
  obtain ⟨early, earlyRan, earlyAdded⟩ := ordersAdded soonListed (nowhere _)
  obtain ⟨done, settledRan, updated⟩ := filledUpdated
    (soonListed.sameTerms earlyAdded.terms).matchOrder early.matched.fills count
    (fun order mem type sided => earlyAdded.index order mem type ((earlyAdded.terms.orderType _).symm.trans sided))
    (fun order mem type sided => by
      rw [book_matchOrder]
      exact (earlyAdded.lists empty type _).mpr ⟨order, mem, sided, rfl⟩)
  have sideSettled : ∀ symbol, done.orderType symbol = pair.orderType symbol :=
    fun symbol => (updated.terms.orderType symbol).trans (earlyAdded.terms.orderType symbol)
  have lateListed : done.Orders (after slot orders) :=
    ((listed.sublist filter_sublist).sameTerms earlyAdded.terms).matchOrder.sameTerms updated.terms
  -- what the first round leaves in the book is an order up to the height slot, and its place is its own
  have free : ∀ order ∈ after slot orders, ∀ type, done.orderType order.strCoinSymbolOwner = some type →
      ∀ value, (order.key, value) ∉ (done.book type).entries := by
    intro order mem type sided value held
    obtain ⟨other, soon, side, same⟩ := (settled_shows soonListed empty earlyAdded updated).sound type _ held
    rw [sideSettled] at sided side
    have twin := listed.eq_of_key (mem_after.mp mem).1 (mem_upTo.mp soon).1 sided side (startMatch_offer_eq same).1
    rw [twin] at mem
    exact absurd (mem_upTo.mp soon).2 (Nat.not_le.mpr (mem_after.mp mem).2)
  obtain ⟨full, fullRan, fullAdded⟩ := ordersAdded lateListed free
  exact ⟨batch, early, done, full, batchRan, earlyRan, settledRan, fullRan, empty, listed, batchAdded, earlyAdded,
    updated, fullAdded⟩

/-- The two rounds run, and their records are those of one match. -/
theorem matchOrder_incremental (pair : CoinDexPair) (empty : ∀ type, (pair.book type).entries = [])
    (orders : List DexOrder) (listed : pair.Orders orders) (nHeightSlot : Nat) (nCompleteCount : UInt256 → UInt64) :
    ∃ batch early settled full, pair.addOrders orders = some batch ∧
      pair.addOrders (upTo nHeightSlot orders) = some early ∧
      early.matchOrder.2.updateFilled early.matched.fills nCompleteCount (upTo nHeightSlot orders) = some settled ∧
      settled.addOrders (after nHeightSlot orders) = some full ∧
      batch.matchOrder.1.vMatchOrderRecord =
        early.matchOrder.1.vMatchOrderRecord ++ full.matchOrder.1.vMatchOrderRecord := by
  obtain ⟨batch, early, settled, full, batchRan, earlyRan, settledRan, fullRan, rounds⟩ :=
    exists_twoRounds empty listed nHeightSlot nCompleteCount
  refine ⟨batch, early, settled, full, batchRan, earlyRan, settledRan, fullRan, ?_⟩
  show batch.matched.fills.map Fill.record = early.matched.fills.map Fill.record ++ full.matched.fills.map Fill.record
  rw [rounds.fills_eq, map_append]

end
end Rounds
end CoinDexPair

namespace Sample

def stall (nNumber : UInt64) (strCoinSymbolOwner : Bytes) (nOrderPrice nOrderAmount : UInt256) (nHeight : UInt32) :
    DexOrder :=
  ⟨BitVec.ofNat 256 nNumber.toNat, strCoinSymbolOwner, BitVec.ofNat 160 nNumber.toNat, nNumber, nOrderAmount, nOrderPrice,
    0, 0, 1, createBlockHash 1 nHeight 0 0xabcdef, nHeight, 0, BitVec.ofNat 256 nNumber.toNat⟩

def stalls : List DexOrder :=
  [stall 1 [0x41] 20 5 1, stall 2 [0x41] 25 7 2, stall 3 [0x42] 30 12 2, stall 4 [0x42] 22 8 1]

def square : CoinDexPair := CoinDexPair.new [0x41] [0x42] 1 2 10 0

theorem square_empty (type : OrderType) : (square.book type).entries = [] := by
  cases type <;> rfl

theorem square_orders : square.Orders stalls where
  sided := by decide
  hashes := by decide
  keys := by decide
  height := by decide
  slot := by decide
  placed := by decide
  priced := by decide
  anchored := by decide

theorem matchOrder_incremental_square : ∃ batch early settled full, square.addOrders stalls = some batch ∧
    square.addOrders (CoinDexPair.upTo (1 <<< 32) stalls) = some early ∧
    early.matchOrder.2.updateFilled early.matched.fills (fun _ => 1) (CoinDexPair.upTo (1 <<< 32) stalls) = some settled ∧
    settled.addOrders (CoinDexPair.after (1 <<< 32) stalls) = some full ∧
    batch.matchOrder.1.vMatchOrderRecord = early.matchOrder.1.vMatchOrderRecord ++ full.matchOrder.1.vMatchOrderRecord :=
  CoinDexPair.matchOrder_incremental square square_empty stalls square_orders (1 <<< 32) fun _ => 1

end Sample
end HashAhead.Dex

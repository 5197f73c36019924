import HashAhead.Chain.BlockHash

/-! The order book of a coin pair. Sell orders stand by rising and buy orders by falling price,
orders of one price by the height and slot of their block and then by a random hash, and an
index leads from the hash of an order to its place in the book. -/

namespace HashAhead.Dex
open Foundation Trie State Chain

structure DexOrderKey where
  nPrice : UInt256
  nHeight : UInt32
  nSlot : UInt16
  hashOrderRandom : UInt256
  deriving DecidableEq, Repr

namespace DexOrderKey

def getHeightSlotStatic (nHeight : UInt32) (nSlot : UInt16) : Nat := nHeight.toNat <<< 32 ||| nSlot.toNat

def getHeightSlotValue (key : DexOrderKey) : Nat := getHeightSlotStatic key.nHeight key.nSlot

theorem getHeightSlotStatic_pos {nHeight : UInt32} (high : nHeight ≠ 0) (nSlot : UInt16) :
    0 < getHeightSlotStatic nHeight nSlot := by
  have positive : 0 < nHeight.toNat := Nat.pos_of_ne_zero fun zero => high (UInt32.toNat_inj.mp zero)
  have shifted : nHeight.toNat ≤ nHeight.toNat <<< 32 := by
    rw [Nat.shiftLeft_eq]
    omega
  exact Nat.lt_of_lt_of_le positive (shifted.trans Nat.left_le_or)

def arrivesBefore (a b : DexOrderKey) : Bool :=
  if a.nHeight < b.nHeight then true
  else if a.nHeight = b.nHeight then
    if a.nSlot < b.nSlot then true
    else if a.nSlot = b.nSlot then a.hashOrderRandom < b.hashOrderRandom
    else false
  else false

/-- `CustomCompareSellOrder` -/
def compareSellOrder (a b : DexOrderKey) : Bool :=
  if a.nPrice < b.nPrice then true
  else if a.nPrice = b.nPrice then arrivesBefore a b
  else false

/-- `CustomCompareBuyOrder` -/
def compareBuyOrder (a b : DexOrderKey) : Bool :=
  if b.nPrice < a.nPrice then true
  else if b.nPrice = a.nPrice then arrivesBefore a b
  else false

variable (a b : DexOrderKey)

theorem arrivesBefore_iff : arrivesBefore a b = true ↔
    a.nHeight.toNat < b.nHeight.toNat ∨ a.nHeight.toNat = b.nHeight.toNat ∧
      (a.nSlot.toNat < b.nSlot.toNat ∨ a.nSlot.toNat = b.nSlot.toNat ∧
        a.hashOrderRandom.toNat < b.hashOrderRandom.toNat) := by
  unfold arrivesBefore
  simp only [UInt32.lt_iff_toNat_lt, ← UInt32.toNat_inj, UInt16.lt_iff_toNat_lt, ← UInt16.toNat_inj, BitVec.lt_def]
  split_ifs <;> simp only [decide_eq_true_eq, true_iff, false_iff] <;> omega

theorem compareSellOrder_iff : compareSellOrder a b = true ↔
    a.nPrice.toNat < b.nPrice.toNat ∨ a.nPrice.toNat = b.nPrice.toNat ∧ arrivesBefore a b = true := by
  unfold compareSellOrder
  simp only [BitVec.lt_def, ← BitVec.toNat_inj]
  split_ifs with lower equal
  · simp [lower]
  · simp [equal]
  · simp [lower, equal]

theorem compareBuyOrder_iff : compareBuyOrder a b = true ↔
    b.nPrice.toNat < a.nPrice.toNat ∨ a.nPrice.toNat = b.nPrice.toNat ∧ arrivesBefore a b = true := by
  unfold compareBuyOrder
  simp only [BitVec.lt_def, ← BitVec.toNat_inj]
  split_ifs with higher equal
  · simp [higher]
  · simp [equal]
  · have apart : ¬a.nPrice.toNat = b.nPrice.toNat := fun same => equal same.symm
    simp [higher, apart]

theorem eq_of_toNat {a b : DexOrderKey} (price : a.nPrice.toNat = b.nPrice.toNat)
    (height : a.nHeight.toNat = b.nHeight.toNat) (slot : a.nSlot.toNat = b.nSlot.toNat)
    (random : a.hashOrderRandom.toNat = b.hashOrderRandom.toNat) : a = b := by
  cases a
  cases b
  simp only [mk.injEq]
  exact ⟨BitVec.eq_of_toNat_eq price, UInt32.toNat_inj.mp height, UInt16.toNat_inj.mp slot,
    BitVec.eq_of_toNat_eq random⟩

def sellComparator : Comparator DexOrderKey where
  before := compareSellOrder
  irrefl a := by
    rw [Bool.eq_false_iff, ne_eq, compareSellOrder_iff, arrivesBefore_iff]
    omega
  trans a b c := by
    simp only [compareSellOrder_iff, arrivesBefore_iff]
    omega
  connected a b := by
    simp only [Bool.eq_false_iff, ne_eq, compareSellOrder_iff, arrivesBefore_iff]
    intro first second
    apply eq_of_toNat <;> omega

def buyComparator : Comparator DexOrderKey where
  before := compareBuyOrder
  irrefl a := by
    rw [Bool.eq_false_iff, ne_eq, compareBuyOrder_iff, arrivesBefore_iff]
    omega
  trans a b c := by
    simp only [compareBuyOrder_iff, arrivesBefore_iff]
    omega
  connected a b := by
    simp only [Bool.eq_false_iff, ne_eq, compareBuyOrder_iff, arrivesBefore_iff]
    intro first second
    apply eq_of_toNat <;> omega

end DexOrderKey

structure DexOrderValue where
  destOrder : Destination
  nOrderNumber : UInt64
  nOrderAmount : UInt256
  nCompleteAmount : UInt256
  nCompleteCount : UInt64
  nOrderAtChainId : ChainId
  hashOrderAtBlock : UInt256
  deriving DecidableEq, Repr

def DexOrderValue.getSurplusAmount (value : DexOrderValue) : UInt256 :=
  if value.nOrderAmount > value.nCompleteAmount then value.nOrderAmount - value.nCompleteAmount else 0

theorem DexOrderValue.getSurplusAmount_ne_zero {value : DexOrderValue} :
    value.getSurplusAmount ≠ 0 ↔ value.nCompleteAmount < value.nOrderAmount := by
  unfold getSurplusAmount
  by_cases isOpen : value.nCompleteAmount < value.nOrderAmount
  · rw [if_pos isOpen, iff_true_right isOpen]
    bv_omega
  · rw [if_neg isOpen, iff_false_right isOpen]
    exact fun some => some rfl

/-- `CDP_ORDER_TYPE_SELL` and `CDP_ORDER_TYPE_BUY` -/
inductive OrderType where
  | sell
  | buy
  deriving DecidableEq, Repr

def OrderType.comparator : OrderType → Comparator DexOrderKey
  | sell => DexOrderKey.sellComparator
  | buy => DexOrderKey.buyComparator

def OrderType.pick {α : Type} (sell buy : α) : OrderType → α
  | .sell => sell
  | .buy => buy

abbrev OrderMap (type : OrderType) := SortedMap DexOrderKey DexOrderValue type.comparator

structure CoinDexPair where
  strCoinSymbolSell : Bytes
  strCoinSymbolBuy : Bytes
  nSellChainId : ChainId
  nBuyChainId : ChainId
  nSellPriceAnchor : UInt256
  nPrevCompletePrice : UInt256
  nMatchHeightSlot : Nat
  mapSellOrder : OrderMap .sell
  mapBuyOrder : OrderMap .buy
  mapDexOrderIndex : UInt256 → Option (DexOrderKey × OrderType)

/-- The arguments of `CCoinDexPair::AddOrder`. -/
structure DexOrder where
  hashDexOrder : UInt256
  strCoinSymbolOwner : Bytes
  destOrder : Destination
  nOrderNumber : UInt64
  nOrderAmount : UInt256
  nOrderPrice : UInt256
  nCompleteAmount : UInt256
  nCompleteCount : UInt64
  nOrderAtChainId : ChainId
  hashOrderAtBlock : UInt256
  nHeight : UInt32
  nSlot : UInt16
  hashOrderRandom : UInt256
  deriving DecidableEq

namespace DexOrder

def key (order : DexOrder) : DexOrderKey := ⟨order.nOrderPrice, order.nHeight, order.nSlot, order.hashOrderRandom⟩

def value (order : DexOrder) : DexOrderValue :=
  ⟨order.destOrder, order.nOrderNumber, order.nOrderAmount, order.nCompleteAmount, order.nCompleteCount,
    order.nOrderAtChainId, order.hashOrderAtBlock⟩

end DexOrder

namespace CoinDexPair

def new (strCoinSymbolSell strCoinSymbolBuy : Bytes) (nSellChainId nBuyChainId : ChainId)
    (nSellPriceAnchor nPrevCompletePrice : UInt256) : CoinDexPair :=
  ⟨strCoinSymbolSell, strCoinSymbolBuy, nSellChainId, nBuyChainId, nSellPriceAnchor, nPrevCompletePrice, 0,
    .empty, .empty, fun _ => none⟩

def book (pair : CoinDexPair) : (type : OrderType) → OrderMap type
  | .sell => pair.mapSellOrder
  | .buy => pair.mapBuyOrder

def setBook (pair : CoinDexPair) : (type : OrderType) → OrderMap type → CoinDexPair
  | .sell, orders => { pair with mapSellOrder := orders }
  | .buy, orders => { pair with mapBuyOrder := orders }

def orderType (pair : CoinDexPair) (strCoinSymbolOwner : Bytes) : Option OrderType :=
  if strCoinSymbolOwner = pair.strCoinSymbolSell then some .sell
  else if strCoinSymbolOwner = pair.strCoinSymbolBuy then some .buy
  else none

def raiseMatchHeightSlot (pair : CoinDexPair) (hash : UInt256) : CoinDexPair :=
  let nHeightSlot := DexOrderKey.getHeightSlotStatic (getBlockHeightByHash hash) (getBlockSlotByHash hash)
  if nHeightSlot > pair.nMatchHeightSlot then { pair with nMatchHeightSlot := nHeightSlot } else pair

/-- `CCoinDexPair::AddOrder`. An entry that the order had under another key stays. -/
def addOrder (pair : CoinDexPair) (order : DexOrder) : Option CoinDexPair :=
  match pair.orderType order.strCoinSymbolOwner with
  | none => none
  | some nOrderType =>
    let pair := pair.setBook nOrderType ((pair.book nOrderType).insert order.key order.value)
    let pair := { pair with
      mapDexOrderIndex :=
        Function.update pair.mapDexOrderIndex order.hashDexOrder (some (order.key, nOrderType)) }
    if pair.nSellChainId ≠ 0 ∧ pair.nSellChainId = pair.nBuyChainId ∧ order.hashOrderAtBlock ≠ 0 then
      some (pair.raiseMatchHeightSlot order.hashOrderAtBlock)
    else some pair

def setPrevCompletePrice (pair : CoinDexPair) (nPrevPrice : UInt256) : CoinDexPair :=
  { pair with nPrevCompletePrice := nPrevPrice }

/-- `CCoinDexPair::UpdateCompleteOrder`. An order without surplus leaves the book. -/
def updateCompleteOrder (pair : CoinDexPair) (hashDexOrder nCompleteAmount : UInt256) (nCompleteCount : UInt64) :
    Option CoinDexPair :=
  match pair.mapDexOrderIndex hashDexOrder with
  | none => none
  | some (keyOrder, nOrderType) =>
    match (pair.book nOrderType).find keyOrder with
    | none => none
    | some value =>
      let value := { value with nCompleteAmount := nCompleteAmount, nCompleteCount := nCompleteCount }
      if value.getSurplusAmount = 0 then
        some { pair.setBook nOrderType ((pair.book nOrderType).erase keyOrder) with
          mapDexOrderIndex := Function.update pair.mapDexOrderIndex hashDexOrder none }
      else some (pair.setBook nOrderType ((pair.book nOrderType).insert keyOrder value))

def updatePeerCoinPairLastBlock (pair : CoinDexPair) (hashLastProveBlock : UInt256) : CoinDexPair :=
  if hashLastProveBlock ≠ 0 then pair.raiseMatchHeightSlot hashLastProveBlock else pair

@[simp] theorem book_setBook (pair : CoinDexPair) (type : OrderType) (orders : OrderMap type) :
    (pair.setBook type orders).book type = orders := by
  cases type <;> rfl

@[simp] theorem mapDexOrderIndex_setBook (pair : CoinDexPair) (type : OrderType) (orders : OrderMap type) :
    (pair.setBook type orders).mapDexOrderIndex = pair.mapDexOrderIndex := by
  cases type <;> rfl

@[simp] theorem nMatchHeightSlot_setBook (pair : CoinDexPair) {type : OrderType} (orders : OrderMap type) :
    (pair.setBook type orders).nMatchHeightSlot = pair.nMatchHeightSlot := by
  cases type <;> rfl

structure SameTerms (pair pair' : CoinDexPair) : Prop where
  strCoinSymbolSell : pair'.strCoinSymbolSell = pair.strCoinSymbolSell
  strCoinSymbolBuy : pair'.strCoinSymbolBuy = pair.strCoinSymbolBuy
  nSellChainId : pair'.nSellChainId = pair.nSellChainId
  nBuyChainId : pair'.nBuyChainId = pair.nBuyChainId
  nSellPriceAnchor : pair'.nSellPriceAnchor = pair.nSellPriceAnchor
  nPrevCompletePrice : pair'.nPrevCompletePrice = pair.nPrevCompletePrice

theorem SameTerms.refl (pair : CoinDexPair) : SameTerms pair pair := ⟨rfl, rfl, rfl, rfl, rfl, rfl⟩

theorem SameTerms.trans {pair pair' pair'' : CoinDexPair} (first : SameTerms pair pair') (second : SameTerms pair' pair'') :
    SameTerms pair pair'' :=
  ⟨second.1.trans first.1, second.2.trans first.2, second.3.trans first.3, second.4.trans first.4,
    second.5.trans first.5, second.6.trans first.6⟩

theorem SameTerms.orderType {pair pair' : CoinDexPair} (same : SameTerms pair pair') (strCoinSymbolOwner : Bytes) :
    pair'.orderType strCoinSymbolOwner = pair.orderType strCoinSymbolOwner := by
  unfold CoinDexPair.orderType
  rw [same.strCoinSymbolSell, same.strCoinSymbolBuy]

theorem sameTerms_setBook (pair : CoinDexPair) {type : OrderType} (orders : OrderMap type) :
    SameTerms pair (pair.setBook type orders) := by
  cases type <;> exact ⟨rfl, rfl, rfl, rfl, rfl, rfl⟩

def OneChain (pair : CoinDexPair) : Prop := pair.nSellChainId ≠ 0 ∧ pair.nSellChainId = pair.nBuyChainId

instance (pair : CoinDexPair) : Decidable pair.OneChain := by
  unfold OneChain
  infer_instance

structure OrderAdded (pair : CoinDexPair) (order : DexOrder) (type : OrderType) (pair' : CoinDexPair) : Prop where
  terms : SameTerms pair pair'
  mem : ∀ side kv, kv ∈ (pair'.book side).entries ↔
    side = type ∧ kv = (order.key, order.value) ∨ kv ∈ (pair.book side).entries ∧ ¬(side = type ∧ kv.1 = order.key)
  index : pair'.mapDexOrderIndex =
    Function.update pair.mapDexOrderIndex order.hashDexOrder (some (order.key, type))
  limit : pair'.nMatchHeightSlot =
    if pair.OneChain ∧ order.hashOrderAtBlock ≠ 0 then
      max pair.nMatchHeightSlot (DexOrderKey.getHeightSlotStatic (getBlockHeightByHash order.hashOrderAtBlock)
        (getBlockSlotByHash order.hashOrderAtBlock))
    else pair.nMatchHeightSlot

theorem mem_setBook (pair : CoinDexPair) {type : OrderType} {orders : OrderMap type} (side : OrderType)
    {P : DexOrderKey × DexOrderValue → Prop} {key : DexOrderKey}
    (changed : ∀ kv, kv ∈ orders.entries ↔ P kv ∨ kv ∈ (pair.book type).entries ∧ kv.1 ≠ key)
    (kv : DexOrderKey × DexOrderValue) : kv ∈ ((pair.setBook type orders).book side).entries ↔
      side = type ∧ P kv ∨ kv ∈ (pair.book side).entries ∧ ¬(side = type ∧ kv.1 = key) := by
  by_cases same : side = type
  · subst same
    rw [book_setBook, changed]
    simp
  · have kept : (pair.setBook type orders).book side = pair.book side := by
      cases type <;> cases side <;> first
        | exact absurd rfl same
        | rfl
    rw [kept]
    simp [same]

theorem raiseMatchHeightSlot_eq (pair : CoinDexPair) (hash : UInt256) : pair.raiseMatchHeightSlot hash =
    { pair with
      nMatchHeightSlot := max pair.nMatchHeightSlot
        (DexOrderKey.getHeightSlotStatic (getBlockHeightByHash hash) (getBlockSlotByHash hash)) } := by
  unfold raiseMatchHeightSlot
  dsimp only
  split_ifs with higher
  · rw [Nat.max_eq_right (Nat.le_of_lt higher)]
  · rw [Nat.max_eq_left (Nat.le_of_not_lt higher)]

variable {order : DexOrder}

/-- An order goes into its side of the book and into the index, and can raise the match limit. -/
theorem addOrder_eq_some {pair : CoinDexPair} {type : OrderType}
    (sided : pair.orderType order.strCoinSymbolOwner = some type) : pair.addOrder order =
      some { pair.setBook type ((pair.book type).insert order.key order.value) with
        mapDexOrderIndex := Function.update pair.mapDexOrderIndex order.hashDexOrder (some (order.key, type))
        nMatchHeightSlot := if pair.OneChain ∧ order.hashOrderAtBlock ≠ 0 then
            max pair.nMatchHeightSlot (DexOrderKey.getHeightSlotStatic (getBlockHeightByHash order.hashOrderAtBlock)
              (getBlockSlotByHash order.hashOrderAtBlock))
          else pair.nMatchHeightSlot } := by
  unfold addOrder
  simp only [sided, raiseMatchHeightSlot_eq, mapDexOrderIndex_setBook, nMatchHeightSlot_setBook,
    (pair.sameTerms_setBook _).nSellChainId, (pair.sameTerms_setBook _).nBuyChainId]
  by_cases raised : pair.OneChain ∧ order.hashOrderAtBlock ≠ 0
  · rw [if_pos raised, if_pos (and_assoc.mp raised)]
  · rw [if_neg raised, if_neg (mt and_assoc.mpr raised)]

theorem orderAdded {pair : CoinDexPair} {type : OrderType}
    (sided : pair.orderType order.strCoinSymbolOwner = some type) :
    ∃ pair', pair.addOrder order = some pair' ∧ OrderAdded pair order type pair' := by
  have terms := pair.sameTerms_setBook ((pair.book type).insert order.key order.value)
  have mem := fun side => pair.mem_setBook side ((pair.book type).mem_insert order.key order.value)
  refine ⟨_, addOrder_eq_some sided, ⟨terms.1, terms.2, terms.3, terms.4, terms.5, terms.6⟩, ?_, rfl, rfl⟩
  rintro (_ | _)
  exacts [mem .sell, mem .buy]

theorem addOrder_eq_none {pair : CoinDexPair} (stranger : pair.orderType order.strCoinSymbolOwner = none)
    : pair.addOrder order = none := by
  unfold addOrder
  rw [stranger]

structure OrderUpdated (pair : CoinDexPair) (hashDexOrder : UInt256) (key : DexOrderKey) (type : OrderType)
    (value : DexOrderValue) (pair' : CoinDexPair) : Prop where
  terms : SameTerms pair pair'
  mem : ∀ side kv, kv ∈ (pair'.book side).entries ↔ side = type ∧ (kv = (key, value) ∧ value.getSurplusAmount ≠ 0) ∨
    kv ∈ (pair.book side).entries ∧ ¬(side = type ∧ kv.1 = key)
  index : pair'.mapDexOrderIndex = Function.update pair.mapDexOrderIndex hashDexOrder
    (if value.getSurplusAmount = 0 then none else some (key, type))
  limit : pair'.nMatchHeightSlot = pair.nMatchHeightSlot

namespace OrderUpdated
variable {pair pair' : CoinDexPair} {hashDexOrder : UInt256} {key : DexOrderKey} {type : OrderType} {value : DexOrderValue}

theorem mem_own (updated : OrderUpdated pair hashDexOrder key type value pair') (value' : DexOrderValue) :
    (key, value') ∈ (pair'.book type).entries ↔ value' = value ∧ value'.getSurplusAmount ≠ 0 := by
  rw [updated.mem]
  constructor
  · rintro (⟨_, entry, some⟩ | ⟨_, elsewhere⟩)
    · cases entry
      exact ⟨rfl, some⟩
    · exact absurd ⟨rfl, rfl⟩ elsewhere
  · rintro ⟨rfl, some⟩
    exact Or.inl ⟨rfl, rfl, some⟩

theorem mem_others (updated : OrderUpdated pair hashDexOrder key type value pair') {side : OrderType}
    {kv : DexOrderKey × DexOrderValue} (away : ¬(side = type ∧ kv.1 = key)) :
    kv ∈ (pair'.book side).entries ↔ kv ∈ (pair.book side).entries := by
  rw [updated.mem]
  constructor
  · rintro (⟨here, entry, _⟩ | ⟨old, _⟩)
    · exact absurd ⟨here, congrArg Prod.fst entry⟩ away
    · exact old
  · exact fun old => Or.inr ⟨old, away⟩

end OrderUpdated

theorem orderUpdated {pair : CoinDexPair} {hash : UInt256} {key : DexOrderKey} {type : OrderType}
    {value : DexOrderValue} (indexed : pair.mapDexOrderIndex hash = some (key, type))
    (held : (key, value) ∈ (pair.book type).entries) (nCompleteAmount : UInt256) (nCompleteCount : UInt64) :
    ∃ pair', pair.updateCompleteOrder hash nCompleteAmount nCompleteCount = some pair' ∧
      OrderUpdated pair hash key type
        { value with nCompleteAmount := nCompleteAmount, nCompleteCount := nCompleteCount } pair' := by
  unfold updateCompleteOrder
  simp only [indexed, ((pair.book type).find_eq_some_iff key value).mpr held]
  generalize { value with nCompleteAmount := nCompleteAmount, nCompleteCount := nCompleteCount } = updated
  split_ifs with done
  · have terms := pair.sameTerms_setBook ((pair.book type).erase key)
    have erased : ∀ kv, kv ∈ ((pair.book type).erase key).entries ↔
        (kv = (key, updated) ∧ updated.getSurplusAmount ≠ 0) ∨ kv ∈ (pair.book type).entries ∧ kv.1 ≠ key := by
      intro kv
      rw [SortedMap.mem_erase]
      tauto
    have mem := fun side => pair.mem_setBook side erased
    refine ⟨_, rfl, ⟨terms.1, terms.2, terms.3, terms.4, terms.5, terms.6⟩, ?_, ?_, ?_⟩
    · rintro (_ | _)
      exacts [mem .sell, mem .buy]
    · dsimp only
      rw [if_pos done]
    · exact pair.nMatchHeightSlot_setBook _
  · have terms := pair.sameTerms_setBook ((pair.book type).insert key updated)
    have inserted : ∀ kv, kv ∈ ((pair.book type).insert key updated).entries ↔
        (kv = (key, updated) ∧ updated.getSurplusAmount ≠ 0) ∨ kv ∈ (pair.book type).entries ∧ kv.1 ≠ key := by
      intro kv
      rw [SortedMap.mem_insert]
      tauto
    have mem := fun side => pair.mem_setBook side inserted
    refine ⟨_, rfl, terms, mem, ?_, pair.nMatchHeightSlot_setBook _⟩
    rw [if_neg done, ← indexed, Function.update_eq_self, mapDexOrderIndex_setBook]

theorem updateCompleteOrder_eq_none {pair : CoinDexPair} {hash : UInt256}
    (missing : ∀ key type value, pair.mapDexOrderIndex hash = some (key, type) →
      (key, value) ∉ (pair.book type).entries) (amount : UInt256) (count : UInt64) :
    pair.updateCompleteOrder hash amount count = none := by
  unfold updateCompleteOrder
  cases indexed : pair.mapDexOrderIndex hash with
  | none => rfl
  | some place =>
    obtain ⟨key, type⟩ := place
    cases found : (pair.book type).find key with
    | none => simp [found]
    | some value => exact absurd (((pair.book type).find_eq_some_iff key value).mp found) (missing key type value indexed)

end CoinDexPair
end HashAhead.Dex

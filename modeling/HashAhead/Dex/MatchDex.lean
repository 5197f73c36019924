import HashAhead.Dex.Market

/-! The books of all coin pairs and the calls that fill them. Adding an order that is known puts
it under the key of the new price and block and turns the index to it, and the entry under the
old key stays: an order has one entry as long as no call moves it. -/

namespace HashAhead.Dex
open Foundation Trie State Chain Option Function CoinDexPair

def coin : UInt256 := 1000000000000000000

/-- The part of `CDexOrderBody` that the books need. -/
structure DexOrderBody where
  strCoinSymbolOwner : Bytes
  strCoinSymbolPeer : Bytes
  nCoinAtChainIdPeer : ChainId
  nOrderAmount : UInt256
  nOrderPrice : UInt256
  nCompleteOrderAmount : UInt256
  nCompleteOrderCount : UInt64

structure DexCodec where
  getCoinPairHashStatic : Bytes → Bytes → UInt256
  getSellCoinSymbol : Bytes → Bytes → Bytes
  getBuyCoinSymbol : Bytes → Bytes → Bytes
  getOrderRandomHashStatic : UInt256 → UInt256 → UInt256

structure MatchDex where
  mapCoinDex : UInt256 → Option CoinDexPair
  mapChainIdLinkCoinDexPair : ChainId → List UInt256

/-- The arguments of `CMatchDex::AddMatchDexOrder`. -/
structure AddCall where
  hashDexOrder : UInt256
  destOrder : Destination
  nOrderNumber : UInt64
  dexOrder : DexOrderBody
  nOrderAtChainId : ChainId
  hashOrderAtBlock : UInt256
  nPrevCompletePrice : UInt256

namespace AddCall

def hashCoinPair (codec : DexCodec) (call : AddCall) : UInt256 :=
  codec.getCoinPairHashStatic call.dexOrder.strCoinSymbolOwner call.dexOrder.strCoinSymbolPeer

def order (codec : DexCodec) (call : AddCall) : DexOrder where
  hashDexOrder := call.hashDexOrder
  strCoinSymbolOwner := call.dexOrder.strCoinSymbolOwner
  destOrder := call.destOrder
  nOrderNumber := call.nOrderNumber
  nOrderAmount := call.dexOrder.nOrderAmount
  nOrderPrice := call.dexOrder.nOrderPrice
  nCompleteAmount := call.dexOrder.nCompleteOrderAmount
  nCompleteCount := call.dexOrder.nCompleteOrderCount
  nOrderAtChainId := call.nOrderAtChainId
  hashOrderAtBlock := call.hashOrderAtBlock
  nHeight := getBlockHeightByHash call.hashOrderAtBlock
  nSlot := getBlockSlotByHash call.hashOrderAtBlock
  hashOrderRandom := codec.getOrderRandomHashStatic call.hashOrderAtBlock call.hashDexOrder

/-- The pair that the order goes to: a new one, or the known one with the new price. -/
def pairFor (codec : DexCodec) (call : AddCall) : Option CoinDexPair → CoinDexPair
  | none =>
    let symbolSell := codec.getSellCoinSymbol call.dexOrder.strCoinSymbolOwner call.dexOrder.strCoinSymbolPeer
    let symbolBuy := codec.getBuyCoinSymbol call.dexOrder.strCoinSymbolOwner call.dexOrder.strCoinSymbolPeer
    let (nSellChainId, nBuyChainId) :=
      if symbolSell = call.dexOrder.strCoinSymbolOwner then (call.nOrderAtChainId, call.dexOrder.nCoinAtChainIdPeer)
      else (call.dexOrder.nCoinAtChainIdPeer, call.nOrderAtChainId)
    CoinDexPair.new symbolSell symbolBuy nSellChainId nBuyChainId coin call.nPrevCompletePrice
  | some pair => if call.nPrevCompletePrice ≠ 0 then pair.setPrevCompletePrice call.nPrevCompletePrice else pair

end AddCall

namespace MatchDex

def setPair (dex : MatchDex) (hashCoinPair : UInt256) (pair : CoinDexPair) : MatchDex :=
  { dex with mapCoinDex := Function.update dex.mapCoinDex hashCoinPair (some pair) }

def linkPair (dex : MatchDex) (nChainId : ChainId) (hashCoinPair : UInt256) : MatchDex :=
  { dex with
    mapChainIdLinkCoinDexPair := Function.update dex.mapChainIdLinkCoinDexPair nChainId
      ((dex.mapChainIdLinkCoinDexPair nChainId).insert hashCoinPair) }

def addMatchDexOrder (codec : DexCodec) (dex : MatchDex) (call : AddCall) : Bool × MatchDex :=
  let hashCoinPair := call.hashCoinPair codec
  let pair := call.pairFor codec (dex.mapCoinDex hashCoinPair)
  if call.dexOrder.nOrderAmount > call.dexOrder.nCompleteOrderAmount then
    match pair.addOrder (call.order codec) with
    | none => (false, dex.setPair hashCoinPair pair)
    | some pair => (true, (dex.setPair hashCoinPair pair).linkPair call.nOrderAtChainId hashCoinPair)
  else (true, (dex.setPair hashCoinPair pair).linkPair call.nOrderAtChainId hashCoinPair)

def updateMatchCompleteOrder (dex : MatchDex) (hashCoinPair hashDexOrder nCompleteAmount : UInt256)
    (nCompleteCount : UInt64) : Bool × MatchDex :=
  match dex.mapCoinDex hashCoinPair with
  | none => (false, dex)
  | some pair =>
    match pair.updateCompleteOrder hashDexOrder nCompleteAmount nCompleteCount with
    | none => (false, dex)
    | some pair => (true, dex.setPair hashCoinPair pair)

end MatchDex

inductive MatchCall where
  | add (call : AddCall)
  | update (hashCoinPair hashDexOrder nCompleteAmount : UInt256) (nCompleteCount : UInt64)

/-- The books with the amount and the completed amount that the calls have last given for each
order of a pair. -/
structure History where
  dex : MatchDex
  recorded : UInt256 → UInt256 → Option (UInt256 × UInt256)

namespace History

def start : History := ⟨⟨fun _ => none, fun _ => []⟩, fun _ _ => none⟩

def record (recorded : UInt256 → UInt256 → Option (UInt256 × UInt256)) (hashCoinPair hashDexOrder : UInt256)
    (amounts : Option (UInt256 × UInt256)) : UInt256 → UInt256 → Option (UInt256 × UInt256) :=
  Function.update recorded hashCoinPair (Function.update (recorded hashCoinPair) hashDexOrder amounts)

def step (codec : DexCodec) (history : History) : MatchCall → History
  | .add call =>
    let result := history.dex.addMatchDexOrder codec call
    ⟨result.2, if result.1 then record history.recorded (call.hashCoinPair codec) call.hashDexOrder
      (some (call.dexOrder.nOrderAmount, call.dexOrder.nCompleteOrderAmount)) else history.recorded⟩
  | .update hashCoinPair hashDexOrder nCompleteAmount nCompleteCount =>
    let result := history.dex.updateMatchCompleteOrder hashCoinPair hashDexOrder nCompleteAmount nCompleteCount
    ⟨result.2, if result.1 then record history.recorded hashCoinPair hashDexOrder
      ((history.recorded hashCoinPair hashDexOrder).map fun amounts => (amounts.1, nCompleteAmount)) else history.recorded⟩

def Always (codec : DexCodec) (P : History → Prop) : List MatchCall → History → Prop
  | [], history => P history
  | call :: calls, history => P history ∧ Always codec P calls (history.step codec call)

def AtEach (codec : DexCodec) (P : History → MatchCall → Prop) : List MatchCall → History → Prop
  | [], _ => True
  | call :: calls, history => P history call ∧ AtEach codec P calls (history.step codec call)

end History

def EntryOf (codec : DexCodec) (hashDexOrder : UInt256) (kv : DexOrderKey × DexOrderValue) : Prop :=
  kv.1.hashOrderRandom = codec.getOrderRandomHashStatic kv.2.hashOrderAtBlock hashDexOrder

/-- Each of the orders has at most one entry in the pair, the index leads to it, and there is none
when the completed amount has reached the amount. -/
structure OneEntry (codec : DexCodec) (hashes : Set UInt256) (pair : CoinDexPair)
    (recorded : UInt256 → Option (UInt256 × UInt256)) : Prop where
  unique : ∀ hash ∈ hashes, ∀ type type' kv kv', kv ∈ (pair.book type).entries → EntryOf codec hash kv →
    kv' ∈ (pair.book type').entries → EntryOf codec hash kv' → type = type' ∧ kv.1 = kv'.1
  indexed : ∀ hash ∈ hashes, ∀ key type, pair.mapDexOrderIndex hash = some (key, type) ↔
    ∃ value, (key, value) ∈ (pair.book type).entries ∧ EntryOf codec hash (key, value)
  completed : ∀ hash ∈ hashes, ∀ nAmount nComplete, recorded hash = some (nAmount, nComplete) → nAmount ≤ nComplete →
    ∀ type, ∀ kv ∈ (pair.book type).entries, ¬EntryOf codec hash kv

def History.OneEntries (codec : DexCodec) (hashes : Set UInt256) (history : History) : Prop :=
  ∀ hashCoinPair pair, history.dex.mapCoinDex hashCoinPair = some pair →
    OneEntry codec hashes pair (history.recorded hashCoinPair)

/-- The call does not move an order that has an entry, and does not give it as completed: it is
an update, or the order has no entry, or there is an amount left and the order stays under its
key (or the pair refuses its coin). -/
def History.Settled (codec : DexCodec) (history : History) : MatchCall → Prop
  | .add call => ∀ pair, history.dex.mapCoinDex (call.hashCoinPair codec) = some pair →
      ∀ key type, pair.mapDexOrderIndex call.hashDexOrder = some (key, type) →
      call.dexOrder.nOrderAmount > call.dexOrder.nCompleteOrderAmount ∧
        (pair.orderType call.dexOrder.strCoinSymbolOwner = none ∨
          pair.orderType call.dexOrder.strCoinSymbolOwner = some type ∧ (call.order codec).key = key)
  | .update .. => True

section Pair
variable {codec : DexCodec} {hashes blocks : Set UInt256} {pair pair' : CoinDexPair}
  {recorded : UInt256 → Option (UInt256 × UInt256)} {hash : UInt256} {type : OrderType}
  {kv : DexOrderKey × DexOrderValue} {key : DexOrderKey}

/-- Every entry is of an order that the index leads from, is open and has the recorded amounts. -/
structure Kept (codec : DexCodec) (hashes blocks : Set UInt256) (pair : CoinDexPair)
    (recorded : UInt256 → Option (UInt256 × UInt256)) : Prop where
  entries : ∀ type, ∀ kv ∈ (pair.book type).entries, kv.2.hashOrderAtBlock ∈ blocks ∧ ∃ hash ∈ hashes,
    EntryOf codec hash kv ∧ pair.mapDexOrderIndex hash = some (kv.1, type) ∧
      recorded hash = some (kv.2.nOrderAmount, kv.2.nCompleteAmount) ∧ kv.2.nCompleteAmount < kv.2.nOrderAmount
  index : ∀ hash key type, pair.mapDexOrderIndex hash = some (key, type) → hash ∈ hashes ∧
    ∃ value, (key, value) ∈ (pair.book type).entries ∧ EntryOf codec hash (key, value)

def Distinct (codec : DexCodec) (hashes blocks : Set UInt256) : Prop :=
  Set.InjOn (fun place : UInt256 × UInt256 => codec.getOrderRandomHashStatic place.1 place.2) (blocks ×ˢ hashes)

theorem Distinct.eq (nodup : Distinct codec hashes blocks) {block block' hash' : UInt256} (inBlocks : block ∈ blocks)
    (inHashes : hash ∈ hashes) (inBlocks' : block' ∈ blocks) (inHashes' : hash' ∈ hashes)
    (same : codec.getOrderRandomHashStatic block hash = codec.getOrderRandomHashStatic block' hash') : hash = hash' :=
  congrArg Prod.snd (nodup (Set.mk_mem_prod inBlocks inHashes) (Set.mk_mem_prod inBlocks' inHashes') same)

section
variable (kept : Kept codec hashes blocks pair recorded)
include kept

theorem Kept.owner (nodup : Distinct codec hashes blocks) (mem : hash ∈ hashes)
    (held : kv ∈ (pair.book type).entries) (own : EntryOf codec hash kv) :
    pair.mapDexOrderIndex hash = some (kv.1, type) ∧ recorded hash = some (kv.2.nOrderAmount, kv.2.nCompleteAmount) ∧
      kv.2.nCompleteAmount < kv.2.nOrderAmount := by
  obtain ⟨inBlocks, owner, inHashes, owned, facts⟩ := kept.entries type kv held
  rw [← nodup.eq inBlocks inHashes inBlocks mem (owned.symm.trans own)]
  exact facts

theorem Kept.oneEntry (nodup : Distinct codec hashes blocks) : OneEntry codec hashes pair recorded := by
  constructor
  · intro hash mem type type' kv kv' held own held' own'
    have place := (kept.owner nodup mem held own).1
    have place' := (kept.owner nodup mem held' own').1
    rw [place] at place'
    simp only [some_inj, Prod.mk.injEq] at place'
    exact ⟨place'.2, place'.1⟩
  · intro hash mem key type
    constructor
    · exact fun place => (kept.index hash key type place).2
    · rintro ⟨value, held, own⟩
      exact (kept.owner nodup mem held own).1
  · intro hash mem nAmount nComplete given done type kv held own
    obtain ⟨_, amounts, isOpen⟩ := kept.owner nodup mem held own
    rw [amounts] at given
    cases given
    exact absurd done (BitVec.not_le.mpr isOpen)

/-- An order that is given as completed is kept if it has no entry, and is wrong if it has one. -/
theorem Kept.record_completed (mem : hash ∈ hashes) {nAmount nComplete : UInt256} (done : nAmount ≤ nComplete) :
    (pair.mapDexOrderIndex hash = none →
      Kept codec hashes blocks pair (Function.update recorded hash (some (nAmount, nComplete)))) ∧
    (OneEntry codec hashes pair (Function.update recorded hash (some (nAmount, nComplete))) →
      pair.mapDexOrderIndex hash = none) := by
  constructor
  · intro absent
    refine ⟨fun type kv held => ?_, kept.index⟩
    obtain ⟨inBlocks, owner, inHashes, own, place, amounts, isOpen⟩ := kept.entries type kv held
    refine ⟨inBlocks, owner, inHashes, own, place, ?_, isOpen⟩
    rw [update_of_ne, amounts]
    intro same
    rw [same, absent] at place
    cases place
  · intro one
    cases place : pair.mapDexOrderIndex hash with
    | none => rfl
    | some there =>
      obtain ⟨key, type⟩ := there
      obtain ⟨_, value, held, own⟩ := kept.index hash key type place
      exact absurd own (one.completed hash mem nAmount nComplete (update_self _ _ _) done type _ held)

/-- A value that is put under the key of its order, or taken out if it is filled, is kept if the order had no entry
under another key. -/
theorem Kept.written (nodup : Distinct codec hashes blocks) (type : OrderType) {value : DexOrderValue}
    (own : EntryOf codec hash (key, value)) (inHashes : hash ∈ hashes) (inBlocks : value.hashOrderAtBlock ∈ blocks)
    (mem : ∀ side kv, kv ∈ (pair'.book side).entries ↔ side = type ∧ (kv = (key, value) ∧ value.getSurplusAmount ≠ 0) ∨
      kv ∈ (pair.book side).entries ∧ ¬(side = type ∧ kv.1 = key))
    (index : pair'.mapDexOrderIndex = Function.update pair.mapDexOrderIndex hash
      (if value.getSurplusAmount = 0 then none else some (key, type)))
    (stays : ∀ key' side, pair.mapDexOrderIndex hash = some (key', side) → side = type ∧ key' = key) :
    Kept codec hashes blocks pair'
      (Function.update recorded hash (some (value.nOrderAmount, value.nCompleteAmount))) := by
  constructor
  · intro side kv inBook
    rcases (mem side kv).mp inBook with ⟨rfl, rfl, some⟩ | ⟨old, away⟩
    · refine ⟨inBlocks, hash, inHashes, own, ?_, update_self _ _ _, DexOrderValue.getSurplusAmount_ne_zero.mp some⟩
      rw [index, update_self, if_neg some]
    · obtain ⟨block, owner, listed, owned, there, given, isOpen⟩ := kept.entries side kv old
      have other : owner ≠ hash := by
        intro same
        rw [same] at there
        exact away (stays kv.1 side there)
      refine ⟨block, owner, listed, owned, ?_, ?_, isOpen⟩
      · rw [index, update_of_ne other, there]
      · rw [update_of_ne other, given]
  · intro other key' side there
    rw [index] at there
    by_cases same : other = hash
    · rw [same, update_self] at there
      split_ifs at there with none
      cases there
      rw [same]
      exact ⟨inHashes, value, (mem type _).mpr (Or.inl ⟨rfl, rfl, none⟩), own⟩
    · rw [update_of_ne same] at there
      obtain ⟨listed, value', held, owned⟩ := kept.index other key' side there
      refine ⟨listed, value', (mem side _).mpr (Or.inr ⟨held, ?_⟩), owned⟩
      -- the key under which the order goes is of no other order
      rintro ⟨rfl, shared⟩
      apply same
      apply nodup.eq (kept.entries side _ held).1 listed inBlocks inHashes
      exact owned.symm.trans ((congrArg DexOrderKey.hashOrderRandom shared).trans own)

end

end Pair

namespace History
variable {codec : DexCodec} {hashes blocks : Set UInt256} {history : History} {call : AddCall}

def KeptAll (codec : DexCodec) (hashes blocks : Set UInt256) (history : History) : Prop :=
  ∀ hashCoinPair pair, history.dex.mapCoinDex hashCoinPair = some pair →
    Kept codec hashes blocks pair (history.recorded hashCoinPair)

theorem KeptAll.oneEntries (kept : history.KeptAll codec hashes blocks) (nodup : Distinct codec hashes blocks) :
    history.OneEntries codec hashes := fun hashCoinPair pair there => (kept hashCoinPair pair there).oneEntry nodup

section
variable {calls : List MatchCall} {dex : MatchDex} {given : UInt256 → Option (UInt256 × UInt256)}
  {hashCoinPair : UInt256} {pair : CoinDexPair}

theorem KeptAll.setPair (kept : history.KeptAll codec hashes blocks)
    (maps : dex.mapCoinDex = Function.update history.dex.mapCoinDex hashCoinPair (some pair))
    (one : Kept codec hashes blocks pair given) :
    KeptAll codec hashes blocks ⟨dex, Function.update history.recorded hashCoinPair given⟩ := by
  intro other pair' there
  dsimp only at there ⊢
  rw [maps] at there
  by_cases same : other = hashCoinPair
  · rw [same, update_self] at there ⊢
    cases there
    exact one
  · rw [update_of_ne same] at there ⊢
    exact kept other pair' there

theorem OneEntries.ofPair {coins : UInt256 → Option CoinDexPair}
    {recorded : UInt256 → UInt256 → Option (UInt256 × UInt256)}
    (maps : dex.mapCoinDex = Function.update coins hashCoinPair (some pair))
    (one : OneEntries codec hashes ⟨dex, Function.update recorded hashCoinPair given⟩) :
    OneEntry codec hashes pair given := by
  have entry := one hashCoinPair pair
  dsimp only at entry
  rw [maps, update_self, update_self] at entry
  exact entry rfl

theorem KeptAll.pairFor (kept : history.KeptAll codec hashes blocks) (call : AddCall) :
    Kept codec hashes blocks (call.pairFor codec (history.dex.mapCoinDex (call.hashCoinPair codec)))
      (history.recorded (call.hashCoinPair codec)) := by
  cases known : history.dex.mapCoinDex (call.hashCoinPair codec) with
  | none =>
    constructor
    · intro type kv held
      cases type <;> cases held
    · intro hash key type place
      cases place
  | some pair =>
    have before := kept _ pair known
    unfold AddCall.pairFor
    dsimp only
    split_ifs
    · refine ⟨fun type => ?_, before.index⟩
      cases type
      exacts [before.entries .sell, before.entries .buy]
    · exact before

/-- What the call asks of the pair it finds it asks of the pair the order goes to. -/
theorem settled_add_iff : history.Settled codec (.add call) ↔
    let pair := call.pairFor codec (history.dex.mapCoinDex (call.hashCoinPair codec))
    ∀ key type, pair.mapDexOrderIndex call.hashDexOrder = some (key, type) →
      call.dexOrder.nOrderAmount > call.dexOrder.nCompleteOrderAmount ∧
        (pair.orderType call.dexOrder.strCoinSymbolOwner = none ∨
          pair.orderType call.dexOrder.strCoinSymbolOwner = some type ∧ (call.order codec).key = key) := by
  unfold Settled AddCall.pairFor
  cases known : history.dex.mapCoinDex (call.hashCoinPair codec) with
  | none => simp [known, new]
  | some pair =>
    simp only [known, some_inj, forall_eq']
    split_ifs <;> exact Iff.rfl

theorem step_add (kept : history.KeptAll codec hashes blocks) (nodup : Distinct codec hashes blocks)
    (inHashes : call.hashDexOrder ∈ hashes) (inBlocks : call.hashOrderAtBlock ∈ blocks) :
    ((history.step codec (.add call)).OneEntries codec hashes → history.Settled codec (.add call)) ∧
      (history.Settled codec (.add call) → (history.step codec (.add call)).KeptAll codec hashes blocks) := by
  have before := kept.pairFor call
  rw [settled_add_iff]
  unfold step MatchDex.addMatchDexOrder
  dsimp only
  generalize call.pairFor codec (history.dex.mapCoinDex (call.hashCoinPair codec)) = pair at before ⊢
  by_cases more : call.dexOrder.nOrderAmount > call.dexOrder.nCompleteOrderAmount
  · rw [if_pos more]
    cases side : pair.orderType call.dexOrder.strCoinSymbolOwner with
    | none =>
      have refused : pair.addOrder (call.order codec) = none := addOrder_eq_none side
      rw [refused]
      refine ⟨fun _ key type _ => ⟨more, Or.inl rfl⟩, fun _ => ?_⟩
      have same : KeptAll codec hashes blocks ⟨history.dex.setPair (call.hashCoinPair codec) pair, _⟩ :=
        KeptAll.setPair kept rfl before
      rw [update_eq_self] at same
      exact same
    | some type =>
      have side' : pair.orderType (call.order codec).strCoinSymbolOwner = some type := side
      obtain ⟨pair', ran, added⟩ := orderAdded side'
      rw [ran]
      constructor
      · intro one key type' place
        have here := OneEntries.ofPair rfl one
        -- an order that moves to another key has two entries
        have stays : type' = type ∧ key = (call.order codec).key := by
          by_contra away
          obtain ⟨_, value, held, own⟩ := before.index _ key type' place
          exact away (here.unique _ inHashes type' type (key, value) ((call.order codec).key, (call.order codec).value)
            ((added.mem type' _).mpr (Or.inr ⟨held, away⟩)) own ((added.mem type _).mpr (Or.inl ⟨rfl, rfl⟩)) rfl)
        obtain ⟨rfl, rfl⟩ := stays
        exact ⟨more, Or.inr ⟨rfl, rfl⟩⟩
      · intro settled
        apply KeptAll.setPair kept rfl
        have surplus : (call.order codec).value.getSurplusAmount ≠ 0 := DexOrderValue.getSurplusAmount_ne_zero.mpr more
        have own : EntryOf codec call.hashDexOrder ((call.order codec).key, (call.order codec).value) := rfl
        refine before.written nodup type own inHashes inBlocks (fun side kv => ?_) ?_ fun key type' place => ?_
        · rw [added.mem, and_iff_left surplus]
        · rw [if_neg surplus]
          exact added.index
        rcases (settled key type' place).2 with none | ⟨same, rfl⟩
        · cases none
        · cases same
          exact ⟨rfl, rfl⟩
  · rw [if_neg more]
    have done : call.dexOrder.nOrderAmount ≤ call.dexOrder.nCompleteOrderAmount := BitVec.not_lt.mp more
    obtain ⟨keeps, absent⟩ := before.record_completed inHashes done
    constructor
    · intro one key type place
      rw [absent (OneEntries.ofPair rfl one)] at place
      cases place
    · intro settled
      apply KeptAll.setPair kept rfl
      apply keeps
      cases place : pair.mapDexOrderIndex call.hashDexOrder with
      | none => rfl
      | some there => exact absurd (settled there.1 there.2 place).1 more

theorem step_update (kept : history.KeptAll codec hashes blocks) (nodup : Distinct codec hashes blocks)
    (hashCoinPair hash amount : UInt256) (count : UInt64) :
    (history.step codec (.update hashCoinPair hash amount count)).KeptAll
      codec hashes blocks := by
  unfold step
  dsimp only
  by_cases listed : ∃ pair place, history.dex.mapCoinDex hashCoinPair = some pair ∧
      pair.mapDexOrderIndex hash = some place
  · obtain ⟨pair, ⟨key, type⟩, known, place⟩ := listed
    have before := kept hashCoinPair pair known
    obtain ⟨inHashes, value, held, own⟩ := before.index hash key type place
    obtain ⟨pair', ran, updated⟩ := orderUpdated place held amount count
    have result : history.dex.updateMatchCompleteOrder hashCoinPair hash amount count =
        (true, history.dex.setPair hashCoinPair pair') := by
      unfold MatchDex.updateMatchCompleteOrder
      simp only [known, ran]
    rw [result]
    apply KeptAll.setPair kept rfl
    rw [(before.owner nodup inHashes held own).2.1]
    have own' : EntryOf codec hash (key, { value with nCompleteAmount := amount, nCompleteCount := count }) := own
    refine before.written nodup type own' inHashes (before.entries type _ held).1 updated.mem updated.index
      fun key' side there => ?_
    cases place.symm.trans there
    exact ⟨rfl, rfl⟩
  · have refused : history.dex.updateMatchCompleteOrder hashCoinPair hash amount count = (false, history.dex) := by
      unfold MatchDex.updateMatchCompleteOrder
      cases known : history.dex.mapCoinDex hashCoinPair with
      | none => rfl
      | some pair =>
        dsimp only
        rw [updateCompleteOrder_eq_none]
        exact fun key type value there => absurd ⟨pair, _, known, there⟩ listed
    rw [refused]
    exact kept

theorem always_iff {P : History → Prop} : ∀ {history : History},
    Always codec P calls history ↔
      Foundation.Always (fun history call => some (history.step codec call)) P history calls := by
  induction calls with
  | nil => exact Iff.rfl
  | cons call calls ih => simp [Always, Foundation.Always, ih]

theorem atEach_iff {P : History → MatchCall → Prop} : ∀ {history : History},
    AtEach codec P calls history ↔
      Foundation.AtEach (fun history call => some (history.step codec call)) P history calls := by
  induction calls with
  | nil => exact Iff.rfl
  | cons call calls ih => simp [AtEach, Foundation.AtEach, ih]

end

/-- Each order has at most one entry before and after every call if and only if no call moves an
order with an entry or gives it as completed. -/
theorem oneEntries_always_iff (codec : DexCodec) (hashes blocks : Set UInt256) (distinct : Distinct codec hashes blocks)
    (calls : List MatchCall)
    (inPlay : ∀ call, .add call ∈ calls → call.hashDexOrder ∈ hashes ∧ call.hashOrderAtBlock ∈ blocks) :
    Always codec (OneEntries codec hashes) calls start ↔ AtEach codec (Settled codec) calls start := by
  rw [always_iff, atEach_iff]
  apply always_iff_atEach_of fun history kept => KeptAll.oneEntries kept distinct
  · intro history call member next kept taken
    cases taken
    cases call with
    | add add => exact step_add kept distinct (inPlay add member).1 (inPlay add member).2
    | update => exact ⟨fun _ => trivial, fun _ => step_update kept distinct _ _ _ _⟩
  · intro hashCoinPair pair known
    cases known

end History

namespace Sample

def mint : DexCodec where
  getCoinPairHashStatic owner peer := BitVec.ofNat 256 (ofLittleEndian owner + ofLittleEndian peer)
  getSellCoinSymbol owner peer := if owner < peer then owner else peer
  getBuyCoinSymbol owner peer := if owner < peer then peer else owner
  getOrderRandomHashStatic hashAtBlock hashDexOrder := hashAtBlock ^^^ hashDexOrder

def placed : AddCall :=
  ⟨1, 7, 1, ⟨[0x41], [0x42], 2, 10, 20, 0, 0⟩, 1, createBlockHash 1 1 0 0xabcdef, 0⟩

def amended : AddCall :=
  { placed with
    dexOrder := ⟨[0x41], [0x42], 2, 8, 20, 0, 0⟩
    hashOrderAtBlock := createBlockHash 1 2 0 0xabcdef }

/-- The amended order is in the book with both amounts. -/
theorem amended_order_twice :
    ¬History.Always mint (History.OneEntries mint {1}) [.add placed, .add amended] History.start := by
  intro always
  have one := always.2.2 0x83 _ rfl
  have same := (one.unique 1 rfl .sell .sell ((placed.order mint).key, (placed.order mint).value)
    ((amended.order mint).key, (amended.order mint).value) (by decide) rfl (by decide) rfl).2
  exact absurd same (by decide)

def raised : AddCall := { placed with dexOrder := ⟨[0x41], [0x42], 2, 12, 20, 0, 0⟩ }

theorem raised_settled : History.AtEach mint (History.Settled mint)
    [.add placed, .add raised, .update 0x83 1 12 1] History.start := by
  refine ⟨fun pair known => ?_, fun pair known key type place => ?_, trivial, trivial⟩
  · cases known
  · cases known
    cases place
    exact ⟨by decide, Or.inr ⟨by decide, rfl⟩⟩

theorem mint_distinct : Distinct mint {1} {createBlockHash 1 1 0 0xabcdef} := by
  rintro ⟨block, hash⟩ ⟨rfl, rfl⟩ ⟨block', hash'⟩ ⟨rfl, rfl⟩ _
  rfl

theorem oneEntries_always_raised : History.Always mint (History.OneEntries mint {1})
    [.add placed, .add raised, .update 0x83 1 12 1] History.start := by
  refine (History.oneEntries_always_iff mint {1} {createBlockHash 1 1 0 0xabcdef} mint_distinct _ ?_).mpr raised_settled
  intro call member
  simp only [List.mem_cons, MatchCall.add.injEq, reduceCtorEq, List.not_mem_nil, or_false] at member
  rcases member with rfl | rfl <;> exact ⟨rfl, rfl⟩

end Sample
end HashAhead.Dex

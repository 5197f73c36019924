import HashAhead.TxPool.Pool

/-! The indexes of a pool agree: after any calls the transactions found by id are those of the index, and each of
them is listed under its sender and its receiver and nowhere else. So a pooled transaction is always removed
without an error, and only with the transactions of its sender. -/

namespace HashAhead.TxPool
open Foundation State Core Chain List Option SortedMap AddressTxState AddressMap

def Touches (tx : Transaction) (dest : Destination) : Prop := dest ≠ 0 ∧ (dest = tx.destFrom ∨ dest = tx.destTo)

instance (tx : Transaction) (dest : Destination) : Decidable (Touches tx dest) := inferInstanceAs (Decidable (_ ∧ _))

section Turns
variable {S X : Type} {turn : S → X → Bool × S}

theorem untilFails_keeps {P : S → Prop} (xs : List X) (step : ∀ x ∈ xs, ∀ s, P s → P (turn s x).2) (s : S) (start : P s) :
    P (untilFails turn xs s).2 := by
  induction xs generalizing s with
  | nil => exact start
  | cons x rest ih =>
    have after := step x mem_cons_self s start
    rw [untilFails]
    split_ifs
    · exact ih (fun y mem => step y (mem_cons_of_mem _ mem)) _ after
    · exact after

end Turns

def AddressTxState.Settled (entry : AddressTxState) : Prop := entry.mapMissTx.entries = [] ∧ entry.mapMissNonce.entries = []

namespace AddressTxState
variable {entry : AddressTxState} (settled : entry.Settled)
include settled

theorem addAddressTx_eq (txid : UInt256) (ptx : PooledTx) :
    entry.addAddressTx txid ptx = { entry with mapDestTx := entry.mapDestTx.insertNew txid ptx } := by
  have absent : entry.mapMissTx.find txid = none := find_of_entries_eq_nil settled.1 txid
  rw [addAddressTx, removeMissTx]
  simp only [absent]

theorem setAddressState_eq (state : DestState) : entry.setAddressState state = { entry with stateAddress := state } := by
  simp [setAddressState, settled.2]

theorem isEmptyAddressTx_iff (txid : UInt256) :
    (entry.removeAddressTx txid).isEmptyAddressTx = true ↔ (entry.mapDestTx.erase txid).entries = [] := by
  simp [isEmptyAddressTx, removeAddressTx, settled.1]

theorem fetchNextMissTx_eq_none : entry.fetchNextMissTx = none := by
  rw [fetchNextMissTx, find_of_entries_eq_nil settled.2]
  rfl

end AddressTxState

namespace AddressMap

def Tidy (map : AddressMap) : Prop :=
  ∀ dest entry, map.find dest = some entry → entry.Settled ∧ entry.mapDestTx.entries ≠ []

def listedAt (map : AddressMap) (dest : Destination) (txid : UInt256) : Option PooledTx :=
  (map.find dest).bind fun entry => entry.mapDestTx.find txid

variable {map : AddressMap}

variable (dest : Destination)

theorem find_update (change : AddressTxState → AddressTxState) (d : Destination) :
    (map.update dest change).find d = if d = dest then some (change (map.entry dest)) else map.find d :=
  find_insert ..

theorem exists_entry {dest : Destination} {txid : UInt256} {ptx : PooledTx} (listed : map.listedAt dest txid = some ptx) :
    ∃ entry, map.find dest = some entry := by
  obtain ⟨entry, found, _⟩ := bind_eq_some_iff.1 listed
  exact ⟨entry, found⟩

theorem settled_entry (tidy : map.Tidy) (dest : Destination) : (map.entry dest).Settled := by
  rw [entry]
  cases found : map.find dest with
  | none => exact ⟨rfl, rfl⟩
  | some entry => exact (tidy dest entry found).1

theorem update_same (tidy : map.Tidy) {dest : Destination} {entry : AddressTxState} (found : map.find dest = some entry)
    {change : AddressTxState → AddressTxState} (same : (change entry).mapDestTx = entry.mapDestTx)
    (settled : (change entry).Settled) :
    (map.update dest change).Tidy ∧ ∀ d txid, (map.update dest change).listedAt d txid = map.listedAt d txid := by
  have here : map.entry dest = entry := by rw [AddressMap.entry, found, getD_some]
  constructor
  · intro d e
    rw [find_update]
    split_ifs
    · rintro ⟨⟩
      rw [here, same]
      exact ⟨settled, (tidy dest entry found).2⟩
    · exact tidy d e
  · intro d txid
    rw [listedAt, listedAt, find_update]
    split_ifs with at_dest
    · rw [at_dest, found, here, bind_some, bind_some, same]
    · rfl

def stateAt (map : AddressMap) (dest : Destination) : Option DestState := (map.find dest).map AddressTxState.stateAddress

theorem stateAt_update (change : AddressTxState → AddressTxState) (d : Destination) :
    (map.update dest change).stateAt d = if d = dest then some (change (map.entry dest)).stateAddress else map.stateAt d := by
  rw [stateAt, find_update]
  split_ifs <;> rfl

theorem stateAddress_entry : (map.entry dest).stateAddress = (map.stateAt dest).getD .null := by
  rw [entry, stateAt]
  cases map.find dest <;> rfl

/-- A map with one more listed transaction. An address that was not there begins with the null state. -/
structure Widens (map map' : AddressMap) (ptx : PooledTx) (at_ : Destination → UInt256 → Prop)
    [∀ d id, Decidable (at_ d id)] : Prop where
  tidy : map'.Tidy
  listed : ∀ d id, map'.listedAt d id = (map.listedAt d id).or (if at_ d id then some ptx else none)
  kept : ∀ d, (map'.stateAt d).getD .null = (map.stateAt d).getD .null
  others : ∀ d, (∀ id, ¬at_ d id) → map'.stateAt d = map.stateAt d

section
variable {map₁ map₂ : AddressMap} {ptx : PooledTx} {p q : Destination → UInt256 → Prop} [∀ d id, Decidable (p d id)]
  [∀ d id, Decidable (q d id)]

theorem Widens.refl (tidy : map.Tidy) : map.Widens map ptx fun _ _ => False :=
  ⟨tidy, fun _ _ => or_none.symm, fun _ => rfl, fun _ _ => rfl⟩

theorem Widens.congr (widens : map.Widens map₁ ptx p) (same : ∀ d id, p d id ↔ q d id) : map.Widens map₁ ptx q where
  __ := widens
  listed d id := by rw [widens.listed, if_congr (same d id) rfl rfl]
  others d away := widens.others d fun id => (same d id).not.2 (away id)

theorem Widens.trans (one : map.Widens map₁ ptx p) (two : map₁.Widens map₂ ptx q) :
    map.Widens map₂ ptx fun d id => p d id ∨ q d id where
  tidy := two.tidy
  listed d id := by
    rw [two.listed, one.listed, Option.or_assoc]
    by_cases early : p d id <;> simp [early]
  kept d := (two.kept d).trans (one.kept d)
  others d away := (two.others d fun id late => away id (Or.inr late)).trans
    (one.others d fun id early => away id (Or.inl early))

end

theorem update_add (tidy : map.Tidy) (dest : Destination) (txid : UInt256) (ptx : PooledTx) :
    map.Widens (map.update dest fun entry => entry.addAddressTx txid ptx) ptx fun d id => d = dest ∧ id = txid := by
  have added := addAddressTx_eq (settled_entry tidy dest) txid ptx
  constructor
  · intro d e
    rw [find_update]
    split_ifs
    · rintro ⟨⟩
      rw [added]
      refine ⟨settled_entry tidy dest, fun empty => ?_⟩
      have found := HashMap.find_insertNew (map.entry dest).mapDestTx txid ptx txid
      rw [find_of_entries_eq_nil empty, if_pos rfl] at found
      cases before : (map.entry dest).mapDestTx.find txid <;> simp [before] at found
    · exact tidy d e
  · intro d id
    rw [listedAt, listedAt, find_update]
    by_cases at_dest : d = dest
    · rw [if_pos at_dest, bind_some, added, HashMap.find_insertNew, entry, at_dest]
      cases map.find dest with
      | none => simp [new, find_empty]
      | some e => simp
    · simp [at_dest]
  · intro d
    rw [stateAt_update]
    split_ifs with at_dest
    · rw [added, getD_some, stateAddress_entry, at_dest]
    · rfl
  · intro d away
    rw [stateAt_update, if_neg fun here => away txid ⟨here, rfl⟩]

/-- A map with fewer listed transactions. Entries that stay keep their states. -/
structure Narrows (map map' : AddressMap) (gone : Destination → UInt256 → Prop) [∀ d id, Decidable (gone d id)] : Prop where
  tidy : map'.Tidy
  listed : ∀ d id, map'.listedAt d id = if gone d id then none else map.listedAt d id
  kept : ∀ d entry', map'.find d = some entry' → ∃ entry, map.find d = some entry ∧ entry'.stateAddress = entry.stateAddress

section
variable {map₁ map₂ : AddressMap} {p q : Destination → UInt256 → Prop} [∀ d id, Decidable (p d id)]
  [∀ d id, Decidable (q d id)]

theorem Narrows.refl (tidy : map.Tidy) : map.Narrows map fun _ _ => False :=
  ⟨tidy, fun _ _ => (if_neg not_false).symm, fun _ entry found => ⟨entry, found, rfl⟩⟩

theorem Narrows.congr (narrows : map.Narrows map₁ p) (same : ∀ d id, p d id ↔ q d id) : map.Narrows map₁ q where
  __ := narrows
  listed d id := by rw [narrows.listed, if_congr (same d id) rfl rfl]

theorem Narrows.trans (one : map.Narrows map₁ p) (two : map₁.Narrows map₂ q) :
    map.Narrows map₂ fun d id => q d id ∨ p d id where
  tidy := two.tidy
  listed d id := by rw [two.listed, one.listed, ite_or]
  kept d entry₂ found₂ := by
    obtain ⟨entry₁, found₁, same₁⟩ := two.kept d entry₂ found₂
    obtain ⟨entry, found, same⟩ := one.kept d entry₁ found₁
    exact ⟨entry, found, same₁.trans same⟩

end

theorem removeDestTx_spec (tidy : map.Tidy) {dest : Destination} {entry : AddressTxState} (found : map.find dest = some entry)
    (txid : UInt256) :
    ∃ map', map.removeDestTx dest txid = some map' ∧ map.Narrows map' fun d id => d = dest ∧ id = txid := by
  have empty_iff := isEmptyAddressTx_iff (tidy dest entry found).1 txid
  rw [removeDestTx, found]
  refine ⟨_, rfl, ?_⟩
  simp only [empty_iff]
  by_cases empty : (entry.mapDestTx.erase txid).entries = []
  · rw [if_pos empty]
    constructor
    · intro d e
      rw [find_erase]
      split_ifs
      · rintro ⟨⟩
      · exact tidy d e
    · intro d id
      rw [listedAt, listedAt, find_erase]
      by_cases at_dest : d = dest
      · have nothing := find_of_entries_eq_nil empty id
        rw [find_erase] at nothing
        rw [if_pos at_dest, at_dest, found]
        by_cases same : id = txid
        · simp [same]
        · rw [if_neg same] at nothing
          simp [same, nothing]
      · simp [at_dest]
    · intro d e
      rw [find_erase]
      split_ifs
      · rintro ⟨⟩
      · exact fun here => ⟨e, here, rfl⟩
  · rw [if_neg empty]
    constructor
    · intro d e
      rw [find_insert]
      split_ifs
      · rintro ⟨⟩
        exact ⟨(tidy dest entry found).1, empty⟩
      · exact tidy d e
    · intro d id
      rw [listedAt, listedAt, find_insert]
      by_cases at_dest : d = dest
      · rw [if_pos at_dest, at_dest, found, bind_some, bind_some, removeAddressTx,
          find_erase]
        simp
      · simp [at_dest]
    · intro d e
      rw [find_insert]
      split_ifs with at_dest
      · rintro ⟨⟩
        exact ⟨entry, at_dest ▸ found, rfl⟩
      · exact fun here => ⟨e, here, rfl⟩

end AddressMap

structure Indexed (base : PoolBase) (known : Set Transaction) (pool : ForkTxPool) : Prop where
  linked : ∀ link ∈ pool.setTxLinkIndex, link = link.ptx.link base
  known : ∀ link ∈ pool.setTxLinkIndex, link.ptx.toTransaction ∈ known
  sequence : pool.setTxLinkIndex.Pairwise fun a b => a.nSequenceNumber < b.nSequenceNumber
  ahead : ∀ link ∈ pool.setTxLinkIndex, link.nSequenceNumber < pool.nTxSequenceNumber
  found : ∀ txid ptx, pool.mapTx.find txid = some ptx ↔ ∃ link ∈ pool.setTxLinkIndex, link.txid = txid ∧ link.ptx = ptx
  listed : ∀ dest txid ptx, pool.mapAddressTxState.listedAt dest txid = some ptx ↔
    pool.mapTx.find txid = some ptx ∧ Touches ptx.toTransaction dest
  tidy : pool.mapAddressTxState.Tidy

/-- A pool with the given transactions left. Addresses that stay keep their states. -/
structure Reduced (base : PoolBase) (known : Set Transaction) (pool pool' : ForkTxPool) (left : List Transaction) : Prop where
  indexed : Indexed base known pool'
  sublist : pool'.setTxLinkIndex.Sublist pool.setTxLinkIndex
  txs : pool'.txs = left
  kept : ∀ dest entry', pool'.mapAddressTxState.find dest = some entry' →
    ∃ entry, pool.mapAddressTxState.find dest = some entry ∧ entry'.stateAddress = entry.stateAddress
  last : pool'.hashLastBlock = pool.hashLastBlock

theorem Reduced.refl {base : PoolBase} {known : Set Transaction} {pool : ForkTxPool} (indexed : Indexed base known pool) :
    Reduced base known pool pool pool.txs :=
  ⟨indexed, .refl _, rfl, fun _ entry found => ⟨entry, found, rfl⟩, rfl⟩

theorem Reduced.stateAt {base : PoolBase} {known : Set Transaction} {pool pool' : ForkTxPool} {left : List Transaction}
    (reduced : Reduced base known pool pool' left) {dest : Destination} {state : DestState}
    (after : pool'.mapAddressTxState.stateAt dest = some state) : pool.mapAddressTxState.stateAt dest = some state := by
  obtain ⟨entry', found', rfl⟩ := map_eq_some_iff.1 after
  obtain ⟨entry, found, same⟩ := reduced.kept dest entry' found'
  rw [AddressMap.stateAt, found, same]
  rfl

theorem Reduced.trans {base : PoolBase} {known : Set Transaction} {first second third : ForkTxPool}
    {left left' : List Transaction} (one : Reduced base known first second left)
    (two : Reduced base known second third left') : Reduced base known first third left' where
  indexed := two.indexed
  sublist := two.sublist.trans one.sublist
  txs := two.txs
  kept dest entry' found := by
    obtain ⟨entry, here, same⟩ := two.kept dest entry' found
    obtain ⟨entry₀, here₀, same₀⟩ := one.kept dest entry here
    exact ⟨entry₀, here₀, same.trans same₀⟩
  last := two.last.trans one.last

namespace Indexed
variable {base : PoolBase} {known : Set Transaction} {pool : ForkTxPool}

theorem empty (base : PoolBase) (known : Set Transaction) {pool : ForkTxPool} (noLinks : pool.setTxLinkIndex = [])
    (noTx : pool.mapTx = .empty) (noAddress : pool.mapAddressTxState = .empty) : Indexed base known pool where
  linked := by simp [noLinks]
  known := by simp [noLinks]
  sequence := by simp [noLinks]
  ahead := by simp [noLinks]
  found := by simp [noLinks, noTx, find_empty]
  listed := by simp [noTx, noAddress, listedAt, find_empty]
  tidy := by simp [noAddress, AddressMap.Tidy, find_empty]

section Lookup
variable (indexed : Indexed base known pool)
include indexed

theorem txid_eq {link : PooledTxLink} (mem : link ∈ pool.setTxLinkIndex) :
    link.txid = base.getHash link.ptx.toTransaction := congrArg PooledTxLink.txid (indexed.linked link mem)

theorem found_link {link : PooledTxLink} (mem : link ∈ pool.setTxLinkIndex) :
    pool.mapTx.find link.txid = some link.ptx := (indexed.found _ _).2 ⟨link, mem, rfl, rfl⟩

variable {ptx : PooledTx} {txid : UInt256}

theorem of_found (here : pool.mapTx.find txid = some ptx) :
    txid = base.getHash ptx.toTransaction ∧ ptx.toTransaction ∈ known := by
  obtain ⟨link, mem, rfl, rfl⟩ := (indexed.found _ _).1 here
  exact ⟨indexed.txid_eq mem, indexed.known link mem⟩

theorem mem_txs (here : pool.mapTx.find txid = some ptx) : ptx.toTransaction ∈ pool.txs := by
  obtain ⟨link, mem, _, rfl⟩ := (indexed.found _ _).1 here
  exact List.mem_map_of_mem mem

theorem isSome_find_iff (tx : Transaction) :
    (pool.mapTx.find (base.getHash tx)).isSome = true ↔ base.getHash tx ∈ pool.txs.map base.getHash := by
  rw [isSome_iff_exists, ForkTxPool.txs, List.map_map, List.mem_map]
  constructor
  · rintro ⟨ptx, here⟩
    obtain ⟨link, mem, same, _⟩ := (indexed.found _ _).1 here
    exact ⟨link, mem, (indexed.txid_eq mem).symm.trans same⟩
  · rintro ⟨link, mem, same⟩
    have here := indexed.found_link mem
    rw [indexed.txid_eq mem] at here
    exact ⟨link.ptx, same ▸ here⟩

theorem nodup_hash : (pool.txs.map base.getHash).Nodup := by
  rw [ForkTxPool.txs, List.map_map, nodup_iff_pairwise_ne, pairwise_map]
  refine indexed.sequence.imp_of_mem fun {a b} inA inB before same => ?_
  have sameId : a.txid = b.txid := by rw [indexed.txid_eq inA, indexed.txid_eq inB]; exact same
  have sameTx : a.ptx = b.ptx := by
    have first := indexed.found_link inA
    rw [sameId, indexed.found_link inB] at first
    exact (some_inj.1 first).symm
  rw [indexed.linked a inA, indexed.linked b inB, sameTx] at before
  exact lt_irrefl _ before

variable {dest : Destination}

theorem exists_entry (here : pool.mapTx.find txid = some ptx) (touches : Touches ptx.toTransaction dest)
    : ∃ entry, pool.mapAddressTxState.find dest = some entry :=
  AddressMap.exists_entry ((indexed.listed _ _ _).2 ⟨here, touches⟩)

theorem exists_touching {entry : AddressTxState} (found : pool.mapAddressTxState.find dest = some entry)
    : ∃ tx ∈ pool.txs, Touches tx dest := by
  obtain ⟨⟨txid, ptx⟩, held⟩ := exists_mem_of_ne_nil _ (indexed.tidy dest entry found).2
  have listed : pool.mapAddressTxState.listedAt dest txid = some ptx := by
    rw [AddressMap.listedAt, found, bind_some, find_eq_some_iff]
    exact held
  obtain ⟨here, touches⟩ := (indexed.listed _ _ _).1 listed
  obtain ⟨link, mem, _, rfl⟩ := (indexed.found _ _).1 here
  exact ⟨_, List.mem_map_of_mem mem, touches⟩

theorem exists_entry_of_mem {tx : Transaction} (mem : tx ∈ pool.txs) (touches : Touches tx dest) :
    ∃ entry, pool.mapAddressTxState.find dest = some entry := by
  obtain ⟨link, inside, rfl⟩ := List.mem_map.1 mem
  exact indexed.exists_entry (indexed.found_link inside) touches

theorem bySequence_eq : pool.bySequence = pool.setTxLinkIndex :=
  List.Pairwise.insertionSort_eq (indexed.sequence.imp fun before => before.le)

end Lookup

theorem find_eq_of_reduced {pool' : ForkTxPool} {left : List Transaction} (indexed : Indexed base known pool)
    (reduced : Reduced base known pool pool' left) {txid : UInt256} {ptx : PooledTx}
    (here : pool.mapTx.find txid = some ptx) (stays : ptx.toTransaction ∈ left) : pool'.mapTx.find txid = some ptx := by
  rw [← reduced.txs] at stays
  obtain ⟨link, inside, same⟩ := List.mem_map.1 stays
  have sameId : link.txid = txid := by rw [reduced.indexed.txid_eq inside, same, (indexed.of_found here).1]
  have before := indexed.found_link (reduced.sublist.subset inside)
  rw [sameId, here] at before
  rw [← sameId, reduced.indexed.found_link inside, before]

section Remove
variable (indexed : Indexed base known pool)
include indexed

theorem eraseTx_reduced {txid : UInt256} {ptx : PooledTx} (here : pool.mapTx.find txid = some ptx) {map : AddressMap}
    (narrows : pool.mapAddressTxState.Narrows map fun d id => Touches ptx.toTransaction d ∧ id = txid) :
    Reduced base known pool (pool.eraseTx txid map) (pool.txs.filter fun tx => base.getHash tx ≠ txid) := by
  have members : ∀ {link}, link ∈ (pool.eraseTx txid map).setTxLinkIndex ↔ link ∈ pool.setTxLinkIndex ∧ link.txid ≠ txid := by
    intro link
    simp [ForkTxPool.eraseTx]
  have found : ∀ id p, (pool.eraseTx txid map).mapTx.find id = some p ↔
      ∃ link ∈ (pool.eraseTx txid map).setTxLinkIndex, link.txid = id ∧ link.ptx = p := by
    intro id p
    show (pool.mapTx.erase txid).find id = some p ↔ _
    rw [find_erase]
    split_ifs with same
    · simp only [members]
      constructor
      · rintro ⟨⟩
      · rintro ⟨link, ⟨_, other⟩, rfl, _⟩
        exact absurd same other
    · simp only [indexed.found, members]
      constructor
      · rintro ⟨link, mem, rfl, rfl⟩
        exact ⟨link, ⟨mem, same⟩, rfl, rfl⟩
      · rintro ⟨link, ⟨mem, _⟩, rfl, rfl⟩
        exact ⟨link, mem, rfl, rfl⟩
  refine ⟨⟨fun link mem => indexed.linked link (members.1 mem).1,
    fun link mem => indexed.known link (members.1 mem).1, indexed.sequence.filter _, fun link mem => ?_, found,
    fun dest id p => ?_, narrows.tidy⟩, filter_sublist, ?_, narrows.kept, rfl⟩
  · -- the counter is only reset when no link is left
    have below := indexed.ahead link (members.1 mem).1
    have held := (found link.txid link.ptx).2 ⟨link, mem, rfl, rfl⟩
    have filled : (pool.mapTx.erase txid).entries.isEmpty = false := by
      cases empty : (pool.mapTx.erase txid).entries.isEmpty with
      | false => rfl
      | true =>
        rw [List.isEmpty_iff] at empty
        have nothing := find_of_entries_eq_nil empty link.txid
        rw [show (pool.mapTx.erase txid).find link.txid = some link.ptx from held] at nothing
        cases nothing
    show link.nSequenceNumber < if _ then _ else _
    rw [if_neg (by simp [filled])]
    exact below
  · show map.listedAt dest id = some p ↔ (pool.mapTx.erase txid).find id = some p ∧ _
    rw [narrows.listed, find_erase]
    by_cases same : id = txid
    · subst same
      rw [if_pos rfl]
      constructor
      · intro still
        by_cases touched : Touches ptx.toTransaction dest
        · rw [if_pos ⟨touched, rfl⟩] at still
          cases still
        · rw [if_neg fun both => touched both.1, indexed.listed, here] at still
          obtain ⟨⟨⟩, touches⟩ := still
          exact absurd touches touched
      · rintro ⟨⟨⟩, _⟩
    · simp only [same, and_false, if_false]
      exact indexed.listed dest id p
  · show List.map _ (List.filter _ _) = _
    rw [ForkTxPool.txs, List.filter_map]
    refine congrArg _ (filter_congr fun link mem => ?_)
    rw [indexed.txid_eq mem]
    rfl

theorem removeFoundTx_spec {txid : UInt256} {ptx : PooledTx} (here : pool.mapTx.find txid = some ptx) :
    (pool.removeFoundTx txid ptx.toTransaction).1 = true ∧
    Reduced base known pool (pool.removeFoundTx txid ptx.toTransaction).2
      (pool.txs.filter fun tx => base.getHash tx ≠ txid) := by
  have fromSome : ∃ map₁, (if ptx.destFrom ≠ 0 then pool.mapAddressTxState.removeDestTx ptx.destFrom txid
      else some pool.mapAddressTxState) = some map₁ ∧
      pool.mapAddressTxState.Narrows map₁ fun d id => (d ≠ 0 ∧ d = ptx.destFrom) ∧ id = txid := by
    split_ifs with sender
    · obtain ⟨entry, found⟩ := indexed.exists_entry here ⟨sender, Or.inl rfl⟩
      obtain ⟨map₁, removed, narrows⟩ := removeDestTx_spec indexed.tidy found txid
      exact ⟨map₁, removed, narrows.congr (by grind)⟩
    · exact ⟨_, rfl, (Narrows.refl indexed.tidy).congr (by grind)⟩
  obtain ⟨map₁, removed₁, narrows₁⟩ := fromSome
  have toSome : ∃ map₂, (if ptx.destTo ≠ 0 ∧ ptx.destTo ≠ ptx.destFrom then map₁.removeDestTx ptx.destTo txid
      else some map₁) = some map₂ ∧
      pool.mapAddressTxState.Narrows map₂ fun d id => Touches ptx.toTransaction d ∧ id = txid := by
    split_ifs with receiver
    · have listed₁ : map₁.listedAt ptx.destTo txid = some ptx := by
        rw [narrows₁.listed, if_neg fun both => receiver.2 both.1.2]
        exact (indexed.listed _ _ _).2 ⟨here, receiver.1, Or.inr rfl⟩
      obtain ⟨entry, found⟩ := AddressMap.exists_entry listed₁
      obtain ⟨map₂, removed, narrows₂⟩ := removeDestTx_spec narrows₁.tidy found txid
      exact ⟨map₂, removed, (narrows₁.trans narrows₂).congr (by grind [Touches])⟩
    · exact ⟨map₁, rfl, narrows₁.congr (by grind [Touches])⟩
  obtain ⟨map₂, removed₂, narrows₂⟩ := toSome
  have whole : pool.removeFoundTx txid ptx.toTransaction = (true, pool.eraseTx txid map₂) := by
    rw [ForkTxPool.removeFoundTx]
    simp only [removed₁, removed₂]
  rw [whole]
  exact ⟨rfl, indexed.eraseTx_reduced here narrows₂⟩

theorem mem_sentTx {dest : Destination} (nonzero : dest ≠ 0) (kv : UInt256 × PooledTx) :
    kv ∈ pool.sentTx dest ↔ pool.mapTx.find kv.1 = some kv.2 ∧ kv.2.destFrom = dest := by
  have listed_iff : pool.mapAddressTxState.listedAt dest kv.1 = some kv.2 ∧ kv.2.destFrom = dest ↔
      pool.mapTx.find kv.1 = some kv.2 ∧ kv.2.destFrom = dest := by
    rw [indexed.listed]
    exact ⟨fun both => ⟨both.1.1, both.2⟩, fun both => ⟨⟨both.1, nonzero, Or.inl both.2.symm⟩, both.2⟩⟩
  rw [← listed_iff, ForkTxPool.sentTx, listedAt]
  cases pool.mapAddressTxState.find dest with
  | none => simp
  | some entry => simp [find_eq_some_iff]

omit indexed in
theorem nodup_sentTx (pool : ForkTxPool) (dest : Destination) : ((pool.sentTx dest).map Prod.fst).Nodup := by
  rw [ForkTxPool.sentTx]
  cases pool.mapAddressTxState.find dest with
  | none => exact nodup_nil
  | some entry => exact entry.mapDestTx.keys_nodup.sublist (filter_sublist.map _)

omit indexed in
theorem removeEach_spec {turn : ForkTxPool → UInt256 × PooledTx → Bool × ForkTxPool}
    (found : ∀ pool kv, pool.mapTx.find kv.1 = some kv.2 → turn pool kv = pool.removeFoundTx kv.1 kv.2.toTransaction)
    {pool : ForkTxPool} (indexed : Indexed base known pool) {kvs : List (UInt256 × PooledTx)} (nodup : (kvs.map Prod.fst).Nodup)
    (pooled : ∀ kv ∈ kvs, pool.mapTx.find kv.1 = some kv.2) :
    untilFails turn kvs pool = (true, kvs.foldl (fun pool kv => (turn pool kv).2) pool) ∧
    Reduced base known pool (kvs.foldl (fun pool kv => (turn pool kv).2) pool)
      (pool.txs.filter fun tx => base.getHash tx ∉ kvs.map Prod.fst) := by
  induction kvs generalizing pool with
  | nil =>
    refine ⟨rfl, ?_⟩
    simpa using Reduced.refl indexed
  | cons kv rest ih =>
    have here := pooled kv mem_cons_self
    obtain ⟨apart, nodup⟩ := nodup_cons.1 nodup
    obtain ⟨passed, reduced⟩ := indexed.removeFoundTx_spec here
    rw [← found pool kv here] at passed reduced
    -- the others are still pooled, as their ids are different
    have still : ∀ other ∈ rest, (turn pool kv).2.mapTx.find other.1 = some other.2 := by
      intro other mem
      have before := pooled other (mem_cons_of_mem _ mem)
      refine indexed.find_eq_of_reduced reduced before (mem_filter.2 ⟨indexed.mem_txs before, ?_⟩)
      rw [← (indexed.of_found before).1]
      simpa using fun same : other.1 = kv.1 => apart (same ▸ List.mem_map_of_mem mem)
    obtain ⟨all, reduced'⟩ := ih reduced.indexed nodup still
    refine ⟨by rw [untilFails, if_pos passed, all, foldl_cons], ?_⟩
    rw [foldl_cons]
    convert reduced.trans reduced' using 1
    rw [reduced.txs, List.filter_filter]
    refine filter_congr fun tx _ => ?_
    rw [← Bool.decide_and, decide_eq_decide, map_cons, mem_cons, not_or, and_comm]

theorem removeSent_spec {dest : Destination} (nonzero : dest ≠ 0) :
    let result := untilFails (fun pool kv => pool.removeInvalidTx kv.1 kv.2.toTransaction) (pool.sentTx dest) pool
    result.1 = true ∧ Reduced base known pool result.2 (pool.txs.filter fun tx => tx.destFrom ≠ dest) := by
  have found : ∀ (pool : ForkTxPool) (kv : UInt256 × PooledTx), pool.mapTx.find kv.1 = some kv.2 →
      pool.removeInvalidTx kv.1 kv.2.toTransaction = pool.removeFoundTx kv.1 kv.2.toTransaction := by
    intro pool kv here
    rw [ForkTxPool.removeInvalidTx, here]
    rfl
  obtain ⟨passed, reduced⟩ := removeEach_spec found indexed (nodup_sentTx pool dest)
    fun kv mem => ((indexed.mem_sentTx nonzero kv).1 mem).1
  rw [passed]
  refine ⟨rfl, ?_⟩
  convert reduced using 1
  refine filter_congr fun tx mem => ?_
  obtain ⟨link, inside, rfl⟩ := List.mem_map.1 mem
  rw [← indexed.txid_eq inside, decide_eq_decide, not_iff_not]
  constructor
  · intro sent
    exact List.mem_map_of_mem ((indexed.mem_sentTx nonzero (link.txid, link.ptx)).2 ⟨indexed.found_link inside, sent⟩)
  · intro inSent
    obtain ⟨⟨txid, ptx⟩, inSent, same⟩ := List.mem_map.1 inSent
    obtain ⟨here, sent⟩ := (indexed.mem_sentTx nonzero _).1 inSent
    rw [show txid = link.txid from same, indexed.found_link inside] at here
    rw [some_inj.1 here]
    exact sent

end Remove

end Indexed

/-- What is left when a transaction is mined: a pooled one goes, and one that is not pooled takes the pooled ones of its
sender with it. -/
def leave (base : PoolBase) (txs : List Transaction) (tx : Transaction) : List Transaction :=
  if base.getHash tx ∈ txs.map base.getHash then txs.filter fun other => base.getHash other ≠ base.getHash tx
  else if tx.destFrom ≠ 0 then txs.filter fun other => other.destFrom ≠ tx.destFrom
  else txs

namespace Indexed
variable {base : PoolBase} {known : Set Transaction} {pool : ForkTxPool}

theorem removePooledTx_spec (distinct : Set.InjOn base.getHash known) (indexed : Indexed base known pool) {tx : Transaction}
    (isKnown : tx ∈ known) {fInvalidTx : Bool} (allowed : base.getHash tx ∈ pool.txs.map base.getHash ∨ fInvalidTx = false) :
    (pool.removePooledTx (base.getHash tx) tx fInvalidTx).1 = true ∧
    Reduced base known pool (pool.removePooledTx (base.getHash tx) tx fInvalidTx).2 (leave base pool.txs tx) := by
  rw [ForkTxPool.removePooledTx, leave]
  simp only [← indexed.isSome_find_iff tx] at allowed ⊢
  by_cases pooled : (pool.mapTx.find (base.getHash tx)).isSome = true
  · rw [if_pos pooled, if_pos pooled]
    obtain ⟨ptx, here⟩ := isSome_iff_exists.1 pooled
    obtain ⟨sameId, ptxKnown⟩ := indexed.of_found here
    have same : tx = ptx.toTransaction := distinct isKnown ptxKnown sameId
    have spec := indexed.removeFoundTx_spec here
    rw [← same] at spec
    exact spec
  · have valid := allowed.resolve_left pooled
    rw [if_neg pooled, if_neg pooled, valid, if_neg Bool.false_ne_true]
    split_ifs with sender
    · exact indexed.removeSent_spec sender
    · exact ⟨rfl, Reduced.refl indexed⟩

theorem removePooledTx (distinct : Set.InjOn base.getHash known) (indexed : Indexed base known pool) {tx : Transaction}
    (isKnown : tx ∈ known) (fInvalidTx : Bool) :
    Indexed base known (pool.removePooledTx (base.getHash tx) tx fInvalidTx).2 := by
  by_cases allowed : base.getHash tx ∈ pool.txs.map base.getHash ∨ fInvalidTx = false
  · exact (indexed.removePooledTx_spec distinct isKnown allowed).2.indexed
  · rw [not_or, Bool.not_eq_false, ← indexed.isSome_find_iff] at allowed
    rw [ForkTxPool.removePooledTx, if_neg allowed.1, allowed.2]
    exact indexed

end Indexed

end HashAhead.TxPool

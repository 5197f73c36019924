import Mathlib.Algebra.Order.BigOperators.Group.List
import Mathlib.Algebra.Order.Group.Nat
import HashAhead.Chain.AddressTxInfo

/-! The records that a block has for a history, and the ones that adding the block to the long chain
writes. The two differ where a token contract sends or receives its own token. -/

namespace HashAhead.Chain
open Foundation State List SortedMap

namespace BlockTxData

def tokenRecords (data : BlockTxData) (destContractAddress : Destination) : List TokenTransRecord :=
  (data.mapTokenRecord.find destContractAddress).getD []

/-- The records of a history in the block. The history of a token contract by itself has all records
of the token, and that of a user those from and to the user. -/
def records (data : BlockTxData) : HistoryKey → List HistoryRecord
  | .address address => ((data.mapAddressTxInfo.find address).getD []).map .address
  | .token destContractAddress address =>
    if address = 0 then []
    else ((data.tokenRecords destContractAddress).filter fun record =>
      address = destContractAddress ∨ record.destFrom = address ∨ record.destTo = address).map .token

def written (data : BlockTxData) : HistoryKey → List HistoryRecord
  | .address address => ((data.mapAddressTxInfo.find address).getD []).map .address
  | .token destContractAddress address =>
    if address = 0 then []
    else (data.tokenRecords destContractAddress).flatMap fun record =>
      ((recordAddresses destContractAddress record).filter (· = address)).map fun _ => .token record

def NoSelf (data : BlockTxData) : Prop :=
  ∀ destContractAddress, destContractAddress ≠ 0 → ∀ record ∈ data.tokenRecords destContractAddress,
    record.destFrom ≠ destContractAddress ∧ record.destTo ≠ destContractAddress

def Numbered (data : BlockTxData) : Prop :=
  ∀ key, ∀ record ∈ data.records key, record.nBlockNumber = data.nBlockNumber

variable {data : BlockTxData}

variable {address : Destination}

theorem mem_recordAddresses {contract : Destination} {record : TokenTransRecord} :
    address ∈ recordAddresses contract record ↔
      address = contract ∨ record.destFrom = address ∨ record.destTo = address := by
  unfold recordAddresses
  split_ifs with apart
  · simp [eq_comm]
  · rw [not_not] at apart
    simp [apart, eq_comm]

def times (destContractAddress address : Destination) (record : TokenTransRecord) : Nat :=
  (recordAddresses destContractAddress record).count address

theorem times_eq (contract address : Destination) (record : TokenTransRecord) :
    times contract address record = (if address = contract then 1 else 0) +
      (if record.destFrom = address then 1 else 0) +
      if record.destFrom ≠ record.destTo ∧ record.destTo = address then 1 else 0 := by
  unfold times recordAddresses
  rw [count_append, count_cons, count_singleton, Nat.add_comm (ite _ _ _)]
  simp only [beq_iff_eq, @eq_comm _ contract]
  by_cases apart : record.destFrom = record.destTo
  · simp [apart]
  · simp [apart, count_singleton]

theorem written_token (contract : Destination) (some : address ≠ 0) :
    data.written (.token contract address) = (data.tokenRecords contract).flatMap fun record =>
      List.replicate (times contract address record) (.token record) := by
  rw [written, if_neg some]
  congr 1
  funext record
  rw [map_const', times, count_eq_length_filter]
  rfl

theorem records_token (contract : Destination) (some : address ≠ 0) :
    data.records (.token contract address) = (data.tokenRecords contract).flatMap fun record =>
      List.replicate (min 1 (times contract address record)) (.token record) := by
  rw [records, if_neg some]
  induction data.tokenRecords contract with
  | nil => rfl
  | cons record rest ih =>
    rw [flatMap_cons, ← ih, filter_cons]
    have once : address = contract ∨ record.destFrom = address ∨ record.destTo = address ↔
        1 ≤ times contract address record := by
      rw [← mem_recordAddresses, times, Nat.one_le_iff_ne_zero, ← Nat.pos_iff_ne_zero, count_pos_iff]
    by_cases here : 1 ≤ times contract address record
    · rw [if_pos (decide_eq_true (once.2 here)), min_eq_left here]
      rfl
    · rw [if_neg (by simpa using mt once.1 here), Nat.eq_zero_of_not_pos here]
      rfl

/-- Each record is written once if no token contract moves its own token. -/
theorem written_eq_records (noSelf : data.NoSelf) (key : HistoryKey) : data.written key = data.records key := by
  cases key with
  | address address => rfl
  | token contract address =>
    by_cases null : address = 0
    · rw [null]
      rfl
    rw [written_token _ null, records_token _ null]
    apply flatMap_congr
    intro record mem
    rw [min_eq_right]
    rw [times_eq]
    by_cases own : address = contract
    · obtain ⟨sender, receiver⟩ := noSelf address null record (own ▸ mem)
      simp [own, own ▸ sender, own ▸ receiver]
    · rw [if_neg own]
      split_ifs with sender receiver
      · exact absurd (sender.trans receiver.2.symm) receiver.1
      all_goals decide

theorem length_records_lt {contract : Destination} (some : contract ≠ 0) {record : TokenTransRecord}
    (mem : record ∈ data.tokenRecords contract)
    (self : record.destFrom = contract ∨ record.destTo = contract) :
    (data.records (.token contract contract)).length <
      (data.written (.token contract contract)).length := by
  rw [written_token _ some, records_token _ some, length_flatMap, length_flatMap]
  apply sum_lt_sum
  · intro record _
    simp
  · refine ⟨record, mem, ?_⟩
    have twice : 1 < times contract contract record := by
      rw [times_eq]
      split_ifs <;> simp_all
    simpa using twice

theorem mem_written {key : HistoryKey} {record : HistoryRecord} : record ∈ data.written key ↔ record ∈ data.records key := by
  cases key with
  | address address => exact Iff.rfl
  | token contract address =>
    by_cases null : address = 0
    · rw [null]
      exact Iff.rfl
    · simp [written_token _ null, records_token _ null]

theorem written_eq_nil_iff (key : HistoryKey) : data.written key = [] ↔ data.records key = [] := by
  simp only [eq_nil_iff_forall_not_mem, mem_written]

end BlockTxData

section Writes
variable {db : AddressTxStore} {key : HistoryKey}

/-- The write appends to a history: a new record, numbered from the count in the database, or the new
count, if there is any record. -/
def IsAppend (db : AddressTxStore) (records : HistoryKey → List HistoryRecord) (key : HistoryKey)
    (write : Σ key, Option (AddressTxKey.Value key)) : Prop :=
  (records key ≠ [] ∧ write = put (.txCount key) (readTxCount db key + (records key).length)) ∨
    ∃ nTxIndex record, readTxCount db key ≤ nTxIndex ∧ (records key)[nTxIndex - readTxCount db key]? = some record ∧
      write = put (.txInfo key nTxIndex) record

variable {write : Σ key, Option (AddressTxKey.Value key)}

theorem mem_appendRecords {nTxCount : Nat} {records : List HistoryRecord} :
    write ∈ appendRecords key nTxCount records ↔
      ∃ index record, nTxCount ≤ index ∧ records[index - nTxCount]? = some record ∧
        write = put (.txInfo key index) record := by
  induction records generalizing nTxCount with
  | nil => simp [appendRecords]
  | cons first rest ih =>
    rw [appendRecords, mem_cons, ih]
    constructor
    · rintro (rfl | ⟨index, record, later, found, rfl⟩)
      · exact ⟨nTxCount, first, le_rfl, by simp, rfl⟩
      · refine ⟨index, record, by omega, ?_, rfl⟩
        rw [show index - nTxCount = index - (nTxCount + 1) + 1 by omega]
        exact found
    · rintro ⟨index, record, later, found, rfl⟩
      rcases later.eq_or_lt with rfl | later
      · rw [Nat.sub_self] at found
        cases found
        exact Or.inl rfl
      · rw [show index - nTxCount = index - (nTxCount + 1) + 1 by omega] at found
        exact Or.inr ⟨index, record, later, found, rfl⟩

theorem mem_addressWrites (data : BlockTxData) :
    write ∈ data.mapAddressTxInfo.entries.flatMap (addAddressTx db) ↔
      ∃ address, IsAppend db data.written (.address address) write := by
  have same (address : Destination) : data.written (.address address) =
      ((data.mapAddressTxInfo.find address).getD []).map .address := rfl
  rw [mem_flatMap_entries]
  apply exists_congr
  intro address
  rw [IsAppend, same]
  cases data.mapAddressTxInfo.find address with
  | none => simp
  | some infos =>
    by_cases empty : infos = []
    · simp [addAddressTx, empty]
    · simp [addAddressTx, empty, mem_appendRecords, or_comm]

end Writes

section Token
variable {db : AddressTxStore} {contract : Destination}

def recordsFor (address : Destination) (pairs : List (Destination × TokenTransRecord)) : List HistoryRecord :=
  if address = 0 then [] else (pairs.filter fun pair => pair.1 = address).map fun pair => .token pair.2

theorem recordsFor_snoc (other address : Destination) (record : TokenTransRecord)
    (pairs : List (Destination × TokenTransRecord)) :
    recordsFor other (pairs ++ [(address, record)]) =
      recordsFor other pairs ++ if address ≠ 0 ∧ other = address then [.token record] else [] := by
  unfold recordsFor
  by_cases null : other = 0
  · rw [if_pos null, if_pos null, if_neg]
    · rfl
    · rintro ⟨some, rfl⟩
      exact some null
  · rw [if_neg null, if_neg null, filter_append, map_append]
    by_cases same : other = address
    · subst same
      simpa using null
    · simp [same, Ne.symm same]

/-- What the loop over the records of a token keeps when it has written some of them. -/
structure TokenTurn.Has (db : AddressTxStore) (destContractAddress : Destination)
    (pairs : List (Destination × TokenTransRecord)) (turn : TokenTurn) : Prop where
  count : ∀ address, turn.mapAddressTxCount.find address = if recordsFor address pairs = [] then none
    else some (readTxCount db (.token destContractAddress address) + (recordsFor address pairs).length)
  begins : ∀ address, turn.mapBeginAddressTxCount.find address = if recordsFor address pairs = [] then none
    else some (readTxCount db (.token destContractAddress address))
  writes : ∀ write, write ∈ turn.writes ↔ ∃ address nth record, (recordsFor address pairs)[nth]? = some record ∧
    write = put (.txInfo (.token destContractAddress address)
      (readTxCount db (.token destContractAddress address) + nth)) record

section
variable {pairs : List (Destination × TokenTransRecord)} {turn : TokenTurn}
  (has : turn.Has db contract pairs) (record : TokenTransRecord)
include has

theorem TokenTurn.Has.writeRecord_eq {address : Destination} (some : address ≠ 0) :
    ∃ begins : DestMap Nat,
      (∀ other, begins.find other = if other = address then .some (readTxCount db (.token contract address))
        else turn.mapBeginAddressTxCount.find other) ∧
      writeRecord db contract record turn address =
        { mapAddressTxCount := turn.mapAddressTxCount.insert address
            (readTxCount db (.token contract address) + (recordsFor address pairs).length + 1)
          mapBeginAddressTxCount := begins
          writes := turn.writes ++ [put (.txInfo (.token contract address)
            (readTxCount db (.token contract address) + (recordsFor address pairs).length)) (.token record)] } := by
  have counted := has.count address
  have begun := has.begins address
  rw [writeRecord, if_neg some]
  by_cases first : recordsFor address pairs = []
  · rw [if_pos first] at counted
    rw [counted, first]
    exact ⟨_, fun other => find_insert .., rfl⟩
  · rw [if_neg first] at counted begun
    rw [counted]
    refine ⟨_, fun other => ?_, rfl⟩
    split_ifs with same
    · rw [same, begun]
    · rfl

theorem TokenTurn.Has.write (address : Destination) :
    (writeRecord db contract record turn address).Has db contract (pairs ++ [(address, record)]) := by
  by_cases null : address = 0
  · have same : ∀ other, recordsFor other (pairs ++ [(address, record)]) = recordsFor other pairs := by
      intro other
      rw [recordsFor_snoc, if_neg fun here => here.1 null, append_nil]
    rw [writeRecord, if_pos null]
    constructor
    · simpa only [same] using has.count
    · simpa only [same] using has.begins
    · simpa only [same] using has.writes
  have own : recordsFor address (pairs ++ [(address, record)]) = recordsFor address pairs ++ [.token record] := by
    rw [recordsFor_snoc, if_pos ⟨null, rfl⟩]
  have apart : ∀ other, other ≠ address → recordsFor other (pairs ++ [(address, record)]) = recordsFor other pairs := by
    intro other apart
    rw [recordsFor_snoc, if_neg fun here => apart here.2, append_nil]
  obtain ⟨begins, begun, turned⟩ := has.writeRecord_eq record null
  rw [turned]
  constructor
  · intro other
    rw [find_insert]
    by_cases same : other = address
    · rw [same, own, if_pos rfl, if_neg (by simp), length_append]
      rfl
    · rw [apart other same, if_neg same, has.count]
  · intro other
    rw [begun]
    by_cases same : other = address
    · rw [same, own, if_pos rfl, if_neg (by simp)]
    · rw [apart other same, if_neg same, has.begins]
  · intro write
    rw [mem_append, mem_singleton, has.writes]
    constructor
    · rintro (⟨other, nth, old, found, rfl⟩ | rfl)
      · refine ⟨other, nth, old, ?_, rfl⟩
        rw [recordsFor_snoc, List.getElem?_append_left (List.getElem?_eq_some_iff.1 found).1]
        exact found
      · exact ⟨address, _, .token record, by rw [own, List.getElem?_concat_length], rfl⟩
    · rintro ⟨other, nth, old, found, rfl⟩
      by_cases same : other = address
      · subst same
        rw [own, List.getElem?_append] at found
        split_ifs at found with before
        · exact Or.inl ⟨other, nth, old, found, rfl⟩
        · have last := List.getElem?_eq_some_iff.1 found
          have here : nth = (recordsFor other pairs).length := by
            have := last.1
            rw [length_singleton] at this
            omega
          subst here
          rw [Nat.sub_self] at found
          cases found
          exact Or.inr rfl
      · rw [apart other same] at found
        exact Or.inl ⟨other, nth, old, found, rfl⟩

end

def tokenPairs (destContractAddress : Destination) (records : List TokenTransRecord) :
    List (Destination × TokenTransRecord) :=
  records.flatMap fun record => (recordAddresses destContractAddress record).map (·, record)

theorem tokenTurn_has (db : AddressTxStore) (contract : Destination) (records : List TokenTransRecord) :
    (tokenTurn db contract records).Has db contract (tokenPairs contract records) := by
  unfold tokenTurn
  induction records using List.reverseRecOn with
  | nil =>
    have none_has : ∀ address, recordsFor address [] = [] := by simp [recordsFor]
    constructor
    · intro address
      exact (if_pos (none_has address)).symm
    · intro address
      exact (if_pos (none_has address)).symm
    · simp [tokenPairs, none_has]
  | append_singleton records record ih =>
    rw [foldl_append, tokenPairs, flatMap_append, flatMap_singleton]
    show TokenTurn.Has db contract _ ((recordAddresses contract record).foldl _ _)
    induction recordAddresses contract record using List.reverseRecOn with
    | nil =>
      rw [map_nil, append_nil]
      exact ih
    | append_singleton addresses address inner =>
      rw [foldl_append, map_append, ← append_assoc]
      exact inner.write record address

theorem recordsFor_tokenPairs (data : BlockTxData) (contract address : Destination) :
    recordsFor address (tokenPairs contract (data.tokenRecords contract)) =
      data.written (.token contract address) := by
  rw [recordsFor, BlockTxData.written, tokenPairs, filter_flatMap, map_flatMap]
  simp only [List.filter_map, List.map_map]
  rfl

theorem mem_addTokenTx {records : List TokenTransRecord} {histories : HistoryKey → List HistoryRecord}
    (same : ∀ address, histories (.token contract address) =
      recordsFor address (tokenPairs contract records))
    {write : Σ key, Option (AddressTxKey.Value key)} :
    write ∈ addTokenTx db (contract, records) ↔
      ∃ address, IsAppend db histories (.token contract address) write := by
  have has := tokenTurn_has db contract records
  simp only [addTokenTx, mem_append, has.writes, List.mem_map, IsAppend, same]
  constructor
  · rintro (⟨address, nth, record, found, rfl⟩ | ⟨⟨address, nTxCount⟩, mem, rfl⟩)
    · exact ⟨address, Or.inr ⟨_, record, Nat.le_add_right .., by rwa [Nat.add_sub_cancel_left], rfl⟩⟩
    · rw [← find_eq_some_iff, has.count] at mem
      split_ifs at mem with empty
      cases mem
      exact ⟨address, Or.inl ⟨empty, rfl⟩⟩
  · rintro ⟨address, ⟨some, rfl⟩ | ⟨index, record, later, found, rfl⟩⟩
    · refine Or.inr ⟨(address, _), ?_, rfl⟩
      rw [← find_eq_some_iff, has.count, if_neg some]
    · refine Or.inl ⟨address, _, record, found, ?_⟩
      rw [Nat.add_sub_cancel' later]

theorem mem_tokenWrites (data : BlockTxData) {write : Σ key, Option (AddressTxKey.Value key)} :
    write ∈ data.mapTokenRecord.entries.flatMap (addTokenTx db) ↔
      ∃ contract address, IsAppend db data.written (.token contract address) write := by
  rw [mem_flatMap_entries]
  apply exists_congr
  intro contract
  have same (address : Destination) := (recordsFor_tokenPairs data contract address).symm
  unfold BlockTxData.tokenRecords at same
  cases found : data.mapTokenRecord.find contract with
  | none => simp [IsAppend, same, found, recordsFor, tokenPairs]
  | some records =>
    rw [found] at same
    simpa using mem_addTokenTx same

end Token

section Ranges
variable {db : AddressTxStore}

def appendRange (db : AddressTxStore) (records : HistoryKey → List HistoryRecord) (key : HistoryKey) :
    Option (Nat × Nat) :=
  if records key = [] then none else some (readTxCount db key, readTxCount db key + (records key).length - 1)

theorem find_blockAddressTxIndex (data : BlockTxData) (address : Destination) :
    (blockAddressTxIndex db data.mapAddressTxInfo).find address = appendRange db data.written (.address address) := by
  unfold blockAddressTxIndex appendRange
  rw [find_foldl fun address infos => if infos = [] then none
    else some (readTxCount db (.address address), readTxCount db (.address address) + infos.length - 1)]
  · rw [BlockTxData.written]
    cases data.mapAddressTxInfo.find address with
    | none => rfl
    | some infos => simp
  · intro acc other infos key
    by_cases empty : infos = []
    · simp [empty]
    · simp [empty, find_insert]

theorem find_tokenRanges (contract : Destination) (records : List TokenTransRecord) (address : Destination) :
    (tokenRanges (tokenTurn db contract records)).find address =
      if recordsFor address (tokenPairs contract records) = [] then none
      else some (readTxCount db (.token contract address),
        readTxCount db (.token contract address) +
          (recordsFor address (tokenPairs contract records)).length - 1) := by
  have has := tokenTurn_has db contract records
  unfold tokenRanges
  rw [find_foldl fun address nTxCount =>
    ((tokenTurn db contract records).mapBeginAddressTxCount.find address).map (·, nTxCount - 1)]
  · rw [has.count, has.begins]
    split_ifs <;> rfl
  · intro acc other nTxCount key
    cases (tokenTurn db contract records).mapBeginAddressTxCount.find other with
    | none => simp
    | some nBegin => simp [find_insert]

theorem find_blockAddressTokenTxIndex (data : BlockTxData) (contract address : Destination) :
    ((blockAddressTokenTxIndex db data.mapTokenRecord).find contract).bind (·.find address) =
      appendRange db data.written (.token contract address) := by
  unfold blockAddressTokenTxIndex appendRange
  rw [find_foldl fun contract records =>
    if (tokenRanges (tokenTurn db contract records)).entries = [] then none
    else some (tokenRanges (tokenTurn db contract records)), ← recordsFor_tokenPairs, BlockTxData.tokenRecords]
  · cases found : data.mapTokenRecord.find contract with
    | none => simp [recordsFor, tokenPairs]
    | some records =>
      rw [Option.getD_some, ← find_tokenRanges, Option.bind_some]
      split_ifs with empty
      · rw [find, empty]
        rfl
      · rfl
  · intro acc other records key
    by_cases empty : (tokenRanges (tokenTurn db other records)).entries = []
    · simp [empty]
    · simp [empty, find_insert]

end Ranges

section Blocks
variable {db : AddressTxStore} {hashBlock : UInt256} {batch : AddressTxBatch}

/-- Adding a block appends its records and notes their numbers. -/
theorem mem_addLongChainBlock {data : BlockTxData} (stored : db (.blockAddressTxData hashBlock) = some data)
    (added : addLongChainBlock db hashBlock = some batch) (write : Σ key, Option (AddressTxKey.Value key)) :
    write ∈ batch ↔ (∃ key, IsAppend db data.written key write) ∨
      write = put (.blockAddressTxRange hashBlock) (blockAddressTxIndex db data.mapAddressTxInfo) ∨
      write = put (.blockTokenAddressTxRange hashBlock) (blockAddressTokenTxIndex db data.mapTokenRecord) ∨
      write = put .blockLastblock hashBlock := by
  rw [addLongChainBlock, stored] at added
  cases added
  simp only [mem_append, mem_cons, not_mem_nil, or_false, mem_addressWrites, mem_tokenWrites]
  constructor
  · rintro (((⟨address, append⟩ | range) | ⟨contract, address, append⟩) | rest)
    · exact Or.inl ⟨_, append⟩
    · exact Or.inr (Or.inl range)
    · exact Or.inl ⟨_, append⟩
    · exact Or.inr (Or.inr rest)
  · rintro (⟨address | ⟨contract, address⟩, append⟩ | range | rest)
    · exact Or.inl (Or.inl (Or.inl ⟨address, append⟩))
    · exact Or.inl (Or.inr ⟨contract, address, append⟩)
    · exact Or.inl (Or.inl (Or.inr range))
    · exact Or.inr rest

def AddressTxKey.IsNote : AddressTxKey → Prop
  | txInfo _ _ | txCount _ | blockLastblock => False
  | blockAddressTxData _ | blockAddressTxRange _ | blockTokenAddressTxRange _ | blockPrevblock _ => True

def rangeOf (db : AddressTxStore) (hashBlock : UInt256) : HistoryKey → Option (Nat × Nat)
  | .address address => (db (.blockAddressTxRange hashBlock)).bind (·.find address)
  | .token destContractAddress address =>
    ((db (.blockTokenAddressTxRange hashBlock)).bind (·.find destContractAddress)).bind (·.find address)

theorem mem_removeRange {key : HistoryKey} {range : Nat × Nat} {write : Σ key, Option (AddressTxKey.Value key)} :
    write ∈ removeRange key range ↔ (∃ index, range.1 ≤ index ∧ index ≤ range.2 ∧
      write = erase (.txInfo key index)) ∨ write = put (.txCount key) (range.2 + 1) := by
  rw [removeRange, mem_append, List.mem_map, mem_singleton]
  apply or_congr_left
  apply exists_congr
  intro index
  rw [mem_range'_1, ← and_assoc, eq_comm (a := write)]
  apply and_congr_left'
  omega

/-- Removing a block erases the noted numbers, and leaves the count behind the last of them. -/
theorem mem_removeLongChainlock (removed : removeLongChainlock db hashBlock = some batch) :
    ∃ hashPrevBlock, ∀ write, write ∈ batch ↔
      (∃ key range, rangeOf db hashBlock key = some range ∧ write ∈ removeRange key range) ∨
        write = put .blockLastblock hashPrevBlock := by
  obtain ⟨index, ranged, removed⟩ := Option.bind_eq_some_iff.1 removed
  obtain ⟨tokenIndex, tokenRanged, removed⟩ := Option.bind_eq_some_iff.1 removed
  obtain ⟨⟨hashPrevBlock, _⟩, _, removed⟩ := Option.bind_eq_some_iff.1 removed
  cases removed
  refine ⟨hashPrevBlock, fun write => ?_⟩
  simp only [mem_append, mem_singleton, mem_flatMap_entries]
  apply or_congr_left
  constructor
  · rintro (⟨address, range, found, written⟩ | ⟨contract, ranges, outer, address, range, inner, written⟩)
    · refine ⟨.address address, range, ?_, written⟩
      rw [rangeOf, ranged, Option.bind_some, found]
    · refine ⟨.token contract address, range, ?_, written⟩
      rw [rangeOf, tokenRanged, Option.bind_some, outer, Option.bind_some, inner]
  · rintro ⟨address | ⟨contract, address⟩, range, found, written⟩
    · rw [rangeOf, ranged, Option.bind_some] at found
      exact Or.inl ⟨_, _, found, written⟩
    · rw [rangeOf, tokenRanged, Option.bind_some] at found
      obtain ⟨ranges, outer, inner⟩ := Option.bind_eq_some_iff.1 found
      exact Or.inr ⟨_, _, outer, _, _, inner, written⟩

end Blocks

end HashAhead.Chain

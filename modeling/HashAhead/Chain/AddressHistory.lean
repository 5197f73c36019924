import HashAhead.Chain.AddressRecords

/-! The histories of addresses along a changing long chain. They follow it only while every block
that goes out has no records, the blocks that come in together share no history, and no token contract
moves its own token: removal leaves the count behind the last erased record, and blocks that come in
together all number their records from the count before them. -/

namespace HashAhead.Chain
open Foundation State List BlockTxData

section Lists
variable {α β : Type} {f : α → List β}

variable {l : List α}

theorem flatMap_of_single (single : l.Pairwise fun a b => f a = [] ∨ f b = []) {a : α} (mem : a ∈ l)
    (some : f a ≠ []) : l.flatMap f = f a := by
  induction l with
  | nil => cases mem
  | cons b l ih =>
    obtain ⟨first, rest⟩ := pairwise_cons.1 single
    rw [flatMap_cons]
    rcases mem_cons.1 mem with rfl | later
    · have others : l.flatMap f = [] := flatMap_eq_nil_iff.2 fun c here => (first c here).resolve_left some
      rw [others, append_nil]
    · rw [(first a later).resolve_right some, nil_append]
      exact ih rest later

theorem first_of_flatMap (some : l.flatMap f ≠ []) :
    ∃ before a after, l = before ++ a :: after ∧ before.flatMap f = [] ∧ f a ≠ [] := by
  induction l with
  | nil => exact absurd rfl some
  | cons a l ih =>
    by_cases empty : f a = []
    · rw [flatMap_cons, empty, nil_append] at some
      obtain ⟨before, b, after, rfl, none_before, here⟩ := ih some
      exact ⟨a :: before, b, after, rfl, by rw [flatMap_cons, empty, none_before]; rfl, here⟩
    · exact ⟨[], a, l, rfl, rfl, empty⟩

theorem last_of_flatMap (some : l.flatMap f ≠ []) :
    ∃ before a after, l = before ++ a :: after ∧ after.flatMap f = [] ∧ f a ≠ [] := by
  induction l with
  | nil => exact absurd rfl some
  | cons a l ih =>
    by_cases empty : l.flatMap f = []
    · refine ⟨[], a, l, rfl, empty, ?_⟩
      rwa [flatMap_cons, empty, append_nil] at some
    · obtain ⟨before, b, after, rfl, none_after, here⟩ := ih empty
      exact ⟨a :: before, b, after, rfl, none_after, here⟩

theorem flatten_of_mapM {g : α → Option (List β)} {parts : List (List β)} (all : l.mapM g = some parts) :
    parts.flatten = l.flatMap (fun a => (g a).getD []) ∧ ∀ a ∈ l, (g a).isSome := by
  induction l generalizing parts with
  | nil =>
    cases all
    simp
  | cons a l ih =>
    rw [mapM_cons] at all
    cases first : g a with
    | none => simp [first] at all
    | some part =>
      cases rest : l.mapM g with
      | none => simp [first, rest] at all
      | some others =>
        simp only [first, rest, Option.bind_eq_bind, Option.bind_some, Option.pure_def, Option.some.injEq] at all
        obtain ⟨flat, each⟩ := ih rest
        subst all
        simpa [flat, first] using each

end Lists

/-- The histories of addresses with the long chain that they are to follow. -/
structure HistoryState where
  address : ForkAddressTxInfoDB
  chain : List UInt256

namespace HistoryState

def empty : HistoryState := ⟨⟨fun _ => none, []⟩, []⟩

abbrev db (s : HistoryState) : AddressTxStore := s.address.db

end HistoryState

inductive HistoryCall where
  | addAddressTxInfo (hashPrevBlock hashBlock : UInt256)
  | updateAddressTxInfoBlockLongChain (vRemoveBlock vAddBlock : List UInt256)

section History
variable (info : UInt256 → BlockTxData)

/-- The removed blocks are the last ones, tip first, and the blocks of the new chain have different numbers. -/
def Fits (chain vRemoveBlock vAddBlock : List UInt256) : Prop :=
  vRemoveBlock.reverse <:+ chain ∧
    ((longChain chain vRemoveBlock vAddBlock).map fun hashBlock => (info hashBlock).nBlockNumber).Nodup

instance (chain vRemoveBlock vAddBlock : List UInt256) : Decidable (Fits info chain vRemoveBlock vAddBlock) :=
  inferInstanceAs (Decidable (_ ∧ _))

def historyStep (s : HistoryState) : HistoryCall → Option HistoryState
  | .addAddressTxInfo hashPrevBlock hashBlock =>
    some { s with address := s.address.addAddressTxInfo hashPrevBlock hashBlock (info hashBlock) }
  | .updateAddressTxInfoBlockLongChain vRemoveBlock vAddBlock =>
    if Fits info s.chain vRemoveBlock vAddBlock then
      some ((s.address.updateAddressTxInfoBlockLongChain vRemoveBlock vAddBlock).elim s fun address =>
        ⟨address, longChain s.chain vRemoveBlock vAddBlock⟩)
    else none

def chainRecords (chain : List UInt256) (key : HistoryKey) : List HistoryRecord :=
  chain.flatMap fun hashBlock => (info hashBlock).records key

/-- Each count is the number of records in the chain, and the records below it are those of the chain. -/
def Recorded (db : AddressTxStore) (chain : List UInt256) : Prop :=
  ∀ key, readTxCount db key = (chainRecords info chain key).length ∧
    ∀ nTxIndex, nTxIndex < readTxCount db key → db (.txInfo key nTxIndex) = (chainRecords info chain key)[nTxIndex]?

/-- The update removes no records, adds records of no history from two blocks, and no token contract
moves its own token in it. -/
structure Plain (vRemoveBlock vAddBlock : List UInt256) : Prop where
  removed : ∀ hashBlock ∈ vRemoveBlock, ∀ key, (info hashBlock).records key = []
  single : ∀ key, vAddBlock.Pairwise fun first second => (info first).records key = [] ∨ (info second).records key = []
  noSelf : ∀ hashBlock ∈ vAddBlock, (info hashBlock).NoSelf

def PlainCall (s : HistoryState) : HistoryCall → Prop
  | .addAddressTxInfo _ _ => True
  | .updateAddressTxInfoBlockLongChain vRemoveBlock vAddBlock =>
    (s.address.updateAddressTxInfoBlockLongChain vRemoveBlock vAddBlock).isSome → Plain info vRemoveBlock vAddBlock

def RemovalKept (s : HistoryState) : HistoryCall → Prop
  | .addAddressTxInfo _ _ => True
  | .updateAddressTxInfoBlockLongChain vRemoveBlock _ =>
    ∀ hashBlock ∈ vRemoveBlock, (removeLongChainlock s.db hashBlock).isSome

def chainRange (before : List UInt256) (hashBlock : UInt256) (key : HistoryKey) : Option (Nat × Nat) :=
  if (info hashBlock).written key = [] then none
  else some ((chainRecords info before key).length,
    (chainRecords info before key).length + ((info hashBlock).written key).length - 1)

structure Ranged (db : AddressTxStore) (before : List UInt256) (hashBlock : UInt256) : Prop where
  address : ∀ index, db (.blockAddressTxRange hashBlock) = some index →
    ∀ address, index.find address = chainRange info before hashBlock (.address address)
  token : ∀ index, db (.blockTokenAddressTxRange hashBlock) = some index → ∀ destContractAddress address,
    (index.find destContractAddress).bind (·.find address) =
      chainRange info before hashBlock (.token destContractAddress address)

structure HistoryFollows (s : HistoryState) : Prop where
  recorded : Recorded info s.db s.chain
  ranged : Throughout (Ranged info s.db) s.chain
  stored : ∀ hashBlock data, s.db (.blockAddressTxData hashBlock) = some data → data = info hashBlock

variable {info} {s : HistoryState} {vGone vNew : List UInt256}

theorem chainRecords_append (chain chain' : List UInt256) (key : HistoryKey) :
    chainRecords info (chain ++ chain') key = chainRecords info chain key ++ chainRecords info chain' key :=
  flatMap_append

theorem chainRecords_eq_nil_iff {chain : List UInt256} {key : HistoryKey} :
    chainRecords info chain key = [] ↔ ∀ block ∈ chain, (info block).records key = [] :=
  flatMap_eq_nil_iff

def updateBatch (address : ForkAddressTxInfoDB) (vRemoveBlock vAddBlock : List UInt256) : AddressTxBatch :=
  vRemoveBlock.flatMap (fun hashBlock => (removeLongChainlock address.db hashBlock).getD []) ++
    vAddBlock.flatMap (fun hashBlock => (addLongChainBlock address.db hashBlock).getD []) ++
    (oldBlocks address).flatMap removeOldBlockData

theorem updateBatch_append (address : ForkAddressTxInfoDB) (gone first second : List UInt256) :
    updateBatch address gone (first ++ second) =
      (gone.flatMap (fun block => (removeLongChainlock address.db block).getD []) ++
        first.flatMap (fun block => (addLongChainBlock address.db block).getD [])) ++
        updateBatch address [] second := by
  simp [updateBatch, flatMap_append]

theorem update_eq_some {address address' : ForkAddressTxInfoDB}
    (updated : address.updateAddressTxInfoBlockLongChain vGone vNew = some address') :
    address'.db = commit address.db (updateBatch address vGone vNew) ∧
      ∀ block ∈ vNew, (addLongChainBlock address.db block).isSome := by
  unfold ForkAddressTxInfoDB.updateAddressTxInfoBlockLongChain at updated
  obtain ⟨parts, all, rfl⟩ := Option.map_eq_some_iff.1 updated
  obtain ⟨flat, each⟩ := flatten_of_mapM all
  exact ⟨by rw [updateBatch, ← flat], each⟩

theorem Fits.split {chain : List UInt256} (fits : Fits info chain vGone vNew) :
    ∃ kept, chain = kept ++ vGone.reverse ∧ longChain chain vGone vNew = kept ++ vNew ∧
      ((kept ++ vNew).map fun block => (info block).nBlockNumber).Nodup := by
  obtain ⟨⟨kept, rfl⟩, nodup⟩ := fits
  have chained : longChain (kept ++ vGone.reverse) vGone vNew = kept ++ vNew := by
    simp [longChain]
  exact ⟨kept, rfl, chained, chained ▸ nodup⟩

/-- What an update writes: it takes back the noted numbers of a removed block, appends the records of an added block
and notes their numbers, names the last block, and erases old notes. -/
inductive UpdateWrite (info : UInt256 → BlockTxData) (s : HistoryState) (vGone vNew : List UInt256) :
    (Σ key, Option (AddressTxKey.Value key)) → Prop where
  | removed {block key range write} (gone : block ∈ vGone) (kept : (removeLongChainlock s.db block).isSome)
      (found : rangeOf s.db block key = some range) (written : write ∈ removeRange key range) :
      UpdateWrite info s vGone vNew write
  | added {block key write} (mem : block ∈ vNew) (append : IsAppend s.db (info block).written key write) :
      UpdateWrite info s vGone vNew write
  | range {block} (mem : block ∈ vNew) : UpdateWrite info s vGone vNew
      (put (.blockAddressTxRange block) (blockAddressTxIndex s.db (info block).mapAddressTxInfo))
  | tokenRange {block} (mem : block ∈ vNew) : UpdateWrite info s vGone vNew
      (put (.blockTokenAddressTxRange block) (blockAddressTokenTxIndex s.db (info block).mapTokenRecord))
  | last (block) : UpdateWrite info s vGone vNew (put .blockLastblock block)
  | erased {key} (note : AddressTxKey.IsNote key) : UpdateWrite info s vGone vNew (erase key)

section Update
variable {write : Σ key, Option (AddressTxKey.Value key)}

theorem mem_update_removed {block : UInt256} {key : HistoryKey} {range : Nat × Nat} (gone : block ∈ vGone)
    (kept : (removeLongChainlock s.db block).isSome) (found : rangeOf s.db block key = some range)
    (written : write ∈ removeRange key range) : write ∈ updateBatch s.address vGone vNew := by
  obtain ⟨batch, removed⟩ := Option.isSome_iff_exists.1 kept
  obtain ⟨hashPrevBlock, each⟩ := mem_removeLongChainlock removed
  apply mem_append_left
  apply mem_append_left
  exact mem_flatMap.2 ⟨block, gone, by rw [removed]; exact (each _).2 (Or.inl ⟨key, range, found, written⟩)⟩

variable (follows : HistoryFollows info s)
include follows

theorem stored_of_added {block : UInt256} {batch : AddressTxBatch}
    (added : addLongChainBlock s.db block = some batch) :
    s.db (.blockAddressTxData block) = some (info block) := by
  obtain ⟨data, stored, _⟩ := Option.map_eq_some_iff.1 added
  rw [stored, follows.stored _ _ stored]

variable (added : ∀ hashBlock ∈ vNew, (addLongChainBlock s.db hashBlock).isSome)
include added

theorem update_write (written : write ∈ updateBatch s.address vGone vNew) : UpdateWrite info s vGone vNew write := by
  simp only [updateBatch, mem_append, mem_flatMap] at written
  rcases written with (⟨block, gone, written⟩ | ⟨block, mem, written⟩) | ⟨block, _, erased⟩
  · cases removed : removeLongChainlock s.db block with
    | none => simp [removed] at written
    | some batch =>
      obtain ⟨hashPrevBlock, each⟩ := mem_removeLongChainlock removed
      rw [removed, Option.getD_some, each] at written
      rcases written with ⟨key, range, found, written⟩ | rfl
      · exact .removed gone (by rw [removed]; rfl) found written
      · exact .last _
  · obtain ⟨batch, here⟩ := Option.isSome_iff_exists.1 (added block mem)
    rw [here, Option.getD_some, mem_addLongChainBlock (stored_of_added follows here) here] at written
    rcases written with ⟨key, append⟩ | rfl | rfl | rfl
    · exact .added mem append
    · exact .range mem
    · exact .tokenRange mem
    · exact .last _
  · simp only [removeOldBlockData, mem_cons, not_mem_nil, or_false] at erased
    rcases erased with rfl | rfl | rfl | rfl <;> exact .erased trivial

variable (vGone) in
theorem mem_update_added {block : UInt256} (mem : block ∈ vNew) (written :
    (∃ key, IsAppend s.db (info block).written key write) ∨
      write = put (.blockAddressTxRange block) (blockAddressTxIndex s.db (info block).mapAddressTxInfo) ∨
      write = put (.blockTokenAddressTxRange block) (blockAddressTokenTxIndex s.db (info block).mapTokenRecord) ∨
      write = put .blockLastblock block) : write ∈ updateBatch s.address vGone vNew := by
  obtain ⟨batch, here⟩ := Option.isSome_iff_exists.1 (added block mem)
  apply mem_append_left
  apply mem_append_right
  refine mem_flatMap.2 ⟨block, mem, ?_⟩
  rwa [here, Option.getD_some, mem_addLongChainBlock (stored_of_added follows here) here]

theorem count_mem_update {key : HistoryKey} {value : Option Nat} :
    ⟨.txCount key, value⟩ ∈ updateBatch s.address vGone vNew ↔
      (∃ hashBlock ∈ vGone, (removeLongChainlock s.db hashBlock).isSome ∧
        ∃ range, rangeOf s.db hashBlock key = some range ∧ value = some (range.2 + 1)) ∨
      ∃ hashBlock ∈ vNew, (info hashBlock).written key ≠ [] ∧
        value = some (readTxCount s.db key + ((info hashBlock).written key).length) := by
  constructor
  · intro written
    cases update_write follows added written with
    | removed gone kept found written =>
      rcases mem_removeRange.1 written with ⟨_, _, _, same⟩ | same <;> cases same
      exact Or.inl ⟨_, gone, kept, _, found, rfl⟩
    | added mem append =>
      rcases append with ⟨some, same⟩ | ⟨_, _, _, _, same⟩ <;> cases same
      exact Or.inr ⟨_, mem, some, rfl⟩
    | erased note => exact note.elim
  · rintro (⟨block, gone, kept, range, found, rfl⟩ | ⟨block, mem, some, rfl⟩)
    · exact mem_update_removed gone kept found (mem_removeRange.2 (Or.inr rfl))
    · exact mem_update_added vGone follows added mem (Or.inl ⟨key, Or.inl ⟨some, rfl⟩⟩)

theorem info_mem_update {key : HistoryKey} {index : Nat} {value : Option HistoryRecord} :
    ⟨.txInfo key index, value⟩ ∈ updateBatch s.address vGone vNew ↔
      (∃ hashBlock ∈ vGone, (removeLongChainlock s.db hashBlock).isSome ∧
        ∃ range, rangeOf s.db hashBlock key = some range ∧ range.1 ≤ index ∧ index ≤ range.2 ∧ value = none) ∨
      ∃ hashBlock ∈ vNew, ∃ record, readTxCount s.db key ≤ index ∧
        ((info hashBlock).written key)[index - readTxCount s.db key]? = some record ∧ value = some record := by
  constructor
  · intro written
    cases update_write follows added written with
    | removed gone kept found written =>
      rcases mem_removeRange.1 written with ⟨_, first, last, same⟩ | same <;> cases same
      exact Or.inl ⟨_, gone, kept, _, found, first, last, rfl⟩
    | added mem append =>
      rcases append with ⟨_, same⟩ | ⟨_, record, later, found, same⟩ <;> cases same
      exact Or.inr ⟨_, mem, record, later, found, rfl⟩
    | erased note => exact note.elim
  · rintro (⟨block, gone, kept, range, found, first, last, rfl⟩ | ⟨block, mem, record, later, found, rfl⟩)
    · exact mem_update_removed gone kept found (mem_removeRange.2 (Or.inl ⟨index, first, last, rfl⟩))
    · exact mem_update_added vGone follows added mem (Or.inl ⟨key, Or.inr ⟨index, record, later, found, rfl⟩⟩)

theorem range_mem_update {block : UInt256} {value : Option RangeMap}
    (written : ⟨.blockAddressTxRange block, value⟩ ∈ updateBatch s.address vGone vNew) :
    value = none ∨ block ∈ vNew ∧ value = some (blockAddressTxIndex s.db (info block).mapAddressTxInfo) := by
  cases update_write follows added written with
  | removed _ _ _ written => rcases mem_removeRange.1 written with ⟨_, _, _, same⟩ | same <;> cases same
  | added _ append => rcases append with ⟨_, same⟩ | ⟨_, _, _, _, same⟩ <;> cases same
  | range mem => exact Or.inr ⟨mem, rfl⟩
  | erased _ => exact Or.inl rfl

theorem tokenRange_mem_update {block : UInt256} {value : Option (DestMap RangeMap)}
    (written : ⟨.blockTokenAddressTxRange block, value⟩ ∈ updateBatch s.address vGone vNew) :
    value = none ∨ block ∈ vNew ∧
      value = some (blockAddressTokenTxIndex s.db (info block).mapTokenRecord) := by
  cases update_write follows added written with
  | removed _ _ _ written => rcases mem_removeRange.1 written with ⟨_, _, _, same⟩ | same <;> cases same
  | added _ append => rcases append with ⟨_, same⟩ | ⟨_, _, _, _, same⟩ <;> cases same
  | tokenRange mem => exact Or.inr ⟨mem, rfl⟩
  | erased _ => exact Or.inl rfl

theorem data_mem_update {block : UInt256} {value : Option BlockTxData}
    (written : ⟨.blockAddressTxData block, value⟩ ∈ updateBatch s.address vGone vNew) : value = none := by
  cases update_write follows added written with
  | removed _ _ _ written => rcases mem_removeRange.1 written with ⟨_, _, _, same⟩ | same <;> cases same
  | added _ append => rcases append with ⟨_, same⟩ | ⟨_, _, _, _, same⟩ <;> cases same
  | erased _ => rfl

section Single
variable {key : HistoryKey} (idle : ∀ block ∈ vGone, rangeOf s.db block key = none)
  (single : vNew.Pairwise fun first second => (info first).records key = [] ∨ (info second).records key = [])
  {adds : List HistoryRecord} (whole : vNew.flatMap (fun block => (info block).written key) = adds)
include idle single whole

omit follows added idle in
theorem written_of_single {block : UInt256} (mem : block ∈ vNew) (some : (info block).written key ≠ []) :
    (info block).written key = adds := by
  have apart := single.imp (S := fun first second => (info first).written key = [] ∨ (info second).written key = [])
    fun either => either.imp (written_eq_nil_iff key).2 (written_eq_nil_iff key).2
  rw [← whole, flatMap_of_single apart mem some]

theorem count_mem_single (value : Option Nat) :
    ⟨.txCount key, value⟩ ∈ updateBatch s.address vGone vNew ↔
      adds ≠ [] ∧ value = some (readTxCount s.db key + adds.length) := by
  rw [count_mem_update follows added]
  constructor
  · rintro (⟨old, gone, _, range, found, _⟩ | ⟨new, here, some, rfl⟩)
    · rw [idle old gone] at found
      cases found
    · rw [← written_of_single single whole here some]
      exact ⟨some, rfl⟩
  · rintro ⟨some, rfl⟩
    obtain ⟨before, block, after, here, _, own⟩ := first_of_flatMap (whole ▸ some)
    have mem : block ∈ vNew := by simp [here]
    exact Or.inr ⟨block, mem, own, by rw [written_of_single single whole mem own]⟩

theorem info_mem_single (index : Nat) (value : Option HistoryRecord) :
    ⟨.txInfo key index, value⟩ ∈ updateBatch s.address vGone vNew ↔
      (readTxCount s.db key ≤ index ∧ index - readTxCount s.db key < adds.length) ∧
        value = adds[index - readTxCount s.db key]? := by
  rw [info_mem_update follows added]
  constructor
  · rintro (⟨old, gone, _, range, found, _⟩ | ⟨new, here, record, later, found, rfl⟩)
    · rw [idle old gone] at found
      cases found
    · have some : (info new).written key ≠ [] := fun empty => by simp [empty] at found
      rw [written_of_single single whole here some] at found
      exact ⟨⟨later, (List.getElem?_eq_some_iff.1 found).1⟩, found.symm⟩
  · rintro ⟨⟨later, inside⟩, rfl⟩
    obtain ⟨before, block, after, here, _, own⟩ :=
      first_of_flatMap (whole ▸ ne_nil_of_length_pos (Nat.zero_lt_of_lt inside))
    have mem : block ∈ vNew := by simp [here]
    refine Or.inr ⟨block, mem, _, later, ?_, List.getElem?_eq_getElem inside⟩
    rw [written_of_single single whole mem own, List.getElem?_eq_getElem inside]

/-- A history that gets records of one block at most grows by what is written to it. -/
theorem history_of_single :
    readTxCount (commit s.db (updateBatch s.address vGone vNew)) key = readTxCount s.db key + adds.length ∧
      ∀ index, index < readTxCount s.db key + adds.length →
        commit s.db (updateBatch s.address vGone vNew) (.txInfo key index) =
          if index < readTxCount s.db key then s.db (.txInfo key index)
          else adds[index - readTxCount s.db key]? := by
  constructor
  · rw [readTxCount, commit_of_writes (count_mem_single follows added idle single whole)]
    split_ifs with some
    · rfl
    · rw [not_not.1 some]
      rfl
  · intro index below
    rw [commit_of_writes (info_mem_single follows added idle single whole index)]
    by_cases before : index < readTxCount s.db key
    · rw [if_pos before, if_neg (by omega)]
    · rw [if_neg before, if_pos (by omega)]

end Single

end Update

section Ranges
variable {db : AddressTxStore} {before : List UInt256} {hashBlock : UInt256}

theorem Ranged.of_rangeOf (ranged : Ranged info db before hashBlock) {key : HistoryKey} {range : Nat × Nat}
    (found : rangeOf db hashBlock key = some range) : chainRange info before hashBlock key = some range := by
  cases key with
  | address address =>
    obtain ⟨index, stored, inner⟩ := Option.bind_eq_some_iff.1 found
    rw [← ranged.address index stored, inner]
  | token contract address =>
    rw [rangeOf, Option.bind_assoc] at found
    obtain ⟨index, stored, inner⟩ := Option.bind_eq_some_iff.1 found
    rw [← ranged.token index stored, inner]

theorem Ranged.rangeOf_eq (ranged : Ranged info db before hashBlock) (kept : (removeLongChainlock db hashBlock).isSome)
    (key : HistoryKey) : rangeOf db hashBlock key = chainRange info before hashBlock key := by
  unfold removeLongChainlock at kept
  cases noted : db (.blockAddressTxRange hashBlock) with
  | none => simp [noted] at kept
  | some index =>
  cases tokenNoted : db (.blockTokenAddressTxRange hashBlock) with
  | none => simp [noted, tokenNoted] at kept
  | some tokenIndex =>
  cases key with
  | address address => rw [rangeOf, noted, Option.bind_some, ranged.address index noted]
  | token contract address =>
    rw [rangeOf, tokenNoted, Option.bind_some, ranged.token tokenIndex tokenNoted]

theorem Throughout.removed {P : List UInt256 → UInt256 → Prop} {chain kept : List UInt256} (all : Throughout P chain)
    (split : chain = kept ++ vGone.reverse) (mem : hashBlock ∈ vGone) :
    ∃ between, between ++ [hashBlock] <+: vGone.reverse ∧ P (kept ++ between) hashBlock := by
  obtain ⟨between, after, here⟩ := append_of_mem (mem_reverse.2 mem)
  refine ⟨between, ⟨after, by rw [here, append_assoc]; rfl⟩, all (kept ++ between) hashBlock after ?_⟩
  rw [split, here, append_assoc]

end Ranges

section Kept
variable (removed : ∀ hashBlock ∈ vGone, ∀ key, (info hashBlock).records key = []) {kept : List UInt256}
  (split : s.chain = kept ++ vGone.reverse) (key : HistoryKey)
include removed split

theorem chainRecords_kept : chainRecords info s.chain key = chainRecords info kept key := by
  have none_removed : chainRecords info vGone.reverse key = [] :=
    chainRecords_eq_nil_iff.2 fun block mem => removed block (mem_reverse.1 mem) key
  rw [split, chainRecords_append, none_removed, append_nil]

theorem idle_of_removed (follows : HistoryFollows info s) {block : UInt256} (mem : block ∈ vGone) :
    rangeOf s.db block key = none := by
  obtain ⟨between, _, ranged⟩ := Throughout.removed follows.ranged split mem
  cases found : rangeOf s.db block key with
  | none => rfl
  | some range =>
    have noted := ranged.of_rangeOf found
    rw [chainRange, if_pos ((written_eq_nil_iff key).2 (removed block mem key))] at noted
    cases noted

end Kept

section Plain
variable (follows : HistoryFollows info s) (plain : Plain info vGone vNew) {kept : List UInt256}
  (split : s.chain = kept ++ vGone.reverse)
include plain split

include follows in
theorem Plain.recorded (added : ∀ hashBlock ∈ vNew, (addLongChainBlock s.db hashBlock).isSome)
    {address : ForkAddressTxInfoDB} (stored : address.db = commit s.db (updateBatch s.address vGone vNew)) :
    Recorded info address.db (kept ++ vNew) := by
  intro key
  obtain ⟨counted, numbered⟩ := follows.recorded key
  rw [chainRecords_kept plain.removed split] at counted numbered
  rw [stored, chainRecords_append]
  have same : vNew.flatMap (fun block => (info block).written key) = chainRecords info vNew key :=
    flatMap_congr fun block mem => written_eq_records (plain.noSelf block mem) key
  obtain ⟨count, records⟩ := history_of_single follows added
    (fun _ gone => idle_of_removed plain.removed split key follows gone) (plain.single key) same
  rw [count, length_append, counted]
  apply And.intro rfl
  intro nTxIndex below
  rw [← counted] at below
  rw [records nTxIndex below, List.getElem?_append, ← counted]
  split_ifs with before
  · exact numbered nTxIndex before
  · rfl

/-- The numbers that an added block gets are those behind the chain before it. -/
theorem Plain.appendRange_eq (counted : ∀ key, readTxCount s.db key = (chainRecords info s.chain key).length)
    {between after : List UInt256} {block : UInt256} (here : vNew = between ++ block :: after) (key : HistoryKey) :
    appendRange s.db (info block).written key = chainRange info (kept ++ between) block key := by
  unfold appendRange chainRange
  by_cases empty : (info block).written key = []
  · rw [if_pos empty, if_pos empty]
  have none_before : chainRecords info between key = [] := by
    apply chainRecords_eq_nil_iff.2
    intro other mem
    have apart := (pairwise_append.1 (here ▸ plain.single key)).2.2 other mem block mem_cons_self
    exact apart.resolve_right fun none_here => empty ((written_eq_nil_iff key).2 none_here)
  rw [counted, chainRecords_kept plain.removed split, chainRecords_append, none_before, append_nil]

include follows in
/-- A plain update notes the numbers of the records it adds, and leaves the other notes or erases them. -/
theorem Plain.ranged (added : ∀ hashBlock ∈ vNew, (addLongChainBlock s.db hashBlock).isSome)
    (nodup : (kept ++ vNew).Nodup) :
    Throughout (Ranged info (commit s.db (updateBatch s.address vGone vNew))) (kept ++ vNew) := by
  have behind : ∀ between hashBlock after, vNew = between ++ hashBlock :: after →
      Ranged info (commit s.db (updateBatch s.address vGone vNew)) (kept ++ between) hashBlock := by
    intro between hashBlock after here
    have numbers := plain.appendRange_eq split (fun key => (follows.recorded key).1) here
    have member : hashBlock ∈ vNew := by simp [here]
    constructor
    · intro index found address
      have written := commit_of_touched s.db (mem_update_added vGone follows added member (Or.inr (Or.inl rfl)))
      rw [found] at written
      rcases range_mem_update follows added written with erased | ⟨_, same⟩
      · cases erased
      · cases same
        rw [find_blockAddressTxIndex, numbers]
    · intro index found destContractAddress address
      have written := commit_of_touched s.db (mem_update_added vGone follows added member (Or.inr (Or.inr (Or.inl rfl))))
      rw [found] at written
      rcases tokenRange_mem_update follows added written with erased | ⟨_, same⟩
      · cases erased
      · cases same
        rw [find_blockAddressTokenTxIndex, numbers]
  intro before hashBlock after whole
  rcases append_eq_append_iff.1 whole with ⟨between, rfl, here⟩ | ⟨rest, here, tail⟩
  · exact behind between hashBlock after here
  cases rest with
  | nil =>
    rw [append_nil] at here
    subst here
    rw [← append_nil kept]
    exact behind [] hashBlock after tail.symm
  | cons first rest =>
    cases tail
    subst here
    have ranged : Ranged info s.db before hashBlock := by
      apply follows.ranged before hashBlock (rest ++ vGone.reverse)
      rw [split, append_assoc]
      rfl
    have fresh : hashBlock ∉ vNew := by
      intro member
      exact (nodup_append.1 nodup).2.2 hashBlock (by simp) hashBlock member rfl
    constructor
    · intro index found
      rcases commit_cases s.db (updateBatch s.address vGone vNew) (.blockAddressTxRange hashBlock) with same | written
      · exact ranged.address index (same ▸ found)
      · rw [found] at written
        rcases range_mem_update follows added written with erased | ⟨member, _⟩
        · cases erased
        · exact absurd member fresh
    · intro index found
      rcases commit_cases s.db (updateBatch s.address vGone vNew) (.blockTokenAddressTxRange hashBlock) with same | written
      · exact ranged.token index (same ▸ found)
      · rw [found] at written
        rcases tokenRange_mem_update follows added written with erased | ⟨member, _⟩
        · cases erased
        · exact absurd member fresh

include follows in
theorem Plain.keeps (added : ∀ hashBlock ∈ vNew, (addLongChainBlock s.db hashBlock).isSome)
    (nodup : (kept ++ vNew).Nodup) {address : ForkAddressTxInfoDB}
    (stored : address.db = commit s.db (updateBatch s.address vGone vNew)) :
    HistoryFollows info ⟨address, kept ++ vNew⟩ where
  recorded := plain.recorded follows split added stored
  ranged := by
    rw [HistoryState.db, stored]
    exact plain.ranged follows split added nodup
  stored := by
    intro hashBlock data found
    rw [HistoryState.db, stored] at found
    rcases commit_cases s.db (updateBatch s.address vGone vNew) (.blockAddressTxData hashBlock) with same | written
    · exact follows.stored hashBlock data (same ▸ found)
    · rw [data_mem_update follows added written] at found
      cases found

end Plain

section Needed
variable {kept : List UInt256} (follows : HistoryFollows info s)
  (added : ∀ hashBlock ∈ vNew, (addLongChainBlock s.db hashBlock).isSome)
  (split : s.chain = kept ++ vGone.reverse)
  {address : ForkAddressTxInfoDB} (stored : address.db = commit s.db (updateBatch s.address vGone vNew))
  (recorded : Recorded info address.db (kept ++ vNew))
include follows added split

omit added in
theorem kept_le_count (key : HistoryKey) : (chainRecords info kept key).length ≤ readTxCount s.db key := by
  rw [(follows.recorded key).1, split, chainRecords_append, length_append]
  exact Nat.le_add_right ..

theorem kept_lt_of_count_mem {key : HistoryKey} {value : Option Nat}
    (written : ⟨.txCount key, value⟩ ∈ updateBatch s.address vGone vNew) :
    (chainRecords info kept key).length < value.getD 0 := by
  rcases (count_mem_update follows added).1 written with ⟨other, out, _, range, found, rfl⟩ | ⟨_, _, some, rfl⟩
  · obtain ⟨between, _, ranged⟩ := Throughout.removed follows.ranged split out
    have numbers := ranged.of_rangeOf found
    unfold chainRange at numbers
    split_ifs at numbers with empty
    cases numbers
    have records_pos := length_pos_of_ne_nil empty
    rw [Option.getD_some, chainRecords_append, length_append]
    omega
  · have records_pos := length_pos_of_ne_nil some
    have behind := kept_le_count follows split key
    rw [Option.getD_some]
    omega

include stored recorded

/-- The first record of the removed blocks leaves a gap below the count. -/
theorem removed_of_recorded (noted : ∀ block ∈ vGone, (removeLongChainlock s.db block).isSome)
    {block : UInt256} (mem : block ∈ vGone) (key : HistoryKey) : (info block).records key = [] := by
  by_contra some
  have removes : chainRecords info vGone.reverse key ≠ [] := by
    intro empty
    exact some (chainRecords_eq_nil_iff.1 empty block (mem_reverse.2 mem))
  obtain ⟨between, first, after, here, none_before, holds⟩ := first_of_flatMap removes
  have start : chainRecords info (kept ++ between) key = chainRecords info kept key := by
    rw [chainRecords_append, show chainRecords info between key = [] from none_before, append_nil]
  have gone : first ∈ vGone := by
    rw [← mem_reverse, here]
    simp
  have noted_first : rangeOf s.db first key = chainRange info (kept ++ between) first key := by
    apply Ranged.rangeOf_eq (follows.ranged (kept ++ between) first after _) (noted first gone)
    rw [split, here, append_assoc]
  have written : (info first).written key ≠ [] := mt (written_eq_nil_iff key).1 holds
  have length_pos := length_pos_of_ne_nil written
  rw [chainRange, if_neg written, start] at noted_first
  have counted := (follows.recorded key).1
  have below : (chainRecords info kept key).length < readTxCount s.db key := by
    have records_pos := length_pos_of_ne_nil removes
    rw [counted, split, chainRecords_append, length_append]
    omega
  have erased : address.db (.txInfo key (chainRecords info kept key).length) = none := by
    rw [stored]
    apply commit_of_unique ((info_mem_update follows added).2
      (Or.inl ⟨first, gone, noted first gone, _, noted_first, le_rfl, by omega, rfl⟩))
    intro value write
    rcases (info_mem_update follows added).1 write with ⟨_, _, _, _, _, _, _, same⟩ | ⟨_, _, _, later, _⟩
    · exact same
    · omega
  have above : (chainRecords info kept key).length < readTxCount address.db key := by
    rw [readTxCount, stored]
    apply kept_lt_of_count_mem follows added split
    exact commit_of_touched s.db ((count_mem_update follows added).2
      (Or.inl ⟨first, gone, noted first gone, _, noted_first, rfl⟩))
  obtain ⟨count, numbered⟩ := recorded key
  have gap := numbered _ above
  rw [erased, eq_comm, List.getElem?_eq_none_iff] at gap
  omega

section Idle
variable (idle : ∀ key, ∀ hashBlock ∈ vGone, rangeOf s.db hashBlock key = none)
  (same : ∀ key, chainRecords info s.chain key = chainRecords info kept key)
include idle same

omit split idle in
/-- Of blocks that add to one history together, the last one writes over the first. -/
theorem none_before_last (numbered : ∀ hashBlock ∈ vNew, (info hashBlock).Numbered)
    (distinct : ((kept ++ vNew).map fun hashBlock => (info hashBlock).nBlockNumber).Nodup)
    {before after : List UInt256} {last : UInt256} (here : vNew = before ++ last :: after) {key : HistoryKey}
    (none_after : chainRecords info after key = []) (some : (info last).records key ≠ []) :
    chainRecords info before key = [] := by
  by_contra others
  obtain ⟨record, rest, written⟩ := exists_cons_of_ne_nil (mt (BlockTxData.written_eq_nil_iff key).1 some)
  obtain ⟨first, between, records⟩ := exists_cons_of_ne_nil others
  have kept_count : readTxCount s.db key = (chainRecords info kept key).length := by
    rw [(follows.recorded key).1, same]
  have overwritten : address.db (.txInfo key (readTxCount s.db key)) = .some record := by
    have tail_added : ∀ hashBlock ∈ last :: after, (addLongChainBlock s.db hashBlock).isSome :=
      fun hashBlock member => added hashBlock (here ▸ mem_append_right _ member)
    rw [stored, here, updateBatch_append, commit_append]
    apply commit_of_unique ((info_mem_update follows tail_added).2
      (Or.inr ⟨last, mem_cons_self, record, le_rfl, by rw [written, Nat.sub_self]; rfl, rfl⟩))
    intro value write
    rcases (info_mem_update follows tail_added).1 write with ⟨_, gone, _⟩ | ⟨other, member, own, _, found, rfl⟩
    · cases gone
    · rcases mem_cons.1 member with rfl | later
      · rw [written, Nat.sub_self] at found
        exact found.symm
      · have empty := chainRecords_eq_nil_iff.1 none_after other later
        rw [(BlockTxData.written_eq_nil_iff key).2 empty] at found
        cases found
  have kept_first : address.db (.txInfo key (readTxCount s.db key)) = .some first := by
    obtain ⟨count, records_eq⟩ := recorded key
    have log : chainRecords info (kept ++ vNew) key =
        chainRecords info kept key ++ first :: (between ++ chainRecords info (last :: after) key) := by
      rw [here, chainRecords_append, chainRecords_append, records, cons_append]
    rw [log] at count records_eq
    rw [kept_count]
    have below : (chainRecords info kept key).length < readTxCount address.db key := by
      rw [count, length_append, length_cons]
      omega
    rw [records_eq _ below, List.getElem?_append_right le_rfl, Nat.sub_self]
    rfl
  have equal : record = first := Option.some_injective _ (overwritten.symm.trans kept_first)
  -- The block of the record and the block of the overwritten one have different numbers.
  obtain ⟨other, member, held⟩ := mem_flatMap.1 (records ▸ mem_cons_self : first ∈ chainRecords info before key)
  have own : record ∈ (info last).records key := BlockTxData.mem_written.1 (written ▸ mem_cons_self)
  have number : (info other).nBlockNumber = (info last).nBlockNumber := by
    rw [← numbered other (by simp [here, member]) key first held, ← equal, numbered last (by simp [here]) key record own]
  rw [here, map_append, map_append, map_cons] at distinct
  exact (nodup_append.1 (nodup_append.1 distinct).2.1).2.2 _ (List.mem_map_of_mem member) _
    mem_cons_self number

omit split idle in
theorem single_of_recorded (numbered : ∀ block ∈ vNew, (info block).Numbered)
    (distinct : ((kept ++ vNew).map fun block => (info block).nBlockNumber).Nodup) (key : HistoryKey) :
    vNew.Pairwise fun first second => (info first).records key = [] ∨ (info second).records key = [] := by
  have silent {blocks : List UInt256} (empty : chainRecords info blocks key = []) :
      blocks.Pairwise fun first second => (info first).records key = [] ∨ (info second).records key = [] := by
    apply pairwise_of_forall_mem_list
    exact fun first mem _ _ => Or.inl (chainRecords_eq_nil_iff.1 empty first mem)
  by_cases empty : chainRecords info vNew key = []
  · exact silent empty
  obtain ⟨before, last, after, here, none_after, some⟩ := last_of_flatMap empty
  have none_before := none_before_last follows added stored recorded same numbered distinct here none_after some
  rw [here, pairwise_append, pairwise_cons]
  refine ⟨silent none_before, ⟨?_, silent none_after⟩, ?_⟩
  · exact fun second mem => Or.inr (chainRecords_eq_nil_iff.1 none_after second mem)
  · exact fun first mem _ _ => Or.inl (chainRecords_eq_nil_iff.1 none_before first mem)

omit split in
/-- A record that is written twice is counted twice. -/
theorem noSelf_of_recorded
    (single : ∀ key, vNew.Pairwise fun first second => (info first).records key = [] ∨ (info second).records key = [])
    {hashBlock : UInt256} (member : hashBlock ∈ vNew) : (info hashBlock).NoSelf := by
  intro destContractAddress some record held
  by_contra moved
  have self : record.destFrom = destContractAddress ∨ record.destTo = destContractAddress := by
    rwa [not_and_or, not_not, not_not] at moved
  have longer := BlockTxData.length_records_lt some held self
  have written := ne_nil_of_length_pos (Nat.zero_lt_of_lt longer)
  have count := (history_of_single follows added (idle (.token destContractAddress destContractAddress)) (single _) rfl).1
  have records := flatMap_of_single (single _) member (mt (BlockTxData.written_eq_nil_iff _).2 written)
  have counted := (recorded (.token destContractAddress destContractAddress)).1
  rw [stored, count, ← written_of_single (single _) rfl member written, chainRecords_append, length_append,
    (follows.recorded _).1, same, show chainRecords info vNew _ = _ from records] at counted
  omega

end Idle

/-- An update after which the histories follow the chain was a plain one. -/
theorem plain_of_recorded (noted : ∀ block ∈ vGone, (removeLongChainlock s.db block).isSome)
    (numbered : ∀ block ∈ vNew, (info block).Numbered)
    (distinct : ((kept ++ vNew).map fun block => (info block).nBlockNumber).Nodup) :
    Plain info vGone vNew := by
  have removed : ∀ block ∈ vGone, ∀ key, (info block).records key = [] :=
    fun _ mem key => removed_of_recorded follows added split stored recorded noted mem key
  have same := fun key => chainRecords_kept removed split key
  have single := single_of_recorded follows added stored recorded same numbered distinct
  have idle : ∀ key, ∀ block ∈ vGone, rangeOf s.db block key = none :=
    fun key _ gone => idle_of_removed removed split key follows gone
  exact ⟨removed, single, fun _ mem => noSelf_of_recorded follows added stored recorded idle same single mem⟩

end Needed

section Steps
variable {s' : HistoryState} {call : HistoryCall}

theorem addAddressTxInfo_keeps (follows : HistoryFollows info s) (prev hashBlock : UInt256) :
    HistoryFollows info { s with address := s.address.addAddressTxInfo prev hashBlock (info hashBlock) } := by
  have other : ∀ key : AddressTxKey, key ≠ .blockAddressTxData hashBlock → key ≠ .blockPrevblock hashBlock →
      (s.address.addAddressTxInfo prev hashBlock (info hashBlock)).db key = s.db key := by
    intro key notData notPrev
    apply commit_of_untouched
    intro value written
    rcases mem_cons.1 written with same | later
    · exact notData (congrArg Sigma.fst same)
    · exact notPrev (congrArg Sigma.fst (mem_singleton.1 later))
  constructor
  · show Recorded info (s.address.addAddressTxInfo prev hashBlock (info hashBlock)).db s.chain
    intro key
    obtain ⟨counted, numbered⟩ := follows.recorded key
    rw [readTxCount, other (.txCount key) nofun nofun]
    refine ⟨counted, fun index below => ?_⟩
    rw [other (.txInfo key index) nofun nofun]
    exact numbered index below
  · show Throughout (Ranged info (s.address.addAddressTxInfo prev hashBlock (info hashBlock)).db) s.chain
    intro before block after whole
    obtain ⟨ranged, tokenRanged⟩ := follows.ranged before block after whole
    constructor
    · rw [other (.blockAddressTxRange block) nofun nofun]
      exact ranged
    · rw [other (.blockTokenAddressTxRange block) nofun nofun]
      exact tokenRanged
  · intro block data found
    by_cases same : block = hashBlock
    · subst same
      have written : (s.address.addAddressTxInfo prev block (info block)).db (.blockAddressTxData block) =
          some (info block) := by
        apply commit_of_unique mem_cons_self
        intro value mem
        simpa using mem
      exact Option.some_injective _ (found.symm.trans written)
    · rw [HistoryState.db, other (.blockAddressTxData block) (by simpa using same) nofun] at found
      exact follows.stored block data found

theorem historyStep_update (step : historyStep info s (.updateAddressTxInfoBlockLongChain vGone vNew) = some s') :
    Fits info s.chain vGone vNew ∧
      (s.address.updateAddressTxInfoBlockLongChain vGone vNew = none ∧ s' = s ∨
        ∃ address, s.address.updateAddressTxInfoBlockLongChain vGone vNew = some address ∧
          s' = ⟨address, longChain s.chain vGone vNew⟩) := by
  simp only [historyStep] at step
  split_ifs at step with fits
  cases updated : s.address.updateAddressTxInfoBlockLongChain vGone vNew with
  | none =>
    rw [updated] at step
    cases step
    exact ⟨fits, Or.inl ⟨rfl, rfl⟩⟩
  | some address =>
    rw [updated] at step
    cases step
    exact ⟨fits, Or.inr ⟨address, rfl, rfl⟩⟩

theorem historyStep_keeps (follows : HistoryFollows info s) (step : historyStep info s call = some s')
    (plain : PlainCall info s call) : HistoryFollows info s' := by
  cases call with
  | addAddressTxInfo hashPrevBlock block =>
    cases step
    exact addAddressTxInfo_keeps follows hashPrevBlock block
  | updateAddressTxInfoBlockLongChain vGone vNew =>
    obtain ⟨fits, ⟨_, rfl⟩ | ⟨address, updated, rfl⟩⟩ := historyStep_update step
    · exact follows
    obtain ⟨kept, split, chained, distinct⟩ := fits.split
    obtain ⟨stored, added⟩ := update_eq_some updated
    rw [chained]
    exact Plain.keeps follows (plain (by rw [updated]; rfl)) split added distinct.of_map stored

theorem historyStep_needs (follows : HistoryFollows info s) (numbered : ∀ block, (info block).Numbered)
    (step : historyStep info s call = some s') (noted : RemovalKept s call) (recorded : Recorded info s'.db s'.chain) :
    PlainCall info s call := by
  cases call with
  | addAddressTxInfo hashPrevBlock block => trivial
  | updateAddressTxInfoBlockLongChain vGone vNew =>
    intro succeeds
    obtain ⟨fits, ⟨fails, rfl⟩ | ⟨address, updated, rfl⟩⟩ := historyStep_update step
    · rw [fails] at succeeds
      cases succeeds
    obtain ⟨kept, split, chained, distinct⟩ := fits.split
    obtain ⟨stored, added⟩ := update_eq_some updated
    rw [chained] at recorded
    exact plain_of_recorded follows added split stored recorded noted (fun _ _ => numbered _) distinct

theorem follows_empty : HistoryFollows info .empty where
  recorded := fun _ => ⟨rfl, fun _ below => absurd below (Nat.not_lt_zero _)⟩
  ranged := Throughout.nil
  stored := fun _ _ found => nomatch found

end Steps

/-- Along calls that fit the chain, the histories of addresses and of tokens hold the records of the
chain in its order as long as each update is plain, and not after an update that is not, unless the
data of the blocks that it removes was cleared. -/
theorem history_recorded (info : UInt256 → BlockTxData) (calls : List HistoryCall) :
    (AtEach (historyStep info) (PlainCall info) .empty calls →
      Always (historyStep info) (fun s => Recorded info s.db s.chain) .empty calls) ∧
    ((∀ hashBlock, (info hashBlock).Numbered) → AtEach (historyStep info) RemovalKept .empty calls →
      Always (historyStep info) (fun s => Recorded info s.db s.chain) .empty calls →
      AtEach (historyStep info) (PlainCall info) .empty calls) := by
  have keeps : ∀ s, ∀ call ∈ calls, ∀ s', HistoryFollows info s → historyStep info s call = some s' →
      PlainCall info s call → HistoryFollows info s' := fun _ _ _ _ follows => historyStep_keeps follows
  constructor
  · exact always_of_atEach (fun _ follows => follows.recorded) keeps follows_empty
  · intro numbered
    apply atEach_of_always _ keeps follows_empty
    exact fun _ _ _ _ follows step => historyStep_needs follows numbered step

end History

namespace Sample

def received (nBlockNumber : UInt64) : DestTxInfo where
  nDirection := 1
  nBlockNumber := nBlockNumber
  txid := 7
  nTxType := 0
  nTimeStamp := 100
  destPeer := 8
  nAmount := 10
  nTxFee := 1

/-- The address 5 receives a transfer in each block, which is named by its number. -/
def receivedInfo (hashBlock : UInt256) : BlockTxData where
  nBlockNumber := hashBlock.toNat.toUInt64
  mapAddressTxInfo := SortedMap.empty.insert 5 [received hashBlock.toNat.toUInt64]
  mapTokenRecord := .empty

def twoUpdates : List HistoryCall :=
  [.addAddressTxInfo 0 1, .updateAddressTxInfoBlockLongChain [] [1], .addAddressTxInfo 1 2,
    .updateAddressTxInfoBlockLongChain [] [2]]

theorem plain_receivedInfo (block : UInt256) : Plain receivedInfo [] [block] where
  removed := fun _ mem => nomatch mem
  single := fun _ => pairwise_singleton ..
  noSelf := fun _ _ _ _ _ mem => nomatch mem

theorem history_recorded_twoUpdates :
    AtEach (historyStep receivedInfo) (PlainCall receivedInfo) .empty twoUpdates ∧
      Always (historyStep receivedInfo) (fun s => Recorded receivedInfo s.db s.chain) .empty twoUpdates := by
  have plain : AtEach (historyStep receivedInfo) (PlainCall receivedInfo) .empty twoUpdates :=
    fun _ _ => ⟨trivial, fun _ _ => ⟨fun _ => plain_receivedInfo 1, fun _ _ => ⟨trivial, fun _ _ =>
      ⟨fun _ => plain_receivedInfo 2, trivial⟩⟩⟩⟩
  exact ⟨plain, (history_recorded receivedInfo twoUpdates).1 plain⟩

def historyOfFive (calls : List HistoryCall) : Option (List UInt256 × Nat × List (Option HistoryRecord)) :=
  (calls.foldlM (historyStep receivedInfo) .empty).map fun s =>
    (s.chain, readTxCount s.db (.address 5), [s.db (.txInfo (.address 5) 0), s.db (.txInfo (.address 5) 1)])

/-- A removed block leaves its count, and of two blocks that come in together one record is lost. -/
theorem history_lost :
    historyOfFive [.addAddressTxInfo 0 1, .updateAddressTxInfoBlockLongChain [] [1],
      .updateAddressTxInfoBlockLongChain [1] []] = some ([], 1, [none, none]) ∧
    historyOfFive [.addAddressTxInfo 0 1, .addAddressTxInfo 1 2, .updateAddressTxInfoBlockLongChain [] [1, 2]] =
      some ([1, 2], 1, [some (.address (received 2)), none]) := by
  decide

end Sample
end HashAhead.Chain

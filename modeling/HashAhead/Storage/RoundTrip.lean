import HashAhead.Storage.AppendLog

/-! Runs of writes. The writer leaves 8 bytes for a header when it looks for a file with room, but the header has 12 or
13 bytes, so that a record can take a file over the size up to which a walk reads it. As long as no write does this,
all records are read back and are walked through in order. -/

namespace HashAhead.Storage
open Foundation Trie Chain HashAhead.Stream List Option

def emptySeries : Series := ⟨.empty, 1⟩

section LastFile
variable {s : Series} {nSize turns : Nat}

theorem getLastFilePath_absent (absent : s.files.find s.nLastFile = none) (room : nSize + 8 ≤ maxFileSize) :
    getLastFilePath (turns + 1) s nSize =
      some (s.nLastFile, { s with files := s.files.insert s.nLastFile [] }) := by
  rw [getLastFilePath, absent]
  dsimp only [getD_none, isSome_none, Bool.false_eq_true, if_false]
  rw [if_pos (by rw [length_nil]; omega)]
  rfl

theorem getLastFilePath_full {file : Bytes} (there : s.files.find s.nLastFile = some file)
    (full : ¬file.length + nSize + 8 ≤ maxFileSize) :
    getLastFilePath (turns + 1) s nSize =
      if s.nLastFile + 1 < 2 ^ 32 then getLastFilePath turns { s with nLastFile := s.nLastFile + 1 } nSize else none := by
  rw [getLastFilePath, there]
  simp only [getD_some, isSome_some, if_true, if_neg full]

theorem room_of_getLastFilePath {nFile : Nat} {after : Series} (found : getLastFilePath turns s nSize = some (nFile, after)) :
    nSize + 8 ≤ maxFileSize := by
  induction turns generalizing s with
  | zero => exact absurd found (by simp [getLastFilePath])
  | succ turns ih =>
    by_cases room : nSize + 8 ≤ maxFileSize
    · exact room
    · rw [getLastFilePath, if_neg (by omega)] at found
      split_ifs at found <;> exact ih found

end LastFile

namespace Log
variable {κ V : Type} {log : Log κ V}

def Frame.ofValue (v : V) (present : (log.save v).2 ≠ []) (small : (log.save v).2.length < 2 ^ 32) : log.Frame where
  nCrc := log.crc24q (log.save v).2
  k := (log.save v).1
  data := (log.save v).2
  value := v
  small := small
  checked := by
    rw [if_neg present]
    exact ⟨rfl, log.load_save v⟩

@[simp] theorem data_ofValue {v : V} {there : (log.save v).2 ≠ []} {small : (log.save v).2.length < 2 ^ 32} :
    (Frame.ofValue v there small).data = (log.save v).2 := rfl

theorem length_bytesOf_append (parts : List log.Frame) (frame : log.Frame) :
    (bytesOf (parts ++ [frame])).length = (bytesOf parts).length + log.nHeadSize + frame.data.length := by
  have single : bytesOf [frame] = frame.encode := append_nil _
  rw [bytesOf_append, length_append, single, length_encode, Nat.add_assoc]

section Write
variable {s : Series} {files : List (List log.Frame)}

/-- The files of a series are lists of records, and the file to append to is the last one or the next. -/
structure Holds (s : Series) (files : List (List log.Frame)) : Prop where
  find : ∀ nFile, s.files.find nFile = image files nFile
  last : s.nLastFile = files.length ∨ s.nLastFile = files.length + 1
  positive : 0 < s.nLastFile

def lastSize (s : Series) : Nat := ((s.files.find s.nLastFile).getD []).length

/-- How a write changes the files: the record comes to the end of the last file, or to a new one. -/
inductive Grown (s : Series) (frame : log.Frame) : List (List log.Frame) → List (List log.Frame) → Nat → Nat → Prop
  | same {front : List (List log.Frame)} {frames : List log.Frame}
      (last : s.nLastFile = front.length + 1) (room : (bytesOf frames).length + frame.data.length + 8 ≤ maxFileSize) :
      Grown s frame (front ++ [frames]) (front ++ [frames ++ [frame]]) (front.length + 1)
        ((bytesOf frames).length + log.nHeadSize)
  | fresh {files : List (List log.Frame)} (room : frame.data.length + 8 ≤ maxFileSize)
      (full : s.nLastFile = files.length + 1 ∨ ¬lastSize s + frame.data.length + 8 ≤ maxFileSize) :
      Grown s frame files (files ++ [[frame]]) (files.length + 1) log.nHeadSize

variable (front : List (List log.Frame))

theorem image_append (more : List (List log.Frame)) {nFile : Nat} (inside : nFile ≤ front.length) :
    image (front ++ more) nFile = image front nFile := by
  cases nFile with
  | zero => rfl
  | succ nFile => rw [image, image, List.getElem?_append_left inside]

theorem image_last (parts : List log.Frame) :
    image (front ++ [parts]) (front.length + 1) = some (bytesOf parts) := by
  rw [image, List.getElem?_append_right (Nat.le_refl _), Nat.sub_self]
  rfl

theorem image_beyond {files : List (List log.Frame)} {nFile : Nat} (beyond : files.length < nFile) : image files nFile = none := by
  cases nFile with
  | zero => rfl
  | succ nFile =>
    rw [image, List.getElem?_eq_none (by omega)]
    rfl

theorem image_update (parts : List log.Frame) {before : List (List log.Frame)}
    (same : ∀ nFile ≤ front.length, image before nFile = image front nFile)
    (length : before.length ≤ front.length + 1) (nFile : Nat) :
    (if nFile = front.length + 1 then some (bytesOf parts) else image before nFile) = image (front ++ [parts]) nFile := by
  by_cases here : nFile = front.length + 1
  · rw [if_pos here, here, image_last]
  · rw [if_neg here]
    by_cases inside : nFile ≤ front.length
    · rw [same nFile inside, image_append front [parts] inside]
    · rw [image_beyond (by omega), image_beyond (by simp; omega)]

section Record
variable (v : V) (there : (log.save v).2 ≠ []) (small : (log.save v).2.length < 2 ^ 32)

variable {nFile : Nat}

theorem write_of_found {file : Bytes} {middle : Series}
    (found : getLastFilePath (s.files.entries.length + 2) s (log.save v).2.length = some (nFile, middle))
    (content : middle.files.find nFile = some file) :
    log.write s v = some (nFile, file.length + log.nHeadSize,
      { middle with files := middle.files.insert nFile (file ++ (Frame.ofValue v there small).encode) }) := by
  have size : (UInt32.ofNat (log.save v).2.length).toNat = (log.save v).2.length :=
    toNat_size (Frame.ofValue v there small)
  unfold write
  dsimp only
  rw [size, found]
  dsimp only
  rw [content, getD_some, length_append, length_head, append_assoc]
  rfl

theorem exists_found_of_write {nOffset : Nat} {after : Series} (small : (log.save v).2.length < 2 ^ 32)
    (wrote : log.write s v = some (nFile, nOffset, after)) :
    ∃ middle, getLastFilePath (s.files.entries.length + 2) s (log.save v).2.length = some (nFile, middle) := by
  have size : (UInt32.ofNat (log.save v).2.length).toNat = (log.save v).2.length := by
    rw [UInt32.toNat_ofNat']
    exact Nat.mod_eq_of_lt small
  unfold write at wrote
  dsimp only at wrote
  split at wrote
  · exact absurd wrote (by simp)
  · rename_i chosen middle found
    obtain ⟨rfl, -⟩ := Prod.mk.inj (Option.some.inj wrote)
    exact ⟨middle, size ▸ found⟩

theorem write_same {front : List (List log.Frame)} {parts : List log.Frame} (holds : Holds s (front ++ [parts]))
    (last : s.nLastFile = front.length + 1) (room : (bytesOf parts).length + (log.save v).2.length + 8 ≤ maxFileSize) :
    ∃ after, log.write s v = some (front.length + 1, (bytesOf parts).length + log.nHeadSize, after) ∧
      Holds after (front ++ [parts ++ [Frame.ofValue v there small]]) := by
  have content : s.files.find s.nLastFile = some (bytesOf parts) := by
    rw [holds.find, last, image_last]
  have path : getLastFilePath (s.files.entries.length + 2) s (log.save v).2.length = some (s.nLastFile, s) := by
    rw [getLastFilePath, content]
    simp only [getD_some, isSome_some, if_true, if_pos room]
  have wrote := write_of_found v there small path content
  rw [last] at wrote
  refine ⟨_, wrote, ?_, Or.inl (by simp), Nat.succ_pos _⟩
  intro nFile
  have joined : bytesOf parts ++ (Frame.ofValue v there small).encode =
      bytesOf (parts ++ [Frame.ofValue v there small]) := by
    rw [bytesOf_append, bytesOf_cons]
    exact congrArg _ (append_nil _).symm
  rw [SortedMap.find_insert, joined, holds.find]
  exact image_update front _ (fun nFile inside => image_append front [parts] inside) (by simp) nFile

theorem write_fresh (holds : Holds s files) {middle : Series}
    (found : getLastFilePath (s.files.entries.length + 2) s (log.save v).2.length = some (files.length + 1, middle))
    (begun : middle.files = s.files.insert (files.length + 1) []) (last : middle.nLastFile = files.length + 1) :
    ∃ after, log.write s v = some (files.length + 1, log.nHeadSize, after) ∧
      Holds after (files ++ [[Frame.ofValue v there small]]) := by
  have content : middle.files.find (files.length + 1) = some [] := by
    rw [begun, SortedMap.find_insert, if_pos rfl]
  have wrote := write_of_found v there small found content
  rw [length_nil, Nat.zero_add, nil_append] at wrote
  refine ⟨_, wrote, ?_, Or.inl (by simpa using last), by rw [last]; omega⟩
  intro nFile
  have single : (Frame.ofValue v there small).encode = bytesOf [Frame.ofValue v there small] :=
    (append_nil _).symm
  rw [← image_update files _ (fun _ _ => rfl) (Nat.le_succ _), SortedMap.find_insert, begun, SortedMap.find_insert,
    single, holds.find]
  split_ifs <;> rfl

theorem write_spec (holds : Holds s files) {nOffset : Nat} {after : Series}
    (wrote : log.write s v = some (nFile, nOffset, after)) :
    ∃ grown, Grown s (Frame.ofValue v there small) files grown nFile nOffset ∧ Holds after grown := by
  obtain ⟨chosen, path⟩ := exists_found_of_write v small wrote
  have room := room_of_getLastFilePath path
  rcases holds.last with atLast | next
  · -- the last file exists: it has room or a new one is begun
    obtain ⟨front, parts, rfl⟩ : ∃ front parts, files = front ++ [parts] := by
      have positive := holds.positive
      rcases eq_nil_or_concat' files with rfl | found
      · rw [atLast] at positive
        exact absurd positive (by simp)
      · exact found
    have last : s.nLastFile = front.length + 1 := by simpa using atLast
    have content : s.files.find s.nLastFile = some (bytesOf parts) := by
      rw [holds.find, last, image_last]
    by_cases fits : (bytesOf parts).length + (log.save v).2.length + 8 ≤ maxFileSize
    · obtain ⟨_, writes, held⟩ := write_same v there small holds last fits
      cases writes.symm.trans wrote
      exact ⟨_, .same last fits, held⟩
    · rw [getLastFilePath_full content fits] at path
      split_ifs at path with more
      have absent : s.files.find (s.nLastFile + 1) = none := by
        rw [holds.find, image_beyond (by omega)]
      have found : getLastFilePath (s.files.entries.length + 2) s (log.save v).2.length =
          some (s.nLastFile + 1, ⟨s.files.insert (s.nLastFile + 1) [], s.nLastFile + 1⟩) := by
        rw [getLastFilePath_full content fits, if_pos more]
        exact getLastFilePath_absent absent room
      rw [atLast] at found
      obtain ⟨_, writes, held⟩ := write_fresh v there small holds found rfl rfl
      cases writes.symm.trans wrote
      have full : ¬lastSize s + (log.save v).2.length + 8 ≤ maxFileSize := by
        rw [lastSize, content]
        exact fits
      exact ⟨_, .fresh room (Or.inr full), held⟩
  · have absent : s.files.find s.nLastFile = none := by rw [holds.find, image_beyond (by omega)]
    have found : getLastFilePath (s.files.entries.length + 2) s (log.save v).2.length =
        some (s.nLastFile, ⟨s.files.insert s.nLastFile [], s.nLastFile⟩) := getLastFilePath_absent absent room
    rw [next] at found
    obtain ⟨_, writes, held⟩ := write_fresh v there small holds found rfl rfl
    cases writes.symm.trans wrote
    exact ⟨_, .fresh room (Or.inl next), held⟩

end Record

end Write

section Run
variable {s : Series} {files : List (List log.Frame)}

/-- The file that takes a record does not become larger than a walk accepts. -/
def Fits (log : Log κ V) (s : Series) (v : V) : Prop :=
  (if lastSize s + (log.save v).2.length + 8 ≤ maxFileSize then lastSize s else 0) + log.nHeadSize +
    (log.save v).2.length ≤ maxFileSize

variable {nFile nOffset : Nat} {grown : List (List log.Frame)}

theorem visits_grown {frame : log.Frame} (growth : Grown s frame files grown nFile nOffset) :
    visits 1 grown = visits 1 files ++ [(frame.value, nFile, nOffset)] := by
  cases growth with
  | @same front parts last room =>
    rw [visits_append, visits_append, append_assoc]
    congr 1
    unfold visitsFrom
    rw [Frames.placed_append, map_append, Nat.zero_add, Nat.add_comm 1]
    rfl
  | fresh room full =>
    rw [visits_append, Nat.add_comm 1]
    show visits 1 files ++ [(frame.value, files.length + 1, 0 + log.nHeadSize)] = _
    rw [Nat.zero_add]

theorem bounded_append {front : List (List log.Frame)} {parts : List log.Frame} :
    Bounded (front ++ [parts]) ↔ Bounded front ∧ (bytesOf parts).length ≤ maxFileSize := by
  rw [Bounded, forall_mem_append, forall_mem_singleton]
  rfl

theorem bounded_grown (holds : Holds s files) {v : V} {there : (log.save v).2 ≠ []}
    {small : (log.save v).2.length < 2 ^ 32}
    (growth : Grown s (Frame.ofValue v there small) files grown nFile nOffset) :
    Bounded grown ↔ Bounded files ∧ Fits log s v := by
  cases growth with
  | @same front parts last room =>
    have size : lastSize s = (bytesOf parts).length := by
      rw [lastSize, holds.find, last, image_last]
      rfl
    rw [data_ofValue] at room
    have fits : Fits log s v ↔ (bytesOf parts).length + log.nHeadSize + (log.save v).2.length ≤ maxFileSize := by
      unfold Fits
      rw [size, if_pos room]
    rw [bounded_append, bounded_append, length_bytesOf_append, data_ofValue, fits, and_assoc]
    constructor
    · rintro ⟨all, enough⟩
      exact ⟨all, by omega, enough⟩
    · rintro ⟨all, -, enough⟩
      exact ⟨all, enough⟩
  | fresh room full =>
    have total : (bytesOf [Frame.ofValue v there small]).length = log.nHeadSize + (log.save v).2.length := by
      rw [← nil_append [_], length_bytesOf_append, data_ofValue]
      exact congrArg (· + _) (Nat.zero_add _)
    rw [data_ofValue] at full
    have fits : Fits log s v ↔ log.nHeadSize + (log.save v).2.length ≤ maxFileSize := by
      unfold Fits
      rcases full with next | full
      · have nothing : lastSize s = 0 := by
          rw [lastSize, holds.find, image_beyond (by omega)]
          rfl
        rw [nothing, ite_self, Nat.zero_add]
      · rw [if_neg full, Nat.zero_add]
    rw [bounded_append, total, fits]

/-- Writes one after the other, with the records and where they were written. -/
def writeAll (log : Log κ V) : Series → List V → Option (List (V × Nat × Nat) × Series)
  | s, [] => some ([], s)
  | s, v :: rest => do
    let (nFile, nOffset, s) ← log.write s v
    let (written, s) ← writeAll log s rest
    some ((v, nFile, nOffset) :: written, s)

def AllFit (log : Log κ V) : Series → List V → Prop
  | _, [] => True
  | s, v :: rest => Fits log s v ∧ ∀ nFile nOffset after, log.write s v = some (nFile, nOffset, after) → AllFit log after rest

def Writable (log : Log κ V) (values : List V) : Prop :=
  ∀ v ∈ values, (log.save v).2 ≠ [] ∧ (log.save v).2.length < maxFileSize

def Full (files : List (List log.Frame)) : Prop := ∀ frames ∈ files, ∀ frame ∈ frames, frame.data ≠ []

theorem full_grown {v : V} {there : (log.save v).2 ≠ []} {small : (log.save v).2.length < 2 ^ 32}
    (growth : Grown s (Frame.ofValue v there small) files grown nFile nOffset) (full : Full files) : Full grown := by
  cases growth with
  | @same front parts last room =>
    rw [Full, forall_mem_append, forall_mem_singleton] at full ⊢
    refine ⟨full.1, forall_mem_append.2 ⟨full.2, ?_⟩⟩
    rwa [forall_mem_singleton]
  | fresh room _ =>
    rw [Full, forall_mem_append, forall_mem_singleton, forall_mem_singleton]
    exact ⟨full, there⟩

/-- A run of writes adds its records in order, and the files stay in bounds exactly if every record fits. -/
theorem writeAll_spec {values : List V} (writable : Writable log values) (holds : Holds s files)
    {written : List (V × Nat × Nat)} {after : Series} (ran : writeAll log s values = some (written, after)) :
    ∃ grown : List (List log.Frame), Holds after grown ∧ visits 1 grown = visits 1 files ++ written ∧
      (Bounded grown ↔ Bounded files ∧ AllFit log s values) ∧ (Full files → Full grown) := by
  induction values generalizing s files written with
  | nil =>
    cases ran
    exact ⟨files, holds, by simp, by simp [AllFit], id⟩
  | cons v rest ih =>
    simp only [writeAll, bind_eq_bind, bind_eq_some_iff] at ran
    obtain ⟨⟨nFile, nOffset, middle⟩, wrote, ⟨more, last⟩, later, made⟩ := ran
    obtain ⟨rfl, rfl⟩ := Prod.mk.inj (Option.some.inj made)
    obtain ⟨there, size⟩ := writable v mem_cons_self
    have small : (log.save v).2.length < 2 ^ 32 := Nat.lt_trans size (by decide)
    obtain ⟨grownFirst, growth, held⟩ := write_spec v there small holds wrote
    obtain ⟨grown, heldAll, visited, bounded, full⟩ :=
      ih (fun v mem => writable v (mem_cons_of_mem _ mem)) held later
    refine ⟨grown, heldAll, ?_, ?_, fun before => full (full_grown growth before)⟩
    · rw [visited, visits_grown growth, append_assoc]
      rfl
    · have fit : AllFit log s (v :: rest) ↔ Fits log s v ∧ AllFit log middle rest := by
        rw [AllFit]
        apply and_congr_right
        intro _
        constructor
        · intro all
          exact all _ _ _ wrote
        · intro fits nFile nOffset after other
          cases wrote.symm.trans other
          exact fits
      rw [bounded, bounded_grown holds growth, fit, and_assoc]

end Run

theorem holds_empty : Holds emptySeries ([] : List (List log.Frame)) where
  find nFile := by
    cases nFile <;> rfl
  last := Or.inr rfl
  positive := Nat.one_pos

theorem bounded_iff {s : Series} {files : List (List log.Frame)} (holds : Holds s files) :
    (∀ nFile file, s.files.find nFile = some file → file.length ≤ maxFileSize) ↔ Bounded files := by
  constructor
  · intro all parts mem
    obtain ⟨index, inside, rfl⟩ := getElem_of_mem mem
    apply all (index + 1)
    rw [holds.find, image, List.getElem?_eq_getElem inside]
    rfl
  · intro bounded nFile file found
    rw [holds.find] at found
    cases nFile with
    | zero => exact absurd found (by simp [image])
    | succ index =>
      rw [image, map_eq_some_iff] at found
      obtain ⟨parts, inside, rfl⟩ := found
      exact bounded parts (mem_of_getElem? inside)

/-- After a run of writes to an empty directory no file is too large, a walk meets exactly the written records at the
places that were returned and no damage, and all are read there, exactly if every record fits at its turn. -/
theorem append_log_round_trip_iff (log : Log κ V) (values : List V) (writable : Writable log values)
    (written : List (V × Nat × Nat)) (after : Series) (ran : writeAll log emptySeries values = some (written, after)) :
    ((∀ nFile file, after.files.find nFile = some file → file.length ≤ maxFileSize) ∧
      (∀ fRepairFile, (log.walkThrough recorder fRepairFile after []).fRet = true ∧
        (log.walkThrough recorder fRepairFile after []).damaged = false ∧
        (log.walkThrough recorder fRepairFile after []).walked = written ∧
        (log.walkThrough recorder fRepairFile after []).series = after) ∧
      ∀ entry ∈ written, log.read after entry.2.1 entry.2.2 = some entry.1) ↔
    AllFit log emptySeries values := by
  obtain ⟨grown, holds, visited, bounded, full⟩ := writeAll_spec writable holds_empty ran
  have start : Bounded ([] : List (List log.Frame)) := fun frames member => absurd member not_mem_nil
  rw [visits, nil_append] at visited
  constructor
  · rintro ⟨sizes, -, -⟩
    exact (bounded.1 ((bounded_iff holds).1 sizes)).2
  · intro fit
    have inBounds := bounded.2 ⟨start, fit⟩
    refine ⟨(bounded_iff holds).2 inBounds, ?_, ?_⟩
    · intro fRepairFile
      rw [walkThrough_shown fRepairFile (fun nFile _ => holds.find nFile) inBounds]
      exact ⟨rfl, rfl, visited, rfl⟩
    · intro entry member
      rw [← visited] at member
      obtain ⟨frames, inFiles, frame, inFrames, value, read⟩ :=
        exists_read_of_mem_visits inBounds (fun nFile _ => holds.find nFile) member
      have hasData := full (fun frames member => absurd member not_mem_nil) frames inFiles frame inFrames
      rw [read, if_neg hasData, value]

/-- A first record that leaves 8 bytes of a file is written, and the walk takes its file for damaged. -/
theorem oversized {log : Log κ V} {v : V} (size : (log.save v).2.length + 8 = maxFileSize) :
    ∃ after, writeAll log emptySeries [v] = some ([(v, 1, log.nHeadSize)], after) ∧
      (∃ file, after.files.find 1 = some file ∧ maxFileSize < file.length) ∧
      ∀ fRepairFile, (log.walkThrough recorder fRepairFile after []).damaged = true ∧
        (log.walkThrough recorder fRepairFile after []).walked = [] := by
  have limit : maxFileSize < 2 ^ 32 ∧ 8 < maxFileSize := by decide
  have there : (log.save v).2 ≠ [] := by
    intro empty
    rw [empty, length_nil] at size
    omega
  have small : (log.save v).2.length < 2 ^ 32 := by omega
  have empty : Holds emptySeries ([] : List (List log.Frame)) := holds_empty
  obtain ⟨after, wrote, holds⟩ :=
    write_fresh v there small empty (getLastFilePath_absent rfl (by omega)) rfl rfl
  have found : after.files.find 1 = some (bytesOf [Frame.ofValue v there small]) := holds.find 1
  have large : maxFileSize < (bytesOf [Frame.ofValue v there small]).length := by
    have head : 12 ≤ log.nHeadSize := Nat.le_add_right 12 _
    rw [← nil_append [_], length_bytesOf_append, data_ofValue]
    omega
  refine ⟨after, ?_, ⟨_, found, large⟩, ?_⟩
  · simp only [writeAll, wrote, bind_eq_bind, bind_some]
    rfl
  · intro fRepairFile
    have walked : log.walkThrough recorder fRepairFile after [] =
        ⟨true, 1, 0, [], if fRepairFile then repairFile after 1 0 else after, true⟩ := by
      rw [walkThrough, walkFiles, found]
      dsimp only
      rw [walkFile, if_pos large]
    rw [walked]
    exact ⟨rfl, rfl⟩

end Log

namespace Sample

theorem length_zeros (count : Nat) (fits : count ≤ maxSize (some 1)) (below : count < 2 ^ 64) :
    (bytes.save ⟨List.replicate count 0, by rwa [length_replicate]⟩).length = varIntSize count + 1 * count := by
  have data : ((List.replicate count (0 : UInt8)).flatMap byte.save).length = 1 * (List.replicate count (0 : UInt8)).length :=
    length_flatMap_save (fun _ => rfl) _
  show (writeVarInt (List.replicate count (0 : UInt8)).length ++ _).length = _
  rw [length_append, data, length_replicate, length_writeVarInt below]

theorem exists_large : ∃ v : ByteVec, (bytes.save v).length + 8 = maxFileSize := by
  have length := length_zeros 0x7EFFFFF3 (by decide) (by decide)
  refine ⟨_, (congrArg (· + 8) length).trans ?_⟩
  decide

/-- Both logs, whatever the checksum: the file grows by the header over its limit, and nothing is walked through. -/
theorem oversized_record : ∃ v : ByteVec, (bytes.save v).length + 8 = maxFileSize ∧ ∀ crc24q : Bytes → UInt32,
      (∃ after, Log.writeAll (cached crc24q bytes bytes_sound default) emptySeries [v] = some ([(v, 1, 12)], after) ∧
        (∃ file, after.files.find 1 = some file ∧ maxFileSize < file.length) ∧
        ∀ fRepairFile,
          ((cached crc24q bytes bytes_sound default).walkThrough Log.recorder fRepairFile after []).damaged = true ∧
          ((cached crc24q bytes bytes_sound default).walkThrough Log.recorder fRepairFile after []).walked = []) ∧
      ∃ after, Log.writeAll (snapshot crc24q) emptySeries [(1, bytes.save v)] =
          some ([((1, bytes.save v), 1, 13)], after) ∧
        (∃ file, after.files.find 1 = some file ∧ maxFileSize < file.length) ∧
        ∀ fRepairFile, ((snapshot crc24q).walkThrough Log.recorder fRepairFile after []).damaged = true ∧
          ((snapshot crc24q).walkThrough Log.recorder fRepairFile after []).walked = [] := by
  obtain ⟨v, size⟩ := exists_large
  exact ⟨v, size, fun crc24q => ⟨Log.oversized size,
    Log.oversized size⟩⟩

def summed : Log UInt8 (UInt8 × Bytes) := snapshot fun data => data.foldl (fun sum byte => sum + byte.toUInt32) 0

theorem two_records_round_trip :
    ∃ written after, Log.writeAll summed emptySeries [(3, [1, 2]), (4, [5])] = some (written, after) ∧
      (((∀ nFile file, after.files.find nFile = some file → file.length ≤ maxFileSize) ∧
        (∀ fRepairFile, (summed.walkThrough Log.recorder fRepairFile after []).fRet = true ∧
          (summed.walkThrough Log.recorder fRepairFile after []).damaged = false ∧
          (summed.walkThrough Log.recorder fRepairFile after []).walked = written ∧
          (summed.walkThrough Log.recorder fRepairFile after []).series = after) ∧
        ∀ entry ∈ written, summed.read after entry.2.1 entry.2.2 = some entry.1) ↔
      Log.AllFit summed emptySeries [(3, [1, 2]), (4, [5])]) := by
  have writable : Log.Writable summed [(3, [1, 2]), (4, [5])] := by
    intro v member
    simp only [mem_cons, not_mem_nil, or_false] at member
    rcases member with rfl | rfl <;> exact ⟨by decide, by decide⟩
  have ran : (Log.writeAll summed emptySeries [(3, [1, 2]), (4, [5])]).isSome := by decide +kernel
  obtain ⟨⟨written, after⟩, ran⟩ := isSome_iff_exists.1 ran
  exact ⟨written, after, ran, Log.append_log_round_trip_iff summed _ writable written after ran⟩

end Sample

end HashAhead.Storage

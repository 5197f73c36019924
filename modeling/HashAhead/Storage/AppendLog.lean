import HashAhead.Storage.TimeSeries

/-! The log as lists of records. The files of a series hold records that were framed by a header each; a write adds one
record to the last file or starts a new file with it, and a walk meets all records in the order of the files. -/

namespace HashAhead.Storage
open Foundation Trie HashAhead.Stream List Option

namespace Log
variable {κ V : Type}

/-- A record in a file: what the header says, the data, and the value that a walk makes of them. The checksum of a
record without data is not looked at. -/
structure Frame (log : Log κ V) where
  nCrc : UInt32
  k : κ
  data : Bytes
  value : V
  small : data.length < 2 ^ 32
  checked : if data = [] then value = log.blank k else nCrc = log.crc24q data ∧ log.load k data = some value

variable {log : Log κ V}

def Frame.header (frame : log.Frame) : UInt32 × UInt32 × UInt32 × κ :=
  (log.nMagicNum, UInt32.ofNat frame.data.length, frame.nCrc, frame.k)

def Frame.encode (frame : log.Frame) : Bytes := log.head.save frame.header ++ frame.data

def bytesOf (frames : List log.Frame) : Bytes := frames.flatMap Frame.encode

section Header

theorem head_sound : log.head.Sound :=
  pair_sound uint32_sound (pair_sound uint32_sound (pair_sound uint32_sound log.extra_sound))

theorem head_tight : log.head.Tight :=
  pair_tight uint32_tight (pair_tight uint32_tight (pair_tight uint32_tight log.extra_tight))

theorem length_uint32 (value : UInt32) : (uint32.save value).length = 4 := length_littleEndian _ _

theorem length_head (header : UInt32 × UInt32 × UInt32 × κ) : (log.head.save header).length = log.nHeadSize := by
  show (uint32.save header.1 ++ (uint32.save header.2.1 ++ (uint32.save header.2.2.1 ++
    log.extra.save header.2.2.2))).length = 12 + log.nExtraSize
  rw [length_append, length_append, length_append, length_uint32, length_uint32, length_uint32,
    log.length_extra]
  omega

theorem nHeadSize_pos : 0 < log.nHeadSize := by
  unfold nHeadSize
  omega

variable (frame : log.Frame)

theorem length_encode : frame.encode.length = log.nHeadSize + frame.data.length := by
  rw [Frame.encode, length_append, length_head]

theorem toNat_size : (UInt32.ofNat frame.data.length).toNat = frame.data.length := by
  rw [UInt32.toNat_ofNat']
  exact Nat.mod_eq_of_lt frame.small

theorem size_eq_zero_iff : UInt32.ofNat frame.data.length = 0 ↔ frame.data = [] := by
  rw [← UInt32.toNat_inj, toNat_size]
  exact length_eq_zero_iff

end Header

section Turn
variable {before after : Bytes}

variable (frame : log.Frame)

theorem bytesOf_cons (frames : List log.Frame) :
    bytesOf (frame :: frames) = frame.encode ++ bytesOf frames := rfl

theorem bytesOf_append (parts more : List log.Frame) : bytesOf (parts ++ more) = bytesOf parts ++ bytesOf more :=
  flatMap_append

theorem load_encode (after : Bytes) :
    log.head.load.result (frame.encode ++ after) = some (frame.header, frame.data ++ after) := by
  rw [Frame.encode, append_assoc, head_sound.load_save]

theorem turn_encode (bounded : (before ++ (frame.encode ++ after)).length ≤ maxFileSize) :
    log.turn (before ++ (frame.encode ++ after)) before.length =
      some (frame.value, before.length + frame.encode.length) := by
  have total : (before ++ (frame.encode ++ after)).length =
      before.length + (log.nHeadSize + frame.data.length) + after.length := by
    rw [length_append, length_append, length_encode]
    omega
  have limit : maxFileSize < 2 ^ 32 := by decide
  have ends : (before.length + log.nHeadSize + frame.data.length) % 2 ^ 32 =
      before.length + log.nHeadSize + frame.data.length := Nat.mod_eq_of_lt (by omega)
  have checked := frame.checked
  rw [turn, if_neg (by omega), drop_left, load_encode]
  simp only [Frame.header, bind_eq_bind, bind_some, ne_eq, not_true_eq_false, if_false, toNat_size, ends]
  rw [if_neg (by omega), length_encode]
  by_cases blank : frame.data = []
  · rw [if_pos blank] at checked
    rw [if_pos ((size_eq_zero_iff frame).2 blank), checked, blank]
    rfl
  · rw [if_neg blank] at checked
    rw [if_neg (fun zero => blank ((size_eq_zero_iff frame).1 zero)), takeBytes_append rfl]
    simp only [bind_some, checked.1, checked.2, not_true_eq_false, if_false, Nat.add_assoc]

theorem exists_frame_of_turn {rest : Bytes} {v : V} {next : Nat}
    (turned : log.turn (before ++ rest) before.length = some (v, next)) :
    ∃ (frame : log.Frame) (after : Bytes), rest = frame.encode ++ after ∧ v = frame.value ∧
      next = before.length + frame.encode.length := by
  unfold turn at turned
  split at turned
  · exact absurd turned (by simp)
  · rw [drop_left, bind_eq_bind, bind_eq_some_iff] at turned
    obtain ⟨⟨⟨nMagic, nSize, nCrc, k⟩, left⟩, loaded, turned⟩ := turned
    have split := head_tight _ _ _ loaded
    dsimp only at turned
    split_ifs at turned with magic ends zero
    · obtain ⟨rfl, rfl⟩ := Prod.mk.inj (Option.some.inj turned)
      rw [not_not] at magic
      refine ⟨⟨nCrc, k, [], log.blank k, by decide, by rw [if_pos rfl]⟩, left, ?_, rfl, ?_⟩
      · rw [split, Frame.encode, Frame.header, magic, zero, append_nil]
        rfl
      · rw [length_encode]
        rfl
    · rw [bind_eq_bind, bind_eq_some_iff] at turned
      obtain ⟨⟨data, after⟩, taken, turned⟩ := turned
      obtain ⟨rfl, length⟩ := takeBytes_eq_some taken
      dsimp only at turned
      split_ifs at turned with crc
      rw [bind_eq_bind, bind_eq_some_iff] at turned
      obtain ⟨value, read, turned⟩ := turned
      obtain ⟨rfl, rfl⟩ := Prod.mk.inj (Option.some.inj turned)
      rw [not_not] at magic crc
      have present : data ≠ [] := by
        rintro rfl
        exact zero (UInt32.toNat_inj.1 length.symm)
      have small : data.length < 2 ^ 32 := by
        rw [length]
        exact nSize.toNat_lt
      refine ⟨⟨nCrc, k, data, value, small, by rw [if_neg present]; exact ⟨crc, read⟩⟩, after, ?_, rfl, ?_⟩
      · rw [split, Frame.encode, Frame.header, magic, length, UInt32.ofNat_toNat, append_assoc]
      · rw [length_encode, ← length, Nat.add_assoc]

end Turn

section Walk

def recorder (walked : List (V × Nat × Nat)) (v : V) (nFile nOffset : Nat) : List (V × Nat × Nat) × Bool :=
  (walked ++ [(v, nFile, nOffset)], true)

def visit (nFile : Nat) (placement : log.Frame × Nat) : V × Nat × Nat :=
  (placement.1.value, nFile, placement.2 + log.nHeadSize)

def visitsFrom (nFile start : Nat) (frames : List log.Frame) : List (V × Nat × Nat) :=
  (Frames.placed Frame.encode start frames).map (visit nFile)

variable {nFile : Nat}

theorem visitsFrom_cons (start : Nat) (frame : log.Frame) (frames : List log.Frame) :
    visitsFrom nFile start (frame :: frames) =
      (frame.value, nFile, start + log.nHeadSize) :: visitsFrom nFile (start + frame.encode.length) frames := rfl

theorem walkRecords_frames {turns : Nat} (parts : List log.Frame) (before : Bytes) (walked : List (V × Nat × Nat))
    (enough : parts.length ≤ turns) (bounded : (before ++ bytesOf parts).length ≤ maxFileSize) :
    log.walkRecords recorder (before ++ bytesOf parts) nFile turns walked before.length =
      ⟨walked ++ visitsFrom nFile before.length parts, (before ++ bytesOf parts).length, .finished⟩ := by
  induction parts generalizing turns before walked with
  | nil =>
    have whole : before ++ bytesOf ([] : List log.Frame) = before := append_nil before
    rw [whole]
    cases turns with
    | zero => simp [walkRecords, visitsFrom, Frames.placed]
    | succ turns => simp [walkRecords, visitsFrom, Frames.placed]
  | cons frame parts ih =>
    obtain ⟨turns, rfl⟩ : ∃ rest, turns = rest + 1 := ⟨turns - 1, by simp at enough; omega⟩
    have more : before.length < (before ++ bytesOf (frame :: parts)).length := by
      have head : 0 < log.nHeadSize := nHeadSize_pos
      rw [bytesOf_cons, length_append, length_append, length_encode]
      omega
    have next := @ih turns (before ++ frame.encode)
      (walked ++ [(frame.value, nFile, before.length + log.nHeadSize)]) (by simpa using enough)
      (by rwa [append_assoc, ← bytesOf_cons])
    rw [append_assoc, ← bytesOf_cons, length_append] at next
    rw [walkRecords, if_pos more]
    rw [bytesOf_cons] at bounded ⊢
    rw [turn_encode frame bounded]
    simp only [recorder]
    rw [← bytesOf_cons, next, visitsFrom_cons, append_assoc, singleton_append]

/-- Any file is a sequence of records up to where the walk comes, and damaged if something is left there. -/
theorem walkRecords_any {turns : Nat} (nFile : Nat) (rest before : Bytes) (walked : List (V × Nat × Nat))
    (enough : rest.length ≤ turns) :
    ∃ (parts : List log.Frame) (tail : Bytes), rest = bytesOf parts ++ tail ∧
      log.walkRecords recorder (before ++ rest) nFile turns walked before.length =
        ⟨walked ++ visitsFrom nFile before.length parts, (before ++ bytesOf parts).length,
          if tail = [] then .finished else .damaged⟩ := by
  induction turns generalizing rest before walked with
  | zero =>
    have empty : rest = [] := length_eq_zero_iff.1 (Nat.le_zero.1 enough)
    exact ⟨[], [], by simp [empty, bytesOf], by simp [walkRecords, visitsFrom, Frames.placed, bytesOf]⟩
  | succ turns ih =>
    rw [walkRecords]
    by_cases more : before.length < (before ++ rest).length
    · rw [if_pos more]
      cases turned : log.turn (before ++ rest) before.length with
      | none =>
        have left : rest ≠ [] := by
          rintro rfl
          simp at more
        exact ⟨[], rest, rfl, by simp [visitsFrom, Frames.placed, bytesOf, left]⟩
      | some found =>
        obtain ⟨v, nextOffset⟩ := found
        obtain ⟨frame, after, rfl, value, next⟩ := exists_frame_of_turn turned
        have shorter : after.length ≤ turns := by
          have head : 0 < log.nHeadSize := nHeadSize_pos
          rw [length_append, length_encode] at enough
          omega
        obtain ⟨parts, tail, rfl, onward⟩ := ih after (before ++ frame.encode)
          (walked ++ [(frame.value, nFile, before.length + log.nHeadSize)]) shorter
        refine ⟨frame :: parts, tail, by rw [bytesOf_cons, append_assoc], ?_⟩
        rw [append_assoc, length_append] at onward
        simp only [recorder]
        rw [value, next, onward, visitsFrom_cons, bytesOf_cons, append_assoc, append_assoc,
          singleton_append]
    · rw [if_neg more]
      have empty : rest = [] := by
        rw [length_append] at more
        exact length_eq_zero_iff.1 (by omega)
      exact ⟨[], [], by simp [empty, bytesOf], by simp [visitsFrom, Frames.placed, bytesOf]⟩

end Walk

section Series

def image (files : List (List log.Frame)) : Nat → Option Bytes
  | 0 => none
  | nFile + 1 => (files[nFile]?).map bytesOf

def Bounded (files : List (List log.Frame)) : Prop := ∀ frames ∈ files, (bytesOf frames).length ≤ maxFileSize

def visits : Nat → List (List log.Frame) → List (V × Nat × Nat)
  | _, [] => []
  | nFile, frames :: files => visitsFrom nFile 0 frames ++ visits (nFile + 1) files

theorem visits_append (nFile : Nat) (files : List (List log.Frame)) (frames : List log.Frame) :
    visits nFile (files ++ [frames]) = visits nFile files ++ visitsFrom (nFile + files.length) 0 frames := by
  induction files generalizing nFile with
  | nil => simp [visits]
  | cons first files ih =>
    rw [cons_append, visits, visits, ih, append_assoc, length_cons, Nat.add_assoc, Nat.add_comm 1]

theorem length_le_bytesOf (parts : List log.Frame) : parts.length ≤ (bytesOf parts).length := by
  induction parts with
  | nil => exact Nat.zero_le _
  | cons frame parts ih =>
    have head : 0 < log.nHeadSize := nHeadSize_pos
    rw [bytesOf_cons, length_append, length_encode, length_cons]
    omega

variable {s : Series}

theorem walkFiles_shown (repair : Bool) (turns : Nat) (files rest : List (List log.Frame))
    (shown : ∀ nFile ≤ files.length + rest.length + 1, s.files.find nFile = image (files ++ rest) nFile)
    (bounded : Bounded rest) (enough : rest.length < turns) (lastFile nOffset : Nat) (walked : List (V × Nat × Nat)) :
    log.walkFiles recorder repair s turns (files.length + 1) lastFile nOffset walked =
      ⟨true, if rest = [] then lastFile else files.length + rest.length,
        (rest.getLast?.map fun parts => (bytesOf parts).length).getD nOffset,
        walked ++ visits (files.length + 1) rest, s, false⟩ := by
  induction rest generalizing files turns lastFile nOffset walked with
  | nil =>
    obtain ⟨turns, rfl⟩ : ∃ rest, turns = rest + 1 := ⟨turns - 1, by simp at enough; omega⟩
    have absent : s.files.find (files.length + 1) = none := by
      rw [shown _ (by simp), image, append_nil, List.getElem?_eq_none (Nat.le_refl _)]
      rfl
    rw [walkFiles, absent]
    simp [visits]
  | cons parts rest ih =>
    obtain ⟨turns, rfl⟩ : ∃ rest, turns = rest + 1 := ⟨turns - 1, by simp at enough; omega⟩
    have present : s.files.find (files.length + 1) = some (bytesOf parts) := by
      rw [shown _ (by simp), image, List.getElem?_append_right (Nat.le_refl _), Nat.sub_self]
      rfl
    have next := ih turns (files ++ [parts]) (by
        intro nFile inside
        rw [append_assoc, singleton_append]
        apply shown
        rw [length_append, length_singleton] at inside
        rw [length_cons]
        omega)
      (fun other mem => bounded other (mem_cons_of_mem _ mem)) (by simpa using enough) (files.length + 1)
      (bytesOf parts).length (walked ++ visitsFrom (files.length + 1) 0 parts)
    rw [length_append, length_singleton] at next
    rw [walkFiles, present]
    dsimp only
    have small := bounded parts mem_cons_self
    have walk : log.walkFile recorder (bytesOf parts) (files.length + 1) walked =
        ⟨walked ++ visitsFrom (files.length + 1) 0 parts, (bytesOf parts).length, .finished⟩ :=
      (if_neg (by omega)).trans (walkRecords_frames parts [] walked (length_le_bytesOf parts) small)
    rw [walk]
    dsimp only
    rw [next, visits, append_assoc]
    cases rest with
    | nil => simp
    | cons other rest =>
      simp only [reduceCtorEq, if_false, length_cons, List.getLast?_cons_cons]
      congr 1
      omega

theorem count_le_entries {count : Nat} (present : ∀ nFile, 1 ≤ nFile → nFile ≤ count → (s.files.find nFile).isSome) :
    count ≤ s.files.entries.length := by
  have keys : ∀ nFile ∈ (List.range count).map (· + 1), nFile ∈ s.files.entries.map Prod.fst := by
    intro nFile mem
    obtain ⟨index, inside, rfl⟩ := List.mem_map.1 mem
    rw [mem_range] at inside
    obtain ⟨file, found⟩ := isSome_iff_exists.1 (present (index + 1) (by omega) (by omega))
    exact List.mem_map.2 ⟨_, (s.files.find_eq_some_iff _ _).1 found, rfl⟩
  have distinct : ((List.range count).map (· + 1)).Nodup :=
    nodup_range.map fun a b same => Nat.succ.inj same
  have shorter := (subperm_of_subset distinct keys).length_le
  simpa using shorter

theorem walkThrough_shown (repair : Bool) {files : List (List log.Frame)}
    (shown : ∀ nFile ≤ files.length + 1, s.files.find nFile = image files nFile) (bounded : Bounded files) :
    log.walkThrough recorder repair s [] =
      ⟨true, files.length, (files.getLast?.map fun parts => (bytesOf parts).length).getD 0, visits 1 files, s, false⟩ := by
  have few : files.length ≤ s.files.entries.length := by
    apply count_le_entries
    intro nFile first last
    obtain ⟨index, rfl⟩ : ∃ index, nFile = index + 1 := ⟨nFile - 1, by omega⟩
    rw [shown _ (by omega), image, List.getElem?_eq_getElem (by omega)]
    rfl
  have walked := walkFiles_shown repair (s.files.entries.length + 1) [] files
    (by simpa using shown) bounded (Nat.lt_succ_of_le few) 0 0 []
  rw [length_nil, Nat.zero_add, Nat.zero_add, nil_append] at walked
  rw [walkThrough, walked]
  cases files <;> rfl

end Series

section Read
variable {s : Series}

theorem read_encode {nFile : Nat} {before after : Bytes} {frame : log.Frame}
    (found : s.files.find nFile = some (before ++ (frame.encode ++ after))) (bounded : frame.data.length < maxFileSize) :
    log.read s nFile (before.length + log.nHeadSize) = if frame.data = [] then none else some frame.value := by
  have checked := frame.checked
  rw [read, found]
  simp only [bind_eq_bind, bind_some, Nat.add_sub_cancel, drop_left, load_encode, Frame.header,
    toNat_size, size_eq_zero_iff, ne_eq, not_true_eq_false, false_or, ge_iff_le, Nat.not_le.2 bounded, or_false]
  by_cases blank : frame.data = []
  · rw [if_pos blank, if_pos blank]
  · rw [if_neg blank] at checked
    rw [if_neg blank, if_neg blank, takeBytes_append rfl]
    simp only [bind_some, checked.1, checked.2, not_true_eq_false, if_false]

section
variable {files : List (List log.Frame)} {entry : V × Nat × Nat}

theorem exists_frame_of_mem_visits {start : Nat} (mem : entry ∈ visits start files) :
    ∃ (index : Nat) (before : List log.Frame) (frame : log.Frame) (after : List log.Frame),
      files[index]? = some (before ++ frame :: after) ∧
      entry = (frame.value, start + index, (bytesOf before).length + log.nHeadSize) := by
  induction files generalizing start with
  | nil => exact absurd mem not_mem_nil
  | cons parts files ih =>
    rw [visits, mem_append] at mem
    rcases mem with here | later
    · obtain ⟨⟨frame, offset⟩, placement, rfl⟩ := List.mem_map.1 here
      obtain ⟨before, after, rfl, rfl⟩ := Frames.split_of_mem_placed placement
      exact ⟨0, before, frame, after, rfl, by rw [visit, Nat.zero_add]; rfl⟩
    · obtain ⟨index, before, frame, after, inside, rfl⟩ := ih later
      exact ⟨index + 1, before, frame, after, inside, by rw [Nat.add_right_comm, Nat.add_assoc]⟩

theorem bytesOf_split (before : List log.Frame) (frame : log.Frame) (after : List log.Frame) :
    bytesOf (before ++ frame :: after) = bytesOf before ++ (frame.encode ++ bytesOf after) :=
  bytesOf_append _ _

theorem data_lt_of_mem (bounded : Bounded files) {before after : List log.Frame} {frame : log.Frame}
    (listed : before ++ frame :: after ∈ files) : frame.data.length < maxFileSize := by
  have head : 0 < log.nHeadSize := nHeadSize_pos
  have size := bounded _ listed
  rw [bytesOf_split, length_append, length_append, length_encode] at size
  omega

theorem exists_read_of_mem_visits (bounded : Bounded files)
    (shown : ∀ nFile ≤ files.length, s.files.find nFile = image files nFile) (mem : entry ∈ visits 1 files) :
    ∃ parts ∈ files, ∃ frame ∈ parts, entry.1 = frame.value ∧
      log.read s entry.2.1 entry.2.2 = if frame.data = [] then none else some frame.value := by
  obtain ⟨index, before, frame, after, inside, rfl⟩ := exists_frame_of_mem_visits mem
  have within : index < files.length := (List.getElem?_eq_some_iff.1 inside).1
  have listed : before ++ frame :: after ∈ files := mem_of_getElem? inside
  have found : s.files.find (1 + index) = some (bytesOf before ++ (frame.encode ++ bytesOf after)) := by
    rw [shown _ (by omega), Nat.add_comm, image, inside, ← bytesOf_split]
    rfl
  exact ⟨_, listed, frame, by simp, rfl, read_encode found (data_lt_of_mem bounded listed)⟩

end

end Read

end Log

end HashAhead.Storage

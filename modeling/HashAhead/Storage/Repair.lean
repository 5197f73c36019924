import HashAhead.Storage.RoundTrip

/-! A walk with repair on. It truncates the first damaged file to the records before the damage and removes all files
behind it, but the file to append to stays the one it was. If a file is missing in between, what is written afterwards is
not met by any walk. -/

namespace HashAhead.Storage
open Foundation Trie HashAhead.Stream List Option SortedMap

section Remove

theorem find_removeFollowUpFile {turns : Nat} {s : Series} {file : Nat} (nLast : Nat)
    (chained : ∀ nFile, file ≤ nFile → ((s.files.find nFile).isSome ↔ nFile ≤ nLast))
    (enough : nLast < file + turns) (nFile : Nat) :
    (removeFollowUpFile turns s file).files.find nFile =
      if file ≤ nFile then none else s.files.find nFile := by
  induction turns generalizing s file with
  | zero =>
    rw [removeFollowUpFile]
    split
    · rename_i behind
      have absent := (chained nFile behind).not.2 (by omega)
      simpa using absent
    · rfl
  | succ turns ih =>
    rw [removeFollowUpFile]
    by_cases present : (s.files.find file).isSome = true
    · rw [if_pos present]
      have rest : ∀ nFile, file + 1 ≤ nFile → (((s.files.erase file).find nFile).isSome ↔ nFile ≤ nLast) := by
        intro nFile behind
        rw [find_erase, if_neg (by omega)]
        exact chained nFile (by omega)
      rw [ih rest (by omega), find_erase]
      by_cases here : nFile = file
      · rw [if_pos here, if_pos (Nat.le_of_eq here.symm), ite_self]
      · rw [if_neg here]
        split_ifs <;> first | rfl | omega
    · rw [if_neg present]
      split
      · rename_i behind
        have last := (chained file (Nat.le_refl _)).not.1 present
        have absent := (chained nFile behind).not.2 (by omega)
        simpa using absent
      · rfl

theorem nLastFile_removeFollowUpFile (turns : Nat) (s : Series) (file : Nat) :
    (removeFollowUpFile turns s file).nLastFile = s.nLastFile := by
  induction turns generalizing s file with
  | zero => rfl
  | succ turns ih =>
    rw [removeFollowUpFile]
    split
    · exact ih _ _
    · rfl

def Consecutive (s : Series) (nLast : Nat) : Prop :=
  ∀ nFile, (s.files.find nFile).isSome ↔ 1 ≤ nFile ∧ nFile ≤ nLast

theorem find_removed {s : Series} {nLast file : Nat} (chained : Consecutive s nLast) (first : 1 ≤ file) (nFile : Nat) :
    (removeFollowUpFile s.files.entries.length s file).files.find nFile =
      if file ≤ nFile then none else s.files.find nFile := by
  have count : nLast ≤ s.files.entries.length :=
    Log.count_le_entries fun nFile first last => (chained nFile).2 ⟨first, last⟩
  apply find_removeFollowUpFile nLast _ (by omega)
  intro nFile behind
  rw [chained]
  omega

/-- A repair leaves the files before the damage, and of the damaged one what is before the offset. -/
theorem find_repairFile {s : Series} {nLast nFile nOffset : Nat} {file : Bytes} (chained : Consecutive s nLast)
    (found : s.files.find nFile = some file) (other : Nat) :
    (repairFile s nFile nOffset).files.find other =
      if other < nFile then s.files.find other
      else if other = nFile ∧ nOffset > 0 then some (file.take nOffset) else none := by
  have inside := (chained nFile).1 (by rw [found]; rfl)
  unfold repairFile
  by_cases kept : nOffset > 0
  · have truncated : Consecutive { s with files := s.files.insert nFile (file.take nOffset) } nLast := by
      intro nFile'
      rw [← chained, find_insert]
      split
      · rename_i here
        simp [here, found]
      · rfl
    rw [if_pos kept, found]
    dsimp only
    rw [find_removed truncated (by omega), find_insert]
    split_ifs <;> first | rfl | omega
  · rw [if_neg kept, find_removed chained inside.1]
    split_ifs <;> first | rfl | omega

theorem nLastFile_repairFile (s : Series) (nFile nOffset : Nat) : (repairFile s nFile nOffset).nLastFile = s.nLastFile := by
  unfold repairFile
  split
  · split
    · rfl
    · exact nLastFile_removeFollowUpFile _ _ _
  · exact nLastFile_removeFollowUpFile _ _ _

end Remove

namespace Log
variable {κ V : Type} {log : Log κ V} {s : Series}

/-- What a walk finds that meets damage: files of records, and the records in front of the damage in the next file. -/
structure Damage (log : Log κ V) (s : Series) where
  front : List (List log.Frame)
  frames : List log.Frame
  tail : Bytes
  shown : ∀ nFile ≤ front.length, s.files.find nFile = image front nFile
  damaged : s.files.find (front.length + 1) = some (bytesOf frames ++ tail)
  bounded : Bounded (front ++ [frames])

theorem exists_damage_of_walkFiles {repair : Bool} {turns : Nat} (front : List (List log.Frame))
    (shown : ∀ nFile ≤ front.length, s.files.find nFile = image front nFile) (bounded : Bounded front)
    (lastFile nOffset : Nat)
    (damaged : (log.walkFiles recorder repair s turns (front.length + 1) lastFile nOffset
      (visits 1 front)).damaged = true) :
    ∃ damage : Damage log s,
      log.walkFiles recorder repair s turns (front.length + 1) lastFile nOffset (visits 1 front) =
        ⟨true, damage.front.length + 1, (bytesOf damage.frames).length, visits 1 (damage.front ++ [damage.frames]),
          if repair then repairFile s (damage.front.length + 1) (bytesOf damage.frames).length else s, true⟩ := by
  induction turns generalizing front lastFile nOffset with
  | zero => exact absurd damaged (by simp [walkFiles])
  | succ turns ih =>
    rw [walkFiles] at damaged ⊢
    cases found : s.files.find (front.length + 1) with
    | none =>
      rw [found] at damaged
      exact absurd damaged (by simp)
    | some file =>
      rw [found] at damaged
      dsimp only at damaged ⊢
      by_cases large : file.length > maxFileSize
      · have inBounds : Bounded (front ++ [[]]) := bounded_append.2 ⟨bounded, Nat.zero_le _⟩
        refine ⟨⟨front, [], file, shown, found, inBounds⟩, ?_⟩
        rw [walkFile, if_pos large]
        dsimp only
        rw [visits_append]
        simp [visitsFrom, Frames.placed, bytesOf]
      · obtain ⟨frames, tail, whole, walked⟩ :=
          @walkRecords_any κ V log file.length (front.length + 1) file [] (visits 1 front) (Nat.le_refl _)
        rw [nil_append, nil_append, length_nil] at walked
        rw [whole] at found
        rw [walkFile, if_neg large, walked] at damaged ⊢
        have onward : visits 1 front ++ visitsFrom (front.length + 1) 0 frames = visits 1 (front ++ [frames]) := by
          rw [visits_append, Nat.add_comm 1]
        have inBounds : Bounded (front ++ [frames]) := by
          rw [whole, length_append] at large
          exact bounded_append.2 ⟨bounded, by omega⟩
        by_cases complete : tail = []
        · rw [if_pos complete] at damaged ⊢
          dsimp only at damaged ⊢
          rw [complete, append_nil] at found
          have next := ih (front ++ [frames]) (by
            intro nFile inside
            rw [length_append, length_singleton] at inside
            rcases Nat.lt_or_ge front.length nFile with last | before
            · rw [show nFile = front.length + 1 by omega, found, image_last]
            · rw [shown nFile before, image_append front [frames] before]) inBounds (front.length + 1)
            (bytesOf frames).length
          rw [length_append, length_singleton, ← onward] at next
          exact next damaged
        · rw [if_neg complete]
          refine ⟨⟨front, frames, tail, shown, found, inBounds⟩, ?_⟩
          rw [onward]

namespace Damage
variable (damage : Damage log s)

def left : List (List log.Frame) := if damage.frames = [] then damage.front else damage.front ++ [damage.frames]

theorem bytesOf_pos_iff (frames : List log.Frame) : (bytesOf frames).length > 0 ↔ frames ≠ [] := by
  have shorter := length_le_bytesOf frames
  constructor
  · rintro size rfl
    exact absurd size (by simp [bytesOf])
  · intro some
    have count : 0 < frames.length := length_pos_iff.2 some
    omega

theorem visits_left : visits 1 damage.left = visits 1 (damage.front ++ [damage.frames]) := by
  unfold left
  split
  · rename_i empty
    rw [empty, visits_append]
    exact (append_nil _).symm
  · rfl

theorem bounded_left : Bounded damage.left := by
  unfold left
  split
  · exact (bounded_append.1 damage.bounded).1
  · exact damage.bounded

theorem length_left :
    damage.left.length + 1 =
      if (bytesOf damage.frames).length > 0 then damage.front.length + 1 + 1 else damage.front.length + 1 := by
  unfold left
  by_cases empty : damage.frames = []
  · rw [if_pos empty, if_neg (fun size => (bytesOf_pos_iff _).1 size empty)]
  · rw [if_neg empty, if_pos ((bytesOf_pos_iff _).2 empty), length_append, length_singleton]

theorem find_repaired {nLast : Nat} (chained : Consecutive s nLast) (nFile : Nat) :
    (repairFile s (damage.front.length + 1) (bytesOf damage.frames).length).files.find nFile =
      image damage.left nFile := by
  rw [find_repairFile chained damage.damaged, take_left]
  unfold left
  by_cases before : nFile < damage.front.length + 1
  · rw [if_pos before, damage.shown nFile (by omega)]
    split
    · rfl
    · rw [image_append _ _ (by omega)]
  · rw [if_neg before]
    by_cases empty : damage.frames = []
    · rw [if_neg (fun both => (bytesOf_pos_iff _).1 both.2 empty), if_pos empty, image_beyond (by omega)]
    · rw [if_neg empty]
      by_cases here : nFile = damage.front.length + 1
      · rw [if_pos ⟨here, (bytesOf_pos_iff _).2 empty⟩, here, image_last]
      · rw [if_neg (fun both => here both.1), image_beyond]
        rw [length_append, length_singleton]
        omega

theorem find_before {index : Nat} {frames : List log.Frame} (inside : damage.left[index]? = some frames) :
    ∃ rest, s.files.find (index + 1) = some (bytesOf frames ++ rest) := by
  have listed : (damage.front ++ [damage.frames])[index]? = some frames := by
    unfold left at inside
    split at inside
    · rw [List.getElem?_append_left (List.getElem?_eq_some_iff.1 inside).1, inside]
    · exact inside
  rcases Nat.lt_or_ge index damage.front.length with before | behind
  · rw [List.getElem?_append_left before] at listed
    refine ⟨[], ?_⟩
    rw [damage.shown _ (by omega), image, listed, append_nil]
    rfl
  · have index_lt := (List.getElem?_eq_some_iff.1 listed).1
    rw [length_append, length_singleton] at index_lt
    obtain rfl : index = damage.front.length := by omega
    rw [List.getElem?_append_right (Nat.le_refl _), Nat.sub_self] at listed
    cases listed
    exact ⟨damage.tail, damage.damaged⟩

end Damage

theorem getBlockSize_encode {nFile : Nat} {before after : Bytes} {frame : log.Frame} (noExtra : log.nExtraSize = 0)
    (found : s.files.find nFile = some (before ++ (frame.encode ++ after))) :
    getBlockSize s nFile (before.length + log.nHeadSize) = frame.data.length := by
  have skipped : (before ++ (frame.encode ++ after)).drop (before.length + log.nHeadSize - 8) =
      uint32.save (UInt32.ofNat frame.data.length) ++
        (uint32.save frame.nCrc ++ log.extra.save frame.k ++ frame.data ++ after) := by
    have start : before.length + log.nHeadSize - 8 = (before ++ uint32.save log.nMagicNum).length := by
      rw [length_append, length_uint32, nHeadSize, noExtra]
      omega
    have whole : before ++ (frame.encode ++ after) = (before ++ uint32.save log.nMagicNum) ++
        (uint32.save (UInt32.ofNat frame.data.length) ++
          (uint32.save frame.nCrc ++ log.extra.save frame.k ++ frame.data ++ after)) := by
      show before ++ (((uint32.save log.nMagicNum ++ (uint32.save (UInt32.ofNat frame.data.length) ++
        (uint32.save frame.nCrc ++ log.extra.save frame.k))) ++ frame.data) ++ after) = _
      simp only [append_assoc]
    rw [start, whole, drop_left]
  rw [getBlockSize, found]
  dsimp only
  rw [skipped, uint32_sound.load_save, map_some, getD_some, toNat_size]

theorem read_repaired_iff {damage : Damage log s} {nLast : Nat} (chained : Consecutive s nLast)
    (noExtra : log.nExtraSize = 0) {entry : V × Nat × Nat}
    (mem : entry ∈ visits 1 (damage.front ++ [damage.frames])) :
    log.read (repairFile s (damage.front.length + 1) (bytesOf damage.frames).length) entry.2.1 entry.2.2 = some entry.1 ↔
      getBlockSize s entry.2.1 entry.2.2 ≠ 0 := by
  rw [← damage.visits_left] at mem
  obtain ⟨index, before, frame, after, inside, rfl⟩ := exists_frame_of_mem_visits mem
  obtain ⟨rest, original⟩ := damage.find_before inside
  have repaired := damage.find_repaired chained (index + 1)
  rw [image, inside, map_some, bytesOf_split] at repaired
  rw [bytesOf_split, append_assoc, append_assoc] at original
  have small := data_lt_of_mem damage.bounded_left (mem_of_getElem? inside)
  rw [Nat.add_comm 1 index]
  show log.read _ (index + 1) ((bytesOf before).length + log.nHeadSize) = some frame.value ↔
    getBlockSize s (index + 1) ((bytesOf before).length + log.nHeadSize) ≠ 0
  rw [read_encode repaired small, getBlockSize_encode noExtra original]
  by_cases blank : frame.data = [] <;> simp [blank]

section Later

section
variable {after : Series} {files : List (List log.Frame)} {nFile : Nat} {values : List V}
  {written : List (V × Nat × Nat)}

theorem getLastFilePath_keeps {turns nSize : Nat} (found : getLastFilePath turns s nSize = some (nFile, after)) :
    s.nLastFile ≤ nFile ∧ after.nLastFile = nFile ∧
      ∀ other < s.nLastFile, after.files.find other = s.files.find other := by
  induction turns generalizing s with
  | zero => exact absurd found (by simp [getLastFilePath])
  | succ turns ih =>
    have created : ∀ other < s.nLastFile, (if (s.files.find s.nLastFile).isSome = true then s
        else { s with files := s.files.insert s.nLastFile [] }).files.find other = s.files.find other := by
      intro other before
      split
      · rfl
      · rw [find_insert, if_neg (by omega)]
    have last : (if (s.files.find s.nLastFile).isSome = true then s
        else { s with files := s.files.insert s.nLastFile [] }).nLastFile = s.nLastFile := by
      split <;> rfl
    rw [getLastFilePath, last] at found
    split at found
    · cases found
      exact ⟨Nat.le_refl _, last, created⟩
    · split at found
      · obtain ⟨later, reached, kept⟩ := ih found
        refine ⟨Nat.le_of_succ_le later, reached, fun other before => ?_⟩
        rw [kept other (Nat.lt_succ_of_lt before)]
        exact created other before
      · exact absurd found (by simp)

theorem write_keeps {v : V} {nOffset : Nat} (wrote : log.write s v = some (nFile, nOffset, after)) :
    s.nLastFile ≤ nFile ∧ after.nLastFile = nFile ∧
      ∀ other < s.nLastFile, after.files.find other = s.files.find other := by
  unfold write at wrote
  dsimp only at wrote
  split at wrote
  · exact absurd wrote (by simp)
  · rename_i chosen middle found
    obtain ⟨reached, last, kept⟩ := getLastFilePath_keeps found
    cases wrote
    refine ⟨reached, last, fun other before => ?_⟩
    rw [find_insert, if_neg (by omega), kept other before]

theorem writeAll_keeps (ran : writeAll log s values = some (written, after)) :
    written.map Prod.fst = values ∧ (∀ entry ∈ written, s.nLastFile ≤ entry.2.1) ∧
      ∀ other < s.nLastFile, after.files.find other = s.files.find other := by
  induction values generalizing s written with
  | nil =>
    cases ran
    exact ⟨rfl, fun entry mem => absurd mem not_mem_nil, fun other _ => rfl⟩
  | cons v rest ih =>
    simp only [writeAll, bind_eq_bind, bind_eq_some_iff] at ran
    obtain ⟨⟨nFile, nOffset, middle⟩, wrote, ⟨more, last⟩, later, made⟩ := ran
    obtain ⟨rfl, rfl⟩ := Prod.mk.inj (Option.some.inj made)
    obtain ⟨reached, lastFile, kept⟩ := write_keeps wrote
    obtain ⟨same, behind, keptLater⟩ := ih later
    dsimp only at same behind keptLater
    refine ⟨by rw [map_cons, same], ?_, ?_⟩
    · intro entry mem
      rcases mem_cons.1 mem with rfl | mem
      · exact reached
      · have after := behind entry mem
        omega
    · intro other before
      rw [keptLater other (by omega), kept other before]

theorem file_le_of_mem_visits {entry : V × Nat × Nat} (mem : entry ∈ visits 1 files) :
    entry.2.1 ≤ files.length := by
  obtain ⟨index, before, frame, after, inside, rfl⟩ := exists_frame_of_mem_visits mem
  have index_lt := (List.getElem?_eq_some_iff.1 inside).1
  show 1 + index ≤ files.length
  omega

/-- What is written to a series whose files are lists of records is walked through exactly if no file is missing in
front of the one to append to. -/
theorem later_visited_iff (find : ∀ nFile, s.files.find nFile = image files nFile) (bounded : Bounded files)
    (behind : files.length ≤ s.nLastFile) (positive : 0 < s.nLastFile) (nonempty : values ≠ [])
    (writable : Writable log values) (fit : AllFit log s values) (ran : writeAll log s values = some (written, after)) :
    (∀ fRepairFile, ∀ entry ∈ written, entry ∈ (log.walkThrough recorder fRepairFile after []).walked ∧
        entry ∈ (log.walkThrough recorder fRepairFile (initializeSeries after) []).walked) ↔
      s.nLastFile ≤ files.length + 1 := by
  constructor
  · -- behind a gap the walk ends before the file that was written to
    intro visited
    by_contra gap
    obtain ⟨same, reached, kept⟩ := writeAll_keeps ran
    have shown : ∀ nFile ≤ files.length + 1, after.files.find nFile = image files nFile := by
      intro nFile inside
      rw [kept nFile (by omega), find]
    obtain ⟨entry, mem⟩ : ∃ entry, entry ∈ written := by
      apply exists_mem_of_ne_nil
      intro empty
      rw [empty] at same
      exact nonempty same.symm
    have walked := (visited false entry mem).1
    rw [walkThrough_shown false shown bounded] at walked
    have early := file_le_of_mem_visits walked
    have late := reached entry mem
    omega
  · intro close fRepairFile entry mem
    have holds : Holds s files := ⟨find, by omega, positive⟩
    obtain ⟨grown, held, visited, inBounds, -⟩ := writeAll_spec writable holds ran
    have boundedAll := inBounds.2 ⟨bounded, fit⟩
    have listed : entry ∈ visits 1 grown := by
      rw [visited]
      exact mem_append_right _ mem
    have restarted : ∀ nFile ≤ grown.length + 1, (initializeSeries after).files.find nFile = image grown nFile :=
      fun nFile _ => held.find nFile
    rw [walkThrough_shown fRepairFile (fun nFile _ => held.find nFile) boundedAll,
      walkThrough_shown fRepairFile restarted boundedAll]
    exact ⟨listed, listed⟩

end

end Later

/-- A walk with repair on that meets damage in consecutive files. Its records are read afterwards exactly if their
headers say that they have data. What is written later is met by every later walk, also after a restart, exactly if the
file to append to is not behind the first missing one. -/
theorem repair_keeps_log_iff {T : Type} (crc24q : Bytes → UInt32) (codec : Codec T) (sound : codec.Sound) (blank : T)
    (s : Series) (consecutive : Consecutive s s.nLastFile) (walk : Walked (List (T × Nat × Nat)))
    (walks : walk = (cached crc24q codec sound blank).walkThrough recorder true s []) (damaged : walk.damaged = true) :
    ((∀ entry ∈ walk.walked, (cached crc24q codec sound blank).read walk.series entry.2.1 entry.2.2 = some entry.1) ↔
      ∀ entry ∈ walk.walked, getBlockSize s entry.2.1 entry.2.2 ≠ 0) ∧
    ∀ values written after, values ≠ [] → Writable (cached crc24q codec sound blank) values →
      AllFit (cached crc24q codec sound blank) walk.series values →
      writeAll (cached crc24q codec sound blank) walk.series values = some (written, after) →
      ((∀ fRepairFile, ∀ entry ∈ written,
          entry ∈ ((cached crc24q codec sound blank).walkThrough recorder fRepairFile after []).walked ∧
          entry ∈ ((cached crc24q codec sound blank).walkThrough recorder fRepairFile (initializeSeries after) []).walked) ↔
        s.nLastFile ≤ if walk.nLastPosRet > 0 then walk.nLastFileRet + 1 else walk.nLastFileRet) := by
  have empty : ∀ nFile ≤ ([] : List (List (cached crc24q codec sound blank).Frame)).length,
      s.files.find nFile = image ([] : List (List (cached crc24q codec sound blank).Frame)) nFile := by
    intro nFile none
    have absent := (consecutive nFile).not.2 (by rw [length_nil] at none; omega)
    rw [Nat.le_zero.1 none] at absent ⊢
    simpa [image] using absent
  rw [walks, walkThrough] at damaged
  obtain ⟨damage, found⟩ :=
    exists_damage_of_walkFiles [] empty (fun frames member => absurd member not_mem_nil) 0 0 damaged
  have result : walk = ⟨true, damage.front.length + 1, (bytesOf damage.frames).length,
      visits 1 (damage.front ++ [damage.frames]),
      repairFile s (damage.front.length + 1) (bytesOf damage.frames).length, true⟩ := walks.trans found
  have repaired := damage.find_repaired consecutive
  have last : (repairFile s (damage.front.length + 1) (bytesOf damage.frames).length).nLastFile = s.nLastFile :=
    nLastFile_repairFile s _ _
  have inside := (consecutive (damage.front.length + 1)).1 (by rw [damage.damaged]; rfl)
  have length := damage.length_left
  rw [result]
  constructor
  · apply forall₂_congr
    intro entry member
    exact read_repaired_iff consecutive rfl member
  · intro values written after nonempty writable fit ran
    have behind : damage.left.length ≤ s.nLastFile := by
      split at length <;> omega
    rw [later_visited_iff repaired damage.bounded_left (by omega) (by omega) nonempty writable fit ran, last, length]

end Log

namespace Sample

def byteLog : Log Unit UInt8 := cached (fun data => data.foldl (fun sum byte => sum + byte.toUInt32) 0) byte byte_sound 0

def record (value : UInt8) : Bytes :=
  byteLog.head.save (byteLog.nMagicNum, 1, byteLog.crc24q [value], ()) ++ [value]

def early : Series := ⟨((SortedMap.empty.insert 1 (record 5 ++ [0])).insert 2 (record 6)).insert 3 (record 7), 3⟩

def late : Series := ⟨SortedMap.empty.insert 1 (record 5 ++ [0]), 1⟩

/-- After the repair of the first of three files a record is written to the third one, which no walk reaches. -/
theorem early_damage_loses_writes :
    ((byteLog.walkThrough Log.recorder true early []).fRet = true ∧
      (byteLog.walkThrough Log.recorder true early []).damaged = true ∧
      (byteLog.walkThrough Log.recorder true early []).walked = [(5, 1, 12)]) ∧
    ((Log.writeAll byteLog (byteLog.walkThrough Log.recorder true early []).series [8]).map fun ran =>
        (ran.1, (byteLog.walkThrough Log.recorder true ran.2 []).walked,
          (byteLog.walkThrough Log.recorder true (initializeSeries ran.2) []).walked)) =
      some ([(8, 3, 12)], [(5, 1, 12)], [(5, 1, 12)]) := by
  decide +kernel

theorem consecutive_late : Consecutive late late.nLastFile := by
  intro nFile
  show ((empty.insert 1 (record 5 ++ [0])).find nFile).isSome ↔ 1 ≤ nFile ∧ nFile ≤ 1
  rw [find_insert]
  split
  · simp [*]
  · simp [find_empty]
    omega

theorem late_repair_keeps_log :
    (byteLog.walkThrough Log.recorder true late []).damaged = true ∧
    ((∀ entry ∈ (byteLog.walkThrough Log.recorder true late []).walked,
        byteLog.read (byteLog.walkThrough Log.recorder true late []).series entry.2.1 entry.2.2 = some entry.1) ↔
      ∀ entry ∈ (byteLog.walkThrough Log.recorder true late []).walked, getBlockSize late entry.2.1 entry.2.2 ≠ 0) ∧
    ∀ values written after, values ≠ [] → Log.Writable byteLog values →
      Log.AllFit byteLog (byteLog.walkThrough Log.recorder true late []).series values →
      Log.writeAll byteLog (byteLog.walkThrough Log.recorder true late []).series values = some (written, after) →
      ((∀ fRepairFile, ∀ entry ∈ written,
          entry ∈ (byteLog.walkThrough Log.recorder fRepairFile after []).walked ∧
          entry ∈ (byteLog.walkThrough Log.recorder fRepairFile (initializeSeries after) []).walked) ↔
        late.nLastFile ≤ if (byteLog.walkThrough Log.recorder true late []).nLastPosRet > 0 then
          (byteLog.walkThrough Log.recorder true late []).nLastFileRet + 1
          else (byteLog.walkThrough Log.recorder true late []).nLastFileRet) := by
  have damaged : (byteLog.walkThrough Log.recorder true late []).damaged = true := by decide +kernel
  exact ⟨damaged, Log.repair_keeps_log_iff _ byte byte_sound 0 late consecutive_late _ rfl damaged⟩

end Sample

end HashAhead.Storage

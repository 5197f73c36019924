import HashAhead.Foundation.Frames
import HashAhead.Stream.Field

/-! `CTimeSeriesBase` and its logs. Records are appended to numbered files, each with a header in front of it, and a walk
reads them back file by file. `CTimeSeriesCached` and `CTimeSeriesSnapshot` differ in the magic number, in the byte for
the type at the end of the header, and in what the data of a record are. -/

namespace HashAhead.Storage
open Foundation Trie HashAhead.Stream

def maxFileSize : Nat := 0x7F000000

def fileOrder : Comparator Nat := Comparator.ofKey id Function.injective_id

/-- `CTimeSeriesBase`: the files that exist, by number, and the number of the file to append to. -/
structure Series where
  files : SortedMap Nat Bytes fileOrder
  nLastFile : Nat

/-- What the header of a record has in it, and what the data behind it are. -/
structure Log (κ V : Type) where
  nMagicNum : UInt32
  /-- What stands at the end of the header -/
  extra : Codec κ
  nExtraSize : Nat
  crc24q : Bytes → UInt32
  save : V → κ × Bytes
  load : κ → Bytes → Option V
  /-- What a header without data gives -/
  blank : κ → V
  extra_sound : extra.Sound
  extra_tight : extra.Tight
  length_extra : ∀ k, (extra.save k).length = nExtraSize
  load_save : ∀ v, load (save v).1 (save v).2 = some v

/-- `CTimeSeriesCached` of records of a type -/
def cached {T : Type} (crc24q : Bytes → UInt32) (codec : Codec T) (sound : codec.Sound) (blank : T) : Log Unit T where
  nMagicNum := 0x8A5CA1E8
  extra := nothing
  nExtraSize := 0
  crc24q := crc24q
  save t := ((), codec.save t)
  load _ data :=
    match codec.load.result data with
    | some (t, []) => some t
    | _ => none
  blank _ := blank
  extra_sound := nothing_sound
  extra_tight := nothing_tight
  length_extra _ := rfl
  load_save t := by
    have loaded := sound.load_save t []
    rw [List.append_nil] at loaded
    rw [loaded]

/-- `CTimeSeriesSnapshot`: bytes with a type -/
def snapshot (crc24q : Bytes → UInt32) : Log UInt8 (UInt8 × Bytes) where
  nMagicNum := 0x9BE70873
  extra := byte
  nExtraSize := 1
  crc24q := crc24q
  save record := record
  load nType btData := some (nType, btData)
  blank nType := (nType, [])
  extra_sound := byte_sound
  extra_tight := byte_tight
  length_extra _ := rfl
  load_save _ := rfl

section Files
variable (s : Series)

/-- The loop of `CTimeSeriesBase::GetLastFilePath`, for at most so many turns. A file that does not exist is created.
The numbers of files stay below `2 ^ 32`. -/
def getLastFilePath : Nat → Series → Nat → Option (Nat × Series)
  | 0, _, _ => none
  | turns + 1, s, nWriteDataSize =>
    let file := (s.files.find s.nLastFile).getD []
    let s := if (s.files.find s.nLastFile).isSome then s else { s with files := s.files.insert s.nLastFile [] }
    if file.length + nWriteDataSize + 8 ≤ maxFileSize then some (s.nLastFile, s)
    else if s.nLastFile + 1 < 2 ^ 32 then getLastFilePath turns { s with nLastFile := s.nLastFile + 1 } nWriteDataSize
    else none

/-- The loop of `CTimeSeriesBase::RemoveFollowUpFile`, for at most so many files. -/
def removeFollowUpFile : Nat → Series → Nat → Series
  | 0, s, _ => s
  | turns + 1, s, nBeginFile =>
    if (s.files.find nBeginFile).isSome then
      removeFollowUpFile turns { s with files := s.files.erase nBeginFile } (nBeginFile + 1)
    else s

/-- `CTimeSeriesBase::RepairFile`, with files that are truncated and removed as requested -/
def repairFile (nFile nOffset : Nat) : Series :=
  if nOffset > 0 then
    match s.files.find nFile with
    | none => s
    | some file =>
      let s := { s with files := s.files.insert nFile (file.take nOffset) }
      removeFollowUpFile s.files.entries.length s (nFile + 1)
  else removeFollowUpFile s.files.entries.length s nFile

/-- The loop of `CTimeSeriesBase::Initialize`, for at most so many files. -/
def lastFile : Nat → Series → Nat → Nat
  | 0, _, nLastFile => nLastFile
  | turns + 1, s, nLastFile => if (s.files.find (nLastFile + 1)).isSome then lastFile turns s (nLastFile + 1) else nLastFile

/-- `CTimeSeriesBase::Initialize` of a directory with files in it -/
def initializeSeries : Series := { s with nLastFile := lastFile s.files.entries.length s 1 }

def getBlockSize (nFile nOffset : Nat) : Nat :=
  match s.files.find nFile with
  | none => 0
  | some file => ((uint32.load.result (file.drop (nOffset - 8))).map fun read => read.1.toNat).getD 0

end Files

namespace Log
variable {κ V σ : Type} (log : Log κ V)

def head : Codec (UInt32 × UInt32 × UInt32 × κ) := pair uint32 (pair uint32 (pair uint32 log.extra))

def nHeadSize : Nat := 12 + log.nExtraSize

/-- `CTimeSeriesCached::Write` and `CTimeSeriesSnapshot::Write` to the files: the file and the offset of the data -/
def write (s : Series) (v : V) : Option (Nat × Nat × Series) :=
  let (k, data) := log.save v
  let nSize := UInt32.ofNat data.length
  match getLastFilePath (s.files.entries.length + 2) s nSize.toNat with
  | none => none
  | some (nFile, s) =>
    let file := (s.files.find nFile).getD []
    let header := log.head.save (log.nMagicNum, nSize, log.crc24q data, k)
    some (nFile, (file ++ header).length, { s with files := s.files.insert nFile (file ++ header ++ data) })

/-- The record behind a header: `CTimeSeriesCached::ReadDirect` of a block, and `CTimeSeriesSnapshot::Read`. A position
inside of the first header stays at the beginning of the file. -/
def read (s : Series) (nFile nOffset : Nat) : Option V := do
  let file ← s.files.find nFile
  let ((nReadMagicNum, nReadSize, nReadCrc, k), rest) ← log.head.load.result (file.drop (nOffset - log.nHeadSize))
  if nReadMagicNum ≠ log.nMagicNum ∨ nReadSize = 0 ∨ nReadSize.toNat ≥ maxFileSize then none
  else
    let (data, _) ← takeBytes nReadSize.toNat rest
    if nReadCrc ≠ log.crc24q data then none else log.load k data

/-- One turn of the walk through a file: the record at an offset and where the next one begins, unless the data are
damaged. The position after a read is the expected one, so that the check of `GetCurPos` passes. -/
def turn (file : Bytes) (nOffset : Nat) : Option (V × Nat) :=
  if nOffset + log.nHeadSize > file.length then none
  else do
    let ((nMagic, nSize, nCrc, k), rest) ← log.head.load.result (file.drop nOffset)
    if nMagic ≠ log.nMagicNum then none
    else if (nOffset + log.nHeadSize + nSize.toNat) % 2 ^ 32 > file.length then none
    else if nSize = 0 then some (log.blank k, nOffset + log.nHeadSize)
    else
      let (data, _) ← takeBytes nSize.toNat rest
      if nCrc ≠ log.crc24q data then none
      else
        let v ← log.load k data
        some (v, nOffset + log.nHeadSize + nSize.toNat)

inductive Ending where
  | finished
  | damaged
  | stopped
deriving DecidableEq, Repr

/-- What a walk did in one file: the state of the walker, and where it came to. -/
structure FileWalk (σ : Type) where
  walked : σ
  nOffset : Nat
  ending : Ending

/-- What `WalkThrough` leaves behind. Damage is only logged. -/
structure Walked (σ : Type) where
  fRet : Bool
  nLastFileRet : Nat
  nLastPosRet : Nat
  walked : σ
  series : Series
  damaged : Bool

variable (walker : σ → V → Nat → Nat → σ × Bool)

def walkRecords (file : Bytes) (nFile : Nat) : Nat → σ → Nat → FileWalk σ
  | 0, walked, nOffset => ⟨walked, nOffset, .finished⟩
  | turns + 1, walked, nOffset =>
    if nOffset < file.length then
      match log.turn file nOffset with
      | none => ⟨walked, nOffset, .damaged⟩
      | some (v, next) =>
        match walker walked v nFile (nOffset + log.nHeadSize) with
        | (walked, false) => ⟨walked, nOffset, .stopped⟩
        | (walked, true) => walkRecords file nFile turns walked next
    else ⟨walked, nOffset, .finished⟩

def walkFile (file : Bytes) (nFile : Nat) (walked : σ) : FileWalk σ :=
  if file.length > maxFileSize then ⟨walked, 0, .damaged⟩
  else log.walkRecords walker file nFile file.length walked 0

def walkFiles (fRepairFile : Bool) (s : Series) : Nat → Nat → Nat → Nat → σ → Walked σ
  | 0, _, nLastFileRet, nOffset, walked => ⟨true, nLastFileRet, nOffset, walked, s, false⟩
  | turns + 1, nFile, nLastFileRet, nOffset, walked =>
    match s.files.find nFile with
    | none => ⟨true, nLastFileRet, nOffset, walked, s, false⟩
    | some file =>
      let walk := log.walkFile walker file nFile walked
      match walk.ending with
      | .finished => walkFiles fRepairFile s turns (nFile + 1) nFile walk.nOffset walk.walked
      | .stopped => ⟨false, nFile, walk.nOffset, walk.walked, s, false⟩
      | .damaged =>
        ⟨true, nFile, walk.nOffset, walk.walked, if fRepairFile then repairFile s nFile walk.nOffset else s, true⟩

/-- `CTimeSeriesCached::WalkThrough`, and `CTimeSeriesSnapshot::WalkThrough` without a repair -/
def walkThrough (fRepairFile : Bool) (s : Series) (walked : σ) : Walked σ :=
  log.walkFiles walker fRepairFile s (s.files.entries.length + 1) 1 0 0 walked

end Log

end HashAhead.Storage

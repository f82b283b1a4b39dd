import ClassSynth.Archive.Entry
import ClassSynth.Archive.Inflate
import ClassSynth.Error

/-!
# Archives

Files in one sequence of bytes. Only the directory tells where the files are: bytes in front of the
first file and between the files do not matter.
-/

/-!
## The place of the directory

The record behind the directory is found from the end of the archive. There may be other bytes in
front of the archive, so its offsets need not count from the first byte.
-/

namespace ClassSynth.Archive

/-- The record behind the directory. -/
structure EndRecord where
  /-- Where the record is. -/
  place : Nat
  /-- The part of the archive that the record is in. -/
  part : Nat
  /-- The part of the archive that the directory starts in. -/
  directoryPart : Nat
  /-- How many files the directory has in this part. -/
  filesHere : Nat
  /-- How many files the directory has in all. -/
  files : Nat
  /-- The size of the directory. -/
  size : Nat
  /-- Where the directory is. -/
  offset : Nat
  commentSize : Nat
  deriving DecidableEq, Repr

/-- Where the directory of an archive is. -/
structure DirectoryPlace where
  /-- Where the offsets of the archive count from. -/
  base : Nat
  start : Nat
  files : Nat
  deriving DecidableEq, Repr

/-- Is there a number for which the record has no room? -/
def EndRecord.isTooSmall (r : EndRecord) : Bool :=
  [r.part, r.directoryPart, r.filesHere, r.files].any (· == max16) ||
    [r.size, r.offset].any (· == max32)

/-- The record behind the directory: the last bytes that look like one. -/
def endRecord? (bytes : Array UInt8) : Option EndRecord := do
  let first := bytes.size - endSize - max16
  let places := (List.range (bytes.size + 1 - endSize - first)).reverse.map (first + ·)
  let place ← places.find? fun place => numberAt bytes place 4 == endMark
  let number (offset size : Nat) := numberAt bytes (place + offset) size
  return {
    place
    part := number 4 2, directoryPart := number 6 2
    filesHere := number 8 2, files := number 10 2
    size := number 12 4, offset := number 16 4
    commentSize := number 20 2 }

/-- Where the locator of a wide record is, if there is one. -/
def locator? (bytes : Array UInt8) (r : EndRecord) : Option Nat :=
  let distance := locatorSize + endSize + r.commentSize
  let place := bytes.size - distance
  if distance ≤ bytes.size && numberAt bytes place 4 == locatorMark then some place else none

/-- The archive has several parts. -/
def severalParts : Error := .archive "the archive has several parts"

/-- The place that the wide record tells, which lies at or behind the place in the locator. -/
def widePlace (bytes : Array UInt8) (r : EndRecord) (locator : Nat) :
    Except Error DirectoryPlace := do
  if !r.isTooSmall && r.part ≠ numberAt bytes (locator + 4) 4 then throw severalParts
  if r.place < wideDistance then throw (.archive "the wide record has no room")
  let first := numberAt bytes (locator + 8) 8
  let places := (List.range (r.place - wideDistance + 1 - first)).map (first + ·)
  let some place := places.find? fun place => numberAt bytes place 4 == wideMark
    | throw (.archive "the wide record is missing")
  let number (offset size : Nat) := numberAt bytes (place + offset) size
  if number 16 4 ≠ number 20 4 then throw severalParts
  let base := place - first
  return { base, start := base + number 48 8, files := number 32 8 }

/-- The place that the record behind the directory tells: right before the record. -/
def narrowPlace (r : EndRecord) : Except Error DirectoryPlace := do
  if r.size + r.offset > r.place then throw (.archive "the directory is in no place that can be")
  return { base := r.place - r.size - r.offset, start := r.place - r.size, files := r.filesHere }

/-- Where the directory is. -/
def directoryPlace (bytes : Array UInt8) : Except Error DirectoryPlace := do
  let some r := endRecord? bytes | throw (.archive "the directory is missing")
  if r.place + endSize + r.commentSize > bytes.size then
    throw (.archive "the comment is cut off")
  if !r.isTooSmall && r.part ≠ r.directoryPart then throw severalParts
  let place ← match locator? bytes r with
    | some locator => widePlace bytes r locator
    | none => narrowPlace r
  if place.start ≥ 1 <<< 63 then throw (.archive "the directory is too far away")
  return place

end ClassSynth.Archive

/-! ## Reading archives -/

namespace ClassSynth

/-- The bytes of an archive with its directory. -/
structure Archive where
  bytes : Array UInt8
  files : List PackedFile

namespace Archive

/-- The archive in the bytes. -/
def parse (bytes : Bytes) : Except Error Archive := do
  let bytes := bytes.toArray
  let place ← directoryPlace bytes
  match entriesAt? bytes place.base place.files place.start with
  | some files => return { bytes, files }
  | none => throw (.archive "an entry of the directory is malformed")

/-- The bytes of a file as they are packed. -/
def packed (a : Archive) (f : PackedFile) : Except Error Bytes := do
  if f.isEncrypted || f.isLocked then throw (.archive ("encrypted file " ++ f.path))
  if numberAt a.bytes f.offset 4 ≠ headerMark || f.offset + headerSize > a.bytes.size then
    throw (.archive ("no header of file " ++ f.path))
  let start := f.offset + headerSize + numberAt a.bytes (f.offset + 26) 2 +
    numberAt a.bytes (f.offset + 28) 2
  return (a.bytes.extract start (start + f.packedSize)).toList

/-- The bytes of a file. -/
def content (a : Archive) (f : PackedFile) : Except Error Bytes := do
  let packed ← a.packed f
  let bytes ←
    if f.method = storedMethod then pure packed
    else if f.method = deflatedMethod then
      match Inflate.inflate? packed with
      | some bytes => pure bytes
      | none => throw (.io ("malformed packed file " ++ f.path))
    else throw (.archive ("file packed in an unknown way " ++ f.path))
  if Checksum.ofBytes bytes = f.checksum then return bytes
  else throw (.io ("wrong checksum of file " ++ f.path))

/-- The file of a path. Of several files the last one counts. -/
def file? (a : Archive) (path : String) : Option PackedFile :=
  a.files.reverse.find? (·.path == path)

/-- The bytes of the file of a path, if there is one. -/
def read (a : Archive) (path : String) : Except Error (Option Bytes) :=
  (a.file? path).mapM a.content

end Archive

end ClassSynth

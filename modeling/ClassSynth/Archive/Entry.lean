import ClassSynth.Bytes.Basic
import ClassSynth.Text.Unicode

/-!
# Records of archives

The records that an archive is made of, and the entries of its directory.
-/

/-!
## The layout of archives

An archive holds files one after the other, each behind a header, and a directory of them with an
entry for each. Behind the directory is a record that tells where the directory is. Where the
fields of that record are too small, a wide record stands before it, and a locator tells where that
one is. Numbers have their lowest byte first.
-/

namespace ClassSynth.Archive

/-! ### Numbers -/

/-- The number that bytes stand for. -/
def numberOf (bytes : Bytes) : Nat := bytes.foldr (fun b n => b.toNat + 256 * n) 0

/-- The number of `size` bytes at an offset. Behind the end there are zeros. -/
def numberAt (bytes : Array UInt8) (offset size : Nat) : Nat :=
  numberOf ((List.range size).map fun i => bytes.getD (offset + i) 0)

/-- A number in `size` bytes. -/
def ofNumber : Nat → Nat → Bytes
  | 0, _ => []
  | size + 1, n => n.toUInt8 :: ofNumber size (n / 256)

/-- The greatest number of two bytes. It also stands for a number that is too big. -/
def max16 : Nat := 0xffff

/-- The greatest number of four bytes. It also stands for a number that is too big. -/
def max32 : Nat := 0xffffffff

/-! ### Parts -/

/-- What the header of a file starts with. -/
def headerMark : Nat := 0x04034b50

/-- What an entry of the directory starts with. -/
def entryMark : Nat := 0x02014b50

/-- What the record behind the directory starts with. -/
def endMark : Nat := 0x06054b50

/-- What the wide record starts with. -/
def wideMark : Nat := 0x06064b50

/-- What the locator of the wide record starts with. -/
def locatorMark : Nat := 0x07064b50

/-- The size of a header without the names behind it. -/
def headerSize : Nat := 30

/-- The size of an entry of the directory without the names behind it. -/
def entrySize : Nat := 46

/-- The size of the record behind the directory without the comment behind it. -/
def endSize : Nat := 22

/-- The size of the locator. -/
def locatorSize : Nat := 20

/-- How far before the record behind the directory the wide record starts at least. -/
def wideDistance : Nat := 60

/-! ### Flags and methods -/

/-- The flag of an encrypted file. -/
def encryptedFlag : Nat := 0

/-- The flag of a path in UTF-8. -/
def utf8Flag : Nat := 11

/-- The bytes are not packed. -/
def storedMethod : Nat := 0

/-- The bytes are deflated. -/
def deflatedMethod : Nat := 8

/-- The bytes are locked by a password, and an extra field tells how they are packed. -/
def lockedMethod : Nat := 99

end ClassSynth.Archive

namespace ClassSynth.Checksum

/-! ### Checksums

The cyclic redundancy check of 32 bits with the polynomial `0xedb88320`, lowest bit first.
-/

/-- One step of the division by the polynomial. -/
def shift (c : UInt32) : UInt32 := if c &&& 1 = 1 then (c >>> 1) ^^^ 0xedb88320 else c >>> 1

/-- Eight steps. -/
def shiftByte (c : UInt32) : UInt32 := (List.range 8).foldl (fun c _ => shift c) c

/-- The remainder for each value of a byte. -/
def table : Array UInt32 := ((List.range 256).map fun n => shiftByte n.toUInt32).toArray

/-- The remainder after one more byte. -/
def step (c : UInt32) (b : UInt8) : UInt32 :=
  table.getD ((c ^^^ b.toUInt32) &&& 0xff).toNat 0 ^^^ (c >>> 8)

/-- The checksum of the bytes. -/
def ofBytes (bytes : Bytes) : UInt32 := bytes.foldl step 0xffffffff ^^^ 0xffffffff

end ClassSynth.Checksum

/-!
## Entries of the directory

An entry describes a file. Behind its numbers are the path, extra fields and a comment. Extra fields
hold numbers for which the entry has no room, and the lock of a file that needs a password.
-/

namespace ClassSynth

/-- A file as the directory of an archive describes it. -/
structure PackedFile where
  path : String
  isEncrypted : Bool
  /-- Does the file need a password? -/
  isLocked : Bool := false
  /-- How the bytes are packed. -/
  method : Nat
  /-- The checksum of the bytes before they were packed. -/
  checksum : UInt32
  /-- The size of the bytes before they were packed. -/
  size : Nat
  packedSize : Nat
  /-- Where the header of the file is. -/
  offset : Nat
  deriving DecidableEq, Repr

namespace Archive

/-! ### Paths -/

/-- The characters for the bytes above those of ASCII in a path that is not in UTF-8. -/
def upperHalf : Array Char :=
  ("ÇüéâäàåçêëèïîìÄÅÉæÆôöòûùÿÖÜ¢£¥₧ƒáíóúñÑªº¿⌐¬½¼¡«»░▒▓│┤╡╢╖╕╣║╗╝╜╛┐└┴┬├─┼╞╟╚╔╩╦╠═╬╧╨╤╥╙╘╒╓╫╪" ++
    "┘┌█▄▌▐▀αßΓπΣσµτΦΘΩδ∞φε∩≡±≥≤⌠⌡÷≈°∙·√ⁿ²■\u00a0").toList.toArray

/-- The character for a byte of a path that is not in UTF-8. -/
def charOfByte (b : UInt8) : Char :=
  if b < 0x80 then Char.ofNat b.toNat else upperHalf.getD (b.toNat - 0x80) ' '

/-- A path in a directory. -/
def pathOf (inUtf8 : Bool) (name : Bytes) : String :=
  String.ofList (if inUtf8 then Utf8.decodeLossy name else name.map charOfByte)

/-! ### Extra fields -/

/-- The extra field with numbers of eight bytes. -/
def wideField : Nat := 1

/-- The extra field with the lock of a file. -/
def lockField : Nat := 0x9901

/-- The size of a lock. -/
def lockSize : Nat := 7

/-- Replaces each number that is too big for its place by the next eight bytes. Where the bytes end,
the rest of the numbers stay, and no bytes are left. -/
def widen : List Nat → Bytes → List Nat × Option Bytes
  | [], bytes => ([], some bytes)
  | n :: numbers, bytes =>
    if n ≠ max32 then
      let (numbers, rest?) := widen numbers bytes
      (n :: numbers, rest?)
    else if bytes.length < 8 then (n :: numbers, none)
    else
      let (numbers, rest?) := widen numbers (bytes.drop 8)
      (numberOf (bytes.take 8) :: numbers, rest?)

/-- A file with the numbers of an extra field, and what follows them. -/
def PackedFile.widen (f : PackedFile) (bytes : Bytes) : PackedFile × Option Bytes :=
  match Archive.widen [f.size, f.packedSize, f.offset] bytes with
  | ([size, packedSize, offset], rest?) => ({ f with size, packedSize, offset }, rest?)
  | (_, rest?) => (f, rest?)

/-- A file with a lock. There are two versions of locks, and three strengths. -/
def PackedFile.lock? (f : PackedFile) (lock : Bytes) : Option PackedFile :=
  let number (offset size : Nat) := numberOf ((lock.drop offset).take size)
  if number 2 2 = 0x4541 ∧ number 0 2 ∈ [1, 2] ∧ number 4 1 ∈ [1, 2, 3] then
    some { f with isLocked := true, method := number 5 2 }
  else none

/-- A file with what its extra fields say. A field that is cut off is ignored. A lock is skipped
twice. Each field takes bytes, so as many rounds as there are bytes suffice. -/
def readExtra : Nat → PackedFile → Bytes → Option PackedFile
  | 0, f, _ => some f
  | fuel + 1, f, bytes =>
    if bytes.length < 4 then some f
    else
      let kind := numberOf (bytes.take 2)
      let size := numberOf ((bytes.drop 2).take 2)
      let bytes := bytes.drop 4
      if kind = wideField then
        match PackedFile.widen f bytes with
        | (f, none) => some f
        | (f, some rest) => readExtra fuel f (bytes.drop (max size (bytes.length - rest.length)))
      else if kind = lockField then
        if size ≠ lockSize then none
        else if bytes.length < lockSize then some f
        else do readExtra fuel (← PackedFile.lock? f bytes) (bytes.drop (2 * lockSize))
      else readExtra fuel f (bytes.drop size)

/-! ### Entries -/

/-- The entry of the directory at an offset, and where the next one is. Offsets in the entry count
from `base`. -/
def entryAt? (bytes : Array UInt8) (base place : Nat) : Option (PackedFile × Nat) := do
  let number (offset size : Nat) := numberAt bytes (place + offset) size
  let nameEnd := place + entrySize + number 28 2
  let extraEnd := nameEnd + number 30 2
  let next := extraEnd + number 32 2
  if number 0 4 ≠ entryMark || next > bytes.size then failure
  let flags := number 8 2
  let described : PackedFile := {
    path := pathOf (flags.testBit utf8Flag) (bytes.extract (place + entrySize) nameEnd).toList
    isEncrypted := flags.testBit encryptedFlag
    method := number 10 2
    checksum := (number 16 4).toUInt32
    packedSize := number 20 4
    size := number 24 4
    offset := number 42 4 }
  let extra := (bytes.extract nameEnd extraEnd).toList
  let file ← readExtra extra.length described extra
  if file.method = lockedMethod && !file.isLocked then failure
  let offset := base + file.offset
  if offset ≥ 1 <<< 64 then failure
  return ({ file with offset }, next)

/-- So many entries of the directory from an offset on. -/
def entriesAt? (bytes : Array UInt8) (base : Nat) : Nat → Nat → Option (List PackedFile)
  | 0, _ => some []
  | n + 1, place => do
    let (file, next) ← entryAt? bytes base place
    return file :: (← entriesAt? bytes base n next)

end Archive

end ClassSynth

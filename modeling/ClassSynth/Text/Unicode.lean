/-!
# Encodings of text

Characters as bytes and as units of 16 bits.
-/

namespace ClassSynth.Utf8

/-! ## UTF-8

Strict UTF-8: shortest forms only, no surrogates, nothing above U+10FFFF. What is no UTF-8 is either
refused or replaced.
-/

/-- A byte that continues a character. -/
def isContinuation (b : UInt8) : Bool := 0x80 ≤ b && b ≤ 0xbf

/-- The six payload bits of a continuation byte. -/
def payload (b : UInt8) : Nat := b.toNat % 64

/-- The character whose encoding starts the bytes, and what follows it. -/
def next? : List UInt8 → Option (Char × List UInt8)
  | [] => none
  | a :: rest =>
    if a < 0x80 then some (Char.ofNat a.toNat, rest)
    else if 0xc2 ≤ a && a ≤ 0xdf then
      match rest with
      | b :: rest =>
        if isContinuation b then some (Char.ofNat (a.toNat % 32 * 64 + payload b), rest)
        else none
      | _ => none
    else if 0xe0 ≤ a && a ≤ 0xef then
      match rest with
      | b :: c :: rest =>
        let n := a.toNat % 16 * 4096 + payload b * 64 + payload c
        if isContinuation b && isContinuation c && 0x800 ≤ n && !(0xd800 ≤ n && n ≤ 0xdfff) then
          some (Char.ofNat n, rest)
        else none
      | _ => none
    else if 0xf0 ≤ a && a ≤ 0xf4 then
      match rest with
      | b :: c :: d :: rest =>
        let n := a.toNat % 8 * 262144 + payload b * 4096 + payload c * 64 + payload d
        if isContinuation b && isContinuation c && isContinuation d
            && 0x10000 ≤ n && n ≤ 0x10ffff then
          some (Char.ofNat n, rest)
        else none
      | _ => none
    else none

/-- Reads characters until the bytes end; `done` holds them last first. A character takes at least
one byte, so as many rounds as there are bytes suffice. -/
def decodeAux : Nat → List Char → List UInt8 → Option (List Char)
  | _, done, [] => some done.reverse
  | 0, _, _ :: _ => none
  | fuel + 1, done, bytes@(_ :: _) =>
    match next? bytes with
    | some (c, rest) => decodeAux fuel (c :: done) rest
    | none => none

/-- The text of well-formed bytes. -/
def decode (bytes : List UInt8) : Option (List Char) :=
  decodeAux bytes.length [] bytes

/-! ### Malformed bytes -/

/-- Stands for malformed bytes. -/
def replacement : Char := '\ufffd'

/-- How many bytes the character takes whose first byte this is. -/
def width (first : UInt8) : Nat :=
  if 0xc2 ≤ first && first ≤ 0xdf then 2
  else if 0xe0 ≤ first && first ≤ 0xef then 3
  else if 0xf0 ≤ first && first ≤ 0xf4 then 4
  else 1

/-- Can a character start with the two bytes? Some second bytes make a form that is not the
shortest, a surrogate or a number that is too big. -/
def isSecond (first b : UInt8) : Bool :=
  if first == 0xe0 then 0xa0 ≤ b && b ≤ 0xbf
  else if first == 0xed then 0x80 ≤ b && b ≤ 0x9f
  else if first == 0xf0 then 0x90 ≤ b && b ≤ 0xbf
  else if first == 0xf4 then 0x80 ≤ b && b ≤ 0x8f
  else isContinuation b

/-- What follows the malformed bytes at the front: as many as a character could start with, and one
at least. -/
def dropMalformed : List UInt8 → List UInt8
  | [] => []
  | first :: rest =>
    match rest with
    | [] => []
    | b :: more =>
      if width first > 2 && isSecond first b then
        more.drop ((more.take (width first - 3)).takeWhile isContinuation).length
      else rest

/-- Reads characters until the bytes end; `done` holds them last first. Each round takes at least
one byte, so as many rounds as there are bytes suffice. -/
def decodeLossyAux : Nat → List Char → List UInt8 → List Char
  | _, done, [] => done.reverse
  | 0, done, _ :: _ => done.reverse
  | fuel + 1, done, bytes@(_ :: _) =>
    match next? bytes with
    | some (c, rest) => decodeLossyAux fuel (c :: done) rest
    | none => decodeLossyAux fuel (replacement :: done) (dropMalformed bytes)

/-- The text of bytes; a replacement character stands for each run of malformed ones. -/
def decodeLossy (bytes : List UInt8) : List Char := decodeLossyAux bytes.length [] bytes

/-! ### Writing -/

/-- The bytes of one character. -/
def encodeChar (c : Char) : List UInt8 :=
  let n := c.toNat
  if n < 0x80 then [n.toUInt8]
  else if n < 0x800 then [(0xc0 + n / 64).toUInt8, (0x80 + n % 64).toUInt8]
  else if n < 0x10000 then
    [(0xe0 + n / 4096).toUInt8, (0x80 + n / 64 % 64).toUInt8, (0x80 + n % 64).toUInt8]
  else
    [(0xf0 + n / 262144).toUInt8, (0x80 + n / 4096 % 64).toUInt8, (0x80 + n / 64 % 64).toUInt8,
     (0x80 + n % 64).toUInt8]

/-- The bytes of a text. -/
def encode (cs : List Char) : List UInt8 :=
  cs.flatMap encodeChar

example : decode (encode "aé日😀".toList) = some "aé日😀".toList := by decide

example : decodeLossy [0x61, 0xe2, 0x82, 0x62, 0xff, 0xfe] = "a\ufffdb\ufffd\ufffd".toList := by
  decide

end ClassSynth.Utf8

namespace ClassSynth.Utf16

/-! ## UTF-16

Characters as 16-bit units: one unit inside the basic plane, a high and a low surrogate outside it.
A surrogate without its partner belongs to no character.
-/

/-- First unit of a pair. -/
def isHigh (u : UInt16) : Bool := 0xd800 ≤ u && u ≤ 0xdbff

/-- Second unit of a pair. -/
def isLow (u : UInt16) : Bool := 0xdc00 ≤ u && u ≤ 0xdfff

/-- The units of one character. -/
def encodeChar (c : Char) : List UInt16 :=
  let n := c.toNat
  if n < 0x10000 then [n.toUInt16]
  else
    [(0xd800 + (n - 0x10000) / 0x400).toUInt16, (0xdc00 + (n - 0x10000) % 0x400).toUInt16]

/-- The units of a text. -/
def encode (cs : List Char) : List UInt16 :=
  cs.flatMap encodeChar

/-- The character a high and a low surrogate stand for. -/
def joinPair (high low : UInt16) : Char :=
  Char.ofNat (0x10000 + (high.toNat - 0xd800) * 0x400 + (low.toNat - 0xdc00))

/-- Reads units into characters; `done` holds the characters read so far, last first. -/
def decodeAux (done : List Char) : List UInt16 → Option (List Char)
  | [] => some done.reverse
  | u :: rest =>
    if isHigh u then
      match rest with
      | v :: rest' => if isLow v then decodeAux (joinPair u v :: done) rest' else none
      | [] => none
    else if isLow u then none
    else decodeAux (Char.ofNat u.toNat :: done) rest

/-- The text of the units, unless a surrogate stands alone. -/
def decode (units : List UInt16) : Option (List Char) :=
  decodeAux [] units

example : decode (encode "a😀".toList) = some "a😀".toList := by decide

end ClassSynth.Utf16

/-!
## Modified UTF-8

The string encoding of class files. Each UTF-16 unit is encoded on its own, in one to three bytes,
and the zero unit takes two, so the encoding holds neither a zero byte nor a four-byte form.
-/

namespace ClassSynth.ModifiedUtf8

/-- The bytes of one unit. -/
def encodeUnit (u : UInt16) : List UInt8 :=
  let n := u.toNat
  if 0 < n ∧ n < 0x80 then [n.toUInt8]
  else if n < 0x800 then [(0xc0 + n / 64).toUInt8, (0x80 + n % 64).toUInt8]
  else [(0xe0 + n / 4096).toUInt8, (0x80 + n / 64 % 64).toUInt8, (0x80 + n % 64).toUInt8]

/-- The bytes of a text. -/
def encode (s : String) : List UInt8 :=
  (Utf16.encode s.toList).flatMap encodeUnit

/-- The unit that starts the bytes, and what follows it. The two high bits of a second and third
byte are not looked at. -/
def nextUnit? : List UInt8 → Option (UInt16 × List UInt8)
  | [] => none
  | a :: rest =>
    if a < 0x80 then some (a.toUInt16, rest)
    else if 0xc0 ≤ a && a ≤ 0xdf then
      match rest with
      | b :: rest => some ((a.toNat % 32 * 64 + b.toNat % 64).toUInt16, rest)
      | _ => none
    else if 0xe0 ≤ a && a ≤ 0xef then
      match rest with
      | b :: c :: rest =>
        some ((a.toNat % 16 * 4096 + b.toNat % 64 * 64 + c.toNat % 64).toUInt16, rest)
      | _ => none
    else none

/-- Reads units until the bytes end; `done` holds them last first. -/
def unitsAux : Nat → List UInt16 → List UInt8 → Option (List UInt16)
  | _, done, [] => some done.reverse
  | 0, _, _ :: _ => none
  | fuel + 1, done, bytes@(_ :: _) =>
    match nextUnit? bytes with
    | some (u, rest) => unitsAux fuel (u :: done) rest
    | none => none

/-- The UTF-16 units of the bytes. -/
def units (bytes : List UInt8) : Option (List UInt16) :=
  unitsAux bytes.length [] bytes

/-- The text of the bytes, unless a unit is cut off, starts with a wrong byte, or is a surrogate
without its partner. -/
def decode (bytes : List UInt8) : Option String := do
  let cs ← Utf16.decode (← units bytes)
  return String.ofList cs

/-- The text of a string constant. Bytes that are plain UTF-8 without a zero byte are taken as such;
all others are read as modified UTF-8. -/
def decodeConstant (bytes : List UInt8) : Option String :=
  match Utf8.decode bytes with
  | some cs => if bytes.contains 0 then decode bytes else some (String.ofList cs)
  | none => decode bytes

end ClassSynth.ModifiedUtf8

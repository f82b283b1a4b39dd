import ClassSynth.Error

/-!
# Bytes

What is read from the front of a sequence of bytes, and the bytes that are written for a number.
-/

/-!
## Reading bytes

A reader consumes bytes from the front and knows how many it has consumed, so that a cut-off input
is reported with the offset where bytes were missing. Numbers are big-endian.
-/

namespace ClassSynth

/-- A sequence of bytes. -/
abbrev Bytes := List UInt8

/-- The bytes still to be read, and the offset of the first of them. -/
structure Cursor where
  offset : Nat
  rest : Bytes
  deriving DecidableEq, Repr

/-- Reads a value from the front of the bytes. -/
abbrev Reader := StateT Cursor (Except ClassFormatError)

/-- The first `n` items and the others, if there are as many; `done` holds items taken before, last
first. -/
def splitFirstAux {α : Type} (done : List α) : Nat → List α → Option (List α × List α)
  | 0, rest => some (done.reverse, rest)
  | _ + 1, [] => none
  | n + 1, a :: rest => splitFirstAux (a :: done) n rest

/-- The first `n` items and the others, if there are as many. -/
def splitFirst? {α : Type} (n : Nat) (items : List α) : Option (List α × List α) :=
  splitFirstAux [] n items

namespace Reader

/-- Reads from the start of the bytes; what follows the value is ignored. -/
def run {α : Type} (r : Reader α) (bytes : Bytes) : Except ClassFormatError α :=
  (r ⟨0, bytes⟩).map (·.1)

/-- Fails with the given error. -/
def fail {α : Type} (e : ClassFormatError) : Reader α :=
  fun _ => .error e

/-- How many bytes have been read. -/
def offset : Reader Nat :=
  fun c => .ok (c.offset, c)

/-- The next `n` bytes. -/
def take (n : Nat) : Reader Bytes := fun c =>
  match splitFirst? n c.rest with
  | some (bytes, rest) => .ok (bytes, ⟨c.offset + n, rest⟩)
  | none => .error (.truncated c.offset n)

/-- One byte. -/
def u8 : Reader UInt8 := fun c =>
  match c.rest with
  | a :: rest => .ok (a, ⟨c.offset + 1, rest⟩)
  | _ => .error (.truncated c.offset 1)

/-- Two bytes. -/
def u16 : Reader UInt16 := fun c =>
  match c.rest with
  | a :: b :: rest => .ok ((a.toNat * 0x100 + b.toNat).toUInt16, ⟨c.offset + 2, rest⟩)
  | _ => .error (.truncated c.offset 2)

/-- Four bytes. -/
def u32 : Reader UInt32 := fun c =>
  match c.rest with
  | a :: b :: d :: e :: rest =>
    .ok ((a.toNat * 0x1000000 + b.toNat * 0x10000 + d.toNat * 0x100 + e.toNat).toUInt32,
      ⟨c.offset + 4, rest⟩)
  | _ => .error (.truncated c.offset 4)

/-- Eight bytes, read as two halves. -/
def u64 : Reader UInt64 := do
  let high ← u32
  let low ← u32
  return (high.toNat * 0x100000000 + low.toNat).toUInt64

/-- Two bytes in two's complement. -/
def i16 : Reader Int16 := do return (← u16).toInt16

/-- Four bytes in two's complement. -/
def i32 : Reader Int32 := do return (← u32).toInt32

/-- Reads `n` values after those in `done`, which come last first. -/
def manyAux {α : Type} (r : Reader α) (done : List α) : Nat → Reader (List α)
  | 0 => pure done.reverse
  | n + 1 => do
    let a ← r
    manyAux r (a :: done) n

/-- Reads `n` values. -/
def many {α : Type} (n : Nat) (r : Reader α) : Reader (List α) :=
  manyAux r [] n

/-- A list preceded by its length in two bytes. -/
def counted {α : Type} (r : Reader α) : Reader (List α) := do
  let n ← u16
  many n.toNat r

end Reader

end ClassSynth

/-!
## Writing bytes

Big-endian numbers and lists preceded by their length. A length is written in two bytes whatever
its size, so callers that must not lose high bits check it first.
-/

namespace ClassSynth.Bytes

/-- Two bytes. -/
def ofU16 (n : UInt16) : Bytes :=
  [(n.toNat / 0x100).toUInt8, n.toNat.toUInt8]

/-- Four bytes. -/
def ofU32 (n : UInt32) : Bytes :=
  [(n.toNat / 0x1000000).toUInt8, (n.toNat / 0x10000).toUInt8, (n.toNat / 0x100).toUInt8,
    n.toNat.toUInt8]

/-- Eight bytes. -/
def ofU64 (n : UInt64) : Bytes :=
  ofU32 (n.toNat / 0x100000000).toUInt32 ++ ofU32 n.toNat.toUInt32

/-- Two bytes in two's complement. -/
def ofI16 (n : Int16) : Bytes := ofU16 n.toUInt16

/-- Four bytes in two's complement. -/
def ofI32 (n : Int32) : Bytes := ofU32 n.toUInt32

/-- A count in two bytes, modulo 2 ^ 16. -/
def ofCount (n : Nat) : Bytes := ofU16 n.toUInt16

/-- A list preceded by its length. -/
def counted {α : Type} (write : α → Bytes) (items : List α) : Bytes :=
  ofCount items.length ++ items.flatMap write

end ClassSynth.Bytes

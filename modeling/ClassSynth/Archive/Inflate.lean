import ClassSynth.Bytes.Basic

/-!
# Deflated bytes

Deflated bytes are a list of bits, the lowest bit of a byte first. They hold blocks; a block holds
bytes as they are, or words of a canonical code that stand for bytes and for repetitions of what
came before. Each word takes a bit at least, so there are no more words than bits: that bounds
every loop.
-/

namespace ClassSynth.Inflate

/-- Takes bits from the front. -/
abbrev Inflating := StateT (List Bool) Option

/-- The bits of a byte. -/
def bitsOfByte (b : UInt8) : List Bool := (List.range 8).map b.toNat.testBit

/-- The bits of bytes. -/
def bitsOf (bytes : Bytes) : List Bool := bytes.flatMap bitsOfByte

/-- The next bit. -/
def bit : Inflating Bool
  | [] => none
  | b :: rest => some (b, rest)

/-- A number of `n` bits, the lowest first. -/
def number : Nat → Inflating Nat
  | 0 => return 0
  | n + 1 => do
    let b ← bit
    return b.toNat + 2 * (← number n)

/-- Numbers of `k` bits each. -/
def numbers (k : Nat) : Nat → Inflating (List Nat)
  | 0 => return []
  | n + 1 => do
    let a ← number k
    return a :: (← numbers k n)

/-- Drops the rest of a byte. -/
def align : Inflating Unit := modify fun bits => bits.drop (bits.length % 8)

/-! ## Canonical codes -/

/-- A canonical code. The words of one length follow each other in the order of their symbols, and
shorter words come first, so the lengths alone determine the words. -/
structure Code where
  /-- How many words there are of the lengths 1, 2, … -/
  counts : List Nat
  /-- The symbols in the order of their words. -/
  symbols : Array Nat
  deriving Repr

namespace Code

/-- No word is longer. -/
def maxLength : Nat := 15

/-- The symbols whose words have a length. -/
def withLength (lengths : List Nat) (n : Nat) : List Nat :=
  (lengths.zipIdx.filter (·.1 == n)).map (·.2)

/-- The code whose word for each symbol has the given length; a symbol of length 0 has no word. -/
def ofLengths (lengths : List Nat) : Code :=
  let groups := (List.range maxLength).map fun n => withLength lengths (n + 1)
  { counts := groups.map List.length, symbols := groups.flatten.toArray }

/-- How much of all words of the greatest length start with a word of the code. -/
def weight (c : Code) : Nat :=
  (c.counts.zipIdx.map fun (count, n) => count <<< (maxLength - 1 - n)).foldr (· + ·) 0

/-- Does each sequence of bits start with one word? Besides, there may be no word at all, or one
word of one bit. -/
def isUsable (c : Code) : Bool :=
  c.weight == (1 <<< maxLength) || c.symbols.isEmpty ||
    c.counts.foldr (· + ·) 0 == 1 && c.counts.head? == some 1

/-- The code for the lengths, if it is usable. -/
def ofLengths? (lengths : List Nat) : Inflating Code :=
  let c := ofLengths lengths
  if c.isUsable then return c else failure

/-- Reads on behind the bits of `word`. The first word of the next length is `first`, and `index` is
the place of its symbol. -/
def decodeAux (c : Code) (word first index : Nat) : List Nat → Inflating Nat
  | [] => failure
  | count :: counts => do
    let b ← bit
    let word := 2 * word + b.toNat
    if word < first + count then c.symbols[index + (word - first)]?
    else decodeAux c word (2 * (first + count)) (index + count) counts

/-- Reads a word and gives its symbol. -/
def decode (c : Code) : Inflating Nat := c.decodeAux 0 0 0 c.counts

end Code

/-! ## Blocks of words -/

/-- The numbers from `start` on that `bits` more bits distinguish. -/
structure Span where
  start : Nat
  bits : Nat

/-- Spans that follow each other, with so many bits each. -/
def spansFrom : Nat → List Nat → List Span
  | _, [] => []
  | start, bits :: rest => { start, bits } :: spansFrom (start + (1 <<< bits)) rest

/-- How far a repetition goes, by symbol. -/
def lengthSpans : List Span :=
  spansFrom 3 (List.replicate 8 0 ++ [1, 2, 3, 4, 5].flatMap (List.replicate 4)) ++
    [{ start := 258, bits := 0 }]

/-- How far back a repetition starts, by symbol. -/
def distanceSpans : List Span :=
  spansFrom 1 ([0, 0] ++ (List.range 14).flatMap (List.replicate 2))

/-- The number that a symbol and the bits behind it stand for. -/
def inSpan (spans : List Span) (symbol : Nat) : Inflating Nat := do
  match spans[symbol]? with
  | some span => return span.start + (← number span.bits)
  | none => failure

/-- The byte a distance before the end. Before the first byte there are zeros. -/
def back (distance : Nat) (out : Array UInt8) : UInt8 :=
  if distance ≤ out.size then out.getD (out.size - distance) 0 else 0

/-- Repeats bytes that start a distance before the end. The repetition may run into itself. -/
def copyBack (distance : Nat) : Nat → Array UInt8 → Array UInt8
  | 0, out => out
  | n + 1, out => copyBack distance n (out.push (back distance out))

/-- The symbol that ends a block. Smaller symbols are bytes, greater ones repetitions. -/
def endOfBlock : Nat := 256

/-- Reads words up to the end of a block and appends what they stand for. -/
def words (literals distances : Code) : Nat → Array UInt8 → Inflating (Array UInt8)
  | 0, _ => failure
  | fuel + 1, out => do
    let symbol ← literals.decode
    if symbol < endOfBlock then words literals distances fuel (out.push symbol.toUInt8)
    else if symbol = endOfBlock then return out
    else
      let length ← inSpan lengthSpans (symbol - endOfBlock - 1)
      let distance ← inSpan distanceSpans (← distances.decode)
      words literals distances fuel (copyBack distance length out)

/-- The code for bytes and lengths that needs no description. -/
def fixedLiterals : Code :=
  .ofLengths (List.replicate 144 8 ++ List.replicate 112 9 ++ List.replicate 24 7 ++
    List.replicate 8 8)

/-- The code for distances that needs no description. -/
def fixedDistances : Code := .ofLengths (List.replicate 32 5)

/-- The symbols for lengths of words, in the order in which their own lengths are given. -/
def lengthOrder : List Nat := [16, 17, 18, 0, 8, 7, 9, 6, 10, 5, 11, 4, 12, 3, 13, 2, 14, 1, 15]

/-- Reads lengths of words until there are `n`; those in `done` come last first. -/
def wordLengths (c : Code) (n : Nat) : Nat → List Nat → Inflating (List Nat)
  | 0, _ => failure
  | fuel + 1, done =>
    if done.length = n then return done.reverse
    else if done.length > n then failure
    else do
      match ← c.decode with
      | 16 =>
        match done with
        | [] => failure
        | last :: _ => wordLengths c n fuel (List.replicate (3 + (← number 2)) last ++ done)
      | 17 => wordLengths c n fuel (List.replicate (3 + (← number 3)) 0 ++ done)
      | 18 => wordLengths c n fuel (List.replicate (11 + (← number 7)) 0 ++ done)
      | length => wordLengths c n fuel (length :: done)

/-- How many symbols there are for bytes, the end of a block, and lengths. -/
def maxLiterals : Nat := 286

/-- How many symbols there are for distances. -/
def maxDistances : Nat := 30

/-- Reads the description of the two codes of a block. -/
def codes : Inflating (Code × Code) := do
  let literals := 257 + (← number 5)
  let distances := 1 + (← number 5)
  let given := 4 + (← number 4)
  if literals > maxLiterals || distances > maxDistances then failure
  let lengths := lengthOrder.zip (← numbers 3 given)
  let order ← Code.ofLengths? ((List.range 19).map fun s => (lengths.lookup s).getD 0)
  let total := literals + distances
  let all ← wordLengths order total (total + 1) []
  return (← Code.ofLengths? (all.take literals), ← Code.ofLengths? (all.drop literals))

/-- Appends the bytes of a block that holds them as they are. -/
def stored (out : Array UInt8) : Inflating (Array UInt8) := do
  align
  let length ← number 16
  let complement ← number 16
  if length + complement ≠ 0xffff then failure
  return out ++ ((← numbers 8 length).map Nat.toUInt8).toArray

/-- Reads the blocks up to the last one. -/
def blocks : Nat → Array UInt8 → Inflating (Array UInt8)
  | 0, _ => failure
  | fuel + 1, out => do
    let isLast ← bit
    let out ← match ← number 2 with
      | 0 => stored out
      | 1 => words fixedLiterals fixedDistances fuel out
      | 2 => do
        let (literals, distances) ← codes
        words literals distances fuel out
      | _ => failure
    if isLast then return out else blocks fuel out

/-- The bytes that were deflated. What follows the last block is ignored. -/
def inflate? (bytes : Bytes) : Option Bytes :=
  let bits := bitsOf bytes
  ((blocks (bits.length + 1) #[]).run bits).map (·.1.toList)

end ClassSynth.Inflate

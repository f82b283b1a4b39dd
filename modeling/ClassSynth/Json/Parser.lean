import ClassSynth.Json.Value
import ClassSynth.Text.Unicode

/-!
# JSON texts

A JSON text is cut into tokens, and the tokens are put together to a value.
-/

namespace ClassSynth

/-! ## Tokens of JSON texts

A JSON text is cut into punctuation, words, numbers and strings; white space between them is
dropped.
-/

/-- A token of a JSON text. -/
inductive JsonToken
  | openBrace | closeBrace | openBracket | closeBracket | comma | colon
  | null | true | false
  | number (digits : String)
  | string (text : Option String)
  deriving DecidableEq, Repr

namespace JsonToken

/-- White space between tokens. -/
def isSpace (c : Char) : Bool := c == ' ' || c == '\t' || c == '\n' || c == '\r'

/-! ### Strings -/

/-- The value of a hexadecimal digit. -/
def hexValue? (c : Char) : Option Nat :=
  if c.isDigit then some (c.toNat - '0'.toNat)
  else if 'a' ≤ c ∧ c ≤ 'f' then some (c.toNat - 'a'.toNat + 10)
  else if 'A' ≤ c ∧ c ≤ 'F' then some (c.toNat - 'A'.toNat + 10)
  else none

/-- The unit that four hexadecimal digits stand for. -/
def unit? (a b c d : Char) : Option UInt16 := do
  let n := (← hexValue? a) * 4096 + (← hexValue? b) * 256 + (← hexValue? c) * 16 + (← hexValue? d)
  return n.toUInt16

/-- What a backslash and this character stand for. -/
def shortEscape? (c : Char) : Option Char :=
  if c == '"' || c == '\\' || c == '/' then some c
  else if c == 'b' then some '\x08'
  else if c == 'f' then some '\x0c'
  else if c == 'n' then some '\n'
  else if c == 'r' then some '\r'
  else if c == 't' then some '\t'
  else none

/-- The units of a string after its opening quote, and what follows its closing quote; `done` holds
the units before, last first. -/
def stringUnits (done : List UInt16) : List Char → Option (List UInt16 × List Char)
  | [] => none
  | '"' :: rest => some (done.reverse, rest)
  | '\\' :: 'u' :: a :: b :: c :: d :: rest =>
    match unit? a b c d with
    | some u => stringUnits (u :: done) rest
    | none => none
  | '\\' :: c :: rest =>
    match shortEscape? c with
    | some c => stringUnits ((Utf16.encodeChar c).reverse ++ done) rest
    | none => none
  | c :: rest =>
    if c == '\\' || c.toNat < 0x20 then none
    else stringUnits ((Utf16.encodeChar c).reverse ++ done) rest

/-- The text of the units, unless a surrogate stands alone. -/
def unitText? (units : List UInt16) : Option String :=
  (Utf16.decode units).map String.ofList

/-! ### Numbers -/

/-- Digits at the front, of which there must be one. -/
def digits? (cs : List Char) : Option (List Char × List Char) :=
  match cs.takeWhile Char.isDigit with
  | [] => none
  | ds => some (ds, cs.dropWhile Char.isDigit)

/-- The digits before the point, which start with zero only if there is one. -/
def integerPart? : List Char → Option (List Char × List Char)
  | '0' :: rest => if rest.head?.any Char.isDigit then none else some (['0'], rest)
  | cs => digits? cs

/-- The point and the digits after it, if there is a point. -/
def fraction? : List Char → Option (List Char × List Char)
  | '.' :: rest => (digits? rest).map fun (ds, rest) => ('.' :: ds, rest)
  | cs => some ([], cs)

/-- The sign of an exponent, if there is one. -/
def sign : List Char → List Char × List Char
  | c :: rest => if c == '+' || c == '-' then ([c], rest) else ([], c :: rest)
  | [] => ([], [])

/-- The exponent, if there is one. -/
def exponent? : List Char → Option (List Char × List Char)
  | c :: rest =>
    if c == 'e' || c == 'E' then
      let (s, rest) := sign rest
      (digits? rest).map fun (ds, rest) => (c :: s ++ ds, rest)
    else some ([], c :: rest)
  | [] => some ([], [])

/-- The number at the front. -/
def number? (cs : List Char) : Option (List Char × List Char) := do
  let (minus, cs) := match cs with
    | '-' :: rest => (['-'], rest)
    | _ => ([], cs)
  let (whole, cs) ← integerPart? cs
  let (fraction, cs) ← fraction? cs
  let (exponent, cs) ← exponent? cs
  return (minus ++ whole ++ fraction ++ exponent, cs)

/-! ### Cutting -/

/-- The token at the front, which is not white space, and what follows it. -/
def next? : List Char → Option (JsonToken × List Char)
  | '\x7b' :: rest => some (.openBrace, rest)
  | '\x7d' :: rest => some (.closeBrace, rest)
  | '[' :: rest => some (.openBracket, rest)
  | ']' :: rest => some (.closeBracket, rest)
  | ',' :: rest => some (.comma, rest)
  | ':' :: rest => some (.colon, rest)
  | '"' :: rest => (stringUnits [] rest).map fun (units, rest) => (.string (unitText? units), rest)
  | 'n' :: 'u' :: 'l' :: 'l' :: rest => some (.null, rest)
  | 't' :: 'r' :: 'u' :: 'e' :: rest => some (.true, rest)
  | 'f' :: 'a' :: 'l' :: 's' :: 'e' :: rest => some (.false, rest)
  | cs => (number? cs).map fun (ds, rest) => (.number (String.ofList ds), rest)

/-- The tokens after those in `done`, which come last first. A token takes at least one character,
so as many rounds as there are characters suffice. -/
def scanAux : Nat → List JsonToken → List Char → Option (List JsonToken)
  | _, done, [] => some done.reverse
  | 0, _, _ :: _ => none
  | fuel + 1, done, c :: rest =>
    if isSpace c then scanAux fuel done rest
    else
      match next? (c :: rest) with
      | some (t, rest) => scanAux fuel (t :: done) rest
      | none => none

/-- The tokens of a text. -/
def scan (s : String) : Option (List JsonToken) :=
  scanAux s.toList.length [] s.toList

end JsonToken

end ClassSynth

namespace ClassSynth.JsonValue

/-! ## From tokens to JSON values

Every function takes tokens from the front and returns the others. Their common fuel bounds the
depth of calls; two calls take at least one token.
-/

/-- Reads a value from the front of the tokens. -/
abbrev Parser := StateT (List JsonToken) Option

namespace Parser

/-- The next token. -/
def advance : Parser JsonToken := fun
  | t :: rest => some (t, rest)
  | [] => none

/-- The next token, which must be this one. -/
def expect (wanted : JsonToken) : Parser Unit := do
  if (← advance) = wanted then return else failure

mutual

/-- A value. -/
def value : Nat → Parser JsonValue
  | 0 => failure
  | fuel + 1 => do
    match ← advance with
    | .null => return .null
    | .true => return .bool true
    | .false => return .bool false
    | .number ds => return .number ds
    | .string s => return .string s
    | .openBracket =>
      if (← get).head? = some .closeBracket then
        let _ ← advance
        return .array []
      return .array (← items fuel)
    | .openBrace =>
      if (← get).head? = some .closeBrace then
        let _ ← advance
        return .object []
      return .object (← fields fuel)
    | _ => failure

/-- At least one more item, and the closing bracket. -/
def items : Nat → Parser (List JsonValue)
  | 0 => failure
  | fuel + 1 => do
    let item ← value fuel
    match ← advance with
    | .comma => return item :: (← items fuel)
    | .closeBracket => return [item]
    | _ => failure

/-- At least one more field, and the closing brace. -/
def fields : Nat → Parser (List (Option String × JsonValue))
  | 0 => failure
  | fuel + 1 => do
    match ← advance with
    | .string name =>
      expect .colon
      let v ← value fuel
      match ← advance with
      | .comma => return (name, v) :: (← fields fuel)
      | .closeBrace => return [(name, v)]
      | _ => failure
    | _ => failure

end

end Parser

/-- The value that a text holds and nothing else. -/
def parse? (s : String) : Option JsonValue := do
  let tokens ← JsonToken.scan s
  match ← Parser.value (2 * tokens.length + 2) tokens with
  | (v, []) => return v
  | _ => none

end ClassSynth.JsonValue

import ClassSynth.Error
import ClassSynth.Text.Quoted
import ClassSynth.TypeName

/-!
# JSON

JSON values, and what is read from them.
-/

/-!
## JSON values

Fields keep their order and may repeat. A string may hold half of a surrogate pair and then stands
for no text; such a string, and a number, is a value like any other as long as nobody reads it.
-/

namespace ClassSynth

/-- A JSON value. -/
inductive JsonValue
  | null
  | bool (value : Bool)
  /-- A number as it is written. -/
  | number (digits : String)
  | string (text : Option String)
  | array (items : List JsonValue)
  | object (fields : List (Option String × JsonValue))
  deriving Repr, Inhabited

namespace JsonValue

/-- The string of a text. -/
def ofString (s : String) : JsonValue := .string (some s)

/-- The object of the fields. -/
def ofFields (fields : List (String × JsonValue)) : JsonValue :=
  .object (fields.map fun (name, value) => (some name, value))

end JsonValue

end ClassSynth

namespace ClassSynth.JsonValue

/-! ### JSON values as text

One item or field on a line, two spaces of indentation for each level; an empty array or object is
written as its two brackets.
-/

/-- The characters that stand for one character in a string. -/
def escape (c : Char) : List Char :=
  if c == '"' then ['\\', '"']
  else if c == '\\' then ['\\', '\\']
  else if c == '\x08' then ['\\', 'b']
  else if c == '\x0c' then ['\\', 'f']
  else if c == '\n' then ['\\', 'n']
  else if c == '\r' then ['\\', 'r']
  else if c == '\t' then ['\\', 't']
  else if c.toNat < 0x20 then '\\' :: 'u' :: (hexPadded 4 c.toNat).toList
  else [c]

/-- A text as a string literal; a string without text becomes the replacement character. -/
def literal (text : Option String) : String :=
  String.ofList ('"' :: (text.getD "\ufffd").toList.flatMap escape ++ ['"'])

/-- A new line at a level. -/
def newLine (level : Nat) : String :=
  String.ofList ('\n' :: List.replicate (2 * level) ' ')

/-- Lines between brackets. -/
def block (left right : String) (level : Nat) (lines : List String) : String :=
  if lines.isEmpty then left ++ right
  else
    left ++ newLine (level + 1) ++ ("," ++ newLine (level + 1)).intercalate lines ++
      newLine level ++
      right

mutual

/-- The text of a value at a level. -/
def print (level : Nat) : JsonValue → String
  | null => "null"
  | bool true => "true"
  | bool false => "false"
  | number digits => digits
  | string text => literal text
  | array items => block "[" "]" level (printItems (level + 1) items)
  | object fields => block "\x7b" "\x7d" level (printFields (level + 1) fields)

/-- The texts of the items. -/
def printItems (level : Nat) : List JsonValue → List String
  | [] => []
  | v :: rest => v.print level :: printItems level rest

/-- The texts of the fields. -/
def printFields (level : Nat) : List (Option String × JsonValue) → List String
  | [] => []
  | (name, v) :: rest => (literal name ++ ": " ++ v.print level) :: printFields level rest

end

/-- The text of a value. -/
def pretty (v : JsonValue) : String := v.print 0

end ClassSynth.JsonValue

/-!
## Values as JSON documents

A record is an object of its fields, or an array of their values in order. Unknown fields of an
object are skipped, known ones may not repeat. A field may be left out if it has a default; `null`
stands for nothing only where a value is optional.

Writing gives every field of a record, in order, so reading what was written gives the same record.
-/

namespace ClassSynth

/-- Values that documents hold. -/
class InDocument (α : Type) where
  read : JsonValue → Except ModelError α
  write : α → JsonValue

namespace Document

/-- Fails because something else was expected. -/
def expected {α : Type} (what : String) : Except ModelError α := .error (.wrongValue what)

/-! ### Plain values -/

instance : InDocument Bool where
  read
    | .bool b => .ok b
    | _ => expected "a boolean"
  write := .bool

instance : InDocument String where
  read
    | .string (some s) => .ok s
    | _ => expected "a string"
  write := .ofString

instance : InDocument TypeName where
  read v := do return .ofText (← InDocument.read v)
  write t := .ofString t.text

instance : InDocument Int where
  read
    | .number digits => digits.toInt?.elim (expected "an integer") .ok
    | _ => expected "an integer"
  write n := .number (toString n)

instance : InDocument Nat where
  read v := do
    let n : Int ← InDocument.read v
    if n < 0 then expected "a natural number" else return n.toNat
  write n := .number (toString n)

instance : InDocument Int32 where
  read v := do
    let n : Int ← InDocument.read v
    if (Int32.ofInt n).toInt = n then return Int32.ofInt n else expected "a number of four bytes"
  write n := .number (toString n.toInt)

instance {α : Type} [InDocument α] : InDocument (List α) where
  read
    | .array items => items.mapM InDocument.read
    | _ => expected "an array"
  write items := .array (items.map InDocument.write)

instance {α : Type} [InDocument α] : InDocument (Option α) where
  read
    | .null => .ok none
    | v => (InDocument.read v).map some
  write
    | none => .null
    | some a => InDocument.write a

/-! ### Words -/

/-- The constructor that a word stands for. A word is a string, or an object with one field of that
name that holds `null`. -/
def readWord {α : Type} (words : List (String × α)) (v : JsonValue) : Except ModelError α :=
  let word := match v with
    | .string s => s
    | .object [(name, .null)] => name
    | _ => none
  match word.bind (words.lookup ·) with
  | some a => .ok a
  | none => expected "a word of a fixed list"

/-- The word that stands for a constructor. -/
def writeWord {α : Type} [BEq α] (words : List (String × α)) (a : α) : JsonValue :=
  match words.find? (·.2 == a) with
  | some (word, _) => .ofString word
  | none => .null

/-! ### Records -/

/-- The values of a field with its name, of which there may be one at most. -/
def fieldValue? (fields : List (Option String × JsonValue)) (name : String) :
    Except ModelError (Option JsonValue) :=
  match fields.filter (·.1 == some name) with
  | [] => .ok none
  | [(_, v)] => .ok (some v)
  | _ => .error (.repeatedField name)

/-- The fields of a record by name. -/
abbrev Fields := List (String × JsonValue)

/-- The fields of a record that are given. -/
def readFields (names : List String) : JsonValue → Except ModelError Fields
  | .object fields => do
    if fields.any (·.1.isNone) then expected "a field name"
    let values ← names.mapM fun name => do
      return (← fieldValue? fields name).map fun v => (name, v)
    return values.filterMap id
  | .array items =>
    if items.length ≤ names.length then .ok (names.zip items) else expected "no more items"
  | _ => expected "an object"

namespace Fields

/-- A field that must be given. -/
def required {α : Type} [InDocument α] (fields : Fields) (name : String) : Except ModelError α :=
  match fields.lookup name with
  | some v => InDocument.read v
  | none => .error (.missingField name)

/-- A field with a default. -/
def optional {α : Type} [InDocument α] (fields : Fields) (name : String) (default : α) :
    Except ModelError α :=
  match fields.lookup name with
  | some v => InDocument.read v
  | none => .ok default

end Fields

/-- The value of a field. -/
def field {α : Type} [InDocument α] (name : String) (a : α) : String × JsonValue :=
  (name, InDocument.write a)

end Document

end ClassSynth

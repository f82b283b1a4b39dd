import ClassSynth.Text.LowerCase
import ClassSynth.Text.Basic

/-!
# Names of fields

The name of a method tells the field that it reads or writes: `getName`, `isName`, `keepsName` and
`setName` belong to the field `name`, `hasName` to `hasName`. The name must go on with an upper-case
letter and hold no line feed. With fluent naming any other method is named like its field.
-/

namespace ClassSynth

/-- What a method does with a field. -/
inductive MemberKind
  | accessor | mutator
  deriving DecidableEq, Repr

namespace Naming

/-- The name with a lower-case first character. -/
def decapitalize (name : String) : String :=
  match name.toList with
  | [] => ""
  | c :: rest => String.ofList (lowerCase c ++ rest)

/-- A start of method names. -/
structure NameStart where
  kind : MemberKind
  text : String
  /-- The start stays in the name of the field. -/
  isKept : Bool := false

/-- The starts of method names, in the order in which they are tried. -/
def starts : List NameStart :=
  [{ kind := .mutator, text := "set" },
    { kind := .accessor, text := "get" },
    { kind := .accessor, text := "is" },
    { kind := .accessor, text := "has", isKept := true },
    { kind := .accessor, text := "keeps" }]

/-- Can this follow the start of a method name? -/
def isCapitalized : List Char → Bool
  | [] => false
  | c :: rest => 'A' ≤ c && c ≤ 'Z' && !rest.contains '\n'

/-- The field of a method whose name has this start. -/
def NameStart.field? (s : NameStart) (method : String) : Option String := do
  let rest ← afterFront? s.text.toList method.toList
  if isCapitalized rest then
    some (decapitalize (if s.isKept then method else String.ofList rest))
  else none

/-- The field that a method of this kind belongs to. -/
def field? (fluent : Bool) (kind : MemberKind) (method : String) : Option String :=
  match (starts.filter (·.kind = kind)).findSome? (·.field? method) with
  | some name => some name
  | none => if fluent then some method else none

end Naming

end ClassSynth

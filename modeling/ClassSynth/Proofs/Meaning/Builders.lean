import ClassSynth.Proofs.Meaning.Objects
import ClassSynth.Synthesis.Display
import ClassSynth.Text.Unicode

/-!
# String builders

Bodies of `toString` are evaluated over texts, other replies of methods and string builders. A text
is a list of UTF-16 units. A string builder is one place in memory: appending changes the text that
stands there, and gives the same builder back.

What other methods reply is left to `Others`. A reply may depend on everything that was asked
before, so nothing is assumed of accessors but the types of what they return.
-/

namespace ClassSynth

open Synthesis

/-! ## Texts -/

/-- The units of a text in a body. -/
def unitsOf (text : String) : List UInt16 := Utf16.encode text.toList

/-- The texts of floating-point numbers, which are given by their bits. -/
structure FloatTexts where
  single : UInt32 → List UInt16
  double : UInt64 → List UInt16

/-- The text of a value. A number in a variable for characters stands for a unit. -/
def PrimitiveValue.units (f : FloatTexts) (t : TypeName) : PrimitiveValue → List UInt16
  | bool b => unitsOf (if b then "true" else "false")
  | int n => if t.primitive? = some .char then [n.toUInt32.toUInt16] else unitsOf (toString n.toInt)
  | long n => unitsOf (toString n.toInt)
  | float bits => f.single bits
  | double bits => f.double bits

/-- The text that stands for a reference to nothing. -/
def nullUnits : List UInt16 := unitsOf "null"

/-! ## Replies -/

/-- What a method returns: a primitive value, or a reference to a string, to another object or to
nothing. -/
inductive Reply
  | prim (v : PrimitiveValue)
  | null
  | text (units : List UInt16)
  | object (o : Nat)
  deriving DecidableEq, Repr

/-- Does a variable of the type hold such replies? -/
def Reply.isOf (t : TypeName) : Reply → Bool
  | prim v => t.primitive?.any v.isOf
  | null | text _ => t.primitive?.isNone
  | object _ => t.primitive?.isNone && t != .string

/-- What is asked of the methods of other classes. -/
inductive Request
  /-- A method without parameters. -/
  | method (o : Nat) (method : MethodRef)
  /-- The text of an object. -/
  | text (o : Nat)
  /-- The inherited text. -/
  | inherited (o : Nat) (method : MethodRef)
  deriving DecidableEq, Repr

/-- Is the text of an object asked? -/
def Request.isText : Request → Bool
  | text _ => true
  | method .. | inherited .. => false

/-- The replies of other methods, each after what was asked before, first to last. -/
structure Others where
  reply : List Request → Nat → MethodRef → Reply
  reply_isOf : ∀ asked o m, (reply asked o m).isOf m.ret = true
  /-- The text of an object may be missing. -/
  text : List Request → Nat → Option (List UInt16)
  inherited : List Request → Nat → MethodRef → Option (List UInt16)
  floats : FloatTexts

/-- Steps that ask other methods. -/
abbrev Asking := StateM (List Request)

namespace Others

variable (w : Others)

/-- Asks a method. -/
def ask {α : Type} (r : Request) (reply : List Request → α) : Asking α :=
  modifyGet fun asked => (reply asked, asked ++ [r])

/-- What a method of an object returns. -/
def read (o : Nat) (m : MethodRef) : Asking Reply := ask (.method o m) (w.reply · o m)

/-- The text of a value of a type: that of its object, if it refers to one. -/
def textOf (t : TypeName) : Reply → Asking (List UInt16)
  | .prim v => return v.units w.floats t
  | .null => return nullUnits
  | .text units => return units
  | .object o => return (← ask (.text o) (w.text · o)).getD nullUnits

/-- What the inherited `toString` returns. -/
def inheritedReply (o : Nat) (m : MethodRef) : Asking Reply := do
  return (← ask (.inherited o m) (w.inherited · o m)).elim .null .text

end Others

/-! ## Evaluation -/

/-- What was asked so far, and the texts of the string builders. -/
structure BuilderState where
  asked : List Request
  builders : List (List UInt16)
  deriving DecidableEq, Repr

/-- Steps of bodies that use string builders. -/
abbrev Composing := StateT BuilderState Option

/-- A step that uses no string builders. -/
def Asking.lift {α : Type} (x : Asking α) : Composing α := fun s =>
  let (a, asked) := x.run s.asked
  some (a, { s with asked })

/-- The value of an expression: what a method may return, or a string builder. -/
inductive Composed
  | reply (r : Reply)
  | builder (b : Nat)
  deriving DecidableEq, Repr

namespace Others

variable (w : Others)

/-- The text that the overload of `append` for a parameter type appends for its argument. There are
overloads for strings, for objects, and for the primitive types but `byte` and `short`. -/
def appended (param : TypeName) : Reply → Composing (List UInt16)
  | .prim v =>
    if param.primitive?.any (fun p => p != .byte && p != .short && v.isOf p) then
      (w.textOf param (.prim v)).lift
    else Meaning.undefined
  | .object o =>
    if param = .object then (w.textOf param (.object o)).lift else Meaning.undefined
  | r => if param = .string ∨ param = .object then (w.textOf param r).lift else Meaning.undefined

/-- Appends the argument to the text of the builder. -/
def appendTo (b : Nat) (param : TypeName) (r : Reply) : Composing Composed := do
  let units ← w.appended param r
  let text ← Meaning.known (← get).builders[b]?
  modify fun s => { s with builders := s.builders.set b (text ++ units) }
  return .builder b

/-- What calls return. -/
def call : CallKind → MethodRef → Option Composed → List Composed → Composing Composed
  | .virtual, m, some (.builder b), [.reply r] =>
    match m.params with
    | [param] =>
      if m.owner = builderClass ∧ m.name = "append" ∧ m.ret = builderClass then w.appendTo b param r
      else Meaning.undefined
    | _ => Meaning.undefined
  | .virtual, m, some (.builder b), [] =>
    if m.owner = builderClass ∧ m.name = "toString" ∧ m.ret = .string then do
      return .reply (.text (← Meaning.known (← get).builders[b]?))
    else Meaning.undefined
  | .virtual, m, some (.reply (.object o)), [] => return .reply (← (w.read o m).lift)
  | .special, m, some (.reply (.object o)), [] =>
    if m.name = "toString" ∧ m.ret = .string then return .reply (← (w.inheritedReply o m).lift)
    else Meaning.undefined
  | _, _, _, _ => Meaning.undefined

/-- A new string builder holds the text that it is made with. -/
def create (type : TypeName) (params : List TypeName) : List Composed → Composing Composed
  | [.reply (.text units)] =>
    if type = builderClass ∧ params = [.string] then
      modifyGet fun s => (.builder s.builders.length, { s with builders := s.builders ++ [units] })
    else Meaning.undefined
  | _ => Meaning.undefined

/-- What bodies of `toString` do with values. -/
def builderOperations : Operations Composing Composed where
  null := .reply .null
  bool b := .reply (.prim (.bool b))
  int n := .reply (.prim (.int n))
  str text := return .reply (.text (unitsOf text))
  truth _ := Meaning.undefined
  field _ _ := Meaning.undefined
  staticField _ := Meaning.undefined
  call := w.call
  create := create
  array _ _ := Meaning.undefined
  cast _ _ := Meaning.undefined
  boxed _ _ := Meaning.undefined
  unboxed _ _ := Meaning.undefined
  same _ _ := Meaning.undefined
  arith _ _ _ := Meaning.undefined

/-- What a method without parameters of an object returns. -/
def result (body : List Stmt) (receiver : Nat) : Composing Composed :=
  Meaning.resultOf w.builderOperations ⟨some (.reply (.object receiver)), []⟩ body

end Others

end ClassSynth

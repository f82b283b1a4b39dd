import ClassSynth.Proofs.Meaning.Evaluation
import ClassSynth.Synthesis.Equality
import Mathlib.Tactic.Simps.Basic
import Mathlib.Tactic.SplitIfs

/-!
# Values and objects

Bodies of `equals` and `hashCode` are evaluated over primitive values and references. What accessors
return, and what the `equals` and the `hashCode` of other classes answer, is left to a `World`;
wrapped values and the helpers for values that may be null have their documented meaning.

Two floating-point values are equal for a comparison exactly if their hashes are taken from the same
bits: all values that are no numbers count as one, and the two zeros as different.
-/

namespace ClassSynth

/-! ## Floating-point numbers -/

/-- A format of floating-point numbers, which are given by their bits. -/
structure FloatFormat where
  /-- The bit that is set for negative values, the highest one. -/
  sign : Nat
  /-- The bits of positive infinity. What is larger is no number. -/
  infinity : Nat
  /-- The bits that stand for all values that are no numbers. -/
  nan : Nat

namespace FloatFormat

def single : FloatFormat := ⟨0x80000000, 0x7f800000, 0x7fc00000⟩

def double : FloatFormat := ⟨0x8000000000000000, 0x7ff0000000000000, 0x7ff8000000000000⟩

variable (f : FloatFormat)

def magnitude (bits : Nat) : Nat := bits % f.sign

def isNegative (bits : Nat) : Bool := f.sign ≤ bits

def isNumber (bits : Nat) : Bool := f.magnitude bits ≤ f.infinity

/-- Numbers are ordered as these keys are. -/
def key (bits : Nat) : Int :=
  if f.isNegative bits then -(f.magnitude bits : Int) else f.magnitude bits

def less (a b : Nat) : Bool := f.isNumber a && f.isNumber b && f.key a < f.key b

/-- Equality of numbers; the two zeros are equal. -/
def equal (a b : Nat) : Bool := f.isNumber a && f.isNumber b && f.key a == f.key b

/-- The bits, or those that stand for all values that are no numbers. -/
def canonical (bits : Nat) : Nat := if f.isNumber bits then bits else f.nan

/-- The bits as a number of as many bits that may be negative. -/
def signed (bits : Nat) : Int := (bits : Int).bmod (2 * f.sign)

/-- The comparison of two values, zero for equal ones. -/
def compare (a b : Nat) : Int32 :=
  if f.less a b then -1
  else if f.less b a then 1
  else if f.canonical a = f.canonical b then 0
  else if f.signed (f.canonical a) < f.signed (f.canonical b) then -1 else 1

theorem canonical_of_compare {a b : Nat} (h : f.compare a b = 0) :
    f.canonical a = f.canonical b := by
  have hone : (1 : Int32) ≠ 0 := by decide
  have hminus : (-1 : Int32) ≠ 0 := by decide
  by_cases heq : f.canonical a = f.canonical b
  · exact heq
  rw [compare, if_neg heq] at h
  split_ifs at h
  · exact absurd h hminus
  · exact absurd h hone
  · exact absurd h hminus
  · exact absurd h hone

/-- The two zeros differ, and what is no number equals itself. -/
example : single.compare 0x80000000 0 = -1 ∧ single.compare 0x7f800001 0x7fc00000 = 0 := by
  decide

end FloatFormat

/-! ## Values -/

/-- A primitive value. Numbers of 32 bits and fewer are alike. -/
inductive PrimitiveValue
  | bool (b : Bool)
  | int (n : Int32)
  | long (n : Int64)
  | float (bits : UInt32)
  | double (bits : UInt64)
  deriving DecidableEq, Repr

namespace PrimitiveValue

/-- Does a variable of the type hold such values? -/
def isOf : PrimitiveValue → Primitive → Bool
  | bool _, .boolean => true
  | int _, .byte | int _, .char | int _, .short | int _, .int => true
  | long _, .long => true
  | float _, .float => true
  | double _, .double => true
  | _, _ => false

/-- Two halves of 64 bits in 32 bits. -/
def fold (bits : UInt64) : Int32 := (bits ^^^ (bits >>> 32)).toUInt32.toInt32

/-- The hash of the value in an instance of its wrapper class. -/
def hash : PrimitiveValue → Int32
  | bool b => if b then 1231 else 1237
  | int n => n
  | long n => fold n.toUInt64
  | float bits => (FloatFormat.single.canonical bits.toNat).toUInt32.toInt32
  | double bits => fold (FloatFormat.double.canonical bits.toNat).toUInt64

/-- Equality for the operator `==`; none for values of different kinds. -/
def same? : PrimitiveValue → PrimitiveValue → Option Bool
  | bool a, bool b => some (a == b)
  | int a, int b => some (a == b)
  | long a, long b => some (a == b)
  | float a, float b => some (FloatFormat.single.equal a.toNat b.toNat)
  | double a, double b => some (FloatFormat.double.equal a.toNat b.toNat)
  | _, _ => none

end PrimitiveValue

/-- What a variable holds: a primitive value, or a reference to an object or `null`. -/
inductive Content
  | prim (v : PrimitiveValue)
  | ref (object? : Option Nat)
  deriving DecidableEq, Repr

/-- Does a variable of the type hold such contents? -/
def Content.isOf (t : TypeName) : Content → Bool
  | prim v => t.primitive?.any v.isOf
  | ref _ => t.primitive?.isNone

/-- The value of an expression: contents of a variable, or a new object. -/
inductive Datum
  | prim (v : PrimitiveValue)
  | ref (object? : Option Nat)
  /-- A new instance of a wrapper class. -/
  | box (v : PrimitiveValue)
  /-- A new array. Primitive values among the items stand for instances of wrapper classes. -/
  | array (items : List Content)
  deriving DecidableEq, Repr

/-- The value of a variable. -/
def Content.datum : Content → Datum
  | prim v => .prim v
  | ref object? => .ref object?

namespace Datum

/-- An item of an array of references. -/
def item? : Datum → Option Content
  | ref object? => some (.ref object?)
  | box v => some (.prim v)
  | prim _ | array _ => none

def truth? : Datum → Option Bool
  | prim (.bool b) => some b
  | _ => none

/-- The value in a new instance of a wrapper class. -/
def wrapped? : Datum → Option Datum
  | prim v => some (box v)
  | _ => none

def arith? (op : ArithOp) : Datum → Datum → Option Datum
  | prim (.int a), prim (.int b) => some (prim (.int (op.apply a b)))
  | _, _ => none

/-- The operator `==` for values of one kind. -/
def same? : Datum → Datum → Option Bool
  | prim a, prim b => a.same? b
  | ref a, ref b => some (a == b)
  | _, _ => none

end Datum

/-! ## Objects -/

/-- What is known of objects other than by the bodies that are evaluated. -/
structure World where
  isInstance : Nat → TypeName → Bool
  /-- What a method without parameters returns, such as an accessor or `getClass`. -/
  get : Nat → MethodRef → Content
  get_isOf : ∀ o m, (get o m).isOf m.ret = true
  equals : Nat → Option Nat → Bool
  hash : Nat → Int32
  /-- What the inherited methods answer. -/
  inheritedEquals : Nat → Option Nat → Bool
  inheritedHash : Nat → Int32

namespace World

open Synthesis

variable (w : World)

/-- The hash of an item of an array. -/
def hashOf : Content → Int32
  | .ref none => 0
  | .ref (some o) => w.hash o
  | .prim v => v.hash

/-- The hash of the items of an array. -/
def hashAll (items : List Content) : Int32 :=
  items.foldl (fun result item => 31 * result + w.hashOf item) 1

/-- The test of two references that may be null. -/
def nullSafeEquals (a b : Option Nat) : Bool :=
  a == b || a.any fun o => w.equals o b

/-- What calls return. Calls on `null` fail. -/
def call : CallKind → MethodRef → Option Datum → List Datum → Option Datum
  | .static, m, none, [.ref a, .ref b] =>
    if m = { equalsMethod objectsClass with params := [.object, .object] } then
      some (.prim (.bool (w.nullSafeEquals a b)))
    else none
  | .static, m, none, [.array items] =>
    if m.owner = objectsClass ∧ m.name = "hash" then some (.prim (.int (w.hashAll items)))
    else none
  | .static, m, none, [.prim (.float a), .prim (.float b)] =>
    if m.owner.text = Primitive.wrapper .float ∧ m.name = "compare" then
      some (.prim (.int (FloatFormat.single.compare a.toNat b.toNat)))
    else none
  | .static, m, none, [.prim (.double a), .prim (.double b)] =>
    if m.owner.text = Primitive.wrapper .double ∧ m.name = "compare" then
      some (.prim (.int (FloatFormat.double.compare a.toNat b.toNat)))
    else none
  | .virtual, m, some (.ref (some o)), [] => some (w.get o m).datum
  | .virtual, m, some (.ref (some o)), [.ref other] =>
    if m = equalsMethod .object then some (.prim (.bool (w.equals o other))) else none
  | .special, m, some (.ref (some o)), [.ref other] =>
    if m.name = "equals" then some (.prim (.bool (w.inheritedEquals o other))) else none
  | .special, m, some (.ref (some o)), [] =>
    if m.name = "hashCode" then some (.prim (.int (w.inheritedHash o))) else none
  | _, _, _, _ => none

/-- A reference that is cast to a type. -/
def cast (t : TypeName) : Datum → Option Datum
  | .ref none => some (.ref none)
  | .ref (some o) => if w.isInstance o t then some (.ref (some o)) else none
  | _ => none

/-- What bodies of `equals` and `hashCode` do with values. -/
@[simps]
def operations : Operations Option Datum where
  null := .ref none
  bool b := .prim (.bool b)
  int n := .prim (.int n)
  str _ := none
  truth := Datum.truth?
  field _ _ := none
  staticField _ := none
  call := w.call
  create _ _ _ := none
  array _ items := (items.mapM Datum.item?).map .array
  cast := w.cast
  boxed _ := Datum.wrapped?
  unboxed _ _ := none
  same := Datum.same?
  arith := Datum.arith?

/-- What a method of an object returns. -/
def result (body : List Stmt) (receiver : Nat) (args : List Datum) : Option Datum :=
  Meaning.resultOf w.operations ⟨some (.ref (some receiver)), args⟩ body

/-- Equal objects have equal hashes, and no object equals `null`. -/
structure KeepsContract : Prop where
  hash : ∀ a b, w.equals a (some b) = true → w.hash a = w.hash b
  null : ∀ a, w.equals a none = false

end World

end ClassSynth

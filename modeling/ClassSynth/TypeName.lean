import ClassSynth.Text.Basic

/-!
# Type names

A type is named in source notation with binary nested names: `int`, `java.lang.String`,
`java.util.Map$Entry`, `byte[][]`. Type arguments are erased when a name is made from text.

The eight primitive types are an enumeration; everything that depends on the kind of a primitive
(its wrapper class, its descriptor, its width) is a function on it.
-/

namespace ClassSynth

/-! ## Primitive types -/

/-- The primitive types. -/
inductive Primitive
  | boolean | byte | char | short | int | long | float | double
  deriving DecidableEq, Repr, Hashable

namespace Primitive

/-- Every primitive type. -/
def all : List Primitive :=
  [boolean, byte, char, short, int, long, float, double]

/-- The keyword that names the type. -/
def keyword : Primitive → String
  | boolean => "boolean"
  | byte => "byte"
  | char => "char"
  | short => "short"
  | int => "int"
  | long => "long"
  | float => "float"
  | double => "double"

/-- The class whose instances hold a value of the type. -/
def wrapper : Primitive → String
  | boolean => "java.lang.Boolean"
  | byte => "java.lang.Byte"
  | char => "java.lang.Character"
  | short => "java.lang.Short"
  | int => "java.lang.Integer"
  | long => "java.lang.Long"
  | float => "java.lang.Float"
  | double => "java.lang.Double"

/-- The letter that stands for the type in descriptors. -/
def descriptorChar : Primitive → Char
  | boolean => 'Z'
  | byte => 'B'
  | char => 'C'
  | short => 'S'
  | int => 'I'
  | long => 'J'
  | float => 'F'
  | double => 'D'

/-- Values of the type are held as `int` on the operand stack. -/
def isIntLike : Primitive → Bool
  | boolean | byte | char | short | int => true
  | long | float | double => false

/-- Values of the type take two slots. -/
def isWide : Primitive → Bool
  | long | double => true
  | _ => false

/-- The primitive type named by a keyword. -/
def ofKeyword? (s : String) : Option Primitive :=
  all.find? (·.keyword == s)

/-- The primitive type that a wrapper class holds. -/
def ofWrapper? (s : String) : Option Primitive :=
  all.find? (·.wrapper == s)

/-- The primitive type a descriptor letter stands for. -/
def ofDescriptorChar? (c : Char) : Option Primitive :=
  all.find? (·.descriptorChar == c)

end Primitive

/-! ## Erasure -/

/-- Drops everything between angle brackets, the brackets themselves and white space; `depth` is the
number of open brackets. -/
def eraseArguments (depth : Nat) : List Char → List Char
  | [] => []
  | c :: rest =>
    if c == '<' then eraseArguments (depth + 1) rest
    else if c == '>' then eraseArguments (depth - 1) rest
    else if depth == 0 && !isBlank c then c :: eraseArguments depth rest
    else eraseArguments depth rest

/-! ## Type names -/

/-- The name of a type. -/
structure TypeName where
  /-- The name as written. -/
  text : String
  deriving DecidableEq, Repr, Hashable, Inhabited

namespace TypeName

instance : ToString TypeName := ⟨text⟩

/-- The type named by a text. Erasure takes place as soon as the text holds an opening bracket or
white space; a closing bracket alone stays. -/
def ofText (s : String) : TypeName :=
  if s.toList.any fun c => c == '<' || isBlank c then
    ⟨String.ofList (eraseArguments 0 s.toList)⟩
  else ⟨s⟩

/-- The primitive type as a type name. -/
def ofPrimitive (p : Primitive) : TypeName := ⟨p.keyword⟩

/-- The result type of methods that return nothing. -/
def void : TypeName := ⟨"void"⟩

/-- The type of the `null` literal. -/
def null : TypeName := ⟨"null"⟩

def int : TypeName := ⟨"int"⟩
def boolean : TypeName := ⟨"boolean"⟩
def object : TypeName := ⟨"java.lang.Object"⟩
def string : TypeName := ⟨"java.lang.String"⟩

def isVoid (t : TypeName) : Bool := t.text == "void"

def isNull (t : TypeName) : Bool := t.text == "null"

/-- The primitive type of this name. -/
def primitive? (t : TypeName) : Option Primitive :=
  Primitive.ofKeyword? t.text

def isPrimitive (t : TypeName) : Bool := t.primitive?.isSome

/-- Everything but the primitive types and `void`. -/
def isReference (t : TypeName) : Bool := !t.isPrimitive && !t.isVoid

def isIntLike (t : TypeName) : Bool := t.primitive?.any Primitive.isIntLike

def isWide (t : TypeName) : Bool := t.primitive?.any Primitive.isWide

/-- Number of local or stack slots a value of the type takes. -/
def slotSize (t : TypeName) : Nat :=
  if t.isVoid then 0 else if t.isWide then 2 else 1

/-- The class that holds a value of this primitive type. -/
def boxed? (t : TypeName) : Option TypeName :=
  t.primitive?.map (⟨·.wrapper⟩)

/-- The primitive type that this class holds. -/
def unboxed? (t : TypeName) : Option TypeName :=
  (Primitive.ofWrapper? t.text).map ofPrimitive

/-! ### Arrays -/

/-- The array type with elements of this type. -/
def arrayOf (t : TypeName) : TypeName := ⟨t.text ++ "[]"⟩

/-- The element type of an array type. -/
def element? (t : TypeName) : Option TypeName :=
  match t.text.toList.reverse with
  | ']' :: '[' :: rest => some ⟨String.ofList rest.reverse⟩
  | _ => none

theorem length_lt_of_element? {t e : TypeName} (h : t.element? = some e) :
    e.text.length < t.text.length := by
  unfold element? at h
  split at h
  · next rest hrest =>
    have hlen := congrArg List.length hrest
    simp only [List.length_reverse, String.length_toList, List.length_cons] at hlen
    obtain rfl := Option.some.inj h
    simp only [String.length_ofList, List.length_reverse]
    omega
  · cases h

def isArray (t : TypeName) : Bool := t.element?.isSome

/-- The element type of an array type, or the type itself. -/
def elementType (t : TypeName) : TypeName := t.element?.getD t

/-- Number of trailing bracket pairs, and what stands before them; the name is given and returned in
reverse. -/
def stripDimensions : List Char → Nat × List Char
  | ']' :: '[' :: rest =>
    let (n, base) := stripDimensions rest
    (n + 1, base)
  | base => (0, base)

/-! ### Descriptors -/

/-- The descriptor of a type that is not an array. -/
def baseDescriptor (base : String) : List Char :=
  if base == "void" then ['V']
  else
    match Primitive.ofKeyword? base with
    | some p => [p.descriptorChar]
    | none => 'L' :: (replaceChar '.' '/' base).toList ++ [';']

/-- The descriptor of the type, as characters. -/
def descriptorChars (t : TypeName) : List Char :=
  let (n, base) := stripDimensions t.text.toList.reverse
  List.replicate n '[' ++ baseDescriptor (String.ofList base.reverse)

/-- The field descriptor of the type. -/
def descriptor (t : TypeName) : String :=
  String.ofList t.descriptorChars

/-! ### Names of classes -/

/-- The part after the last dot. -/
def simpleName (t : TypeName) : String :=
  afterLast (· == '.') t.text

/-- The part before the last dot; empty for the unnamed package. -/
def package (t : TypeName) : String :=
  (beforeLast? (· == '.') t.text).getD ""

/-- The name in a class constant: `java/lang/String`, or the descriptor of an array type. -/
def internalName (t : TypeName) : String :=
  if t.isArray then t.descriptor else replaceChar '.' '/' t.text

/-- The class of a class constant. -/
def ofInternal (s : String) : TypeName :=
  ⟨replaceChar '/' '.' s⟩

end TypeName

/-- Slots taken by values of all the types. -/
def totalSlots (types : List TypeName) : Nat :=
  (types.map TypeName.slotSize).foldr (· + ·) 0

example : TypeName.ofText "java.util.Map<K, List<V>>[]" = ⟨"java.util.Map[]"⟩ := by decide

end ClassSynth

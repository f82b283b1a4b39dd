import ClassSynth.Error
import ClassSynth.TypeName

/-!
# Method and field descriptors

Signatures in the notation of class files: `(Ljava/lang/String;J[[I)V`. `TypeName.descriptor` and
`methodDescriptor` write it, `parseFieldDescriptor` and `parseMethodDescriptor` read it.
-/

namespace ClassSynth

/-- The descriptor of a method, as characters. -/
def methodDescriptorChars (params : List TypeName) (ret : TypeName) : List Char :=
  '(' :: params.flatMap TypeName.descriptorChars ++ ')' :: ret.descriptorChars

/-- The descriptor of a method. -/
def methodDescriptor (params : List TypeName) (ret : TypeName) : String :=
  String.ofList (methodDescriptorChars params ret)

namespace Descriptor

/-- The array type of `n` dimensions over a type. -/
def addDimensions : Nat → TypeName → TypeName
  | 0, t => t
  | n + 1, t => addDimensions n t.arrayOf

/-- Splits at the semicolon that ends a class name. -/
def className? : List Char → Option (List Char × List Char)
  | [] => none
  | c :: rest =>
    if c == ';' then some ([], rest)
    else (className? rest).map fun (name, rest) => (c :: name, rest)

/-- Counts leading brackets. -/
def leadingBrackets : List Char → Nat × List Char
  | '[' :: rest =>
    let (n, rest) := leadingBrackets rest
    (n + 1, rest)
  | rest => (0, rest)

/-- The type at the front of a descriptor, and what follows it. Only a type without dimensions may
be `void`. -/
def typeAt? (cs : List Char) : Option (TypeName × List Char) :=
  let (dims, rest) := leadingBrackets cs
  match rest with
  | [] => none
  | 'V' :: rest => if dims == 0 then some (.void, rest) else none
  | 'L' :: rest =>
    (className? rest).map fun (name, rest) =>
      (addDimensions dims (.ofText (replaceChar '/' '.' (String.ofList name))), rest)
  | c :: rest =>
    (Primitive.ofDescriptorChar? c).map fun p => (addDimensions dims (.ofPrimitive p), rest)

/-- The parameter types up to the closing parenthesis, and what follows it. Each type takes at least
one character, so as many rounds as there are characters suffice. -/
def paramsAux : Nat → List TypeName → List Char → Option (List TypeName × List Char)
  | _, done, ')' :: rest => some (done.reverse, rest)
  | 0, _, _ => none
  | fuel + 1, done, cs =>
    match typeAt? cs with
    | some (t, rest) => paramsAux fuel (t :: done) rest
    | none => none

/-- Parameter types and result of a method descriptor. -/
def method? : List Char → Option (List TypeName × TypeName)
  | '(' :: cs =>
    match paramsAux cs.length [] cs with
    | some (params, rest) =>
      match typeAt? rest with
      | some (ret, []) => some (params, ret)
      | _ => none
    | none => none
  | _ => none

/-- The type of a field descriptor. -/
def field? (cs : List Char) : Option TypeName :=
  match typeAt? cs with
  | some (t, []) => some t
  | _ => none

end Descriptor

/-- The type of a field descriptor. -/
def parseFieldDescriptor (s : String) : Except ClassFormatError TypeName :=
  match Descriptor.field? s.toList with
  | some t => .ok t
  | none => .error (.invalidDescriptor s)

/-- Parameter types and result type of a method descriptor. -/
def parseMethodDescriptor (s : String) : Except ClassFormatError (List TypeName × TypeName) :=
  match Descriptor.method? s.toList with
  | some sig => .ok sig
  | none => .error (.invalidDescriptor s)

end ClassSynth

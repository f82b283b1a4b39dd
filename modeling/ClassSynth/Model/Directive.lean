/-!
# Directives

What a declaration asks to be generated: on a type, on a method, on a parameter. A directive with an
empty text behaves as if the text had its default.
-/

namespace ClassSynth

/-- The first text, unless it is empty. -/
def orDefault (text default : String) : String :=
  if text.isEmpty then default else text

/-! ## Directives on types -/

/-- Asks for an implementing class. -/
structure GenerateDirective where
  /-- The package of the class; empty for the package of the declared type. -/
  targetPackage : String := ""
  /-- What is added to the simple name of the declared type. -/
  classSuffix : String := "Impl"
  deriving DecidableEq, Repr

namespace GenerateDirective

def packageOr (d : GenerateDirective) (sourcePackage : String) : String :=
  orDefault d.targetPackage sourcePackage

def suffix (d : GenerateDirective) : String := orDefault d.classSuffix "Impl"

end GenerateDirective

/-- Which members a constructor takes. -/
inductive ConstructorKind
  | noArgs | requiredArgs | allArgs
  deriving DecidableEq, Repr

/-- Asks for constructors. -/
structure ConstructorDirective where
  kinds : List ConstructorKind := [.requiredArgs]
  deriving DecidableEq, Repr

/-- Adds an element at the end, unless the list has it. -/
def appendNew {α : Type} [BEq α] (l : List α) (a : α) : List α :=
  if l.contains a then l else l ++ [a]

/-- The kinds without repeats, each where it comes first. -/
def ConstructorDirective.distinctKinds (d : ConstructorDirective) : List ConstructorKind :=
  d.kinds.foldl appendNew []

/-- Asks for `equals`. -/
structure EqualsDirective where
  callSuper : Bool := false
  /-- Compares values in a way that allows them to be null. -/
  nullSafe : Bool := true
  deriving DecidableEq, Repr

/-- Asks for `hashCode`. -/
structure HashCodeDirective where
  callSuper : Bool := false
  deriving DecidableEq, Repr

/-- Asks for `toString`. -/
structure ToStringDirective where
  callSuper : Bool := false
  /-- Uses a helper class in place of a string builder. -/
  useHelper : Bool := false
  deriving DecidableEq, Repr

/-- Asks for static methods that make instances of the generated class. -/
structure FactoryDirective where
  /-- The class that holds the methods. -/
  location : String
  method : String
  /-- Replaces what an existing method returns. -/
  overrideReturn : Bool := true
  deriving DecidableEq, Repr

/-- The directives on a type. -/
structure TypeDirectives where
  generate : Option GenerateDirective := none
  constructor : Option ConstructorDirective := none
  equals : Option EqualsDirective := none
  hashCode : Option HashCodeDirective := none
  toString : Option ToStringDirective := none
  factory : Option FactoryDirective := none
  deriving DecidableEq, Repr

/-! ## Directives on methods -/

/-- Returns the stored value inside another expression. -/
structure WrapDirective where
  /-- A template with one place for the stored value. -/
  template : String
  storedType : String
  deriving DecidableEq, Repr

/-- What a method of invocations returns. -/
inductive ReturnMode
  | nothing
  | receiver
  /-- The value of the last invocation. -/
  | lastCall
  deriving DecidableEq, Repr

/-- Runs invocations one after the other. -/
structure InvokeDirective where
  /-- One template for each invocation. -/
  invocations : List String := []
  returns : ReturnMode := .nothing
  deriving DecidableEq, Repr

/-- The directives on a method. -/
structure MethodDirectives where
  exclude : Bool := false
  fieldName : Option String := none
  wrap : Option WrapDirective := none
  invoke : Option InvokeDirective := none
  optionalField : Bool := false
  equalsExclude : Bool := false
  hashCodeExclude : Bool := false
  toStringExclude : Bool := false
  deriving DecidableEq, Repr

namespace MethodDirectives

/-- The name of the field, if one is given. -/
def fieldName? (d : MethodDirectives) : Option String :=
  d.fieldName.filter (! ·.isEmpty)

/-- The wrapping, if both of its parts are given. -/
def wrap? (d : MethodDirectives) : Option WrapDirective :=
  d.wrap.filter fun w => !w.template.isEmpty && !w.storedType.isEmpty

end MethodDirectives

/-! ## Directives on parameters -/

/-- How a parameter is checked. -/
inductive NonNullHandler
  /-- Throws an exception of its own. -/
  | custom
  | guavaPreconditions
  | apacheValidate
  deriving DecidableEq, Repr

/-- The message of a failed check; the index of the parameter takes the place of the number in
braces. -/
def defaultNonNullMessage : String := "Argument index \x7b0\x7d must not be null"

/-- The exception of a failed check. -/
def defaultNonNullException : String := "java.lang.NullPointerException"

/-- Asks for a check that a parameter is not null. -/
structure NonNullDirective where
  handler : NonNullHandler := .custom
  messageText : String := defaultNonNullMessage
  exceptionName : String := defaultNonNullException
  deriving DecidableEq, Repr

namespace NonNullDirective

def message (d : NonNullDirective) : String := orDefault d.messageText defaultNonNullMessage

def exception (d : NonNullDirective) : String := orDefault d.exceptionName defaultNonNullException

end NonNullDirective

end ClassSynth

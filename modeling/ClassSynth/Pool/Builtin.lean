import ClassSynth.ClassUnit.Edit

/-!
# Built-in declarations

Declarations of the platform and library classes that generated code refers to. They have no bodies:
their methods are native, and abstract in interfaces.
-/

namespace ClassSynth

/-- A method of a built-in class. -/
structure BuiltinMethod where
  name : String
  descriptor : String
  flags : UInt16

/-- A built-in class; classes are given by their internal names. -/
structure BuiltinClass where
  name : String
  isInterface : Bool := false
  superclass : Option String := some ClassUnit.objectInternalName
  interfaces : List String := []
  methods : List BuiltinMethod := []

namespace BuiltinClass

/-! ## The table -/

/-- A method of instances, or a constructor. -/
def plain (name descriptor : String) : BuiltinMethod := { name, descriptor, flags := 0 }

def static (name descriptor : String) : BuiltinMethod :=
  { name, descriptor, flags := AccessFlags.isStatic }

/-- A static method whose last parameter takes any number of arguments. -/
def varargs (name descriptor : String) : BuiltinMethod :=
  { name, descriptor, flags := AccessFlags.isStatic ||| AccessFlags.isVarargs }

/-- The constructors of an exception. -/
def messageConstructors : List BuiltinMethod :=
  [plain "<init>" "()V", plain "<init>" "(Ljava/lang/String;)V"]

/-- All built-in classes. -/
def all : List BuiltinClass := [
  { name := "java/lang/Object", superclass := none
    methods := [
      plain "<init>" "()V",
      plain "equals" "(Ljava/lang/Object;)Z",
      plain "hashCode" "()I",
      plain "toString" "()Ljava/lang/String;",
      plain "getClass" "()Ljava/lang/Class;"] },
  { name := "java/lang/Class"
    methods := [
      plain "getName" "()Ljava/lang/String;",
      plain "getSimpleName" "()Ljava/lang/String;"] },
  { name := "java/lang/CharSequence", isInterface := true
    methods := [
      plain "length" "()I",
      plain "charAt" "(I)C",
      plain "toString" "()Ljava/lang/String;"] },
  { name := "java/lang/String"
    interfaces := ["java/lang/CharSequence"]
    methods := [
      plain "<init>" "()V",
      plain "<init>" "(Ljava/lang/String;)V",
      plain "length" "()I",
      plain "charAt" "(I)C",
      plain "isEmpty" "()Z",
      plain "concat" "(Ljava/lang/String;)Ljava/lang/String;",
      plain "trim" "()Ljava/lang/String;",
      plain "toUpperCase" "()Ljava/lang/String;",
      plain "toLowerCase" "()Ljava/lang/String;",
      static "valueOf" "(Ljava/lang/Object;)Ljava/lang/String;",
      static "valueOf" "(I)Ljava/lang/String;",
      varargs "format" "(Ljava/lang/String;[Ljava/lang/Object;)Ljava/lang/String;"] },
  { name := "java/lang/StringBuilder"
    interfaces := ["java/lang/CharSequence"]
    methods := [
      plain "<init>" "()V",
      plain "<init>" "(Ljava/lang/String;)V",
      plain "append" "(Ljava/lang/String;)Ljava/lang/StringBuilder;",
      plain "append" "(Ljava/lang/Object;)Ljava/lang/StringBuilder;",
      plain "append" "(Ljava/lang/CharSequence;)Ljava/lang/StringBuilder;",
      plain "append" "(Z)Ljava/lang/StringBuilder;",
      plain "append" "(C)Ljava/lang/StringBuilder;",
      plain "append" "(I)Ljava/lang/StringBuilder;",
      plain "append" "(J)Ljava/lang/StringBuilder;",
      plain "append" "(F)Ljava/lang/StringBuilder;",
      plain "append" "(D)Ljava/lang/StringBuilder;",
      plain "length" "()I",
      plain "charAt" "(I)C"] },
  { name := "java/lang/Number"
    methods := [
      plain "<init>" "()V",
      plain "byteValue" "()B",
      plain "shortValue" "()S",
      plain "intValue" "()I",
      plain "longValue" "()J",
      plain "floatValue" "()F",
      plain "doubleValue" "()D"] },
  { name := "java/lang/Boolean"
    methods := [
      static "valueOf" "(Z)Ljava/lang/Boolean;",
      plain "booleanValue" "()Z",
      static "hashCode" "(Z)I"] },
  { name := "java/lang/Character"
    methods := [
      static "valueOf" "(C)Ljava/lang/Character;",
      plain "charValue" "()C",
      static "hashCode" "(C)I"] },
  { name := "java/lang/Byte", superclass := some "java/lang/Number"
    methods := [
      static "valueOf" "(B)Ljava/lang/Byte;"] },
  { name := "java/lang/Short", superclass := some "java/lang/Number"
    methods := [
      static "valueOf" "(S)Ljava/lang/Short;"] },
  { name := "java/lang/Integer", superclass := some "java/lang/Number"
    methods := [
      static "valueOf" "(I)Ljava/lang/Integer;",
      static "hashCode" "(I)I",
      static "toString" "(I)Ljava/lang/String;"] },
  { name := "java/lang/Long", superclass := some "java/lang/Number"
    methods := [
      static "valueOf" "(J)Ljava/lang/Long;",
      static "hashCode" "(J)I"] },
  { name := "java/lang/Float", superclass := some "java/lang/Number"
    methods := [
      static "valueOf" "(F)Ljava/lang/Float;",
      static "compare" "(FF)I"] },
  { name := "java/lang/Double", superclass := some "java/lang/Number"
    methods := [
      static "valueOf" "(D)Ljava/lang/Double;",
      static "compare" "(DD)I"] },
  { name := "java/lang/Throwable"
    methods := [
      plain "<init>" "()V",
      plain "<init>" "(Ljava/lang/String;)V",
      plain "getMessage" "()Ljava/lang/String;"] },
  { name := "java/lang/Exception", superclass := some "java/lang/Throwable"
    methods := messageConstructors },
  { name := "java/lang/RuntimeException", superclass := some "java/lang/Exception"
    methods := messageConstructors },
  { name := "java/lang/NullPointerException", superclass := some "java/lang/RuntimeException"
    methods := messageConstructors },
  { name := "java/lang/IllegalArgumentException", superclass := some "java/lang/RuntimeException"
    methods := messageConstructors },
  { name := "java/lang/IllegalStateException", superclass := some "java/lang/RuntimeException"
    methods := messageConstructors },
  { name := "java/lang/UnsupportedOperationException"
    superclass := some "java/lang/RuntimeException"
    methods := messageConstructors },
  { name := "java/util/Objects"
    methods := [
      static "equals" "(Ljava/lang/Object;Ljava/lang/Object;)Z",
      varargs "hash" "([Ljava/lang/Object;)I",
      static "hashCode" "(Ljava/lang/Object;)I",
      static "isNull" "(Ljava/lang/Object;)Z",
      static "nonNull" "(Ljava/lang/Object;)Z",
      static "requireNonNull" "(Ljava/lang/Object;)Ljava/lang/Object;",
      static "requireNonNull" "(Ljava/lang/Object;Ljava/lang/String;)Ljava/lang/Object;",
      static "toString" "(Ljava/lang/Object;)Ljava/lang/String;"] },
  { name := "java/util/Optional"
    methods := [
      static "empty" "()Ljava/util/Optional;",
      static "of" "(Ljava/lang/Object;)Ljava/util/Optional;",
      static "ofNullable" "(Ljava/lang/Object;)Ljava/util/Optional;",
      plain "get" "()Ljava/lang/Object;",
      plain "isPresent" "()Z",
      plain "orElse" "(Ljava/lang/Object;)Ljava/lang/Object;"] },
  { name := "java/lang/Iterable", isInterface := true },
  { name := "java/util/Collection", isInterface := true
    interfaces := ["java/lang/Iterable"]
    methods := [
      plain "size" "()I",
      plain "isEmpty" "()Z",
      plain "contains" "(Ljava/lang/Object;)Z",
      plain "add" "(Ljava/lang/Object;)Z"] },
  { name := "java/util/List", isInterface := true
    interfaces := ["java/util/Collection"]
    methods := [
      plain "get" "(I)Ljava/lang/Object;"] },
  { name := "java/util/ArrayList"
    interfaces := ["java/util/List"]
    methods := [
      plain "<init>" "()V",
      plain "<init>" "(Ljava/util/Collection;)V"] },
  { name := "java/util/Collections"
    methods := [
      static "emptyList" "()Ljava/util/List;",
      static "unmodifiableList" "(Ljava/util/List;)Ljava/util/List;"] },
  { name := "java/text/MessageFormat"
    methods := [
      varargs "format" "(Ljava/lang/String;[Ljava/lang/Object;)Ljava/lang/String;"] },
  { name := "com/google/common/base/Preconditions"
    methods := [
      static "checkNotNull" "(Ljava/lang/Object;)Ljava/lang/Object;",
      static "checkNotNull" "(Ljava/lang/Object;Ljava/lang/Object;)Ljava/lang/Object;",
      varargs "checkNotNull"
        "(Ljava/lang/Object;Ljava/lang/String;[Ljava/lang/Object;)Ljava/lang/Object;"] },
  { name := "com/google/common/base/MoreObjects"
    methods := [
      static "toStringHelper"
        "(Ljava/lang/Object;)Lcom/google/common/base/MoreObjects$ToStringHelper;",
      static "toStringHelper"
        "(Ljava/lang/String;)Lcom/google/common/base/MoreObjects$ToStringHelper;"] },
  { name := "com/google/common/base/MoreObjects$ToStringHelper"
    methods := [
      plain "add"
        "(Ljava/lang/String;Ljava/lang/Object;)Lcom/google/common/base/MoreObjects$ToStringHelper;",
      plain "add" "(Ljava/lang/String;Z)Lcom/google/common/base/MoreObjects$ToStringHelper;",
      plain "add" "(Ljava/lang/String;C)Lcom/google/common/base/MoreObjects$ToStringHelper;",
      plain "add" "(Ljava/lang/String;I)Lcom/google/common/base/MoreObjects$ToStringHelper;",
      plain "add" "(Ljava/lang/String;J)Lcom/google/common/base/MoreObjects$ToStringHelper;",
      plain "add" "(Ljava/lang/String;F)Lcom/google/common/base/MoreObjects$ToStringHelper;",
      plain "add" "(Ljava/lang/String;D)Lcom/google/common/base/MoreObjects$ToStringHelper;",
      plain "toString" "()Ljava/lang/String;"] },
  { name := "org/apache/commons/lang3/Validate"
    methods := [
      static "notNull" "(Ljava/lang/Object;)Ljava/lang/Object;",
      varargs "notNull"
        "(Ljava/lang/Object;Ljava/lang/String;[Ljava/lang/Object;)Ljava/lang/Object;"] }]

/-! ## Class units -/

/-- The built-in class of a name. -/
def find? (name : String) : Option BuiltinClass :=
  let internal := replaceChar '.' '/' name
  all.find? (·.name == internal)

/-- Is there a built-in class of this name? -/
def knows (name : String) : Bool := (find? name).isSome

/-- The flags of a method in a built-in class. -/
def methodFlags (c : BuiltinClass) (m : BuiltinMethod) : UInt16 :=
  let body :=
    if c.isInterface && !AccessFlags.has m.flags AccessFlags.isStatic then AccessFlags.isAbstract
    else AccessFlags.isNative
  AccessFlags.isPublic ||| body ||| m.flags

/-- Declares a method. -/
def declare (c : BuiltinClass) (m : BuiltinMethod) : ClassUnit.Edit Unit := do
  match parseMethodDescriptor m.descriptor with
  | .ok (params, ret) => ClassUnit.declareMethod (c.methodFlags m) m.name params ret
  | .error e => throw (.classFormat e)

/-- Declares everything that the table says. -/
def declareAll (c : BuiltinClass) : ClassUnit.Edit Unit := do
  match c.superclass with
  | none => ClassUnit.clearSuperclass
  | some name =>
    if name != ClassUnit.objectInternalName then ClassUnit.setSuperclass (.ofInternal name)
  c.interfaces.forM fun name => ClassUnit.addInterface (.ofInternal name)
  c.methods.forM c.declare

/-- The version of built-in classes. -/
def major : UInt16 := ClassVersion.ofRelease 8

/-- The class unit of a built-in class. -/
def toUnit (c : BuiltinClass) : Except Error ClassUnit :=
  let name := TypeName.ofInternal c.name
  let new :=
    if c.isInterface then ClassUnit.newInterface name major else ClassUnit.newClass name major
  let (result, unit) := new.runEdit c.declareAll
  result.map fun () => unit

end BuiltinClass

end ClassSynth

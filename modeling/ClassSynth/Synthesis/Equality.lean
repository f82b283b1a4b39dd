import ClassSynth.Synthesis.Member

/-!
# Bodies of `equals` and `hashCode`

Both methods are about the members that take part, and about those of the superclass on demand.
-/

namespace ClassSynth.Synthesis

/-! ## Bodies of `equals`

Two objects are equal if they are of one class and all members that take part are equal: primitive
values by a test, floating-point values by a comparison under which a value that is no number equals
itself, references by their own `equals`.
-/

/-- The class with helpers for values that may be null. -/
def objectsClass : TypeName := ⟨"java.util.Objects"⟩

/-- The name of the variable that holds the other object. -/
def otherName : String := "that"

/-- The members that `equals` compares. -/
def comparedMembers (members : List Member) : List Member :=
  members.filter fun m => !m.isVoid && !m.accessor.directives.equalsExclude

/-- The `equals` of a class. -/
def equalsMethod (owner : TypeName) : MethodRef where
  owner
  name := "equals"
  params := [.object]
  ret := .boolean

/-- The test of two values of a reference type. -/
def referencesEqual (nullSafe : Bool) (a b : Expr) : Expr :=
  if nullSafe then
    .invokeStatic { equalsMethod objectsClass with params := [.object, .object] } [a, b]
  else .invokeVirtual a (equalsMethod .object) [b]

/-- The test of two floating-point values. -/
def floatsEqual (p : Primitive) (a b : Expr) : Expr :=
  let type := TypeName.ofPrimitive p
  .compare .eq
    (.invokeStatic { owner := ⟨p.wrapper⟩, name := "compare", params := [type, type], ret := .int }
      [a, b])
    (.int 0)

/-- The test of two values of a type. -/
def valuesEqual (nullSafe : Bool) (t : TypeName) (a b : Expr) : Expr :=
  match t.primitive? with
  | some .float => floatsEqual .float a b
  | some .double => floatsEqual .double a b
  | some _ => .compare .eq a b
  | none => referencesEqual nullSafe a b

/-- The test of a member in both objects. -/
def memberEqual (d : EqualsDirective) (owner : TypeName) (m : Member) : Expr :=
  valuesEqual d.nullSafe m.exposedType (m.read owner .this)
    (m.read owner (.localVar otherName owner))

/-- Ends the method with a fixed answer if a test holds. -/
def answerIf (cond : Expr) (answer : Bool) : Stmt := .ifThen cond [.ret (some (.bool answer))]

/-- The class of an object. -/
def classOf (e : Expr) : Expr :=
  .invokeVirtual e
    { owner := .object, name := "getClass", params := [], ret := ⟨"java.lang.Class"⟩ } []

/-- The tests that come before any member is looked at. -/
def equalsPrelude : List Stmt :=
  [answerIf (.compare .eq (.param 1) .this) true,
    answerIf (.compare .eq (.param 1) .null) false,
    answerIf (.compare .ne (classOf (.param 1)) (classOf .this)) false]

/-- The tests of the members and the inherited test. -/
def equalsTests (d : EqualsDirective) (owner superclass : TypeName) (members : List Member) :
    List Expr :=
  members.map (memberEqual d owner) ++
    if d.callSuper then [.invokeSuper (equalsMethod superclass) [.param 1]] else []

/-- The body of `equals`. Without members that take part, objects of one class are equal, and the
inherited test is left out. -/
def equalsBody (d : EqualsDirective) (owner superclass : TypeName) (members : List Member) :
    List Stmt :=
  let compared := comparedMembers members
  equalsPrelude ++
    if compared.isEmpty then [.ret (some (.bool true))]
    else
      [.declareLocal otherName owner (.cast owner (.param 1)),
        .ret (some (.and (equalsTests d owner superclass compared)))]

/-! ## Bodies of `hashCode`

A number that starts at one and takes in the inherited hash and the hash of all members that take
part, each step after a multiplication.
-/

/-- The name of the variable that holds the number. -/
def resultName : String := "result"

/-- The number so far. -/
def resultVar : Expr := .localVar resultName .int

/-- The members that take part in `hashCode`. -/
def hashedMembers (members : List Member) : List Member :=
  members.filter fun m => !m.isVoid && !m.accessor.directives.hashCodeExclude

/-- Takes in a number. -/
def takeIn (value : Expr) : Stmt :=
  .setLocal resultName (.arith .add (.arith .mul resultVar (.int 59)) value)

/-- The value of a member as an object. -/
def memberObject (owner : TypeName) (m : Member) : Expr :=
  let value := m.read owner .this
  if m.exposedType.isPrimitive then .boxed value m.exposedType else value

/-- The hash of all members together. -/
def membersHash (owner : TypeName) (members : List Member) : Expr :=
  .invokeStatic
    { owner := objectsClass, name := "hash", params := [TypeName.object.arrayOf], ret := .int }
    [.newArray .object (members.map (memberObject owner))]

/-- The hash that the superclass computes. -/
def inheritedHash (superclass : TypeName) : Expr :=
  .invokeSuper { owner := superclass, name := "hashCode", params := [], ret := .int } []

/-- The body of `hashCode`. -/
def hashCodeBody (d : HashCodeDirective) (owner superclass : TypeName) (members : List Member) :
    List Stmt :=
  let hashed := hashedMembers members
  [.declareLocal resultName .int (.int 1)] ++
    (if d.callSuper then [takeIn (inheritedHash superclass)] else []) ++
    (if hashed.isEmpty then [] else [takeIn (membersHash owner hashed)]) ++
    [.ret (some resultVar)]

end ClassSynth.Synthesis

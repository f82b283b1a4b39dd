import ClassSynth.Body.Basic
import ClassSynth.Model.Declaration

/-!
# Members

A member is a field together with the accessor that exposes it. The type of the field differs from
the type that the accessor returns if the accessor wraps the stored value.
-/

namespace ClassSynth

/-- A field and its accessor. -/
structure Member where
  /-- The name of the field. -/
  field : String
  /-- The type of the field. -/
  storedType : TypeName
  accessor : MethodDeclaration
  deriving DecidableEq, Repr

namespace Member

/-- The member of an accessor whose field has the given name. -/
def ofAccessor (field : String) (accessor : MethodDeclaration) : Member where
  field
  storedType := match accessor.directives.wrap? with
    | some wrap => .ofText wrap.storedType
    | none => accessor.returnType
  accessor

/-- The type that the accessor returns. -/
def exposedType (m : Member) : TypeName := m.accessor.returnType

def isOptional (m : Member) : Bool := m.accessor.directives.optionalField

/-- Does the accessor return nothing? Such a member has no value. -/
def isVoid (m : Member) : Bool := m.exposedType.isVoid

/-- The field in the class that has the member. -/
def fieldRef (m : Member) (owner : TypeName) : FieldRef where
  owner
  name := m.field
  type := m.storedType

/-- The value of the member of an object, read by its accessor. -/
def read (m : Member) (owner : TypeName) (target : Expr) : Expr :=
  .invokeVirtual target { owner, name := m.accessor.name, params := [], ret := m.exposedType } []

/-- The text of a member. -/
def render (m : Member) : String :=
  m.storedType.text ++ " " ++ m.field ++ " via " ++ m.accessor.name ++ "()" ++
    if m.storedType == m.exposedType then "" else " as " ++ m.exposedType.text

end Member

end ClassSynth

/-!
## Constructors

A constructor takes a parameter for each of its members, and one for each parameter of the inherited
constructor that no member shares. A member shares a parameter that has its type and the name of its
field.
-/

namespace ClassSynth

/-- The members that a constructor sets and the parameters of the constructor that it calls. -/
structure ConstructorPlan where
  members : List Member
  superParams : List Parameter := []
  deriving DecidableEq, Repr

namespace ConstructorPlan

/-- The parameters of a constructor, and the one-based positions of those that it passes on. -/
structure Signature where
  params : List TypeName
  forwarded : List Nat := []
  deriving DecidableEq, Repr

/-- Does the member share the parameter? -/
def shares (p : Parameter) (m : Member) : Bool := m.storedType == p.type && m.field == p.name

/-- Passes a parameter on: that of the first member that shares it, or one more. -/
def forward (members : List Member) (s : Signature) (p : Parameter) : Signature :=
  match members.findIdx? (shares p) with
  | some i => { s with forwarded := s.forwarded ++ [i + 1] }
  | none => { params := s.params ++ [p.type], forwarded := s.forwarded ++ [s.params.length + 1] }

def signature (c : ConstructorPlan) : Signature :=
  c.superParams.foldl (forward c.members) { params := c.members.map (·.storedType) }

/-- Calls the inherited constructor and sets the fields. -/
def body (c : ConstructorPlan) (owner superclass : TypeName) : List Stmt :=
  let inherited := Stmt.superInit superclass (c.superParams.map (·.type))
    (c.signature.forwarded.map .param)
  let assignments := c.members.zipIdx.map fun (m, i) =>
    Stmt.setField .this (m.fieldRef owner) (.param (i + 1))
  inherited :: assignments ++ [.ret none]

end ConstructorPlan

end ClassSynth

import ClassSynth.ClassFile.Basic
import ClassSynth.Descriptor
import ClassSynth.Model.Directive

/-!
# Declarations

A type as it is declared: its supertypes, its methods and constructors, and the directives on them.
A class that declares no constructor has one without parameters; an interface has none.
-/

namespace ClassSynth

/-- Kinds of declared types. -/
inductive TypeKind
  | interfaceKind | classKind
  deriving DecidableEq, Repr

/-- A declared parameter. -/
structure Parameter where
  name : String
  type : TypeName
  nonNull : Option NonNullDirective := none
  deriving DecidableEq, Repr

/-- The text of a parameter. -/
def Parameter.render (p : Parameter) : String := p.type.text ++ " " ++ p.name

/-- A declared method. -/
structure MethodDeclaration where
  name : String
  returnType : TypeName := .void
  params : List Parameter := []
  isAbstract : Bool := false
  isStatic : Bool := false
  directives : MethodDirectives := {}
  deriving DecidableEq, Repr

namespace MethodDeclaration

def paramTypes (m : MethodDeclaration) : List TypeName := m.params.map Parameter.type

def descriptor (m : MethodDeclaration) : String := methodDescriptor m.paramTypes m.returnType

/-- Name and descriptor; two methods of one key implement each other. -/
def key (m : MethodDeclaration) : String := m.name ++ m.descriptor

/-- The checked parameters with their positions; the first has position one. -/
def nonNullParams (m : MethodDeclaration) : List (Nat × NonNullDirective) :=
  m.params.zipIdx.filterMap fun (p, i) => p.nonNull.map fun d => (i + 1, d)

/-- The text of a method. -/
def render (m : MethodDeclaration) : String :=
  (if m.isStatic then "static " else "") ++ (if m.isAbstract then "abstract " else "") ++
    m.returnType.text ++ " " ++ m.name ++ "(" ++
    ", ".intercalate (m.params.map Parameter.render) ++ ")"

end MethodDeclaration

/-- A declared constructor. -/
structure ConstructorDeclaration where
  params : List Parameter := []
  deriving DecidableEq, Repr

namespace ConstructorDeclaration

def paramTypes (c : ConstructorDeclaration) : List TypeName := c.params.map Parameter.type

def descriptor (c : ConstructorDeclaration) : String := methodDescriptor c.paramTypes .void

end ConstructorDeclaration

/-- A declared type. -/
structure TypeDeclaration where
  qualifiedName : String
  kind : TypeKind := .interfaceKind
  isAbstract : Bool := false
  superclass : Option TypeName := none
  interfaces : List TypeName := []
  methods : List MethodDeclaration := []
  constructors : List ConstructorDeclaration := []
  directives : TypeDirectives := {}
  /-- Known, but no part of the input. -/
  isLibrary : Bool := false
  sourceFile : Option String := none
  deriving DecidableEq, Repr

namespace TypeDeclaration

def name (d : TypeDeclaration) : TypeName := .ofText d.qualifiedName

/-- The part of the name after the last dot or dollar sign. -/
def simpleName (d : TypeDeclaration) : String :=
  afterLast (fun c => c == '.' || c == '$') d.qualifiedName

def package (d : TypeDeclaration) : String :=
  (beforeLast? (· == '.') d.qualifiedName).getD ""

def isInterface (d : TypeDeclaration) : Bool := d.kind = .interfaceKind

/-- The superclass, then the interfaces. -/
def supertypes (d : TypeDeclaration) : List TypeName := d.superclass.toList ++ d.interfaces

def abstractMethods (d : TypeDeclaration) : List MethodDeclaration :=
  d.methods.filter (·.isAbstract)

/-- The constructors that a subclass can call. -/
def effectiveConstructors (d : TypeDeclaration) : List ConstructorDeclaration :=
  if d.isInterface then []
  else if d.constructors.isEmpty then [{}]
  else d.constructors

/-- The name of the class that implements or extends the type. -/
def targetName (d : TypeDeclaration) : TypeName :=
  let generate := d.directives.generate.getD {}
  let package := generate.packageOr d.package
  let simple := d.simpleName ++ generate.suffix
  .ofText (if package.isEmpty then simple else package ++ "." ++ simple)

/-- The text of a type without its members. -/
def render (d : TypeDeclaration) : String :=
  let head := match d.kind, d.isAbstract with
    | .interfaceKind, _ => "interface "
    | .classKind, true => "abstract class "
    | .classKind, false => "class "
  let superclass := d.superclass.elim "" fun t => " extends " ++ t.text
  let interfaces :=
    if d.interfaces.isEmpty then ""
    else
      (if d.isInterface then " extends " else " implements ") ++
        ", ".intercalate (d.interfaces.map TypeName.text)
  head ++ d.qualifiedName ++ superclass ++ interfaces

end TypeDeclaration

end ClassSynth

/-!
## Declarations of class files

A class file as a declaration: what a subclass in another file can see of it. Private and compiler
made methods and class initializers are left out; parameters are named by their position.
-/

namespace ClassSynth

/-- Parameters of the given types, named by their position. -/
def positionalParams (types : List TypeName) : List Parameter :=
  types.zipIdx.map fun (type, i) => { name := s!"arg{i}", type }

/-- A method that subclasses see. -/
inductive VisibleMethod
  | constructor (c : ConstructorDeclaration)
  | method (m : MethodDeclaration)

namespace VisibleMethod

def constructor? : VisibleMethod → Option ConstructorDeclaration
  | constructor c => some c
  | method _ => none

def method? : VisibleMethod → Option MethodDeclaration
  | constructor _ => none
  | method m => some m

/-- The declaration of a method, if subclasses see it. -/
def ofInfo (pool : ConstantPool) (m : MemberInfo) :
    Except ClassFormatError (Option VisibleMethod) := do
  if AccessFlags.has m.flags AccessFlags.isSynthetic
      || AccessFlags.has m.flags AccessFlags.isPrivate
  then return none
  let name ← pool.utf8 m.name
  if name == initializerName then return none
  let (types, returnType) ← parseMethodDescriptor (← pool.utf8 m.descriptor)
  let params := positionalParams types
  if name == constructorName then return some (.constructor { params })
  return some <| .method {
    name, returnType, params
    isAbstract := AccessFlags.has m.flags AccessFlags.isAbstract
    isStatic := AccessFlags.has m.flags AccessFlags.isStatic }

end VisibleMethod

/-- The declaration of a class file. -/
def TypeDeclaration.ofClassFile (c : ClassFile) : Except ClassFormatError TypeDeclaration := do
  let isInterface := AccessFlags.has c.flags AccessFlags.isInterface
  let name ← c.thisName
  let superName ← c.superName?
  let interfaces ← c.interfaceNames
  let members ← c.methods.filterMapM (VisibleMethod.ofInfo c.pool)
  return {
    qualifiedName := replaceChar '/' '.' name
    kind := if isInterface then .interfaceKind else .classKind
    isAbstract := AccessFlags.has c.flags AccessFlags.isAbstract
    superclass := if isInterface then none else superName.map .ofInternal
    interfaces := interfaces.map .ofInternal
    methods := members.filterMap VisibleMethod.method?
    constructors := members.filterMap VisibleMethod.constructor?
    isLibrary := true }

end ClassSynth

import ClassSynth.ClassFile.Basic
import ClassSynth.Descriptor

/-!
# Class units

A class unit is one class that can be inspected and extended: its name and its class file. A stub is
a declaration without a compiled form; it can be inspected, but neither patched nor written.
-/

namespace ClassSynth

/-- A method as a class declares it. -/
structure MethodSig where
  owner : TypeName
  name : String
  params : List TypeName
  ret : TypeName
  flags : UInt16
  deriving DecidableEq, Repr

namespace MethodSig

def descriptor (m : MethodSig) : String := methodDescriptor m.params m.ret

def isStatic (m : MethodSig) : Bool := AccessFlags.has m.flags AccessFlags.isStatic

def isAbstract (m : MethodSig) : Bool := AccessFlags.has m.flags AccessFlags.isAbstract

def isVarargs (m : MethodSig) : Bool := AccessFlags.has m.flags AccessFlags.isVarargs

def isConstructor (m : MethodSig) : Bool := m.name == constructorName

end MethodSig

/-- A field as a class declares it. -/
structure FieldSig where
  owner : TypeName
  name : String
  type : TypeName
  flags : UInt16
  deriving DecidableEq, Repr

/-- One class. -/
structure ClassUnit where
  name : TypeName
  file : ClassFile
  isStub : Bool := false

/-- The failure of a class file operation as a failure of the run. -/
def liftFormat {α : Type} (r : Except ClassFormatError α) : Except Error α :=
  r.mapError .classFormat

namespace ClassUnit

/-- The internal name of the root class. -/
def objectInternalName : String := "java/lang/Object"

/-- A public class without members that extends the root class. -/
def newClass (name : TypeName) (major : UInt16) : ClassUnit where
  name
  file := .ofNames major (AccessFlags.isPublic ||| AccessFlags.isSuper) name.internalName
    objectInternalName

/-- A public interface without members. -/
def newInterface (name : TypeName) (major : UInt16) : ClassUnit where
  name
  file := .ofNames major
    (AccessFlags.isPublic ||| AccessFlags.isInterface ||| AccessFlags.isAbstract)
    name.internalName objectInternalName

/-- The class of a class file. -/
def ofFile (file : ClassFile) : Except Error ClassUnit := do
  return { name := .ofInternal (← liftFormat file.thisName), file }

/-- The class in the bytes of a class file. -/
def ofBytes (bytes : Bytes) : Except Error ClassUnit := do
  ofFile (← liftFormat (ClassFile.parse bytes))

def toBytes (c : ClassUnit) : Except Error Bytes :=
  liftFormat c.file.toBytes

/-- A stub has no compiled form. -/
def ensureCompiled (c : ClassUnit) : Except Error Unit :=
  if c.isStub then .error (.missingSymbol ("compiled class " ++ c.name.text)) else .ok ()

def isInterface (c : ClassUnit) : Bool := AccessFlags.has c.file.flags AccessFlags.isInterface

def superclass? (c : ClassUnit) : Except Error (Option TypeName) := do
  return (← liftFormat c.file.superName?).map .ofInternal

def interfaces (c : ClassUnit) : Except Error (List TypeName) := do
  return (← liftFormat c.file.interfaceNames).map .ofInternal

/-- The superclass, then the interfaces. -/
def directSupertypes (c : ClassUnit) : Except Error (List TypeName) := do
  let superclass ← c.superclass?
  return superclass.toList ++ (← c.interfaces)

/-! ## Members -/

/-- A declared field. -/
def fieldSig (c : ClassUnit) (f : MemberInfo) : Except ClassFormatError FieldSig := do
  let name ← c.file.pool.utf8 f.name
  let descriptor ← c.file.pool.utf8 f.descriptor
  return { owner := c.name, name, type := ← parseFieldDescriptor descriptor, flags := f.flags }

/-- A declared method. -/
def methodSig (c : ClassUnit) (m : MemberInfo) : Except ClassFormatError MethodSig := do
  let (params, ret) ← parseMethodDescriptor (← c.file.pool.utf8 m.descriptor)
  return { owner := c.name, name := ← c.file.pool.utf8 m.name, params, ret, flags := m.flags }

def fields (c : ClassUnit) : Except Error (List FieldSig) :=
  liftFormat (c.file.fields.mapM c.fieldSig)

/-- All declared methods, constructors among them. -/
def methods (c : ClassUnit) : Except Error (List MethodSig) :=
  liftFormat (c.file.methods.mapM c.methodSig)

def constructors (c : ClassUnit) : Except Error (List MethodSig) := do
  return (← c.methods).filter (·.isConstructor)

/-- The first declared field of a name. -/
def field? (c : ClassUnit) (name : String) : Except Error (Option FieldSig) := do
  return (← c.fields).find? (·.name == name)

/-- The first declared method of a name and descriptor. -/
def method? (c : ClassUnit) (name descriptor : String) : Except Error (Option MethodSig) := do
  return (← c.methods).find? fun m => m.name == name && m.descriptor == descriptor

def hasField (c : ClassUnit) (name : String) : Bool := (c.file.fieldPosition? name).isSome

def hasMethod (c : ClassUnit) (name descriptor : String) : Bool :=
  (c.file.methodPosition? name descriptor).isSome

def hasConstructor (c : ClassUnit) (params : List TypeName) : Bool :=
  c.hasMethod constructorName (methodDescriptor params .void)

end ClassUnit

end ClassSynth

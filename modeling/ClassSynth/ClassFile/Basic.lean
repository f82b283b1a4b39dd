import ClassSynth.ClassFile.Attribute

/-!
# Class files

Class files with the flags that stand in them.
-/

/-!
## Flags and versions

The bits that a class file keeps for classes, fields and methods, and the versions of class files.
-/

namespace ClassSynth.AccessFlags

/-! ### Access flags

One bit means different things in different places.
-/

def isPublic : UInt16 := 0x0001
def isPrivate : UInt16 := 0x0002
def isProtected : UInt16 := 0x0004
def isStatic : UInt16 := 0x0008
def isFinal : UInt16 := 0x0010
/-- On classes. -/
def isSuper : UInt16 := 0x0020
/-- On methods. -/
def isSynchronized : UInt16 := 0x0020
/-- On methods. -/
def isVarargs : UInt16 := 0x0080
def isNative : UInt16 := 0x0100
def isInterface : UInt16 := 0x0200
def isAbstract : UInt16 := 0x0400
/-- Made by a compiler, and not in the source. -/
def isSynthetic : UInt16 := 0x1000

/-- Is the bit set? -/
def has (flags bit : UInt16) : Bool := flags &&& bit != 0

/-- The words whose bits are set, in the order of the table. -/
def words (flags : UInt16) (table : List (UInt16 × String)) : List String :=
  (table.filter fun (bit, _) => has flags bit).map (·.2)

/-- The modifiers of a method. -/
def describeMethod (flags : UInt16) : String :=
  " ".intercalate <| words flags
    [(isPublic, "public"), (isPrivate, "private"), (isProtected, "protected"),
      (isStatic, "static"), (isFinal, "final"), (isSynchronized, "synchronized"),
      (isNative, "native"), (isAbstract, "abstract")]

/-- The modifiers and the kind of a class. An interface is not called abstract. -/
def describeClass (flags : UInt16) : String :=
  " ".intercalate <|
    words flags [(isPublic, "public"), (isFinal, "final")] ++
      if has flags isInterface then ["interface"]
      else words flags [(isAbstract, "abstract")] ++ ["class"]

end ClassSynth.AccessFlags

namespace ClassSynth

/-! ### Class file versions -/

/-- The magic number of class files. -/
def classFileMagic : UInt32 := 0xcafebabe

/-- The name of constructors in class files. -/
def constructorName : String := "<init>"

/-- The name of class initializers in class files. -/
def initializerName : String := "<clinit>"

namespace ClassVersion

/-- The version of the first release, less one. -/
def base : Nat := 44

/-- The major version of a release (8, 11, 17, …). -/
def ofRelease (release : Nat) : UInt16 := (base + release).toUInt16

/-- The first version whose verifier uses frames. -/
def firstWithFrames : UInt16 := 50

/-- Are methods of this version verified with frames? -/
def usesFrames (major : UInt16) : Bool := firstWithFrames ≤ major

end ClassVersion

end ClassSynth

/-!
## Class files

The structure of a class file, with its bytes. Names and types are indices of the constant pool.
-/

namespace ClassSynth

/-- A field or a method as a class file holds it. -/
structure MemberInfo where
  flags : UInt16
  name : UInt16
  descriptor : UInt16
  attributes : List Attribute := []
  deriving DecidableEq, Repr

namespace MemberInfo

def toBytes (m : MemberInfo) : Bytes :=
  Bytes.ofU16 m.flags ++ Bytes.ofU16 m.name ++ Bytes.ofU16 m.descriptor ++
    Attribute.listBytes m.attributes

def read : Reader MemberInfo := do
  let flags ← Reader.u16
  let name ← Reader.u16
  let descriptor ← Reader.u16
  return { flags, name, descriptor, attributes := ← Attribute.readList }

/-- Does the pool hold this text at the index? -/
def hasText (pool : ConstantPool) (index : UInt16) (text : String) : Bool :=
  match pool.utf8 index with
  | .ok found => found == text
  | .error _ => false

/-- Is the attribute the code of a method? -/
def isCode (pool : ConstantPool) (a : Attribute) : Bool :=
  hasText pool a.name AttributeName.code.text

/-- The code of a method; `none` for methods without a body. -/
def code (m : MemberInfo) (pool : ConstantPool) :
    Except ClassFormatError (Option CodeAttribute) :=
  match m.attributes.find? (isCode pool) with
  | some a => (CodeAttribute.parse a.info).map some
  | none => .ok none

/-- Puts new content into the first attribute that satisfies the test. -/
def replaceInfo (isWanted : Attribute → Bool) (info : Bytes) : List Attribute → List Attribute
  | [] => []
  | a :: rest =>
    if isWanted a then { a with info } :: rest else a :: replaceInfo isWanted info rest

/-- Replaces the code of a method, or adds it. -/
def setCode (m : MemberInfo) (code : CodeAttribute) : ConstantPool.Adding MemberInfo := do
  let pool ← get
  if m.attributes.any (isCode pool) then
    return { m with attributes := replaceInfo (isCode pool) code.toBytes m.attributes }
  else
    let name ← ConstantPool.addUtf8 AttributeName.code.text
    return { m with attributes := m.attributes ++ [{ name, info := code.toBytes }] }

end MemberInfo

/-- A class file. Index zero in the place of the superclass stands for none. -/
structure ClassFile where
  minor : UInt16 := 0
  major : UInt16
  pool : ConstantPool
  flags : UInt16
  thisClass : UInt16
  superClass : UInt16
  interfaces : List UInt16 := []
  fields : List MemberInfo := []
  methods : List MemberInfo := []
  attributes : List Attribute := []

namespace ClassFile

/-- A class without members; names are internal names. -/
def ofNames (major flags : UInt16) (thisName superName : String) : ClassFile :=
  let (thisClass, pool) := (ConstantPool.addClass thisName).run .empty
  let (superClass, pool) := (ConstantPool.addClass superName).run pool
  { major, pool, flags, thisClass, superClass }

/-- The internal name of the class. -/
def thisName (c : ClassFile) : Except ClassFormatError String :=
  c.pool.className c.thisClass

/-- The internal name of the superclass, if there is one. -/
def superName? (c : ClassFile) : Except ClassFormatError (Option String) :=
  if c.superClass = 0 then .ok none
  else (c.pool.className c.superClass).map some

/-- The internal names of the interfaces. -/
def interfaceNames (c : ClassFile) : Except ClassFormatError (List String) :=
  c.interfaces.mapM c.pool.className

/-- Has the member this name and descriptor? -/
def isMember (c : ClassFile) (name descriptor : String) (m : MemberInfo) : Bool :=
  MemberInfo.hasText c.pool m.name name && MemberInfo.hasText c.pool m.descriptor descriptor

/-- The position of the first method with this name and descriptor. -/
def methodPosition? (c : ClassFile) (name descriptor : String) : Option Nat :=
  c.methods.findIdx? (c.isMember name descriptor)

/-- The position of the first field with this name. -/
def fieldPosition? (c : ClassFile) (name : String) : Option Nat :=
  c.fields.findIdx? fun f => MemberInfo.hasText c.pool f.name name

/-! ### Bytes -/

/-- The bytes of the class file, unless a count cannot be written in two bytes where that is
checked: the constants and the attributes of the class. -/
def toBytes (c : ClassFile) : Except ClassFormatError Bytes := do
  let pool ← c.pool.toBytes
  if c.attributes.length > 65535 then .error .outOfSpace
  else
    return Bytes.ofU32 classFileMagic ++ Bytes.ofU16 c.minor ++ Bytes.ofU16 c.major ++ pool ++
      Bytes.ofU16 c.flags ++ Bytes.ofU16 c.thisClass ++ Bytes.ofU16 c.superClass ++
      Bytes.counted Bytes.ofU16 c.interfaces ++ Bytes.counted MemberInfo.toBytes c.fields ++
      Bytes.counted MemberInfo.toBytes c.methods ++ Attribute.listBytes c.attributes

def read : Reader ClassFile := do
  let magic ← Reader.u32
  if magic ≠ classFileMagic then Reader.fail (.badMagic magic)
  let minor ← Reader.u16
  let major ← Reader.u16
  let pool ← ConstantPool.read
  let flags ← Reader.u16
  let thisClass ← Reader.u16
  let superClass ← Reader.u16
  let interfaces ← Reader.counted Reader.u16
  let fields ← Reader.counted MemberInfo.read
  let methods ← Reader.counted MemberInfo.read
  let attributes ← Attribute.readList
  return {
    minor, major, pool, flags, thisClass, superClass, interfaces, fields, methods, attributes }

/-- The class file that starts the bytes. -/
def parse (bytes : Bytes) : Except ClassFormatError ClassFile :=
  read.run bytes

end ClassFile

end ClassSynth

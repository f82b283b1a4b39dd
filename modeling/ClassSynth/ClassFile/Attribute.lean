import ClassSynth.ConstantPool.Basic

/-!
# Attributes

Attributes are named byte strings. The code attribute of a method and the tables inside it have a
structure of their own, read and written here.
-/

namespace ClassSynth

/-- The names of the attributes with a structure. -/
inductive AttributeName
  | code | stackMapTable | lineNumberTable | localVariableTable | localVariableTypeTable
  deriving DecidableEq, Repr

namespace AttributeName

/-- The name in the constant pool. -/
def text : AttributeName → String
  | code => "Code"
  | stackMapTable => "StackMapTable"
  | lineNumberTable => "LineNumberTable"
  | localVariableTable => "LocalVariableTable"
  | localVariableTypeTable => "LocalVariableTypeTable"

/-- The structured attribute of this name. -/
def ofText? (s : String) : Option AttributeName :=
  [code, stackMapTable, lineNumberTable, localVariableTable, localVariableTypeTable].find?
    (·.text == s)

end AttributeName

/-- A named byte string. -/
structure Attribute where
  name : UInt16
  info : Bytes
  deriving DecidableEq, Repr

namespace Attribute

def toBytes (a : Attribute) : Bytes :=
  Bytes.ofU16 a.name ++ Bytes.ofU32 a.info.length.toUInt32 ++ a.info

def read : Reader Attribute := do
  let name ← Reader.u16
  let length ← Reader.u32
  return { name, info := ← Reader.take length.toNat }

def listBytes (attributes : List Attribute) : Bytes :=
  Bytes.counted toBytes attributes

def readList : Reader (List Attribute) :=
  Reader.counted read

end Attribute

/-! ## Code -/

/-- The code from `start` up to `stop` is guarded by the code at `handler`. -/
structure ExceptionEntry where
  start : UInt16
  stop : UInt16
  handler : UInt16
  catchType : UInt16
  deriving DecidableEq, Repr

namespace ExceptionEntry

def toBytes (e : ExceptionEntry) : Bytes :=
  Bytes.ofU16 e.start ++ Bytes.ofU16 e.stop ++ Bytes.ofU16 e.handler ++ Bytes.ofU16 e.catchType

def read : Reader ExceptionEntry := do
  let start ← Reader.u16
  let stop ← Reader.u16
  let handler ← Reader.u16
  let catchType ← Reader.u16
  return { start, stop, handler, catchType }

end ExceptionEntry

/-- The code of a method. -/
structure CodeAttribute where
  maxStack : UInt16
  maxLocals : UInt16
  code : Bytes
  handlers : List ExceptionEntry := []
  attributes : List Attribute := []
  deriving DecidableEq, Repr

namespace CodeAttribute

def toBytes (c : CodeAttribute) : Bytes :=
  Bytes.ofU16 c.maxStack ++ Bytes.ofU16 c.maxLocals ++ Bytes.ofU32 c.code.length.toUInt32 ++
    c.code ++ Bytes.counted ExceptionEntry.toBytes c.handlers ++ Attribute.listBytes c.attributes

def read : Reader CodeAttribute := do
  let maxStack ← Reader.u16
  let maxLocals ← Reader.u16
  let length ← Reader.u32
  let code ← Reader.take length.toNat
  let handlers ← Reader.counted ExceptionEntry.read
  let attributes ← Attribute.readList
  return { maxStack, maxLocals, code, handlers, attributes }

/-- Reads the content of a code attribute. -/
def parse (info : Bytes) : Except ClassFormatError CodeAttribute :=
  read.run info

end CodeAttribute

/-! ## Debug tables -/

/-- The code at `start` belongs to a source line. -/
structure LineEntry where
  start : UInt16
  line : UInt16
  deriving DecidableEq, Repr

namespace LineEntry

def toBytes (e : LineEntry) : Bytes :=
  Bytes.ofU16 e.start ++ Bytes.ofU16 e.line

def read : Reader LineEntry := do
  let start ← Reader.u16
  return { start, line := ← Reader.u16 }

/-- Reads a line number table. -/
def parseTable (info : Bytes) : Except ClassFormatError (List LineEntry) :=
  (Reader.counted read).run info

/-- Writes a line number table. -/
def tableBytes (entries : List LineEntry) : Bytes :=
  Bytes.counted toBytes entries

end LineEntry

/-- A variable is live in a range of the code. The table of variable types has the same layout, with
the index of the signature in the place of the descriptor. -/
structure VariableEntry where
  start : UInt16
  length : UInt16
  name : UInt16
  descriptor : UInt16
  slot : UInt16
  deriving DecidableEq, Repr

namespace VariableEntry

def toBytes (e : VariableEntry) : Bytes :=
  Bytes.ofU16 e.start ++ Bytes.ofU16 e.length ++ Bytes.ofU16 e.name ++
    Bytes.ofU16 e.descriptor ++ Bytes.ofU16 e.slot

def read : Reader VariableEntry := do
  let start ← Reader.u16
  let length ← Reader.u16
  let name ← Reader.u16
  let descriptor ← Reader.u16
  let slot ← Reader.u16
  return { start, length, name, descriptor, slot }

/-- Reads a local variable table. -/
def parseTable (info : Bytes) : Except ClassFormatError (List VariableEntry) :=
  (Reader.counted read).run info

/-- Writes a local variable table. -/
def tableBytes (entries : List VariableEntry) : Bytes :=
  Bytes.counted toBytes entries

end VariableEntry

end ClassSynth

import ClassSynth.Bytes.Basic
import ClassSynth.Text.Unicode
import Std.Data.ExtHashMap

/-!
# The constant pool

A pool is a sequence of slots. A constant fills one slot; an eight-byte number leaves the slot after
it empty. Indices start at one and are held in 16 bits.

Adding a constant returns the first index that holds it, and appends it only if there is none. The
pool therefore keeps a table of first positions; its invariant says that the table is determined by
the slots.
-/

/-!
## Constants

The entries of a constant pool, with their tags and their bytes. Floating-point numbers are kept as
bit patterns, so that equal constants are exactly those with equal bytes.
-/

namespace ClassSynth

/-- One constant. Numbers in 16 bits are indices of other constants, unless named otherwise. -/
inductive Constant
  | utf8 (text : String)
  | integer (value : Int32)
  | float (bits : UInt32)
  | long (value : Int64)
  | double (bits : UInt64)
  | classRef (name : UInt16)
  | string (text : UInt16)
  | fieldRef (owner nameAndType : UInt16)
  | methodRef (owner nameAndType : UInt16)
  | interfaceMethodRef (owner nameAndType : UInt16)
  | nameAndType (name descriptor : UInt16)
  | methodHandle (kind : UInt8) (reference : UInt16)
  | methodType (descriptor : UInt16)
  | dynamic (bootstrap nameAndType : UInt16)
  | invokeDynamic (bootstrap nameAndType : UInt16)
  | module (name : UInt16)
  | package (name : UInt16)
  deriving DecidableEq, Hashable, Repr

namespace Constant

/-- Eight-byte numbers take two slots of the pool. -/
def isWide : Constant → Bool
  | long _ | double _ => true
  | _ => false

/-- How many slots the constant takes. -/
def slotCount (c : Constant) : Nat :=
  if c.isWide then 2 else 1

/-- The tag that starts the bytes of the constant. -/
def tag : Constant → UInt8
  | utf8 _ => 1
  | integer _ => 3
  | float _ => 4
  | long _ => 5
  | double _ => 6
  | classRef _ => 7
  | string _ => 8
  | fieldRef _ _ => 9
  | methodRef _ _ => 10
  | interfaceMethodRef _ _ => 11
  | nameAndType _ _ => 12
  | methodHandle _ _ => 15
  | methodType _ => 16
  | dynamic _ _ => 17
  | invokeDynamic _ _ => 18
  | module _ => 19
  | package _ => 20

/-- The bytes after the tag. -/
def payload : Constant → Bytes
  | utf8 text =>
    let encoded := ModifiedUtf8.encode text
    Bytes.ofCount encoded.length ++ encoded
  | integer value => Bytes.ofI32 value
  | float bits => Bytes.ofU32 bits
  | long value => Bytes.ofU64 value.toUInt64
  | double bits => Bytes.ofU64 bits
  | classRef a | string a | methodType a | module a | package a => Bytes.ofU16 a
  | fieldRef a b | methodRef a b | interfaceMethodRef a b | nameAndType a b | dynamic a b
  | invokeDynamic a b => Bytes.ofU16 a ++ Bytes.ofU16 b
  | methodHandle kind reference => kind :: Bytes.ofU16 reference

/-- The constant in a class file. -/
def toBytes (c : Constant) : Bytes :=
  c.tag :: c.payload

/-- The text of a string constant; `index` is where the constant stands. -/
def readText (index : UInt16) : Reader String := do
  let length ← Reader.u16
  let raw ← Reader.take length.toNat
  match ModifiedUtf8.decodeConstant raw with
  | some text => pure text
  | none => Reader.fail (.invalidUtf8 index)

/-- Two indices. -/
def readPair (make : UInt16 → UInt16 → Constant) : Reader Constant := do
  let a ← Reader.u16
  let b ← Reader.u16
  return make a b

/-- The constant after its tag. -/
def readPayload (index : UInt16) (tag : UInt8) : Reader Constant :=
  match tag with
  | 1 => do return .utf8 (← readText index)
  | 3 => do return .integer (← Reader.i32)
  | 4 => do return .float (← Reader.u32)
  | 5 => do return .long (← Reader.u64).toInt64
  | 6 => do return .double (← Reader.u64)
  | 7 => do return .classRef (← Reader.u16)
  | 8 => do return .string (← Reader.u16)
  | 9 => readPair .fieldRef
  | 10 => readPair .methodRef
  | 11 => readPair .interfaceMethodRef
  | 12 => readPair .nameAndType
  | 15 => do
    let kind ← Reader.u8
    return .methodHandle kind (← Reader.u16)
  | 16 => do return .methodType (← Reader.u16)
  | 17 => readPair .dynamic
  | 18 => readPair .invokeDynamic
  | 19 => do return .module (← Reader.u16)
  | 20 => do return .package (← Reader.u16)
  | _ => Reader.fail (.unknownConstantTag tag index)

/-- A constant that stands at the given index. -/
def read (index : UInt16) : Reader Constant := do
  readPayload index (← Reader.u8)

end Constant

end ClassSynth

/-! ## Pools -/

namespace ClassSynth

/-- A sequence of constants that are found again by their value. -/
structure ConstantPool where
  /-- The slots in order; `none` follows an eight-byte number. -/
  slots : Array (Option Constant)
  /-- The first position of each constant. -/
  positions : Std.ExtHashMap Constant Nat
  positions_eq : ∀ c, positions[c]? = slots.toList.findIdx? (· == some c)

namespace ConstantPool

/-- The slots that a constant takes. -/
def slotsOf (c : Constant) : List (Option Constant) :=
  some c :: if c.isWide then [none] else []

theorem findIdx?_slotsOf (c d : Constant) :
    (slotsOf c).findIdx? (· == some d) = if c = d then some 0 else none := by
  unfold slotsOf
  by_cases h : c = d <;> cases hw : c.isWide <;> simp [h, List.findIdx?_cons]

/-- The pool without constants. -/
def empty : ConstantPool where
  slots := #[]
  positions := ∅
  positions_eq := by simp

instance : Inhabited ConstantPool := ⟨empty⟩

/-- Two pools with the same slots are the same. -/
theorem ext_slots {p q : ConstantPool} (h : p.slots = q.slots) : p = q := by
  obtain ⟨ps, pp, hp⟩ := p
  obtain ⟨qs, qp, hq⟩ := q
  obtain rfl : ps = qs := h
  obtain rfl : pp = qp := Std.ExtHashMap.ext_getElem? fun c => by rw [hp, hq]
  rfl

/-- One more than the number of slots, as class files count. -/
def count (p : ConstantPool) : Nat := p.slots.size + 1

def isEmpty (p : ConstantPool) : Bool := p.slots.isEmpty

/-- The slot at an index; `some none` is the empty slot after an eight-byte number. -/
def slot? (p : ConstantPool) (index : UInt16) : Option (Option Constant) :=
  if index = 0 then none else p.slots[index.toNat - 1]?

/-- The constant at an index. -/
def get? (p : ConstantPool) (index : UInt16) : Option Constant :=
  (p.slot? index).join

/-- The index, in 16 bits, of the slot at a position. -/
def indexAt (position : Nat) : UInt16 := (position + 1).toUInt16

/-- The first index that holds a constant. -/
def index? (p : ConstantPool) (c : Constant) : Option UInt16 :=
  p.positions[c]?.map indexAt

/-- The table of first positions after a constant was appended. -/
theorem positions_push (p : ConstantPool) (c d : Constant) :
    (p.positions.insertIfNew c p.slots.size)[d]?
      = (p.slots ++ slotsOf c).toList.findIdx? (· == some d) := by
  rw [Array.toList_appendList, List.findIdx?_append, ← p.positions_eq d, findIdx?_slotsOf,
    Std.ExtHashMap.getElem?_insertIfNew]
  by_cases hcd : c = d
  · subst hcd
    by_cases hc : c ∈ p.positions <;> simp [hc]
  · simp [hcd]

/-- Appends a constant, also one that the pool holds already, and returns its index. -/
def push (p : ConstantPool) (c : Constant) : UInt16 × ConstantPool :=
  (indexAt p.slots.size,
    { slots := p.slots ++ slotsOf c
      positions := p.positions.insertIfNew c p.slots.size
      positions_eq := p.positions_push c })

/-- The first index that holds the constant; the constant is appended if there is none. -/
def add (p : ConstantPool) (c : Constant) : UInt16 × ConstantPool :=
  match p.index? c with
  | some index => (index, p)
  | none => p.push c

/-- Every constant with its index. -/
def toList (p : ConstantPool) : List (UInt16 × Constant) :=
  p.slots.toList.zipIdx.filterMap fun (slot, position) =>
    slot.map fun c => (indexAt position, c)

/-! ## Compound constants -/

/-- Steps that add constants and return an index. -/
abbrev Adding := StateM ConstantPool

/-- Adds one constant. -/
def add' (c : Constant) : Adding UInt16 := fun p => p.add c

def addUtf8 (text : String) : Adding UInt16 := add' (.utf8 text)

/-- Adds a class by its internal name. -/
def addClass (internalName : String) : Adding UInt16 := do
  add' (.classRef (← addUtf8 internalName))

def addString (text : String) : Adding UInt16 := do
  add' (.string (← addUtf8 text))

def addInteger (value : Int32) : Adding UInt16 := add' (.integer value)

def addNameAndType (name descriptor : String) : Adding UInt16 := do
  let name ← addUtf8 name
  let descriptor ← addUtf8 descriptor
  add' (.nameAndType name descriptor)

/-- Adds a reference to a member: its owner, then its name and type. -/
def addMember (make : UInt16 → UInt16 → Constant) (owner name descriptor : String) :
    Adding UInt16 := do
  let owner ← addClass owner
  let nameAndType ← addNameAndType name descriptor
  add' (make owner nameAndType)

def addFieldRef : String → String → String → Adding UInt16 := addMember .fieldRef

def addMethodRef : String → String → String → Adding UInt16 := addMember .methodRef

def addInterfaceMethodRef : String → String → String → Adding UInt16 :=
  addMember .interfaceMethodRef

/-! ## Lookup -/

/-- The text at an index. -/
def utf8 (p : ConstantPool) (index : UInt16) : Except ClassFormatError String :=
  match p.get? index with
  | some (.utf8 text) => .ok text
  | _ => .error (.invalidIndex index)

/-- The internal name of the class at an index. -/
def className (p : ConstantPool) (index : UInt16) : Except ClassFormatError String :=
  match p.get? index with
  | some (.classRef name) => p.utf8 name
  | _ => .error (.invalidIndex index)

/-- Name and descriptor at an index. -/
def nameAndType (p : ConstantPool) (index : UInt16) :
    Except ClassFormatError (String × String) :=
  match p.get? index with
  | some (.nameAndType name descriptor) => do
    let name ← p.utf8 name
    return (name, ← p.utf8 descriptor)
  | _ => .error (.invalidIndex index)

/-- A field or method that a constant refers to. -/
structure MemberRef where
  owner : String
  name : String
  descriptor : String
  onInterface : Bool
  deriving DecidableEq, Repr

/-- The member at an index. -/
def memberRef (p : ConstantPool) (index : UInt16) : Except ClassFormatError MemberRef :=
  let resolve (owner nameAndType : UInt16) (onInterface : Bool) :
      Except ClassFormatError MemberRef := do
    let (name, descriptor) ← p.nameAndType nameAndType
    return { owner := ← p.className owner, name, descriptor, onInterface }
  match p.get? index with
  | some (.fieldRef owner nat) | some (.methodRef owner nat) => resolve owner nat false
  | some (.interfaceMethodRef owner nat) => resolve owner nat true
  | _ => .error (.invalidIndex index)

/-! ## Bytes -/

/-- The pool in a class file, unless it holds more constants than two bytes can count. -/
def toBytes (p : ConstantPool) : Except ClassFormatError Bytes :=
  if p.count > 65535 then .error .outOfSpace
  else
    .ok (Bytes.ofCount p.count ++
      p.slots.toList.flatMap fun
        | some c => c.toBytes
        | none => [])

/-- Reads constants until the next index reaches `count`. A constant takes at least one slot, so as
many rounds as there are slots suffice. -/
def readAux (count : Nat) : Nat → ConstantPool → Reader ConstantPool
  | 0, p => pure p
  | fuel + 1, p =>
    if p.count < count then do
      let c ← Constant.read p.count.toUInt16
      readAux count fuel (p.push c).2
    else pure p

/-- The pool at the front of the bytes. -/
def read : Reader ConstantPool := do
  let count ← Reader.u16
  readAux count.toNat count.toNat empty

end ConstantPool

end ClassSynth

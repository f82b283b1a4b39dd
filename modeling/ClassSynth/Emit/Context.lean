import ClassSynth.ConstantPool.Basic
import ClassSynth.Descriptor
import ClassSynth.Error
import ClassSynth.Frame.State
import ClassSynth.Instruction.Opcode
import ClassSynth.TypeName

/-!
# Values and slots

The kinds of values that instructions tell apart, the slots that values fill while code is emitted,
and the slots of a method when it starts.
-/

/-!
## Kinds of values

Loads, stores and returns come in five variants, one for each kind of value on the operand stack.
Array elements have more, since small integers are packed.
-/

namespace ClassSynth

/-- The kinds of values that instructions tell apart. -/
inductive ValueKind
  | int | long | float | double | reference
  deriving DecidableEq, Repr

namespace ValueKind

/-- The kind of values of a primitive type. -/
def ofPrimitive : Primitive → ValueKind
  | .long => long
  | .float => float
  | .double => double
  | _ => int

/-- The kind of values of a type. -/
def ofType (t : TypeName) : ValueKind :=
  (t.primitive?.map ofPrimitive).getD reference

/-- Position of the kind among the variants of an instruction. -/
def ordinal : ValueKind → UInt8
  | int => 0
  | long => 1
  | float => 2
  | double => 3
  | reference => 4

/-- Loads the local variable in a given slot. -/
def load (k : ValueKind) : UInt8 := Opcode.iload + k.ordinal

/-- Loads the local variable in slot zero; the next three opcodes load from the next slots. -/
def load0 (k : ValueKind) : UInt8 := Opcode.iload0 + 4 * k.ordinal

/-- Stores into a given slot. -/
def store (k : ValueKind) : UInt8 := Opcode.istore + k.ordinal

/-- Stores into slot zero; the next three opcodes store into the next slots. -/
def store0 (k : ValueKind) : UInt8 := Opcode.istore0 + 4 * k.ordinal

/-- Returns a value. -/
def ret (k : ValueKind) : UInt8 := Opcode.ireturn + k.ordinal

end ValueKind

/-- The opcode that returns a value of a type. -/
def TypeName.returnOpcode (t : TypeName) : UInt8 :=
  (ValueKind.ofType t).ret

/-- The code of a primitive element type in `newarray`. -/
def Primitive.arrayCode : Primitive → UInt8
  | boolean => 4
  | char => 5
  | float => 6
  | double => 7
  | byte => 8
  | short => 9
  | int => 10
  | long => 11

/-- Stores an element of a primitive type into an array. -/
def Primitive.arrayStore : Primitive → UInt8
  | boolean | byte => Opcode.bastore
  | char => Opcode.castore
  | short => Opcode.sastore
  | int => Opcode.iastore
  | long => Opcode.lastore
  | float => Opcode.fastore
  | double => Opcode.dastore

/-- Stores an element of a type into an array. -/
def TypeName.arrayStore (t : TypeName) : UInt8 :=
  (t.primitive?.map Primitive.arrayStore).getD Opcode.aastore

example : ValueKind.reference.load0 = Opcode.aload0 ∧ ValueKind.double.store0 = Opcode.dstore0 ∧
    ValueKind.reference.ret = Opcode.areturn := by decide

end ClassSynth

/-!
## Slots during emission

While code is emitted, the types of all local variable and stack slots are known; a wide value fills
two slots, the second with `top`. Where control flow joins, the two states are merged: stacks must
agree, up to `null` in the place of an object, and locals that differ become unusable.
-/

namespace ClassSynth

/-- The types in all slots at one point of the code. -/
structure SlotState where
  locals : List VerificationType
  stack : List VerificationType
  deriving DecidableEq, Repr

namespace SlotState

/-- The state with one more value on the stack. -/
def push (s : SlotState) (t : VerificationType) : SlotState :=
  { s with stack := s.stack ++ t.slots }

/-- The state with a number of slots less on the stack, if there are as many. -/
def pop? (s : SlotState) (slots : Nat) : Option SlotState :=
  if slots ≤ s.stack.length then
    some { s with stack := s.stack.take (s.stack.length - slots) }
  else none

/-- A sequence of slots with new content from `slot` on; slots that it lacks hold `top`. -/
def store (locals : List VerificationType) (slot : Nat) (new : List VerificationType) :
    List VerificationType :=
  let filled := locals ++ List.replicate (slot - locals.length) .top
  filled.take slot ++ new ++ filled.drop (slot + new.length)

/-- The state with a new value in a local variable. -/
def setLocal (s : SlotState) (slot : Nat) (t : VerificationType) : SlotState :=
  { s with locals := store s.locals slot t.slots }

/-- The state with one type in the place of another in every slot. -/
def replaceAll (s : SlotState) (old new : VerificationType) : SlotState :=
  let replace := fun t => if t = old then new else t
  { locals := s.locals.map replace, stack := s.stack.map replace }

/-- One stack entry that stands for both. -/
def mergeEntry (a b : VerificationType) : Except CodeGenError VerificationType :=
  if a = b then .ok a
  else
    match a, b with
    | .null, .object _ => .ok b
    | .object _, .null => .ok a
    | _, _ => .error (.stackEntryMismatch a.describe b.describe)

/-- One stack that stands for two of the same height. -/
def mergeStacks : List VerificationType → List VerificationType →
    Except CodeGenError (List VerificationType)
  | a :: as, b :: bs => do
    let t ← mergeEntry a b
    return t :: (← mergeStacks as bs)
  | _, _ => .ok []

/-- A local variable that is the same in both states keeps its type. -/
def mergeLocal (a b : VerificationType) : VerificationType :=
  if a = b then a else .top

/-- The state where two flows of control join. -/
def merge (a b : SlotState) : Except CodeGenError SlotState :=
  if a.stack.length ≠ b.stack.length then .error .stackHeightMismatch
  else do
    let stack ← mergeStacks a.stack b.stack
    return { locals := List.zipWith mergeLocal a.locals b.locals, stack }

/-- The state as a frame. -/
def toFrame (s : SlotState) (pc : Nat) : FrameState where
  pc
  locals := VerificationType.localsOfSlots s.locals
  stack := VerificationType.ofSlots s.stack

end SlotState

end ClassSynth

/-!
## The method around a body

Where the parameters of a method stand, and what its local variables hold when it starts. The slot
of a parameter is the number of slots before it; `entrySlots` lists the same slots with their types.
-/

namespace ClassSynth

/-- The method that a body belongs to. -/
structure MethodContext where
  className : TypeName
  params : List TypeName
  ret : TypeName
  isStatic : Bool := false
  isConstructor : Bool := false
  deriving DecidableEq, Repr

/-- What the verifier calls a value of a type. -/
def verificationType (t : TypeName) : ConstantPool.Adding VerificationType :=
  if t.isNull then pure .null
  else
    match t.primitive? with
    | some .long => pure .long
    | some .float => pure .float
    | some .double => pure .double
    | some _ => pure .integer
    | none => do return .object (← ConstantPool.addClass t.internalName)

namespace MethodContext

/-- Slots taken by the receiver. -/
def receiverSlots (ctx : MethodContext) : Nat := if ctx.isStatic then 0 else 1

/-- First slot and type of a parameter, given its one-based index. -/
def paramSlot? (ctx : MethodContext) (index : Nat) : Option (Nat × TypeName) :=
  match index with
  | 0 => none
  | position + 1 =>
    ctx.params[position]?.map fun t =>
      (ctx.receiverSlots + totalSlots (ctx.params.take position), t)

/-- The slots of values of the types. -/
def slotsOfTypes : List TypeName → ConstantPool.Adding (List VerificationType)
  | [] => pure []
  | t :: rest => do
    let vt ← verificationType t
    return vt.slots ++ (← slotsOfTypes rest)

/-- What the receiver slot holds at the start of the method. -/
def entryReceiver (ctx : MethodContext) : ConstantPool.Adding (List VerificationType) :=
  if ctx.isStatic then pure []
  else if ctx.isConstructor then pure [.uninitializedThis]
  else do return [.object (← ConstantPool.addClass ctx.className.internalName)]

/-- What the local variable slots hold at the start of the method. -/
def entrySlots (ctx : MethodContext) : ConstantPool.Adding (List VerificationType) := do
  let receiver ← ctx.entryReceiver
  return receiver ++ (← slotsOfTypes ctx.params)

/-- The local variables at the start of the method, as frames list them. -/
def entryLocals (ctx : MethodContext) : ConstantPool.Adding (List VerificationType) := do
  return VerificationType.localsOfSlots (← ctx.entrySlots)

end MethodContext

end ClassSynth

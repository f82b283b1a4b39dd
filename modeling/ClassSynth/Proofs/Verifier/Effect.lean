import ClassSynth.ConstantPool.Basic
import ClassSynth.Descriptor
import ClassSynth.Emit.Context
import ClassSynth.Instruction.Code
import Mathlib.Algebra.Ring.Nat

/-!
# Effects of instructions

What an instruction takes from the operand stack, what it leaves there, and which local variables it
touches, read from its opcode and from the descriptors that its operand refers to. Emission has no
part in this: the effects are those that a reader of finished code finds.

The table knows the instructions that bodies are made of; other instructions have no effect here.
-/

namespace ClassSynth

/-! ## Kinds in descriptors -/

namespace ValueKind

/-- Takes two slots. -/
def isWide : ValueKind → Bool
  | long | double => true
  | _ => false

/-- The number of slots of a value. -/
def slots (k : ValueKind) : Nat := if k.isWide then 2 else 1

/-- The slots of values one after the other. -/
def slotsOf (ks : List ValueKind) : Nat := (ks.map slots).sum

/-- The kind at a position among the variants of an instruction. -/
def ofOrdinal (ordinal : UInt8) : ValueKind :=
  if ordinal = 0 then int
  else if ordinal = 1 then long
  else if ordinal = 2 then float
  else if ordinal = 3 then double
  else reference

end ValueKind

namespace Descriptor

/-- The kind of the values of the type at the front of a descriptor, and what follows it. -/
def kindAt? : List Char → Option (ValueKind × List Char)
  | [] => none
  | 'L' :: rest => (className? rest).map fun (_, rest) => (.reference, rest)
  | '[' :: rest => (kindAt? rest).map fun (_, rest) => (.reference, rest)
  | c :: rest => (Primitive.ofDescriptorChar? c).map fun p => (.ofPrimitive p, rest)

/-- The kinds of values up to the closing parenthesis, and what follows it. Each takes at least one
character, so as many rounds as there are characters suffice. -/
def kindsAux : Nat → List Char → Option (List ValueKind × List Char)
  | _, ')' :: rest => some ([], rest)
  | 0, _ => none
  | fuel + 1, cs => do
    let (k, rest) ← kindAt? cs
    let (ks, rest) ← kindsAux fuel rest
    return (k :: ks, rest)

/-- The kind of the values of a field. -/
def fieldKind? (descriptor : String) : Option ValueKind :=
  (kindAt? descriptor.toList).map (·.1)

/-- The kinds of the arguments of a method, and of its result unless it is `void`. -/
def methodKinds? (descriptor : String) : Option (List ValueKind × List ValueKind) :=
  match descriptor.toList with
  | '(' :: cs => do
    let (params, rest) ← kindsAux cs.length cs
    if rest = ['V'] then return (params, [])
    let (ret, _) ← kindAt? rest
    return (params, [ret])
  | _ => none

end Descriptor

/-! ## Effects -/

/-- What an instruction does to the operand stack and the local variables. -/
inductive Effect
  /-- Values are taken from the stack and others are pushed. In either list the last is on top. -/
  | takes (pops pushes : List ValueKind)
  | null
  | load (kind : ValueKind) (slot : Nat)
  | store (kind : ValueKind) (slot : Nat)
  /-- A value that fills a number of slots is dropped. -/
  | drop (slots : Nat)
  | dup
  /-- An object is created that no constructor was called on. -/
  | new
  /-- A constructor is called on an object. -/
  | init (params : List ValueKind)
  deriving DecidableEq, Repr

namespace Effect

/-- The number of slots that are taken from the stack. -/
def pops : Effect → Nat
  | takes pops _ => ValueKind.slotsOf pops
  | null | load _ _ | new => 0
  | store k _ => k.slots
  | drop slots => slots
  | dup => 1
  | init params => 1 + ValueKind.slotsOf params

/-- The number of slots that are pushed. -/
def pushes : Effect → Nat
  | takes _ pushes => ValueKind.slotsOf pushes
  | null | new => 1
  | load k _ => k.slots
  | store _ _ | drop _ | init _ => 0
  | dup => 2

/-- The end of the slots of the local variable that is touched. -/
def localsEnd : Effect → Nat
  | load k slot | store k slot => slot + k.slots
  | _ => 0

/-- The effect of an opcode without an operand. -/
def ofOpcode? (opcode : UInt8) : Option Effect :=
  if opcode = Opcode.aconstNull then some .null
  else if Opcode.inRange (Opcode.iconst0 - 1) (Opcode.iconst0 + 5) opcode then
    some (takes [] [.int])
  else if Opcode.inRange Opcode.iload0 (Opcode.aload0 + 3) opcode then
    some (load (.ofOrdinal ((opcode - Opcode.iload0) / 4)) ((opcode - Opcode.iload0) % 4).toNat)
  else if Opcode.inRange Opcode.istore0 (Opcode.astore0 + 3) opcode then
    some (store (.ofOrdinal ((opcode - Opcode.istore0) / 4)) ((opcode - Opcode.istore0) % 4).toNat)
  else if opcode = Opcode.lastore then some (takes [.reference, .int, .long] [])
  else if opcode = Opcode.fastore then some (takes [.reference, .int, .float] [])
  else if opcode = Opcode.dastore then some (takes [.reference, .int, .double] [])
  else if opcode = Opcode.aastore then some (takes [.reference, .int, .reference] [])
  else if Opcode.inRange Opcode.iastore Opcode.sastore opcode then
    some (takes [.reference, .int, .int] [])
  else if opcode = Opcode.pop then some (drop 1)
  else if opcode = Opcode.pop2 then some (drop 2)
  else if opcode = Opcode.dup then some .dup
  else if opcode = Opcode.iadd || opcode = Opcode.imul then some (takes [.int, .int] [.int])
  else if opcode = Opcode.lcmp then some (takes [.long, .long] [.int])
  else if opcode = Opcode.fcmpl then some (takes [.float, .float] [.int])
  else if opcode = Opcode.dcmpl then some (takes [.double, .double] [.int])
  else if Opcode.inRange Opcode.ireturn Opcode.areturn opcode then
    some (takes [.ofOrdinal (opcode - Opcode.ireturn)] [])
  else if opcode = Opcode.returnVoid then some (takes [] [])
  else if opcode = Opcode.athrow then some (takes [.reference] [])
  else none

/-- The effect of an opcode with an explicit slot. -/
def ofSlotOpcode? (opcode : UInt8) (slot : Nat) : Option Effect :=
  if Opcode.inRange Opcode.iload Opcode.aload opcode then
    some (load (.ofOrdinal (opcode - Opcode.iload)) slot)
  else if Opcode.inRange Opcode.istore Opcode.astore opcode then
    some (store (.ofOrdinal (opcode - Opcode.istore)) slot)
  else none

/-- The effect of an opcode with a jump target, apart from the jump. -/
def ofBranchOpcode? (opcode : UInt8) : Option Effect :=
  if opcode = Opcode.goto then some (takes [] [])
  else if opcode = Opcode.ifeq || opcode = Opcode.ifne then some (takes [.int] [])
  else if opcode = Opcode.ifnull || opcode = Opcode.ifnonnull then some (takes [.reference] [])
  else if opcode = Opcode.ifIcmpeq || opcode = Opcode.ifIcmpne then some (takes [.int, .int] [])
  else if opcode = Opcode.ifAcmpeq || opcode = Opcode.ifAcmpne then
    some (takes [.reference, .reference] [])
  else none

/-- The effect of loading a constant. -/
def ofConstant? : Constant → Option Effect
  | .integer _ => some (takes [] [.int])
  | .float _ => some (takes [] [.float])
  | .string _ | .classRef _ => some (takes [] [.reference])
  | _ => none

/-- The effect of an access to a field. -/
def ofField? (opcode : UInt8) (k : ValueKind) : Option Effect :=
  if opcode = Opcode.getstatic then some (takes [] [k])
  else if opcode = Opcode.putstatic then some (takes [k] [])
  else if opcode = Opcode.getfield then some (takes [.reference] [k])
  else if opcode = Opcode.putfield then some (takes [.reference, k] [])
  else none

/-- The effect of a call of the method at an index of the pool. A constructor is a method of a name
of its own. -/
def ofCall? (pool : ConstantPool) (opcode : UInt8) (index : UInt16) : Option Effect := do
  let m ← (pool.memberRef index).toOption
  let (params, ret) ← Descriptor.methodKinds? m.descriptor
  if opcode = Opcode.invokestatic then return takes params ret
  else if opcode = Opcode.invokespecial ∧ m.name = "<init>" ∧ ret = [] then return init params
  else return takes (.reference :: params) ret

/-- The effect of an opcode with an index of the pool. -/
def ofIndexOpcode? (pool : ConstantPool) (opcode : UInt8) (index : UInt16) : Option Effect :=
  if opcode = Opcode.sipush then some (takes [] [.int])
  else if opcode = Opcode.ldcWide then (pool.get? index).bind ofConstant?
  else if Opcode.inRange Opcode.getstatic Opcode.putfield opcode then do
    let f ← (pool.memberRef index).toOption
    ofField? opcode (← Descriptor.fieldKind? f.descriptor)
  else if Opcode.inRange Opcode.invokevirtual Opcode.invokestatic opcode then
    ofCall? pool opcode index
  else if opcode = Opcode.new then some .new
  else if opcode = Opcode.anewarray then some (takes [.int] [.reference])
  else if opcode = Opcode.checkcast then some (takes [.reference] [.reference])
  else none

end Effect

namespace Instruction

/-- The effect of an instruction, apart from where control goes. -/
def effect? (pool : ConstantPool) (i : Instruction) : Option Effect :=
  match i.operand with
  | .empty => Effect.ofOpcode? i.opcode
  | .byte value =>
    if i.opcode = Opcode.bipush then some (.takes [] [.int])
    else if i.opcode = Opcode.ldc then (pool.get? value.toUInt16).bind Effect.ofConstant?
    else if i.opcode = Opcode.newarray then some (.takes [.int] [.reference])
    else none
  | .short index => Effect.ofIndexOpcode? pool i.opcode index
  | .slot index _ => Effect.ofSlotOpcode? i.opcode index.toNat
  | .branch _ => Effect.ofBranchOpcode? i.opcode
  | .invokeInterface index _ => Effect.ofCall? pool i.opcode index
  | _ => none

@[simp] theorem effect?_mapLabels (pool : ConstantPool) (f : Label → Label) (i : Instruction) :
    (i.mapLabels f).effect? pool = i.effect? pool := by
  obtain ⟨opcode, operand⟩ := i
  cases operand <;> rfl

end Instruction

/-! ## Paths -/

namespace Verifier

/-- The offsets that control goes to behind an instruction. -/
def next (p : Nat × Instruction) : List Nat :=
  p.2.labels ++ if p.2.isUnconditionalExit then [] else [p.1 + p.2.sizeAt p.1]

variable {σ : Type}

/-- Control arrives at an offset, where the instructions on the way have changed a state by their
effects. -/
inductive Arrives (pool : ConstantPool) (code : List (Nat × Instruction))
    (transfer : Nat → Effect → σ → Option σ) (entry : σ) : Nat → σ → Prop
  | entry : Arrives pool code transfer entry 0 entry
  | step {pc pc' : Nat} {i : Instruction} {effect : Effect} {s s' : σ}
      (h : Arrives pool code transfer entry pc s) (hi : (pc, i) ∈ code)
      (heffect : i.effect? pool = some effect) (hs : transfer pc effect s = some s')
      (hnext : pc' ∈ next (pc, i)) : Arrives pool code transfer entry pc' s'

/-- What an effect does to the height of the operand stack, if it is high enough. -/
def height (_ : Nat) (effect : Effect) (h : Nat) : Option Nat :=
  if effect.pops ≤ h then some (h - effect.pops + effect.pushes) else none

end Verifier

end ClassSynth

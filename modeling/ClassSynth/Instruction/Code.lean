import ClassSynth.ConstantPool.Basic
import ClassSynth.Decimal.Shortest
import ClassSynth.Instruction.Basic

/-!
# Code

Code as bytes and as text.
-/

/-!
## Code as bytes

`decode` reads code into instructions with their offsets; labels are offsets. `encode` writes
instructions whose labels are positions in the list; the position after the last stands for the end
of the code. Offsets of jumps and the padding of switches follow from `layout`.
-/

namespace ClassSynth.Instruction

/-! ### Reading -/

/-- The offset a jump from `pc` leads to. -/
def targetOf (pc : Nat) (offset : Int) : Reader Label :=
  let target := (pc : Int) + offset
  if target < 0 ∨ target > 0xffffffff then Reader.fail (.invalidBranchTarget target)
  else pure target.toNat

/-- A jump target in four bytes. -/
def readTarget (pc : Nat) : Reader Label := do
  targetOf pc (← Reader.i32).toInt

/-- One case of a lookup switch. -/
def readCase (pc : Nat) : Reader (Int32 × Label) := do
  let key ← Reader.i32
  return (key, ← readTarget pc)

/-- The operand of an instruction at `pc`. -/
def readOperand (pc : Nat) : OperandShape → Reader Operand
  | .empty => pure .empty
  | .byte => do return .byte (← Reader.u8)
  | .short => do return .short (← Reader.u16)
  | .slot => do return .slot (← Reader.u8).toUInt16 false
  | .increment => do
    let index ← Reader.u8
    let delta ← Reader.u8
    return .increment index.toUInt16 delta.toInt8.toInt16 false
  | .branch => do return .branch (← targetOf pc (← Reader.i16).toInt)
  | .wideBranch => do return .wideBranch (← readTarget pc)
  | .tableSwitch => do
    let _ ← Reader.take (padding pc)
    let fallback ← readTarget pc
    let low ← Reader.i32
    let high ← Reader.i32
    let count := (high.toInt - low.toInt + 1).toNat
    return .tableSwitch fallback low (← Reader.many count (readTarget pc))
  | .lookupSwitch => do
    let _ ← Reader.take (padding pc)
    let fallback ← readTarget pc
    let count := (← Reader.i32).toInt.toNat
    return .lookupSwitch fallback (← Reader.many count (readCase pc))
  | .invokeInterface => do
    let index ← Reader.u16
    let count ← Reader.u8
    let _ ← Reader.u8
    return .invokeInterface index count
  | .invokeDynamic => do
    let index ← Reader.u16
    let _ ← Reader.u16
    return .invokeDynamic index
  | .newMultiArray => do
    let index ← Reader.u16
    return .newMultiArray index (← Reader.u8)

/-- What follows `wide`: an opcode with a slot in two bytes. -/
def readWide (pc : Nat) : Reader Instruction := do
  let opcode ← Reader.u8
  let index ← Reader.u16
  if opcode == Opcode.iinc then
    let delta ← Reader.i16
    return ⟨opcode, .increment index delta true⟩
  else if Opcode.usesSlot opcode then return ⟨opcode, .slot index true⟩
  else Reader.fail (.unknownOpcode opcode pc)

/-- The instruction at the front of the bytes, with its offset. -/
def read : Reader (Nat × Instruction) := do
  let pc ← Reader.offset
  let opcode ← Reader.u8
  if opcode == Opcode.wide then return (pc, ← readWide pc)
  else
    match Opcode.shape? opcode with
    | some shape => return (pc, ⟨opcode, ← readOperand pc shape⟩)
    | none => Reader.fail (.unknownOpcode opcode pc)

/-- Reads instructions until the bytes end; `done` holds them last first. An instruction takes at
least one byte, so as many rounds as there are bytes suffice. -/
def decodeAux : Nat → List (Nat × Instruction) → Cursor →
    Except ClassFormatError (List (Nat × Instruction))
  | 0, done, _ => .ok done.reverse
  | fuel + 1, done, c =>
    if c.rest.isEmpty then .ok done.reverse
    else
      match read c with
      | .ok (i, c) => decodeAux fuel (i :: done) c
      | .error e => .error e

/-- The instructions of the code, with their offsets. -/
def decode (code : Bytes) : Except ClassFormatError (List (Nat × Instruction)) :=
  decodeAux code.length [] ⟨0, code⟩

/-! ### Writing -/

/-- The way from `pc` to the instruction at a position. -/
def offsetOf (pcs : Array Nat) (pc : Nat) (label : Label) : Except ClassFormatError Int :=
  match pcs[label]? with
  | some target => .ok ((target : Int) - pc)
  | none => .error (.invalidBranchTarget label)

/-- A jump offset in four bytes. -/
def wideOffset (pcs : Array Nat) (pc : Nat) (label : Label) : Except ClassFormatError Bytes := do
  return Bytes.ofI32 (Int32.ofInt (← offsetOf pcs pc label))

/-- The bytes of an operand, for an instruction at `pc` that is not preceded by `wide`. -/
def operandBytes (pcs : Array Nat) (pc : Nat) : Operand → Except ClassFormatError Bytes
  | .empty => .ok []
  | .byte value => .ok [value]
  | .short value => .ok (Bytes.ofU16 value)
  | .slot index wide => .ok (if wide then Bytes.ofU16 index else [index.toUInt8])
  | .increment index delta wide =>
    .ok (if wide then Bytes.ofU16 index ++ Bytes.ofI16 delta
      else [index.toUInt8, delta.toInt8.toUInt8])
  | .branch target => do
    let offset ← offsetOf pcs pc target
    if offset < -32768 ∨ offset > 32767 then .error (.branchTooFar offset)
    else .ok (Bytes.ofI16 (Int16.ofInt offset))
  | .wideBranch target => wideOffset pcs pc target
  | .tableSwitch fallback low targets => do
    let fallback ← wideOffset pcs pc fallback
    let targets ← targets.mapM (wideOffset pcs pc)
    let high := low + Int32.ofNat targets.length - 1
    return List.replicate (padding pc) 0 ++ fallback ++ Bytes.ofI32 low ++ Bytes.ofI32 high ++
      targets.flatten
  | .lookupSwitch fallback cases => do
    let fallback ← wideOffset pcs pc fallback
    let cases ← cases.mapM fun (key, target) => do
      return Bytes.ofI32 key ++ (← wideOffset pcs pc target)
    return List.replicate (padding pc) 0 ++ fallback ++
      Bytes.ofI32 (Int32.ofNat cases.length) ++ cases.flatten
  | .invokeInterface index count => .ok (Bytes.ofU16 index ++ [count, 0])
  | .invokeDynamic index => .ok (Bytes.ofU16 index ++ [0, 0])
  | .newMultiArray index dims => .ok (Bytes.ofU16 index ++ [dims])

/-- Is the instruction written after `wide`? -/
def isWideForm (i : Instruction) : Bool :=
  match i.operand with
  | .slot _ wide | .increment _ _ wide => wide
  | _ => false

/-- The bytes of an instruction at `pc`. -/
def bytesAt (pcs : Array Nat) (pc : Nat) (i : Instruction) : Except ClassFormatError Bytes := do
  let operand ← operandBytes pcs pc i.operand
  return if i.isWideForm then Opcode.wide :: i.opcode :: operand else i.opcode :: operand

/-- The bytes of instructions whose labels are positions in the list. -/
def encode (instructions : List Instruction) : Except ClassFormatError Bytes := do
  let pcs := layout instructions
  let size := pcs.getLastD 0
  if size > 65535 then .error (.codeTooLarge size)
  else
    let table := pcs.toArray
    let parts ← (instructions.zip pcs).mapM fun (i, pc) => bytesAt table pc i
    return parts.flatten

end ClassSynth.Instruction

/-!
## Code listings

One line of text for each instruction, with the constants it refers to.
-/

namespace ClassSynth.ConstantPool

/-! ### Constants in listings

A short text for each constant: its value, or what it refers to. A constant without a short text,
and one whose references lead nowhere, is shown by its index.
-/

/-- A constant shown by its index. -/
def indexText (index : UInt16) : String := s!"#{index}"

/-- The result, or a question mark. -/
def orUnknown : Except ClassFormatError String → String
  | .ok text => text
  | .error _ => "?"

/-- The text of the constant at an index. -/
def describe (p : ConstantPool) (index : UInt16) : String :=
  match p.get? index with
  | some (.utf8 text) => text
  | some (.integer value) => toString value.toInt
  | some (.float bits) => Decimal.shortestText Decimal.single bits.toNat ++ "f"
  | some (.long value) => toString value.toInt ++ "l"
  | some (.double bits) => Decimal.shortestText Decimal.double bits.toNat ++ "d"
  | some (.classRef _) => orUnknown (p.className index)
  | some (.string text) => quoted (orUnknown (p.utf8 text))
  | some (.fieldRef ..) | some (.methodRef ..) | some (.interfaceMethodRef ..) =>
    match p.memberRef index with
    | .ok m => m.owner ++ "." ++ m.name ++ ":" ++ m.descriptor
    | .error _ => indexText index
  | _ => indexText index

end ClassSynth.ConstantPool

namespace ClassSynth.Instruction

/-- The instruction as a line of a listing. -/
def render (pool : ConstantPool) (i : Instruction) : String :=
  let name := Opcode.mnemonic i.opcode
  match i.operand with
  | .empty => name
  | .byte value =>
    if i.opcode == Opcode.bipush then s!"{name} {value.toInt8.toInt}"
    else if i.opcode == Opcode.ldc then name ++ " " ++ pool.describe value.toUInt16
    else s!"{name} {value}"
  | .short value =>
    if i.opcode == Opcode.sipush then s!"{name} {value.toInt16.toInt}"
    else name ++ " " ++ pool.describe value
  | .slot index _ => s!"{name} {index}"
  | .increment index delta _ => s!"{name} {index} {delta.toInt}"
  | .branch target | .wideBranch target => s!"{name} {target}"
  | .tableSwitch fallback low targets =>
    let high := (low + Int32.ofNat targets.length - 1).toInt
    s!"{name} {low.toInt}..{high} default {fallback}"
  | .lookupSwitch fallback cases => s!"{name} {cases.length} cases default {fallback}"
  | .invokeInterface index count => s!"{name} {pool.describe index} {count}"
  | .invokeDynamic index => s!"{name} #{index}"
  | .newMultiArray index dims => s!"{name} {pool.describe index} {dims}"

/-- The listing of the code: offsets and lines. -/
def disassemble (pool : ConstantPool) (code : Bytes) :
    Except ClassFormatError (List (Nat × String)) := do
  return (← decode code).map fun (pc, i) => (pc, i.render pool)

end ClassSynth.Instruction

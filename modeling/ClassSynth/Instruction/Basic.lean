import ClassSynth.Bytes.Basic
import ClassSynth.Instruction.Opcode

/-!
# Instructions

An instruction is an opcode with an operand. Jump targets are labels: offsets in the code that was
read, positions in the list of instructions that is to be written.
-/

namespace ClassSynth

/-- A jump target. -/
abbrev Label := Nat

/-- What follows an opcode. -/
inductive Operand
  | empty
  | byte (value : UInt8)
  | short (value : UInt16)
  | slot (index : UInt16) (wide : Bool)
  | increment (index : UInt16) (delta : Int16) (wide : Bool)
  | branch (target : Label)
  | wideBranch (target : Label)
  | tableSwitch (fallback : Label) (low : Int32) (targets : List Label)
  | lookupSwitch (fallback : Label) (cases : List (Int32 × Label))
  | invokeInterface (index : UInt16) (count : UInt8)
  | invokeDynamic (index : UInt16)
  | newMultiArray (index : UInt16) (dims : UInt8)
  deriving DecidableEq, Repr

namespace Operand

/-- The shape of the operand. -/
def shape : Operand → OperandShape
  | empty => .empty
  | byte _ => .byte
  | short _ => .short
  | slot _ _ => .slot
  | increment _ _ _ => .increment
  | branch _ => .branch
  | wideBranch _ => .wideBranch
  | tableSwitch _ _ _ => .tableSwitch
  | lookupSwitch _ _ => .lookupSwitch
  | invokeInterface _ _ => .invokeInterface
  | invokeDynamic _ => .invokeDynamic
  | newMultiArray _ _ => .newMultiArray

/-- The labels, in the order in which they stand. -/
def labels : Operand → List Label
  | branch target | wideBranch target => [target]
  | tableSwitch fallback _ targets => fallback :: targets
  | lookupSwitch fallback cases => fallback :: cases.map (·.2)
  | _ => []

/-- Replaces every label, unless one has no replacement. -/
def mapLabelsM {m : Type → Type} [Monad m] (f : Label → m Label) : Operand → m Operand
  | branch target => do return branch (← f target)
  | wideBranch target => do return wideBranch (← f target)
  | tableSwitch fallback low targets => do
    let fallback ← f fallback
    return tableSwitch fallback low (← targets.mapM f)
  | lookupSwitch fallback cases => do
    let fallback ← f fallback
    return lookupSwitch fallback (← cases.mapM fun (key, target) => do return (key, ← f target))
  | other => pure other

/-- Replaces every label. -/
def mapLabels (f : Label → Label) : Operand → Operand
  | branch target => branch (f target)
  | wideBranch target => wideBranch (f target)
  | tableSwitch fallback low targets => tableSwitch (f fallback) low (targets.map f)
  | lookupSwitch fallback cases =>
    lookupSwitch (f fallback) (cases.map fun (key, target) => (key, f target))
  | other => other

end Operand

/-- One instruction. -/
structure Instruction where
  opcode : UInt8
  operand : Operand
  deriving DecidableEq, Repr

namespace Instruction

/-- An instruction without an operand. -/
def simple (opcode : UInt8) : Instruction := ⟨opcode, .empty⟩

def labels (i : Instruction) : List Label := i.operand.labels

/-- Replaces every label, unless one has no replacement. -/
def mapLabelsM {m : Type → Type} [Monad m] (f : Label → m Label) (i : Instruction) :
    m Instruction := do
  return { i with operand := ← i.operand.mapLabelsM f }

/-- Replaces every label. -/
def mapLabels (f : Label → Label) (i : Instruction) : Instruction :=
  { i with operand := i.operand.mapLabels f }

/-- Bytes that bring the operand of a switch at `pc` to a multiple of four. -/
def padding (pc : Nat) : Nat := (4 - (pc + 1) % 4) % 4

/-- Number of bytes of the instruction at `pc`. -/
def sizeAt (pc : Nat) (i : Instruction) : Nat :=
  match i.operand with
  | .empty => 1
  | .byte _ => 2
  | .short _ => 3
  | .slot _ wide => if wide then 4 else 2
  | .increment _ _ wide => if wide then 6 else 3
  | .branch _ => 3
  | .wideBranch _ => 5
  | .tableSwitch _ _ targets => 1 + padding pc + 12 + 4 * targets.length
  | .lookupSwitch _ cases => 1 + padding pc + 8 + 8 * cases.length
  | .invokeInterface .. | .invokeDynamic .. => 5
  | .newMultiArray .. => 4

/-- Control never goes on to the next instruction. -/
def isUnconditionalExit (i : Instruction) : Bool :=
  Opcode.inRange Opcode.ireturn Opcode.returnVoid i.opcode || i.opcode == Opcode.athrow
    || i.opcode == Opcode.goto || i.opcode == Opcode.gotoWide || i.opcode == Opcode.ret
    || i.operand.shape == .tableSwitch || i.operand.shape == .lookupSwitch

/-- The offsets of the instructions when the first stands at `pc`, and the offset after the last. -/
def layoutFrom (pc : Nat) : List Instruction → List Nat
  | [] => [pc]
  | i :: rest => pc :: layoutFrom (pc + i.sizeAt pc) rest

/-- The offsets of the instructions, and the length of the code. -/
def layout (instructions : List Instruction) : List Nat :=
  layoutFrom 0 instructions

end Instruction

end ClassSynth

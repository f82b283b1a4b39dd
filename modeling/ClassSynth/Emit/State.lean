import ClassSynth.ClassFile.Basic
import ClassSynth.Emit.Context
import ClassSynth.Instruction.Code

/-!
# Emission

The emitter appends instructions and follows their effect on the slots, so that the size of the
stack, the number of locals and the frames at jump targets fall out. Jumps name labels; when all
code is there, the labels turn into positions and the instructions into bytes.

A step that fails leaves the constants it added in the pool.
-/

namespace ClassSynth

/-- Code for a body, with a frame for every jump target. -/
structure EmittedCode where
  code : Bytes
  maxStack : UInt16
  maxLocals : UInt16
  frames : List FrameState
  deriving DecidableEq, Repr

/-- Where a label stands: the offset and the number of the instruction after it. -/
structure Placement where
  pc : Nat
  position : Nat
  deriving DecidableEq, Repr

/-- A jump target. -/
structure LabelInfo where
  placement? : Option Placement := none
  /-- The merged state of the jumps to the label. -/
  state? : Option SlotState := none
  /-- The offsets of the jumps, last first. -/
  jumps : List Nat := []
  deriving DecidableEq, Repr

/-- A named local variable. -/
structure NamedLocal where
  name : String
  slot : Nat
  type : TypeName
  deriving DecidableEq, Repr

/-- The state of emission. -/
structure Emitter where
  pool : ConstantPool
  /-- The instructions so far; labels are positions in `labels`. -/
  code : Array Instruction := #[]
  /-- The offset of the next instruction. -/
  pc : Nat := 0
  entry : List VerificationType
  slots : SlotState
  reachable : Bool := true
  maxStack : Nat := 0
  maxLocals : Nat
  nextLocal : Nat
  labels : Array LabelInfo := #[]
  /-- The named locals, last first. -/
  named : List NamedLocal := []
  /-- The states at jump targets, last first. -/
  frames : List (Nat × SlotState) := []

/-- A step of emission. -/
abbrev Emit := ReaderT MethodContext (ExceptT Error (StateM Emitter))

namespace Emit

/-- The state at the start of a method. The slots of local variables are numbers of 16 bits. -/
def start (ctx : MethodContext) (pool : ConstantPool) : Emitter :=
  let (entry, pool) := ctx.entrySlots.run pool
  { pool, entry, slots := { locals := entry, stack := [] }
    maxLocals := entry.length, nextLocal := entry.length % 65536 }

/-- Runs a step that adds constants. -/
def addConstants {α : Type} (step : ConstantPool.Adding α) : Emit α :=
  modifyGet fun e =>
    let pool := e.pool
    let e := { e with pool := .empty }
    let (a, pool) := step.run pool
    (a, { e with pool })

/-- Fails for a reason that lies in the body. -/
def fail {α : Type} (cause : CodeGenError) : Emit α :=
  throw (.codeGen cause)

/-- The value, or the failure of a merge. -/
def orFail {α : Type} : Except CodeGenError α → Emit α
  | .ok a => pure a
  | .error cause => fail cause

/-! ## Instructions -/

/-- Appends an instruction. -/
def instruction (opcode : UInt8) (operand : Operand := .empty) : Emit Unit :=
  modify fun e =>
    let i : Instruction := ⟨opcode, operand⟩
    { e with code := e.code.push i, pc := e.pc + i.sizeAt e.pc }

/-! ## Stack and locals -/

/-- A value on the stack. -/
def push (t : VerificationType) : Emit Unit :=
  modify fun e =>
    let slots := e.slots.push t
    { e with slots, maxStack := max e.maxStack slots.stack.length }

/-- A value of a type on the stack; `void` has no values. -/
def pushType (t : TypeName) : Emit Unit := do
  if !t.isVoid then push (← addConstants (verificationType t))

/-- Takes slots from the stack. -/
def pop (slots : Nat) : Emit Unit := do
  match (← get).slots.pop? slots with
  | some s => modify fun e => { e with slots := s }
  | none => fail (.stackUnderflow (← read).className.text)

/-- A new value in a local variable. -/
def setLocal (slot : Nat) (t : VerificationType) : Emit Unit :=
  modify fun e =>
    { e with
      slots := e.slots.setLocal slot t
      maxLocals := max e.maxLocals (slot + t.slots.length) }

/-- One type in the place of another, in every slot. -/
def replaceAll (old new : VerificationType) : Emit Unit :=
  modify fun e => { e with slots := e.slots.replaceAll old new }

/-! ## Labels -/

/-- A label that stands nowhere yet. -/
def newLabel : Emit Label :=
  modifyGet fun e => (e.labels.size, { e with labels := e.labels.push {} })

/-- What is known of a label. -/
def label (l : Label) : Emit LabelInfo := do
  return (← get).labels.getD l {}

/-- A jump to a label, which takes slots from the stack. After `goto` nothing is reached. -/
def branch (opcode : UInt8) (l : Label) (pops : Nat) : Emit Unit := do
  pop pops
  let pc := (← get).pc
  instruction opcode (.branch l)
  let info ← label l
  let slots := (← get).slots
  let state ← match info.state? with
    | some jumped => orFail (jumped.merge slots)
    | none => pure slots
  modify fun e =>
    { e with
      labels := e.labels.setIfInBounds l
        { info with state? := some state, jumps := pc :: info.jumps }
      reachable := e.reachable && opcode != Opcode.goto }

/-- Records the state at an offset, in the place of an earlier record. -/
def recordFrame (frames : List (Nat × SlotState)) (pc : Nat) (s : SlotState) :
    List (Nat × SlotState) :=
  match frames with
  | (last, old) :: rest => if last = pc then (pc, s) :: rest else (pc, s) :: (last, old) :: rest
  | [] => [(pc, s)]

/-- Puts a label before the next instruction. A label that is jumped to gets a frame. -/
def place (l : Label) : Emit Unit := do
  let e ← get
  let info ← label l
  let placement := { pc := e.pc, position := e.code.size }
  modify fun e =>
    { e with labels := e.labels.setIfInBounds l { info with placement? := some placement } }
  match info.state? with
  | none => pure ()
  | some jumped =>
    let slots ← if e.reachable then orFail (e.slots.merge jumped) else pure jumped
    modify fun e => { e with slots, reachable := true, frames := recordFrame e.frames e.pc slots }

/-! ## Finishing -/

/-- Are all jumps to the label in range? -/
def checkJumps (target : Nat) : List Nat → Except Error Unit
  | [] => .ok ()
  | pc :: rest =>
    let offset := (target : Int) - pc
    if offset < -32768 ∨ offset > 32767 then .error (.codeGen (.branchOutOfRange offset))
    else checkJumps target rest

/-- Does the label stand somewhere, as far as it is jumped to, and within reach of the jumps? -/
def checkLabel (info : LabelInfo) : Except Error Unit :=
  if info.jumps.isEmpty then .ok ()
  else
    match info.placement? with
    | some placement => checkJumps placement.pc info.jumps.reverse
    | none => .error (.internal .unplacedLabel)

/-- The position a label stands at. -/
def resolveLabel (labels : Array LabelInfo) (l : Label) : Label :=
  (labels[l]?.bind (·.placement?)).elim 0 (·.position)

/-- The emitted instructions, with positions for labels. -/
def resolvedCode (e : Emitter) : List Instruction :=
  e.code.toList.map (·.mapLabels (resolveLabel e.labels))

/-- Turns instructions into bytes and states into frames. -/
def finish (e : Emitter) : Except Error EmittedCode := do
  e.labels.toList.forM checkLabel
  if e.pc > 65535 then throw (.codeGen (.codeTooLarge e.pc))
  let code ← (Instruction.encode (resolvedCode e)).mapError .classFormat
  return {
    code
    maxStack := e.maxStack.toUInt16
    maxLocals := e.maxLocals.toUInt16
    frames := e.frames.reverse.map fun (pc, s) => s.toFrame pc }

/-- Runs a step from the start of a method. The pool afterwards holds what the step added, also when
it failed. -/
def runWith (step : Emit Unit) (ctx : MethodContext) (pool : ConstantPool) :
    Except Error EmittedCode × ConstantPool :=
  let (result, e) := (step ctx).run.run (start ctx pool)
  match result with
  | .ok () => (finish e, e.pool)
  | .error err => (.error err, e.pool)

end Emit

end ClassSynth

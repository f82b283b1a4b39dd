import ClassSynth.ClassFile.Basic
import ClassSynth.Emit.State

/-!
# Code by position

A method body in which every offset is the position of an instruction: jump targets, exception
ranges, debug tables and frames, and in the frames also the `new` instructions of objects without
constructor. Positions survive edits that offsets do not. The position after the last instruction
stands for the end of the code.
-/

namespace ClassSynth

/-- Replaces the offsets in a frame, its own and those of `new` instructions. -/
def FrameState.mapOffsetsM {m : Type → Type} [Monad m] (f : Nat → m Nat) (s : FrameState) :
    m FrameState := do
  let convert : VerificationType → m VerificationType
    | .uninitialized offset => do return .uninitialized (← f offset.toNat).toUInt16
    | other => pure other
  let pc ← f s.pc
  let locals ← s.locals.mapM convert
  return { pc, locals, stack := ← s.stack.mapM convert }

/-- Replaces the offsets in a frame. -/
def FrameState.mapOffsets (f : Nat → Nat) (s : FrameState) : FrameState :=
  Id.run (s.mapOffsetsM (m := Id) f)

/-- The code from `start` up to `stop` is guarded by the code at `handler`. -/
structure IndexedHandler where
  start : Nat
  stop : Nat
  handler : Nat
  catchType : UInt16
  deriving DecidableEq, Repr

/-- A source line. -/
structure IndexedLine where
  start : Nat
  line : UInt16
  deriving DecidableEq, Repr

/-- The range in which a variable is live. -/
structure IndexedRange where
  start : Nat
  stop : Nat
  entry : VariableEntry
  deriving DecidableEq, Repr

/-- Code that can be placed into other code. The offsets in its frames are positions. -/
structure Fragment where
  code : List Instruction
  frames : List FrameState
  maxStack : UInt16
  maxLocals : UInt16
  deriving DecidableEq, Repr

/-- A method body by position. The offsets in its frames are positions. -/
structure IndexedBody where
  code : List Instruction
  maxStack : UInt16
  maxLocals : UInt16
  handlers : List IndexedHandler := []
  frames : List FrameState := []
  lines : List IndexedLine := []
  localVariables : List IndexedRange := []
  localVariableTypes : List IndexedRange := []
  other : List Attribute := []
  deriving DecidableEq, Repr

/-! ## From offsets -/

/-- The offsets of the instructions and the end of the code, in order. -/
def boundaries (decoded : List (Nat × Instruction)) (codeLength : Nat) : List Nat :=
  decoded.map (·.1) ++ [codeLength]

/-- The position of the instruction at an offset. -/
def positionOf (bounds : List Nat) (pc : Nat) : Except ClassFormatError Nat :=
  match bounds.findIdx? (· == pc) with
  | some position => .ok position
  | none => .error (.invalidBranchTarget pc)

/-- The instructions with positions for labels. -/
def indexLabels (bounds : List Nat) (decoded : List (Nat × Instruction)) :
    Except ClassFormatError (List Instruction) :=
  decoded.mapM fun (_, i) => i.mapLabelsM (positionOf bounds)

/-- The emitted code, ready to be placed into other code. -/
def Fragment.ofEmitted (e : EmittedCode) : Except ClassFormatError Fragment := do
  let decoded ← Instruction.decode e.code
  let bounds := boundaries decoded e.code.length
  let code ← indexLabels bounds decoded
  let frames ← e.frames.mapM (·.mapOffsetsM (positionOf bounds))
  return { code, frames, maxStack := e.maxStack, maxLocals := e.maxLocals }

namespace IndexedBody

/-- An exception range by position. -/
def handlerOf (bounds : List Nat) (e : ExceptionEntry) : Except ClassFormatError IndexedHandler :=
  do
  let start ← positionOf bounds e.start.toNat
  let stop ← positionOf bounds e.stop.toNat
  let handler ← positionOf bounds e.handler.toNat
  return { start, stop, handler, catchType := e.catchType }

/-- The range of a variable by position. -/
def rangeOf (bounds : List Nat) (entry : VariableEntry) : Except ClassFormatError IndexedRange := do
  let start ← positionOf bounds entry.start.toNat
  let stop ← positionOf bounds (entry.start.toNat + entry.length.toNat)
  return { start, stop, entry }

/-- Takes one attribute of the code into the body. A second stack map table replaces the first; the
other tables grow. -/
def addAttribute (pool : ConstantPool) (entryLocals : List VerificationType) (bounds : List Nat)
    (body : IndexedBody) (a : Attribute) : Except ClassFormatError IndexedBody := do
  match AttributeName.ofText? (← pool.utf8 a.name) with
  | some .stackMapTable =>
    let states := FrameState.ofDeltas (← DeltaFrame.parseTable a.info) entryLocals
    return { body with frames := ← states.mapM (·.mapOffsetsM (positionOf bounds)) }
  | some .lineNumberTable =>
    let lines ← (← LineEntry.parseTable a.info).mapM fun e => do
      return { start := ← positionOf bounds e.start.toNat, line := e.line }
    return { body with lines := body.lines ++ lines }
  | some .localVariableTable =>
    let ranges ← (← VariableEntry.parseTable a.info).mapM (rangeOf bounds)
    return { body with localVariables := body.localVariables ++ ranges }
  | some .localVariableTypeTable =>
    let ranges ← (← VariableEntry.parseTable a.info).mapM (rangeOf bounds)
    return { body with localVariableTypes := body.localVariableTypes ++ ranges }
  | _ => return { body with other := body.other ++ [a] }

/-- The body of a code attribute, given the local variables at the start of the method. -/
def ofCode (pool : ConstantPool) (entryLocals : List VerificationType) (c : CodeAttribute) :
    Except ClassFormatError IndexedBody := do
  let decoded ← Instruction.decode c.code
  let bounds := boundaries decoded c.code.length
  let code ← indexLabels bounds decoded
  let handlers ← c.handlers.mapM (handlerOf bounds)
  c.attributes.foldlM (addAttribute pool entryLocals bounds)
    { code, handlers, maxStack := c.maxStack, maxLocals := c.maxLocals }

/-! ## To offsets -/

/-- Steps that may fail and may add constants; what they added stays. -/
abbrev Editing := ExceptT ClassFormatError (StateM ConstantPool)

/-- The offset of a position. -/
def offsetAt (pcs : Array Nat) (position : Nat) : Except ClassFormatError Nat :=
  match pcs[position]? with
  | some pc => .ok pc
  | none => .error (.invalidBranchTarget position)

/-- An exception range by offset. -/
def handlerEntry (pcs : Array Nat) (h : IndexedHandler) :
    Except ClassFormatError ExceptionEntry := do
  let start ← offsetAt pcs h.start
  let stop ← offsetAt pcs h.stop
  let handler ← offsetAt pcs h.handler
  return {
    start := start.toUInt16, stop := stop.toUInt16, handler := handler.toUInt16
    catchType := h.catchType }

/-- A source line by offset. -/
def lineEntry (pcs : Array Nat) (l : IndexedLine) : Except ClassFormatError LineEntry := do
  return { start := (← offsetAt pcs l.start).toUInt16, line := l.line }

/-- The range of a variable by offset. -/
def rangeEntry (pcs : Array Nat) (r : IndexedRange) : Except ClassFormatError VariableEntry := do
  let start ← offsetAt pcs r.start
  let stop ← offsetAt pcs r.stop
  return { r.entry with start := start.toUInt16, length := stop.toUInt16 - start.toUInt16 }

/-- A named attribute, whose name is added to the pool. -/
def namedAttribute (name : AttributeName) (info : Bytes) : Editing Attribute := do
  return { name := ← (ConstantPool.addUtf8 name.text : ConstantPool.Adding UInt16), info }

/-- The attribute for a table, unless the table is empty. -/
def tableAttribute {α β : Type} (name : AttributeName) (convert : α → Except ClassFormatError β)
    (write : List β → Bytes) (rows : List α) : Editing (List Attribute) := do
  if rows.isEmpty then return []
  let entries ← (rows.mapM convert : Except ClassFormatError (List β))
  return [← namedAttribute name (write entries)]

/-- Frames in the order of their positions; of several at one position the first stays. -/
def normalizeFrames (frames : List FrameState) : List FrameState :=
  let sorted := frames.mergeSort fun a b => a.pc ≤ b.pc
  (sorted.splitBy fun a b => a.pc == b.pc).filterMap List.head?

/-- The code attribute of the body. Frames are written only where the class version uses them. -/
def toCode (entryLocals : List VerificationType) (withFrames : Bool) (body : IndexedBody) :
    Editing CodeAttribute := do
  let pcs := (Instruction.layout body.code).toArray
  let code ← (Instruction.encode body.code : Except ClassFormatError Bytes)
  let handlers ← (body.handlers.mapM (handlerEntry pcs) : Except ClassFormatError _)
  let lines ← tableAttribute .lineNumberTable (lineEntry pcs) LineEntry.tableBytes body.lines
  let localVariables ←
    tableAttribute .localVariableTable (rangeEntry pcs) VariableEntry.tableBytes
      body.localVariables
  let localVariableTypes ←
    tableAttribute .localVariableTypeTable (rangeEntry pcs) VariableEntry.tableBytes
      body.localVariableTypes
  let frames ←
    tableAttribute .stackMapTable (·.mapOffsetsM (offsetAt pcs))
      (FrameState.tableBytes · entryLocals)
      (if withFrames then normalizeFrames body.frames else [])
  return {
    maxStack := body.maxStack, maxLocals := body.maxLocals, code, handlers
    attributes := lines ++ localVariables ++ localVariableTypes ++ frames ++ body.other }

end IndexedBody

end ClassSynth

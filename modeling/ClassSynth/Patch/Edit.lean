import ClassSynth.Patch.Indexed

/-!
# Edits of method bodies

A prologue runs before the first instruction; a replacement takes the place of the returns. Both are
edits of the indexed body: each old position has an image, and everything that refers to positions
is moved along.
-/

namespace ClassSynth.IndexedBody

/-- Moves everything that refers to positions: jump targets, frames and tables. -/
def mapPositions (f : Nat → Nat) (body : IndexedBody) : IndexedBody :=
  { body with
    code := body.code.map (·.mapLabels f)
    handlers := body.handlers.map fun h =>
      { h with start := f h.start, stop := f h.stop, handler := f h.handler }
    frames := body.frames.map (·.mapOffsets f)
    lines := body.lines.map fun l => { l with start := f l.start }
    localVariables :=
      body.localVariables.map fun r => { r with start := f r.start, stop := f r.stop }
    localVariableTypes :=
      body.localVariableTypes.map fun r => { r with start := f r.start, stop := f r.stop } }

/-! ## Prologues -/

/-- A variable that is live from the start of the method stays so. -/
def keepStart (old new : List IndexedRange) : List IndexedRange :=
  List.zipWith (fun o n => if o.start = 0 then { n with start := 0 } else n) old new

/-- The body with code before its first instruction. Where both have a frame, the body's stays. -/
def insertPrologue (prologue : Fragment) (body : IndexedBody) : IndexedBody :=
  let moved := body.mapPositions (· + prologue.code.length)
  let own := prologue.frames.filter fun f => !moved.frames.any (·.pc == f.pc)
  { moved with
    code := prologue.code ++ moved.code
    frames := own ++ moved.frames
    localVariables := keepStart body.localVariables moved.localVariables
    localVariableTypes := keepStart body.localVariableTypes moved.localVariableTypes
    maxStack := max body.maxStack prologue.maxStack
    maxLocals := max body.maxLocals prologue.maxLocals }

/-! ## Returns -/

/-- Is the instruction to be replaced? -/
def isReturn (opcode : UInt8) (i : Instruction) : Bool := i.opcode == opcode

/-- The position of each instruction once the returns have grown to `size` instructions, from
`next` on; then the position of the end. -/
def imagesFrom (opcode : UInt8) (size next : Nat) : List Instruction → List Nat
  | [] => [next]
  | i :: rest =>
    next :: imagesFrom opcode size (next + if isReturn opcode i then size else 1) rest

/-- Drops the value that was to be returned, and goes on with the replacement at `start`. -/
def expansion (replacement : Fragment) (start : Nat) : List Instruction :=
  .simple Opcode.pop :: replacement.code.map (·.mapLabels (· + start + 1))

/-- The frames of the replacement at `start`. -/
def expansionFrames (replacement : Fragment) (start : Nat) : List FrameState :=
  replacement.frames.map (·.mapOffsets (· + start + 1))

/-- The body with a replacement for each return. The frames of the replacements come before those of
the body. -/
def replaceReturns (opcode : UInt8) (replacement : Fragment) (body : IndexedBody) : IndexedBody :=
  let images := imagesFrom opcode (replacement.code.length + 1) 0 body.code
  let table := images.toArray
  let moved := body.mapPositions fun position => table.getD position position
  let placed := moved.code.zip images
  { moved with
    code := placed.flatMap fun (i, start) =>
      if isReturn opcode i then expansion replacement start else [i]
    frames :=
      placed.flatMap (fun (i, start) =>
        if isReturn opcode i then expansionFrames replacement start else []) ++ moved.frames
    maxStack :=
      (min 65535 (body.maxStack.toNat + replacement.maxStack.toNat)).toUInt16
    maxLocals := max body.maxLocals replacement.maxLocals }

end ClassSynth.IndexedBody

namespace ClassSynth

open IndexedBody

/-- Edits the body of a code attribute. -/
def CodeAttribute.edit (entryLocals : List VerificationType) (withFrames : Bool)
    (change : IndexedBody → IndexedBody) (c : CodeAttribute) : Editing CodeAttribute := do
  let body ← (ofCode (← get) entryLocals c : Except ClassFormatError IndexedBody)
  (change body).toCode entryLocals withFrames

/-- The code with a prologue. -/
def CodeAttribute.insertPrologue (c : CodeAttribute) (prologue : Fragment)
    (entryLocals : List VerificationType) (withFrames : Bool) : Editing CodeAttribute :=
  c.edit entryLocals withFrames (IndexedBody.insertPrologue prologue)

/-- The code with a replacement for each return. -/
def CodeAttribute.replaceReturns (c : CodeAttribute) (opcode : UInt8) (replacement : Fragment)
    (entryLocals : List VerificationType) (withFrames : Bool) : Editing CodeAttribute :=
  c.edit entryLocals withFrames (IndexedBody.replaceReturns opcode replacement)

end ClassSynth

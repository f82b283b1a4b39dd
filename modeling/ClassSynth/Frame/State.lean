import ClassSynth.Bytes.Basic
import ClassSynth.Text.Basic

/-!
# Stack map frames

A stack map table holds frames as differences; the verifier is told states.
-/

/-!
## Verification types

What the verifier knows about one local variable or one entry of the operand stack.
-/

namespace ClassSynth

/-- The type of a local variable or a stack entry. -/
inductive VerificationType
  | top
  | integer
  | float
  | double
  | long
  | null
  | uninitializedThis
  /-- An instance of the class at an index of the constant pool. -/
  | object (classIndex : UInt16)
  /-- The result of the `new` instruction at an offset, before its constructor has run. -/
  | uninitialized (offset : UInt16)
  deriving DecidableEq, Repr, Inhabited

namespace VerificationType

/-- Takes two slots. -/
def isWide : VerificationType → Bool
  | double | long => true
  | _ => false

/-- The name of the type in listings. -/
def describe : VerificationType → String
  | top => "Top"
  | integer => "Integer"
  | float => "Float"
  | double => "Double"
  | long => "Long"
  | null => "Null"
  | uninitializedThis => "UninitializedThis"
  | object classIndex => s!"Object({classIndex})"
  | uninitialized offset => s!"Uninitialized({offset})"

def toBytes : VerificationType → Bytes
  | top => [0]
  | integer => [1]
  | float => [2]
  | double => [3]
  | long => [4]
  | null => [5]
  | uninitializedThis => [6]
  | object classIndex => 7 :: Bytes.ofU16 classIndex
  | uninitialized offset => 8 :: Bytes.ofU16 offset

def read : Reader VerificationType := do
  match (← Reader.u8) with
  | 0 => return top
  | 1 => return integer
  | 2 => return float
  | 3 => return double
  | 4 => return long
  | 5 => return null
  | 6 => return uninitializedThis
  | 7 => return object (← Reader.u16)
  | 8 => return uninitialized (← Reader.u16)
  | tag => Reader.fail (.invalidVerificationType tag)

/-- A list of types in brackets. -/
def describeList (types : List VerificationType) : String :=
  "[" ++ ", ".intercalate (types.map describe) ++ "]"

/-- The slots of a value: the second slot of a wide value holds `top`. -/
def slots (t : VerificationType) : List VerificationType :=
  if t.isWide then [t, top] else [t]

/-- The types of the values in a sequence of slots. The second slot of a wide value is skipped,
whatever it holds. -/
def ofSlots : List VerificationType → List VerificationType
  | [] => []
  | [t] => [t]
  | t :: u :: rest => if t.isWide then t :: ofSlots rest else t :: ofSlots (u :: rest)

/-- Drops `top` at the end. -/
def trimTop (types : List VerificationType) : List VerificationType :=
  (types.reverse.dropWhile (· == top)).reverse

/-- The types of the local variables in a sequence of slots, without unused ones at the end. -/
def localsOfSlots (slots : List VerificationType) : List VerificationType :=
  trimTop (ofSlots slots)

end VerificationType

end ClassSynth

namespace ClassSynth

/-! ## Frames as differences

A stack map table holds one frame after the other, each as a difference to the one before it. The
first frame is a difference to the state at the start of the method.
-/

/-- A frame as a difference. The offset grows by `delta` and, after the first frame, one more. -/
inductive DeltaFrame
  /-- The same locals and an empty stack. -/
  | same (delta : UInt16)
  /-- The same locals and one stack entry. -/
  | sameOneItem (delta : UInt16) (item : VerificationType)
  /-- Without the last `count` locals, and an empty stack. -/
  | chop (delta : UInt16) (count : UInt8)
  /-- More locals, and an empty stack. -/
  | append (delta : UInt16) (added : List VerificationType)
  | full (delta : UInt16) (locals stack : List VerificationType)
  deriving DecidableEq, Repr

namespace DeltaFrame

def delta : DeltaFrame → UInt16
  | same d | sameOneItem d _ | chop d _ | append d _ | full d _ _ => d

/-- The bytes of the frame: a small difference is part of the tag. -/
def toBytes : DeltaFrame → Bytes
  | same d => if d ≤ 63 then [d.toUInt8] else 251 :: Bytes.ofU16 d
  | sameOneItem d item =>
    (if d ≤ 63 then [64 + d.toUInt8] else 247 :: Bytes.ofU16 d) ++ item.toBytes
  | chop d count => (251 - count) :: Bytes.ofU16 d
  | append d added =>
    (251 + added.length.toUInt8) :: Bytes.ofU16 d ++ added.flatMap VerificationType.toBytes
  | full d locals stack =>
    255 :: Bytes.ofU16 d ++ Bytes.counted VerificationType.toBytes locals ++
      Bytes.counted VerificationType.toBytes stack

def read : Reader DeltaFrame := do
  let tag ← Reader.u8
  if tag ≤ 63 then return same tag.toUInt16
  else if tag ≤ 127 then return sameOneItem (tag - 64).toUInt16 (← VerificationType.read)
  else if tag < 247 then Reader.fail (.invalidFrameType tag)
  else
    let d ← Reader.u16
    if tag == 247 then return sameOneItem d (← VerificationType.read)
    else if tag ≤ 250 then return chop d (251 - tag)
    else if tag == 251 then return same d
    else if tag ≤ 254 then
      return append d (← Reader.many (tag - 251).toNat VerificationType.read)
    else
      let locals ← Reader.counted VerificationType.read
      return full d locals (← Reader.counted VerificationType.read)

/-- Reads a stack map table. -/
def parseTable (info : Bytes) : Except ClassFormatError (List DeltaFrame) :=
  (Reader.counted read).run info

/-- Writes a stack map table. -/
def tableBytes (frames : List DeltaFrame) : Bytes :=
  Bytes.counted toBytes frames

end DeltaFrame

/-! ## Frames as states

The state at an offset says what every local variable and stack entry holds. `FrameState.ofDeltas`
expands a table of differences into states; `FrameState.toDeltas` finds for each state a shortest
difference to the one before it.
-/

/-- What the verifier knows at an offset. A wide value is one entry. -/
structure FrameState where
  pc : Nat
  locals : List VerificationType
  stack : List VerificationType
  deriving DecidableEq, Repr

namespace FrameState

/-! ### From differences -/

/-- The locals after a frame. -/
def nextLocals (previous : List VerificationType) : DeltaFrame → List VerificationType
  | .same _ | .sameOneItem _ _ => previous
  | .chop _ count => previous.take (previous.length - count.toNat)
  | .append _ added => previous ++ added
  | .full _ locals _ => locals

/-- The stack after a frame. -/
def nextStack : DeltaFrame → List VerificationType
  | .same _ | .chop _ _ | .append _ _ => []
  | .sameOneItem _ item => [item]
  | .full _ _ stack => stack

/-- The offset of a frame. -/
def nextPc (previous? : Option Nat) (d : UInt16) : Nat :=
  match previous? with
  | none => d.toNat
  | some pc => pc + d.toNat + 1

/-- The state after a frame. -/
def apply (previousPc? : Option Nat) (previous : List VerificationType) (f : DeltaFrame) :
    FrameState where
  pc := nextPc previousPc? f.delta
  locals := nextLocals previous f
  stack := nextStack f

/-- The states of the frames that follow a state; `done` holds the states before it, last first. -/
def ofDeltasAux (done : List FrameState) (previousPc? : Option Nat)
    (previous : List VerificationType) : List DeltaFrame → List FrameState
  | [] => done.reverse
  | f :: rest =>
    let state := apply previousPc? previous f
    ofDeltasAux (state :: done) (some state.pc) state.locals rest

/-- The states of a table, given the locals at the start of the method. -/
def ofDeltas (frames : List DeltaFrame) (entry : List VerificationType) : List FrameState :=
  ofDeltasAux [] none entry frames

/-! ### To differences -/

/-- The difference of offsets, in 16 bits. -/
def deltaFrom (previousPc? : Option Nat) (pc : Nat) : UInt16 :=
  match previousPc? with
  | none => pc.toUInt16
  | some previous => ((pc : Int) - previous - 1 : Int).emod 65536 |>.toNat.toUInt16

/-- A shortest frame that leads from the locals before it to the state. -/
def toDelta (previousPc? : Option Nat) (previous : List VerificationType) (s : FrameState) :
    DeltaFrame :=
  let d := deltaFrom previousPc? s.pc
  let grown := s.locals.length - previous.length
  let shrunk := previous.length - s.locals.length
  match s.stack with
  | [] =>
    if s.locals = previous then .same d
    else if 0 < grown ∧ grown ≤ 3 ∧ previous.isPrefixOf s.locals then
      .append d (s.locals.drop previous.length)
    else if 0 < shrunk ∧ shrunk ≤ 3 ∧ s.locals.isPrefixOf previous then .chop d shrunk.toUInt8
    else .full d s.locals []
  | [item] => if s.locals = previous then .sameOneItem d item else .full d s.locals [item]
  | stack => .full d s.locals stack

/-- The frames of states that follow a state; `done` holds the frames before it, last first. -/
def toDeltasAux (done : List DeltaFrame) (previousPc? : Option Nat)
    (previous : List VerificationType) : List FrameState → List DeltaFrame
  | [] => done.reverse
  | s :: rest => toDeltasAux (toDelta previousPc? previous s :: done) (some s.pc) s.locals rest

/-- The table of the states, given the locals at the start of the method. -/
def toDeltas (states : List FrameState) (entry : List VerificationType) : List DeltaFrame :=
  toDeltasAux [] none entry states

/-- The bytes of the table of the states. -/
def tableBytes (states : List FrameState) (entry : List VerificationType) : Bytes :=
  DeltaFrame.tableBytes (toDeltas states entry)

/-! ### Listings -/

/-- The state as a line of a listing. -/
def describe (s : FrameState) : String :=
  "@" ++ alignRight 4 (toString s.pc) ++ " locals=" ++ VerificationType.describeList s.locals ++
    " stack=" ++ VerificationType.describeList s.stack

end FrameState

end ClassSynth

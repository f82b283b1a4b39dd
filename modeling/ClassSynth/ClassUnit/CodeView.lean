import ClassSynth.ClassUnit.Basic
import ClassSynth.ClassUnit.Edit
import ClassSynth.Instruction.Code
import ClassSynth.Text.Basic

/-!
# Classes as they are shown

The summary of a class, and the view of the code of a method.
-/

/-!
## Summaries of classes

A class as a text: its name and supertypes, its version, its fields, and its methods with their
instructions. The text comes in parts, and a part that cannot be made says why, so that a reader
of a damaged class still gets what comes before the damage.
-/

namespace ClassSynth.ClassUnit

/-- A part of a summary. -/
abbrev SummaryPart := Except Error String

/-- Access flags between parentheses. -/
def flagsText (flags : UInt16) : String := "(0x" ++ hexPadded 4 flags.toNat ++ ")"

/-- The line of a field. -/
def fieldLine (f : FieldSig) : String :=
  "  field " ++ f.type.text ++ " " ++ f.name ++ " " ++ flagsText f.flags ++ "\n"

/-- The line of an instruction. -/
def instructionLine (pc : Nat) (text : String) : String :=
  "    " ++ alignRight 4 (toString pc) ++ ": " ++ text ++ "\n"

/-- The instructions of a method. -/
def codeLines (pool : ConstantPool) (code : CodeAttribute) : SummaryPart :=
  liftFormat ((Instruction.disassemble pool code.code).map fun lines =>
    String.join (lines.map fun (pc, text) => instructionLine pc text))

/-- The sizes of stack and locals. -/
def sizesLine (code : CodeAttribute) : String :=
  s!"    stack={code.maxStack}, locals={code.maxLocals}\n"

/-- A method: its line, and its code if it has any. -/
def methodParts (pool : ConstantPool) (m : MemberInfo) (sig : MethodSig) : List SummaryPart :=
  .ok ("  method " ++ sig.name ++ sig.descriptor ++ " " ++ flagsText sig.flags ++ "\n") ::
    match m.code pool with
    | .ok none => []
    | .ok (some code) => [.ok (sizesLine code), codeLines pool code]
    | .error e => [.error (.classFormat e)]

/-- The superclass and the interfaces behind the name of a class. -/
def supertypeParts (c : ClassUnit) : List SummaryPart :=
  [c.superclass?.map fun superclass =>
    match superclass with
    | some t => " extends " ++ t.text
    | none => "",
   c.interfaces.map fun interfaces =>
    if interfaces.isEmpty then ""
    else " implements " ++ ", ".intercalate (interfaces.map TypeName.text)]

/-- The version and the flags of a class. -/
def versionLine (c : ClassUnit) : String :=
  s!"  version {c.file.major}.{c.file.minor}, flags 0x" ++ hexPadded 4 c.file.flags.toNat ++ "\n"

/-- The methods of a class. -/
def methodsParts (c : ClassUnit) : List SummaryPart :=
  match c.methods with
  | .ok methods =>
    (methods.zip c.file.methods).flatMap fun (sig, m) => methodParts c.file.pool m sig
  | .error e => [.error e]

/-- The text for a class, part by part. -/
def summary (c : ClassUnit) : List SummaryPart :=
  .ok ("class " ++ c.name.text) :: c.supertypeParts ++
    [.ok "\n", .ok c.versionLine, c.fields.map fun fields => String.join (fields.map fieldLine)] ++
    c.methodsParts

end ClassSynth.ClassUnit

/-!
## Views of code

The code of a method as it can be shown: a listing in place of the bytes, and what each attribute
says in place of its bytes. Frames are shown as states, so the view starts from the state in which
the method is entered.
-/

namespace ClassSynth

/-- What an attribute of code says. -/
inductive CodeDetail
  | frames (states : List FrameState)
  | lines (entries : List LineEntry)
  | localVariables (entries : List VariableEntry)
  /-- An attribute without a known structure. -/
  | unknown (info : Bytes)

/-- The code of a method as it can be shown. -/
structure CodeView where
  maxStack : UInt16
  maxLocals : UInt16
  /-- The instructions by offset. -/
  listing : List (Nat × String)
  handlers : List ExceptionEntry
  /-- The attributes by name. -/
  details : List (String × CodeDetail)

/-- What an attribute of a name says about code that is entered with the given locals. -/
def CodeDetail.ofInfo (name : String) (info : Bytes) (entry : List VerificationType) :
    Except ClassFormatError CodeDetail :=
  match AttributeName.ofText? name with
  | some .stackMapTable =>
    (DeltaFrame.parseTable info).map fun deltas => frames (FrameState.ofDeltas deltas entry)
  | some .lineNumberTable => lines <$> LineEntry.parseTable info
  | some .localVariableTable | some .localVariableTypeTable =>
    localVariables <$> VariableEntry.parseTable info
  | _ => .ok (unknown info)

namespace ClassUnit

/-- The types of the locals when a method is entered. A class that is missing in the constant pool
gets the index that it would get next. -/
def entryLocals (c : ClassUnit) (m : MethodSig) : List VerificationType :=
  ((methodContext c.name m.flags m.name m.params m.ret).entryLocals.run c.file.pool).1

/-- The view of the code of a declared method, if it has code. -/
def codeView (c : ClassUnit) (m : MemberInfo) (sig : MethodSig) :
    Except ClassFormatError (Option CodeView) := do
  let pool := c.file.pool
  (← m.code pool).mapM fun code => do
    return {
      maxStack := code.maxStack, maxLocals := code.maxLocals, handlers := code.handlers
      listing := ← Instruction.disassemble pool code.code
      details := ← code.attributes.mapM fun a => do
        let name ← pool.utf8 a.name
        return (name, ← CodeDetail.ofInfo name a.info (c.entryLocals sig)) }

end ClassUnit

end ClassSynth

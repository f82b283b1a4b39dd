/-!
# Opcodes

The first byte of an instruction, the shape of the operand it announces, and its mnemonic.
-/

namespace ClassSynth

namespace Opcode

def aconstNull : UInt8 := 0x01
def iconst0 : UInt8 := 0x03
def bipush : UInt8 := 0x10
def sipush : UInt8 := 0x11
def ldc : UInt8 := 0x12
def ldcWide : UInt8 := 0x13
def ldcLong : UInt8 := 0x14
def iload : UInt8 := 0x15
def lload : UInt8 := 0x16
def fload : UInt8 := 0x17
def dload : UInt8 := 0x18
def aload : UInt8 := 0x19
def iload0 : UInt8 := 0x1a
def lload0 : UInt8 := 0x1e
def fload0 : UInt8 := 0x22
def dload0 : UInt8 := 0x26
def aload0 : UInt8 := 0x2a
def istore : UInt8 := 0x36
def lstore : UInt8 := 0x37
def fstore : UInt8 := 0x38
def dstore : UInt8 := 0x39
def astore : UInt8 := 0x3a
def istore0 : UInt8 := 0x3b
def lstore0 : UInt8 := 0x3f
def fstore0 : UInt8 := 0x43
def dstore0 : UInt8 := 0x47
def astore0 : UInt8 := 0x4b
def iastore : UInt8 := 0x4f
def lastore : UInt8 := 0x50
def fastore : UInt8 := 0x51
def dastore : UInt8 := 0x52
def aastore : UInt8 := 0x53
def bastore : UInt8 := 0x54
def castore : UInt8 := 0x55
def sastore : UInt8 := 0x56
def pop : UInt8 := 0x57
def pop2 : UInt8 := 0x58
def dup : UInt8 := 0x59
def iadd : UInt8 := 0x60
def imul : UInt8 := 0x68
def iinc : UInt8 := 0x84
def lcmp : UInt8 := 0x94
def fcmpl : UInt8 := 0x95
def dcmpl : UInt8 := 0x97
def ifeq : UInt8 := 0x99
def ifne : UInt8 := 0x9a
def ifIcmpeq : UInt8 := 0x9f
def ifIcmpne : UInt8 := 0xa0
def ifAcmpeq : UInt8 := 0xa5
def ifAcmpne : UInt8 := 0xa6
def goto : UInt8 := 0xa7
def jsr : UInt8 := 0xa8
def ret : UInt8 := 0xa9
def tableswitch : UInt8 := 0xaa
def lookupswitch : UInt8 := 0xab
def ireturn : UInt8 := 0xac
def lreturn : UInt8 := 0xad
def freturn : UInt8 := 0xae
def dreturn : UInt8 := 0xaf
def areturn : UInt8 := 0xb0
def returnVoid : UInt8 := 0xb1
def getstatic : UInt8 := 0xb2
def putstatic : UInt8 := 0xb3
def getfield : UInt8 := 0xb4
def putfield : UInt8 := 0xb5
def invokevirtual : UInt8 := 0xb6
def invokespecial : UInt8 := 0xb7
def invokestatic : UInt8 := 0xb8
def invokeinterface : UInt8 := 0xb9
def invokedynamic : UInt8 := 0xba
def new : UInt8 := 0xbb
def newarray : UInt8 := 0xbc
def anewarray : UInt8 := 0xbd
def athrow : UInt8 := 0xbf
def checkcast : UInt8 := 0xc0
def instanceof : UInt8 := 0xc1
def wide : UInt8 := 0xc4
def multianewarray : UInt8 := 0xc5
def ifnull : UInt8 := 0xc6
def ifnonnull : UInt8 := 0xc7
def gotoWide : UInt8 := 0xc8
def jsrWide : UInt8 := 0xc9

/-- The highest opcode. -/
def last : UInt8 := jsrWide

/-- The mnemonics in the order of the opcodes. -/
def mnemonics : Array String :=
  #["nop", "aconst_null", "iconst_m1", "iconst_0", "iconst_1", "iconst_2", "iconst_3", "iconst_4",
    "iconst_5", "lconst_0", "lconst_1", "fconst_0", "fconst_1", "fconst_2", "dconst_0",
    "dconst_1", "bipush", "sipush", "ldc", "ldc_w", "ldc2_w", "iload", "lload", "fload", "dload",
    "aload", "iload_0", "iload_1", "iload_2", "iload_3", "lload_0", "lload_1", "lload_2",
    "lload_3", "fload_0", "fload_1", "fload_2", "fload_3", "dload_0", "dload_1", "dload_2",
    "dload_3", "aload_0", "aload_1", "aload_2", "aload_3", "iaload", "laload", "faload", "daload",
    "aaload", "baload", "caload", "saload", "istore", "lstore", "fstore", "dstore", "astore",
    "istore_0", "istore_1", "istore_2", "istore_3", "lstore_0", "lstore_1", "lstore_2",
    "lstore_3", "fstore_0", "fstore_1", "fstore_2", "fstore_3", "dstore_0", "dstore_1",
    "dstore_2", "dstore_3", "astore_0", "astore_1", "astore_2", "astore_3", "iastore", "lastore",
    "fastore", "dastore", "aastore", "bastore", "castore", "sastore", "pop", "pop2", "dup",
    "dup_x1", "dup_x2", "dup2", "dup2_x1", "dup2_x2", "swap", "iadd", "ladd", "fadd", "dadd",
    "isub", "lsub", "fsub", "dsub", "imul", "lmul", "fmul", "dmul", "idiv", "ldiv", "fdiv",
    "ddiv", "irem", "lrem", "frem", "drem", "ineg", "lneg", "fneg", "dneg", "ishl", "lshl",
    "ishr", "lshr", "iushr", "lushr", "iand", "land", "ior", "lor", "ixor", "lxor", "iinc", "i2l",
    "i2f", "i2d", "l2i", "l2f", "l2d", "f2i", "f2l", "f2d", "d2i", "d2l", "d2f", "i2b", "i2c",
    "i2s", "lcmp", "fcmpl", "fcmpg", "dcmpl", "dcmpg", "ifeq", "ifne", "iflt", "ifge", "ifgt",
    "ifle", "if_icmpeq", "if_icmpne", "if_icmplt", "if_icmpge", "if_icmpgt", "if_icmple",
    "if_acmpeq", "if_acmpne", "goto", "jsr", "ret", "tableswitch", "lookupswitch", "ireturn",
    "lreturn", "freturn", "dreturn", "areturn", "return", "getstatic", "putstatic", "getfield",
    "putfield", "invokevirtual", "invokespecial", "invokestatic", "invokeinterface",
    "invokedynamic", "new", "newarray", "anewarray", "arraylength", "athrow", "checkcast",
    "instanceof", "monitorenter", "monitorexit", "wide", "multianewarray", "ifnull", "ifnonnull",
    "goto_w", "jsr_w"]

/-- The mnemonic of an opcode. -/
def mnemonic (opcode : UInt8) : String :=
  mnemonics.getD opcode.toNat "<invalid>"

/-- Is the opcode in a closed range? -/
def inRange (first last opcode : UInt8) : Bool := first ≤ opcode && opcode ≤ last

/-- Loads and stores with an explicit slot, and `ret`. -/
def usesSlot (opcode : UInt8) : Bool :=
  inRange iload aload opcode || inRange istore astore opcode || opcode == ret

end Opcode

/-- The forms of what follows an opcode. -/
inductive OperandShape
  | empty | byte | short | slot | increment | branch | wideBranch | tableSwitch | lookupSwitch
  | invokeInterface | invokeDynamic | newMultiArray
  deriving DecidableEq, Repr

/-- The shape an opcode announces; none for `wide`, which modifies the opcode after it, and for
opcodes that do not exist. -/
def Opcode.shape? (opcode : UInt8) : Option OperandShape :=
  if opcode == bipush || opcode == ldc || opcode == newarray then some .byte
  else if opcode == sipush || opcode == ldcWide || opcode == ldcLong
      || inRange getstatic invokestatic opcode || opcode == new || opcode == anewarray
      || opcode == checkcast || opcode == instanceof then some .short
  else if usesSlot opcode then some .slot
  else if opcode == iinc then some .increment
  else if inRange ifeq jsr opcode || opcode == ifnull || opcode == ifnonnull then some .branch
  else if opcode == gotoWide || opcode == jsrWide then some .wideBranch
  else if opcode == tableswitch then some .tableSwitch
  else if opcode == lookupswitch then some .lookupSwitch
  else if opcode == invokeinterface then some .invokeInterface
  else if opcode == invokedynamic then some .invokeDynamic
  else if opcode == multianewarray then some .newMultiArray
  else if opcode ≤ last && opcode != wide then some .empty
  else none

example : Opcode.shape? Opcode.ifnonnull = some .branch ∧ Opcode.shape? Opcode.wide = none := by
  decide

end ClassSynth

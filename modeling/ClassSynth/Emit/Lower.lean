import ClassSynth.Body.Basic
import ClassSynth.Emit.State
import ClassSynth.Emit.Context

/-!
# From bodies to code

An expression is lowered either for its value, which it leaves on the stack, or as a condition,
which jumps when it is false. Conjunctions and tests are conditions by nature, and a condition whose
value is wanted is turned into zero or one at the end; all other expressions are values by nature,
and a value that is wanted as a condition is tested for zero.
-/

namespace ClassSynth

/-- What becomes of the value of an expression. -/
inductive Destination
  /-- It stays on the stack. -/
  | value
  /-- Zero jumps to a label, and nothing stays on the stack. -/
  | jumpIfFalse (label : Label)
  deriving DecidableEq, Repr

namespace Emit

/-! ## Small pieces -/

/-- Loads or stores: the slots zero to three have opcodes of their own. -/
def slotInstruction (opcode0 opcode : UInt8) (slot : Nat) : Emit Unit :=
  if slot ≤ 3 then instruction (opcode0 + slot.toUInt8)
  else instruction opcode (.slot slot.toUInt16 (255 < slot))

/-- Loads a local variable. -/
def load (t : TypeName) (slot : Nat) : Emit Unit := do
  let kind := ValueKind.ofType t
  slotInstruction kind.load0 kind.load slot
  pushType t

/-- Stores into a local variable. -/
def store (t : TypeName) (slot : Nat) : Emit Unit := do
  let kind := ValueKind.ofType t
  pop t.slotSize
  slotInstruction kind.store0 kind.store slot
  setLocal slot (← addConstants (verificationType t))

/-- Loads a constant of the pool. -/
def loadConstant (index : UInt16) : Emit Unit :=
  if index ≤ 255 then instruction Opcode.ldc (.byte index.toUInt8)
  else instruction Opcode.ldcWide (.short index)

/-- Pushes a number, in the shortest way. -/
def pushInt (value : Int32) : Emit Unit := do
  if -1 ≤ value ∧ value ≤ 5 then instruction (Opcode.iconst0.toInt8.toInt32 + value).toInt8.toUInt8
  else if -128 ≤ value ∧ value ≤ 127 then instruction Opcode.bipush (.byte value.toInt8.toUInt8)
  else if -32768 ≤ value ∧ value ≤ 32767 then
    instruction Opcode.sipush (.short value.toInt16.toUInt16)
  else loadConstant (← addConstants (ConstantPool.addInteger value))
  push .integer

/-- The latest local variable of a name. -/
def findLocal (name : String) : Emit NamedLocal := do
  match (← get).named.find? (·.name == name) with
  | some l => return l
  | none => fail (.unknownLocal name)

/-- Adds a reference to a field. -/
def fieldRef (f : FieldRef) : Emit UInt16 :=
  addConstants (ConstantPool.addFieldRef f.owner.internalName f.name f.type.descriptor)

/-- Adds a reference to a method. -/
def methodRef (m : MethodRef) : Emit UInt16 :=
  addConstants <|
    (if m.onInterface then ConstantPool.addInterfaceMethodRef else ConstantPool.addMethodRef)
      m.owner.internalName m.name m.descriptor

/-- Adds a reference to a constructor. -/
def constructorRef (owner : TypeName) (params : List TypeName) : Emit UInt16 :=
  methodRef { owner, name := constructorName, params, ret := .void }

/-- Pushes the receiver of the method. -/
def loadThis : Emit Unit := do
  if (← read).isStatic then fail .thisInStaticMethod
  instruction Opcode.aload0
  push ((← get).slots.locals.headD .top)

/-- Are there as many arguments as parameters? -/
def checkCount (params : List TypeName) (args : List Expr) : Emit Unit := do
  if params.length ≠ args.length then fail (.argumentCount params.length args.length)

/-- The type of an expression in the method. -/
def typeOf (e : Expr) : Emit TypeName := do
  let ctx ← read
  match e.valueType? ctx.className ctx.params with
  | some t => return t
  | none => fail (.untypedExpression e.render)

/-! ## Values and conditions -/

/-- The value on the stack goes to its destination. -/
def settle : Destination → Emit Unit
  | .value => pure ()
  | .jumpIfFalse l => branch Opcode.ifeq l 1

/-- A condition goes to its destination. For its value, one is pushed where it holds and zero where
it does not. -/
def condition (emit : Label → Emit Unit) : Destination → Emit Unit
  | .jumpIfFalse l => emit l
  | .value => do
    let whenFalse ← newLabel
    let done ← newLabel
    emit whenFalse
    pushInt 1
    branch Opcode.goto done 0
    place whenFalse
    pushInt 0
    place done

/-- Compares the two values on the stack and jumps if the test fails. -/
def compareJump (op : CompareOp) (t : TypeName) (l : Label) : Emit Unit := do
  let eq := op = .eq
  if t.isReference then branch (if eq then Opcode.ifAcmpne else Opcode.ifAcmpeq) l 2
  else if t.isIntLike then branch (if eq then Opcode.ifIcmpne else Opcode.ifIcmpeq) l 2
  else
    instruction <|
      match t.primitive? with
      | some .long => Opcode.lcmp
      | some .float => Opcode.fcmpl
      | _ => Opcode.dcmpl
    pop (2 * t.slotSize)
    push .integer
    branch (if eq then Opcode.ifne else Opcode.ifeq) l 1

/-- Jumps unless the test of the value on the stack against `null` holds. -/
def nullJump (op : CompareOp) (l : Label) : Emit Unit :=
  branch (if op = .eq then Opcode.ifnonnull else Opcode.ifnull) l 1

/-- The call itself, with receiver and arguments on the stack. -/
def call (kind : CallKind) (m : MethodRef) : Emit Unit := do
  let index ← methodRef m
  let slots := totalSlots m.params
  match kind with
  | .static => instruction Opcode.invokestatic (.short index)
  | .virtual => instruction Opcode.invokevirtual (.short index)
  | .special => instruction Opcode.invokespecial (.short index)
  | .interface =>
    instruction Opcode.invokeinterface (.invokeInterface index (slots + 1).toUInt8)
  pop (slots + if kind = .static then 0 else 1)
  pushType m.ret

/-- A new array of a known length, which is on the stack. -/
def newArray (element : TypeName) : Emit Unit := do
  match element.primitive? with
  | some p => instruction Opcode.newarray (.byte p.arrayCode)
  | none =>
    let index ← addConstants (ConstantPool.addClass element.internalName)
    instruction Opcode.anewarray (.short index)
  pop 1
  pushType element.arrayOf

/-- Starts an object: its class index and the type it has before its constructor runs. -/
def newObject (t : TypeName) : Emit (UInt16 × VerificationType) := do
  let fresh : VerificationType := .uninitialized (← get).pc.toUInt16
  let index ← addConstants (ConstantPool.addClass t.internalName)
  instruction Opcode.new (.short index)
  push fresh
  instruction Opcode.dup
  push fresh
  return (index, fresh)

/-- Calls a constructor, with receiver and arguments on the stack. -/
def callConstructor (t : TypeName) (params : List TypeName) : Emit Unit := do
  let index ← constructorRef t params
  instruction Opcode.invokespecial (.short index)
  pop (totalSlots params + 1)

/-! ## Expressions -/

mutual

/-- Lowers an expression. -/
def expr (dest : Destination) : Expr → Emit Unit
  | .this => do
    loadThis
    settle dest
  | .param index => do
    match (← read).paramSlot? index with
    | some (slot, t) => load t slot
    | none => fail (.unknownParameter index)
    settle dest
  | .localVar name _ => do
    let l ← findLocal name
    load l.type l.slot
    settle dest
  | .null => do
    instruction Opcode.aconstNull
    push .null
    settle dest
  | .bool value =>
    match dest with
    | .value => pushInt (if value then 1 else 0)
    | .jumpIfFalse l => if value then pure () else branch Opcode.goto l 0
  | .int value => do
    pushInt value
    settle dest
  | .str value => do
    loadConstant (← addConstants (ConstantPool.addString value))
    pushType .string
    settle dest
  | .getField target field => do
    expr .value target
    instruction Opcode.getfield (.short (← fieldRef field))
    pop 1
    pushType field.type
    settle dest
  | .getStatic field => do
    instruction Opcode.getstatic (.short (← fieldRef field))
    pushType field.type
    settle dest
  | .invoke kind method target args => do
    if kind ≠ .static then receiver method target
    checkCount method.params args
    exprs .value args
    call kind method
    settle dest
  | .new type params args => do
    let (index, fresh) ← newObject type
    checkCount params args
    exprs .value args
    callConstructor type params
    replaceAll fresh (.object index)
    settle dest
  | .newArray element items => do
    pushInt (Int32.ofNat items.length)
    newArray element
    elements element 0 items
    settle dest
  | .cast type value => do
    if type.isPrimitive then fail (.castToPrimitive type.text)
    expr .value value
    let index ← addConstants (ConstantPool.addClass type.internalName)
    instruction Opcode.checkcast (.short index)
    pop 1
    pushType type
    settle dest
  | .boxed value source => do
    match source.boxed? with
    | none => fail (.cannotBox source.text)
    | some wrapper =>
      expr .value value
      call .static { owner := wrapper, name := "valueOf", params := [source], ret := wrapper }
    settle dest
  | .unboxed value target => do
    match target.boxed? with
    | none => fail (.cannotUnbox target.text)
    | some wrapper =>
      expr .value value
      call .virtual
        { owner := wrapper, name := target.text ++ "Value", params := [], ret := target }
    settle dest
  | .arith op lhs rhs => do
    expr .value lhs
    expr .value rhs
    instruction (match op with | .add => Opcode.iadd | .mul => Opcode.imul)
    pop 2
    push .integer
    settle dest
  | .and items => condition (fun l => exprs (.jumpIfFalse l) items) dest
  | .compare op lhs .null => condition (fun l => do expr .value lhs; nullJump op l) dest
  | .compare op .null rhs => condition (fun l => do expr .value rhs; nullJump op l) dest
  | .compare op lhs rhs =>
    condition (fun l => do
      let t ← typeOf lhs
      expr .value lhs
      expr .value rhs
      compareJump op t l) dest

/-- Lowers expressions one after the other, all for the same destination. -/
def exprs (dest : Destination) : List Expr → Emit Unit
  | [] => pure ()
  | e :: rest => do
    expr dest e
    exprs dest rest

/-- Lowers the receiver of a call. -/
def receiver (method : MethodRef) : Option Expr → Emit Unit
  | some e => expr .value e
  | none => fail (.missingReceiver method.name)

/-- Stores the elements of an array, which is on the stack, from an index on. -/
def elements (element : TypeName) (index : Nat) : List Expr → Emit Unit
  | [] => pure ()
  | e :: rest => do
    instruction Opcode.dup
    pushType element.arrayOf
    pushInt (Int32.ofNat index)
    expr .value e
    instruction element.arrayStore
    pop (2 + element.slotSize)
    elements element (index + 1) rest

end

/-! ## Statements -/

/-- Drops a value of a type. -/
def dropValue (t : TypeName) : Emit Unit := do
  match t.slotSize with
  | 0 => pure ()
  | 1 =>
    instruction Opcode.pop
    pop 1
  | _ =>
    instruction Opcode.pop2
    pop 2

/-- Nothing after this point is reached. -/
def endOfFlow : Emit Unit :=
  modify fun e => { e with reachable := false }

/-- A new local variable. -/
def declare (name : String) (t : TypeName) : Emit Nat :=
  modifyGet fun e =>
    (e.nextLocal,
      { e with
        nextLocal := e.nextLocal + t.slotSize
        named := { name, slot := e.nextLocal, type := t } :: e.named })

/-- Refuses a statement that control cannot reach. -/
def checkReachable (s : Stmt) : Emit Unit := do
  if !(← get).reachable then fail (.unreachableStatement s.render)

mutual

/-- Lowers a statement. -/
def stmt : Stmt → Emit Unit
  | .setField target field value => do
    expr .value target
    expr .value value
    instruction Opcode.putfield (.short (← fieldRef field))
    pop (1 + field.type.slotSize)
  | .declareLocal name type value => do
    expr .value value
    let slot ← declare name type
    store type slot
  | .setLocal name value => do
    let l ← findLocal name
    expr .value value
    store l.type l.slot
  | .expr value => do
    expr .value value
    dropValue (← typeOf value)
  | .ifThen cond body => do
    let skip ← newLabel
    expr (.jumpIfFalse skip) cond
    stmts body
    place skip
  | .ret none => do
    let ret := (← read).ret
    if !ret.isVoid then fail (.missingReturnValue ret.text)
    instruction Opcode.returnVoid
    endOfFlow
  | .ret (some value) => do
    let ret := (← read).ret
    if ret.isVoid then fail .voidReturnsValue
    expr .value value
    instruction ret.returnOpcode
    pop ret.slotSize
    endOfFlow
  | .throw value => do
    expr .value value
    instruction Opcode.athrow
    pop 1
    endOfFlow
  | .superInit owner params args => do
    loadThis
    checkCount params args
    exprs .value args
    callConstructor owner params
    let index ← addConstants (ConstantPool.addClass (← read).className.internalName)
    replaceAll .uninitializedThis (.object index)

/-- Lowers statements one after the other; each must be reached. -/
def stmts : List Stmt → Emit Unit
  | [] => pure ()
  | s :: rest => do
    checkReachable s
    stmt s
    stmts rest

end

/-! ## Bodies -/

/-- The end of a method: a `void` method returns where its body ends. -/
def endMethod : Emit Unit := do
  if (← get).reachable then
    let ret := (← read).ret
    if !ret.isVoid then fail (.missingReturn ret.text)
    instruction Opcode.returnVoid
    endOfFlow

/-- The end of a fragment. What follows it starts with a frame, if only jumps lead there. -/
def endFragment : Emit Unit :=
  modify fun e =>
    if e.reachable then e
    else { e with frames := recordFrame e.frames e.pc { locals := e.entry, stack := [] } }

end Emit

/-- The code of a whole method. -/
def emitMethod (ctx : MethodContext) (body : List Stmt) (pool : ConstantPool) :
    Except Error EmittedCode × ConstantPool :=
  Emit.runWith (do Emit.stmts body; Emit.endMethod) ctx pool

/-- Code that goes on into the code placed after it. -/
def emitFragment (ctx : MethodContext) (body : List Stmt) (pool : ConstantPool) :
    Except Error EmittedCode × ConstantPool :=
  Emit.runWith (do Emit.stmts body; Emit.endFragment) ctx pool

end ClassSynth

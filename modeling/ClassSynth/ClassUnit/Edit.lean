import ClassSynth.ClassUnit.Basic
import ClassSynth.Emit.Lower
import ClassSynth.Patch.Edit

/-!
# Extending classes

Steps that change a class unit. A step that fails leaves the class as it was, but for constants that
it added before it failed; no other part of the class refers to those.
-/

namespace ClassSynth.ClassUnit

/-- A step that changes a class. -/
abbrev Edit := ExceptT Error (StateM ClassUnit)

/-- Runs a step on the constants of the class. -/
def onPool {α : Type} (step : ConstantPool → Except Error α × ConstantPool) : Edit α := do
  let result ← modifyGet fun c =>
    let pool := c.file.pool
    let c := { c with file := { c.file with pool := .empty } }
    let (result, pool) := step pool
    (result, { c with file := { c.file with pool } })
  match result with
  | .ok a => return a
  | .error e => throw e

/-- Runs a step that adds constants. -/
def addConstants {α : Type} (step : ConstantPool.Adding α) : Edit α :=
  onPool fun pool =>
    let (a, pool) := step.run pool
    (.ok a, pool)

/-- Runs a step that edits code. -/
def editCode {α : Type} (step : IndexedBody.Editing α) : Edit α :=
  onPool fun pool =>
    let (result, pool) := step.run.run pool
    (liftFormat result, pool)

/-- Changes the class file, the constants excepted. -/
def modifyFile (f : ClassFile → ClassFile) : Edit Unit :=
  modify fun c => { c with file := f c.file }

/-! ## Header -/

def setFlags (flags : UInt16) : Edit Unit :=
  modifyFile ({ · with flags })

def setSuperclass (t : TypeName) : Edit Unit := do
  let index ← addConstants (ConstantPool.addClass t.internalName)
  modifyFile ({ · with superClass := index })

/-- Removes the superclass; only the root class has none. -/
def clearSuperclass : Edit Unit :=
  modifyFile ({ · with superClass := 0 })

/-- Adds an interface, unless the class lists it already. -/
def addInterface (t : TypeName) : Edit Unit := do
  let index ← addConstants (ConstantPool.addClass t.internalName)
  modifyFile fun f =>
    if f.interfaces.contains index then f else { f with interfaces := f.interfaces ++ [index] }

/-! ## Members -/

/-- Fails because a member exists already. -/
def duplicate {α : Type} (name descriptor : String) : Edit α := do
  throw (.duplicateMember (← get).name.text name descriptor)

/-- A member whose name and descriptor are added to the constants. -/
def memberInfo (flags : UInt16) (name descriptor : String) : Edit MemberInfo := do
  let nameIndex ← addConstants (ConstantPool.addUtf8 name)
  let descriptorIndex ← addConstants (ConstantPool.addUtf8 descriptor)
  return { flags, name := nameIndex, descriptor := descriptorIndex }

def addField (flags : UInt16) (name : String) (t : TypeName) : Edit Unit := do
  if (← get).hasField name then duplicate name t.descriptor
  let field ← memberInfo flags name t.descriptor
  modifyFile fun f => { f with fields := f.fields ++ [field] }

/-- Adds a method without a body. -/
def declareMethod (flags : UInt16) (name : String) (params : List TypeName) (ret : TypeName) :
    Edit Unit := do
  let descriptor := methodDescriptor params ret
  if (← get).hasMethod name descriptor then duplicate name descriptor
  let method ← memberInfo flags name descriptor
  modifyFile fun f => { f with methods := f.methods ++ [method] }

/-- The context of the body of a method. -/
def methodContext (owner : TypeName) (flags : UInt16) (name : String) (params : List TypeName)
    (ret : TypeName) : MethodContext where
  className := owner
  params
  ret := if name == constructorName then .void else ret
  isStatic := AccessFlags.has flags AccessFlags.isStatic
  isConstructor := name == constructorName

/-- Do methods of the class have frames? -/
def usesFrames (c : ClassUnit) : Bool := ClassVersion.usesFrames c.file.major

/-- The frames of new code, as attributes of the code. -/
def frameAttributes (ctx : MethodContext) (frames : List FrameState) : Edit (List Attribute) := do
  if frames.isEmpty || !(← get).usesFrames then return []
  let entry ← addConstants ctx.entryLocals
  let name ← addConstants (ConstantPool.addUtf8 AttributeName.stackMapTable.text)
  return [{ name, info := FrameState.tableBytes frames entry }]

/-- Adds a method with a body. -/
def addMethod (flags : UInt16) (name : String) (params : List TypeName) (ret : TypeName)
    (body : List Stmt) : Edit Unit := do
  let descriptor := methodDescriptor params ret
  let c ← get
  if c.hasMethod name descriptor then duplicate name descriptor
  let ctx := methodContext c.name flags name params ret
  let emitted ← onPool (emitMethod ctx body)
  let attributes ← frameAttributes ctx emitted.frames
  let method ← memberInfo flags name descriptor
  let method ← addConstants <| method.setCode {
    maxStack := emitted.maxStack, maxLocals := emitted.maxLocals, code := emitted.code, attributes }
  modifyFile fun f => { f with methods := f.methods ++ [method] }

/-! ## Bodies -/

/-- A method with a body that can be edited. -/
structure ExistingMethod where
  position : Nat
  info : MemberInfo
  context : MethodContext
  code : CodeAttribute

/-- The compiled method of a name and descriptor. -/
def existing (name descriptor : String) : Edit ExistingMethod := do
  let c ← get
  c.ensureCompiled
  let label := c.name.text ++ "." ++ name ++ descriptor
  match c.file.methods.zipIdx.find? fun (m, _) => c.file.isMember name descriptor m with
  | none => throw (.missingSymbol label)
  | some (info, position) =>
    match ← liftFormat (info.code c.file.pool) with
    | none => throw (.codeGen (.methodWithoutBody label))
    | some code =>
      let (params, ret) ← liftFormat (parseMethodDescriptor descriptor)
      return { position, info, code, context := methodContext c.name info.flags name params ret }

/-- Puts edited code into a method. -/
def putCode (m : ExistingMethod) (code : CodeAttribute) : Edit Unit := do
  let info ← addConstants (m.info.setCode code)
  modifyFile fun f => { f with methods := f.methods.set m.position info }

/-- Runs a body before the existing body of a method. -/
def insertBefore (name descriptor : String) (body : List Stmt) : Edit Unit := do
  let m ← existing name descriptor
  let emitted ← onPool (emitFragment m.context body)
  let prologue ← liftFormat (Fragment.ofEmitted emitted)
  let entry ← addConstants m.context.entryLocals
  putCode m (← editCode (m.code.insertPrologue prologue entry (← get).usesFrames))

/-- Drops the value at every return of a method and returns the result of a body, which must end in
a return, in its place. -/
def replaceReturns (name descriptor : String) (body : List Stmt) : Edit Unit := do
  let m ← existing name descriptor
  let ret := m.context.ret
  if ret.isVoid then throw (.codeGen (.replacesVoidReturns name))
  if ret.isWide then throw (.codeGen (.replacesWideReturns name))
  let emitted ← onPool (emitMethod m.context body)
  let replacement ← liftFormat (Fragment.ofEmitted emitted)
  let entry ← addConstants m.context.entryLocals
  putCode m
    (← editCode (m.code.replaceReturns ret.returnOpcode replacement entry (← get).usesFrames))

/-- Runs a step on a class. -/
def runEdit {α : Type} (c : ClassUnit) (step : Edit α) : Except Error α × ClassUnit :=
  step.run.run c

end ClassSynth.ClassUnit

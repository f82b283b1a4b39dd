import ClassSynth.Action.Basic
import ClassSynth.Session
import ClassSynth.Synthesis.Guard
import ClassSynth.Template.Parser

/-!
# Carrying out actions

An action changes the class under construction. A member that the class has already is left alone,
so an action that was carried out before adds nothing.

A factory may be in another class of the pool. It is added there, or what an existing static method
returns is replaced, and the changed class becomes a result.
-/

namespace ClassSynth.Action

open Session (Step)

/-- Does the class under construction have the method? -/
def isDeclared (m : MethodDeclaration) : Step Bool := do
  return (← Session.currentClass).hasMethod m.name m.descriptor

/-- Adds a public method to the class under construction. -/
def addMethod (m : MethodDeclaration) (body : List Stmt) : Step Unit :=
  Session.editClass <|
    ClassUnit.addMethod AccessFlags.isPublic m.name m.paramTypes m.returnType body

/-! ## Fields, accessors and mutators -/

/-- Adds a private field. -/
def addField (name : String) (t : TypeName) : Step Unit := do
  if !(← Session.currentClass).hasField name then
    Session.editClass (ClassUnit.addField AccessFlags.isPrivate name t)

/-- The value of a field inside the expression of a wrapping template. -/
def wrapField (m : Member) (stored : Expr) (template : String) : Step Expr := do
  let template ← Session.lift (Template.parseWrap template)
  let scope ← Session.scope []
  let scope := { scope with placeholder := some ⟨stored, m.storedType⟩ }
  let wrapped ← Session.onPool (scope.bind template)
  Session.onPool (Binding.adapt wrapped m.exposedType)

/-- Adds a method that returns a field. -/
def addAccessor (m : Member) : Step Unit := do
  if !(← isDeclared m.accessor) then
    let stored := Expr.getField .this (m.fieldRef (← Session.currentClass).name)
    let value ← match m.accessor.directives.wrap? with
      | some wrap => wrapField m stored wrap.template
      | none => pure stored
    addMethod m.accessor [.ret (some value)]

/-- The type of the field that a mutator sets: the declared one, or that of the parameter. -/
def fieldType (field : String) (param : TypeName) : Step TypeName := do
  let found ← Session.lift ((← Session.currentClass).field? field)
  return found.elim param FieldSig.type

/-- How a method ends that returns nothing or the receiver. -/
def returnReceiver (t : TypeName) (mismatch : Error) : Step Stmt := do
  if t.isReference && (← Session.currentIsSubtype t) then return .ret (some .this)
  else throw mismatch

/-- Adds a method that sets a field. -/
def addMutator (field : String) (m : MethodDeclaration) : Step Unit := do
  if !(← isDeclared m) then
    match m.paramTypes with
    | [] => throw (.internal (.mutatorWithoutParameter m.name))
    | param :: _ =>
      let owner := (← Session.currentClass).name
      let type ← fieldType field param
      let value ← Session.onPool (Binding.adapt ⟨.param 1, param⟩ type)
      let t := m.returnType
      let last ← if t.isVoid then pure (.ret none)
        else returnReceiver t (.codeGen (.mutatorReturn m.name t.text owner.text))
      addMethod m [.setField .this { owner, name := field, type } value, last]

/-! ## Invocations -/

/-- Does the last invocation give the value that the method returns? -/
def returnsLast (m : MethodDeclaration) (d : InvokeDirective) : Bool :=
  d.returns = .lastCall && !m.returnType.isVoid

/-- One statement for each template. -/
def invocations (m : MethodDeclaration) (d : InvokeDirective) : List String → Step (List Stmt)
  | [] => return []
  | source :: rest => do
    let template ← Session.lift (Template.parse source)
    let scope ← Session.scope m.paramTypes
    let call ← Session.onPool (scope.bind template)
    let stmt ← if rest.isEmpty && returnsLast m d then do
        pure (.ret (some (← Session.onPool (Binding.adapt call m.returnType))))
      else pure (.expr call.value)
    return stmt :: (← invocations m d rest)

/-- How a method of invocations ends after the last one. -/
def afterInvocations (m : MethodDeclaration) (d : InvokeDirective) : Step (List Stmt) := do
  let t := m.returnType
  match d.returns with
  | .receiver => return [← returnReceiver t (.codeGen (.receiverReturn m.name t.text))]
  | .lastCall =>
    if d.invocations.isEmpty then throw (.config (.noInvocations m.name))
    else return if t.isVoid then [.ret none] else []
  | .nothing =>
    if t.isVoid then return [.ret none]
    else throw (.config (.chainReturnsNothing m.name t.text))

/-- Adds a method that runs invocations. -/
def addInvocations (m : MethodDeclaration) (d : InvokeDirective) : Step Unit := do
  if !(← isDeclared m) then
    let calls ← invocations m d d.invocations
    addMethod m (calls ++ (← afterInvocations m d))

/-! ## Factories -/

/-- Returns a new object made from all parameters. -/
def makeInstance (implementation : TypeName) (params : List TypeName) : List Stmt :=
  let arguments := (List.range params.length).map fun i => Expr.param (i + 1)
  [.ret (some (.new implementation params arguments))]

/-- Adds a factory to a class, or replaces what it returns. Says whether the class was changed. -/
def bindFactory (p : FactoryPlan) (location implementation : TypeName) : ClassUnit.Edit Bool := do
  let unit ← get
  unit.ensureCompiled
  let d := p.directive
  let descriptor := methodDescriptor p.params p.sourceType
  let body := makeInstance implementation p.params
  match ← (unit.method? d.method descriptor : Except Error _) with
  | none =>
    ClassUnit.addMethod (AccessFlags.isPublic ||| AccessFlags.isStatic) d.method p.params
      p.sourceType body
    return true
  | some m =>
    if !m.isStatic then
      throw (.config (.instanceFactory (location.text ++ "." ++ d.method ++ descriptor)))
    else if d.overrideReturn then
      ClassUnit.replaceReturns d.method descriptor body
      return true
    else return false

/-- Adds a factory to the class under construction, or to a class of the pool. -/
def addFactory (p : FactoryPlan) : Step Unit := do
  let d := p.directive
  if d.location.isEmpty || d.method.isEmpty then
    throw (.config (.incompleteFactory p.sourceType.text))
  let implementation := (← Session.currentClass).name
  let location := TypeName.ofText d.location
  if location == implementation then
    discard <| Session.editClass (bindFactory p location implementation)
  else
    discard <| Session.onPool (ClassPool.getOrCreate location)
    let changed ← Session.onPool <|
      ClassPool.edit location.text (bindFactory p location implementation)
    if changed then Session.publish (← Session.onPool (ClassPool.getUnit location.text))

/-! ## Constructors and methods of all members -/

/-- Adds a constructor and the factory that comes with it. -/
def addConstructor (plan : ConstructorPlan) (factory : Option FactoryBinding) : Step Unit := do
  let unit ← Session.currentClass
  let params := plan.signature.params
  if !unit.hasConstructor params then
    let superclass ← Session.lift unit.superclass?
    let body := plan.body unit.name (superclass.getD .object)
    Session.editClass (ClassUnit.addMethod AccessFlags.isPublic constructorName params .void body)
    if let some f := factory then
      addFactory { directive := f.directive, sourceType := f.sourceType, params }

/-- Adds a method that every object has; its body depends on the class and its superclass. -/
def addObjectMethod (name : String) (params : List TypeName) (ret : TypeName)
    (body : TypeName → TypeName → List Stmt) : Step Unit := do
  let unit ← Session.currentClass
  if !unit.hasMethod name (methodDescriptor params ret) then
    let superclass ← Session.lift unit.superclass?
    Session.editClass <|
      ClassUnit.addMethod AccessFlags.isPublic name params ret
        (body unit.name (superclass.getD .object))

/-! ## Guards -/

/-- Checks parameters before the body of a method runs. -/
def addGuards (m : MethodDeclaration) : Step Unit := do
  let guards ← Session.onPool (Synthesis.guards m)
  if !guards.isEmpty then
    Session.editClass (ClassUnit.insertBefore m.name m.descriptor guards)

/-- Carries an action out. -/
def apply : Action → Step Unit
  | field name type => addField name type
  | accessor member => addAccessor member
  | mutator stored method => addMutator stored method
  | invoke method directive => addInvocations method directive
  | constructor plan binding => addConstructor plan binding
  | factory plan => addFactory plan
  | equals members d =>
    addObjectMethod "equals" [.object] .boolean fun owner superclass =>
      Synthesis.equalsBody d owner superclass members
  | hashCode members d =>
    addObjectMethod "hashCode" [] .int fun owner superclass =>
      Synthesis.hashCodeBody d owner superclass members
  | display members d =>
    addObjectMethod "toString" [] .string fun owner superclass =>
      Synthesis.toStringBody d owner superclass members
  | nonNull method => addGuards method

end ClassSynth.Action

import ClassSynth.Binding.Conversion
import ClassSynth.Template.Basic

/-!
# Binding templates

The names of a template are bound in a scope: the class that a method belongs to, its parameters,
and the value that a wrapping template wraps. Members of the class are looked up in the class
itself while it is under construction, then in the pool.

A dotted path is a field of the receiver and fields of that; otherwise a class, a static field of
it and fields of that, the longest class name first.
-/

namespace ClassSynth

/-- What the names of a template refer to. -/
structure Scope where
  thisClass : TypeName
  /-- The class, if it is under construction. -/
  current : Option ClassUnit := none
  params : List TypeName := []
  isStatic : Bool := false
  /-- The value that takes the place of the placeholder. -/
  placeholder : Option Typed := none

namespace Scope

open ClassPool (Step lift)

/-- Fails because of a template. -/
def fail {α : Type} (t : Template) (e : TemplateError) : Step α := throw (.template t.print e)

/-! ## Classes -/

/-- The classes of the root package that have a short name. -/
def shortNames : List String :=
  ["String", "Object", "Throwable", "Integer", "Long", "Float", "Double", "Boolean", "Character",
    "Short", "Byte", "Math", "System", "StringBuilder"]

/-- A class in the package of the scope. -/
def findSibling (s : Scope) (name : String) : Step (Option TypeName) := do
  if s.thisClass.package.isEmpty then return none
  let sibling := s.thisClass.package ++ "." ++ name
  return (← ClassPool.find sibling).map fun _ => .ofText sibling

/-- The class that a dotted name stands for. -/
def findClass (s : Scope) (parts : List String) : Step (Option TypeName) := do
  let name := ".".intercalate parts
  if (← ClassPool.find name).isSome then return some (.ofText name)
  if parts.length ≠ 1 then return none
  if shortNames.contains name then return some (.ofText ("java.lang." ++ name))
  s.findSibling name

/-! ## Members of the receiver -/

/-- Where lookups of inherited members start. -/
def roots (s : Scope) : Step (List TypeName) :=
  match s.current with
  | some unit => lift unit.directSupertypes
  | none => return [s.thisClass]

/-- The methods of a name in the class under construction. -/
def ownMethods (s : Scope) (name : String) : Step (List MethodSig) := do
  match s.current with
  | some unit => return (← lift unit.methods).filter (·.name == name)
  | none => return []

/-- The field of a name in the class under construction. -/
def ownField (s : Scope) (name : String) : Step (Option FieldSig) :=
  match s.current with
  | some unit => lift (unit.field? name)
  | none => return none

/-- A field of the receiver. -/
def thisField (s : Scope) (name : String) : Step (Option FieldRef) := do
  let found ← match ← s.ownField name with
    | some f => pure (some f)
    | none => do ClassPool.findFieldIn (← s.roots) name
  return found.map fun f => { owner := s.thisClass, name, type := f.type }

/-- Has a value of the type members? -/
def hasMembers (t : TypeName) : Bool := t.isReference && !t.isArray && !t.isNull

/-! ## Fields -/

/-- A field of a value; `shown` is the template in messages. -/
def readField (s : Scope) (shown : Template) (target : Typed) (name : String) : Step Typed := do
  let t := target.type
  if !hasMembers t then fail shown (.noFieldsIn name t.text)
  let field ←
    if t == s.thisClass then s.thisField name
    else do
      let found ← ClassPool.findField t name
      pure (found.map fun f => ({ owner := t, name, type := f.type } : FieldRef))
  match field with
  | some f => return ⟨.getField target.value f, f.type⟩
  | none => throw (.missingSymbol (t.text ++ "." ++ name))

/-- A field of a value, a field of that, and so on. -/
def readFields (s : Scope) (shown : Template) (target : Typed) (names : List String) : Step Typed :=
  names.foldlM (s.readField shown) target

/-- A static field. -/
def readStatic (owner : TypeName) (name : String) : Step Typed := do
  match ← ClassPool.findField owner name with
  | some f => return ⟨.getStatic { owner := f.owner, name, type := f.type }, f.type⟩
  | none => throw (.missingSymbol (owner.text ++ "." ++ name))

/-- The value of a path as a static field of the class that the first `n` parts stand for, or of the
class that fewer parts stand for. -/
def bindStaticPath (s : Scope) (shown : Template) (parts : List String) : Nat → Step Typed
  | 0 => throw (.missingSymbol (".".intercalate parts))
  | n + 1 => do
    match ← s.findClass (parts.take (n + 1)), parts.drop (n + 1) with
    | some owner, name :: rest => s.readFields shown (← readStatic owner name) rest
    | _, _ => s.bindStaticPath shown parts n

/-- A field of the receiver, if the first part of a path is one. -/
def headField (s : Scope) : List String → Step (Option FieldRef)
  | [] => return none
  | name :: _ => if s.isStatic then return none else s.thisField name

/-- The value of a path. -/
def bindPath (s : Scope) (shown : Template) (parts : List String) : Step Typed := do
  match ← s.headField parts with
  | some f => s.readFields shown ⟨.getField .this f, f.type⟩ parts.tail
  | none => s.bindStaticPath shown parts (parts.length - 1)

/-! ## Calls -/

/-- The method to call, with its arguments. -/
def select (shown : Template) (owner : TypeName) (name : String) (candidates : List MethodSig)
    (args : List Typed) : Step (MethodSig × List Expr) := do
  let types := args.map Typed.type
  match ← Binding.cheapest types candidates with
  | some a => return (a.method, Binding.convertArguments a args)
  | none => fail shown (.noApplicableMethod owner.text name (types.map TypeName.text))

/-- A call of a static method. -/
def staticCall (owner : TypeName) (m : MethodSig) (args : List Expr) : Typed :=
  ⟨.invokeStatic { owner, name := m.name, params := m.params, ret := m.ret } args, m.ret⟩

/-- Is the class of a receiver an interface? -/
def ownerIsInterface (s : Scope) (owner : TypeName) : Step Bool := do
  match s.current with
  | some unit =>
    if owner == s.thisClass then return unit.isInterface
    else return (← ClassPool.getUnit owner.text).isInterface
  | none => return (← ClassPool.getUnit owner.text).isInterface

/-- A call of a method on a receiver. -/
def instanceCall (s : Scope) (receiver : Expr) (owner : TypeName) (m : MethodSig)
    (args : List Expr) : Step Typed := do
  let onInterface ← s.ownerIsInterface owner
  let method : MethodRef := { owner, name := m.name, params := m.params, ret := m.ret, onInterface }
  return ⟨.invokeVirtual receiver method args, m.ret⟩

/-- A call without a target. -/
def callThis (s : Scope) (shown : Template) (name : String) (args : List Typed) : Step Typed := do
  let own ← s.ownMethods name
  let inherited ← ClassPool.collectMethods (← s.roots) name
  let all := inherited.foldl ClassPool.addSignature own
  let candidates := if s.isStatic then all.filter (·.isStatic) else all
  let (m, args) ← select shown s.thisClass name candidates args
  if m.isStatic then return staticCall s.thisClass m args
  else s.instanceCall .this s.thisClass m args

/-- A call on a value. -/
def callOn (s : Scope) (shown : Template) (receiver : Typed) (name : String) (args : List Typed) :
    Step Typed := do
  let t := receiver.type
  if !hasMembers t then fail shown (.noMethodsIn name t.text)
  let candidates ←
    if t == s.thisClass && s.current.isSome then do
      let own ← s.ownMethods name
      pure (own ++ (← ClassPool.collectMethods (← s.roots) name))
    else ClassPool.methodsNamed t name
  let (m, args) ← select shown t name candidates args
  if m.isStatic then return staticCall m.owner m args
  else s.instanceCall receiver.value t m args

/-- A call on a class. -/
def callStatic (shown : Template) (owner : TypeName) (name : String) (args : List Typed) :
    Step Typed := do
  let candidates := (← ClassPool.methodsNamed owner name).filter (·.isStatic)
  let (m, args) ← select shown owner name candidates args
  return staticCall owner m args

/-- A call on what a path stands for: a field of the receiver, a class, or a static field. -/
def callPath (s : Scope) (shown path : Template) (parts : List String) (name : String)
    (args : List Typed) : Step Typed := do
  if (← s.headField parts).isSome then
    s.callOn shown (← s.bindPath path parts) name args
  else
    match ← s.findClass parts with
    | some owner => callStatic shown owner name args
    | none => s.callOn shown (← s.bindPath shown parts) name args

/-- A new object. -/
def create (shown : Template) (owner : TypeName) (args : List Typed) : Step Typed := do
  let found ← ClassPool.methodsNamed owner constructorName
  let (m, args) ← select shown owner constructorName (found.filter (·.owner == owner)) args
  return ⟨.new owner m.params args, owner⟩

/-! ## Templates -/

/-- All parameters as arguments. -/
def allParams (s : Scope) : List Typed :=
  s.params.zipIdx.map fun (t, i) => ⟨.param (i + 1), t⟩

mutual

/-- The expression that a template stands for. -/
def bind (s : Scope) : Template → Step Typed
  | .placeholder =>
    match s.placeholder with
    | some v => return v
    | none => fail .placeholder .placeholderOutsideWrap
  | .this => if s.isStatic then fail .this .thisInStaticContext else return ⟨.this, s.thisClass⟩
  | .param index =>
    match Expr.paramType? s.params index with
    | some t => return ⟨.param index, t⟩
    | none => fail (.param index) (.parameterCount s.params.length)
  | .allParams => fail .allParams .allParamsOutsideCall
  | .null => return ⟨.null, .null⟩
  | .bool value => return ⟨.bool value, .boolean⟩
  | .int value => return ⟨.int value, .int⟩
  | .str value => return ⟨.str value, .string⟩
  | .path parts => s.bindPath (.path parts) parts
  | .field target name => do s.readField (.field target name) (← s.bind target) name
  | .call target name args => do
    let typed ← s.bindArguments args
    s.bindCall (.call target name args) name typed target
  | .new className args => do
    match ← s.findClass (splitWhere (· == '.') className) with
    | none => throw (.missingSymbol className)
    | some owner => create (.new className args) owner (← s.bindArguments args)

/-- The expressions that arguments stand for. -/
def bindArguments (s : Scope) : List Template → Step (List Typed)
  | [] => return []
  | .allParams :: rest => return s.allParams ++ (← s.bindArguments rest)
  | t :: rest => do
    let v ← s.bind t
    return v :: (← s.bindArguments rest)

/-- The call on a target; its arguments are bound already. -/
def bindCall (s : Scope) (shown : Template) (name : String) (args : List Typed) :
    Option Template → Step Typed
  | none => s.callThis shown name args
  | some (.path parts) => s.callPath shown (.path parts) parts name args
  | some t => do s.callOn shown (← s.bind t) name args

end

end Scope

end ClassSynth

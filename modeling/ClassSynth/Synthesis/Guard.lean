import ClassSynth.Body.Basic
import ClassSynth.Pool.Basic

/-!
# Guards

Statements that check the parameters of a method before its body runs. A guard refers to an
exception or a library class, which must be known; primitive parameters are not guarded.
-/

namespace ClassSynth.Synthesis

open ClassPool (Step)

/-- A message with the index in the place of the number in braces. -/
def formatMessage (template : String) (index : Nat) : String :=
  replaceText "\x7b0\x7d" (toString index) template

/-- Throws an exception if a parameter is null. -/
def throwIfNull (index : Nat) (exception : TypeName) (message : Expr) : Stmt :=
  .ifThen (.compare .eq (.param index) .null) [.throw (.new exception [.string] [message])]

/-- Leaves the check of a parameter to a method of a library. -/
def libraryCheck (owner : TypeName) (name : String) (index : Nat) (message : Expr) : Stmt :=
  .expr <| .invokeStatic
    { owner, name, params := [.object, .string, TypeName.object.arrayOf], ret := .object }
    [.param index, message, .newArray .object []]

/-- The guard of a parameter. -/
def guard (index : Nat) (d : NonNullDirective) : Step Stmt := do
  let message := Expr.str (formatMessage d.message index)
  match d.handler with
  | .custom =>
    let exception ← ClassPool.getUnit d.exception
    if exception.hasConstructor [.string] then return throwIfNull index exception.name message
    else throw (.config (.noMessageConstructor exception.name.text))
  | .guavaPreconditions =>
    let library ← ClassPool.getUnit "com.google.common.base.Preconditions"
    return libraryCheck library.name "checkNotNull" index message
  | .apacheValidate =>
    let library ← ClassPool.getUnit "org.apache.commons.lang3.Validate"
    return libraryCheck library.name "notNull" index message

/-- The checked parameters that can be null. -/
def guardedParams (m : MethodDeclaration) : List (Nat × NonNullDirective) :=
  m.nonNullParams.filter fun (i, _) => !(Expr.paramType? m.paramTypes i).any (·.isPrimitive)

/-- The guards of a method. -/
def guards (m : MethodDeclaration) : Step (List Stmt) :=
  (guardedParams m).mapM fun (i, d) => guard i d

end ClassSynth.Synthesis

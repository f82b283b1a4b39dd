import ClassSynth.Body.Basic
import ClassSynth.Pool.Basic

/-!
# Conversions

Conversions of values between types. An argument is converted without a cast: it stands as it is, is
widened to `int`, boxed or unboxed, and each way has a cost by which overloads are compared. `adapt`
also casts.
-/

namespace ClassSynth

/-- An expression with its type. -/
structure Typed where
  value : Expr
  type : TypeName
  deriving Repr, Inhabited

namespace Binding

open ClassPool (Step)

/-! ## Costs -/

/-- The cost, if the test holds. -/
def costIf (test : Bool) (cost : Nat) : Option Nat := if test then some cost else none

/-- The types below `int` whose values can stand for `int` values. -/
def widensToInt (t : TypeName) : Bool :=
  match t.primitive? with
  | some .byte | some .short | some .char => true
  | _ => false

/-- The cost of passing a value where another type is expected. -/
def conversionCost (source target : TypeName) : Step (Option Nat) := do
  if source == target then return some 0
  else if source.isReference && target.isReference then
    return costIf (← ClassPool.isSubtype source target) 1
  else if source.isPrimitive && target.isPrimitive then
    return costIf (target == .int && widensToInt source) 1
  else if source.isPrimitive then
    match source.boxed? with
    | some wrapper => return costIf (← ClassPool.isSubtype wrapper target) 2
    | none => return none
  else return costIf (source.unboxed? == some target) 2

/-- The sum of the costs, as far as every value can be passed. -/
def totalCost : List (TypeName × TypeName) → Step (Option Nat)
  | [] => return some 0
  | (source, target) :: rest => do
    match ← conversionCost source target with
    | none => return none
    | some cost => return (← totalCost rest).map (cost + ·)

/-- The cost of passing as many arguments as there are parameters. -/
def fixedCost (params args : List TypeName) : Step (Option Nat) :=
  if params.length = args.length then totalCost (args.zip params) else return none

/-- What packing arguments into an array adds to the cost. -/
def packingCost : Nat := 100

/-- The cost of packing the arguments after the fixed ones into an array for the last parameter. -/
def packedCost (params args : List TypeName) : Step (Option Nat) := do
  match params.getLast? with
  | none => return none
  | some array =>
    let fixed := params.dropLast
    if args.length < fixed.length then return none
    match ← fixedCost fixed (args.take fixed.length) with
    | none => return none
    | some cost =>
      let rest ← totalCost ((args.drop fixed.length).map fun t => (t, array.elementType))
      return rest.map fun more => cost + more + packingCost

/-! ## Values -/

/-- The argument as a value for a parameter that it can be passed to. -/
def coerce (target : TypeName) (arg : Typed) : Expr :=
  if arg.type.isPrimitive && target.isReference then .boxed arg.value arg.type
  else if arg.type.isReference && !arg.type.isNull && target.isPrimitive then
    .unboxed arg.value target
  else arg.value

/-- The value for use where another type is expected: boxed, unboxed or cast if that is needed. -/
def adapt (v : Typed) (target : TypeName) : Step Expr := do
  if v.type == target then return v.value
  let mismatch {α : Type} : Step α :=
    throw (.codeGen (.cannotConvert v.value.render v.type.text target.text))
  match v.type.primitive?, target.primitive? with
  | none, none =>
    if v.type.isVoid || target.isVoid then mismatch
    else if ← ClassPool.isSubtype v.type target then return v.value
    else return .cast target v.value
  | some source, some _ =>
    if target == .int && source.isIntLike && source ≠ .boolean then return v.value else mismatch
  | some source, none =>
    if ← ClassPool.isSubtype ⟨source.wrapper⟩ target then return .boxed v.value v.type
    else mismatch
  | none, some goal =>
    let wrapper : TypeName := ⟨goal.wrapper⟩
    return .unboxed (if v.type == wrapper then v.value else .cast wrapper v.value) target

end Binding

end ClassSynth

namespace ClassSynth.Binding

/-! ## Overloads

Of several methods of a name the cheapest one that takes the arguments is called; of two that cost
the same, the first.
-/

open ClassPool (Step)

/-- A way to call a method. -/
structure Applicable where
  method : MethodSig
  cost : Nat
  /-- The last arguments are packed into an array. -/
  isPacked : Bool

/-- The way to call a method with arguments of these types, if there is one. -/
def applicable (args : List TypeName) (m : MethodSig) : Step (Option Applicable) := do
  match ← fixedCost m.params args with
  | some cost => return some { method := m, cost, isPacked := false }
  | none =>
    if m.isVarargs then
      return (← packedCost m.params args).map fun cost => { method := m, cost, isPacked := true }
    else return none

/-- The cheaper of two ways. -/
def cheaper (best : Option Applicable) (next : Option Applicable) : Option Applicable :=
  match best, next with
  | some b, some n => if n.cost < b.cost then some n else some b
  | none, n => n
  | b, none => b

/-- The cheapest way to call one of the methods. -/
def cheapest (args : List TypeName) (candidates : List MethodSig) : Step (Option Applicable) :=
  candidates.foldlM (fun best m => return cheaper best (← applicable args m)) none

/-- The arguments as values for the parameters. -/
def convertArguments (a : Applicable) (args : List Typed) : List Expr :=
  let params := a.method.params
  if a.isPacked then
    let fixed := params.dropLast
    let element := (params.getLast?.getD .object).elementType
    (fixed.zip args).map (fun (param, arg) => coerce param arg) ++
      [.newArray element ((args.drop fixed.length).map (coerce element))]
  else (params.zip args).map fun (param, arg) => coerce param arg

end ClassSynth.Binding

import ClassSynth.Proofs.Execution.Machine

/-!
# The meaning of bodies

Bodies are evaluated over values of any kind. What calls and operators do with values is left to
`Operations`; evaluation fixes the order: receivers come before arguments, arguments come one after
the other, and a conjunction stops at the first condition that does not hold.
-/

namespace ClassSynth

/-- What the operations of bodies do with values `V`, with effects in `M`. -/
structure Operations (M : Type → Type) (V : Type) where
  null : V
  bool : Bool → V
  int : Int32 → V
  str : String → M V
  /-- The truth value that a condition has. -/
  truth : V → M Bool
  field : V → FieldRef → M V
  staticField : FieldRef → M V
  /-- The result of a call, given the receiver and the arguments. -/
  call : CallKind → MethodRef → Option V → List V → M V
  create : TypeName → List TypeName → List V → M V
  array : TypeName → List V → M V
  cast : TypeName → V → M V
  boxed : TypeName → V → M V
  unboxed : TypeName → V → M V
  /-- Are two values equal for the operator `==`? -/
  same : V → V → M Bool
  arith : ArithOp → V → V → M V

/-- The receiver and the arguments of a method. -/
structure Activation (V : Type) where
  receiver? : Option V
  args : List V

/-- What a statement leads to: the next one, with values of the local variables, or a result. -/
inductive Completion (V : Type)
  | next (env : List (String × V))
  | returned (value? : Option V)

section

variable {M : Type → Type} {V : Type} [Monad M] [MonadExcept Unit M]

/-- What has no meaning. -/
def Meaning.undefined {α : Type} : M α := throw ()

/-- A value that should be there. -/
def Meaning.known {α : Type} : Option α → M α
  | some a => pure a
  | none => Meaning.undefined

section

variable (ops : Operations M V) (act : Activation V) (env : List (String × V))

mutual

/-- The value of an expression. -/
def Expr.value : Expr → M V
  | .this => Meaning.known act.receiver?
  | .param 0 => Meaning.undefined
  | .param (position + 1) => Meaning.known act.args[position]?
  | .localVar name _ => Meaning.known (env.lookup name)
  | .null => pure ops.null
  | .bool b => pure (ops.bool b)
  | .int n => pure (ops.int n)
  | .str text => ops.str text
  | .getField target field => do ops.field (← target.value) field
  | .getStatic field => ops.staticField field
  | .invoke kind method target args => do
    let receiver ← if kind = .static then pure none else Expr.receiverValue target
    let args ← Expr.values args
    ops.call kind method receiver args
  | .new type params args => do ops.create type params (← Expr.values args)
  | .newArray element items => do ops.array element (← Expr.values items)
  | .cast type x => do ops.cast type (← x.value)
  | .boxed x source => do ops.boxed source (← x.value)
  | .unboxed x target => do ops.unboxed target (← x.value)
  | .and items => do return ops.bool (← Expr.allHold items)
  | .compare op lhs rhs => do
    let a ← lhs.value
    let b ← rhs.value
    return ops.bool (op.holds (← ops.same a b))
  | .arith op lhs rhs => do
    let a ← lhs.value
    let b ← rhs.value
    ops.arith op a b

/-- The values of expressions, one after the other. -/
def Expr.values : List Expr → M (List V)
  | [] => pure []
  | x :: rest => do
    let v ← x.value
    let vs ← Expr.values rest
    return v :: vs

/-- The receiver of a call. -/
def Expr.receiverValue : Option Expr → M (Option V)
  | none => Meaning.undefined
  | some x => do return some (← x.value)

/-- Do all conditions hold? Those after the first that does not are not evaluated. -/
def Expr.allHold : List Expr → M Bool
  | [] => pure true
  | x :: rest => do
    if ← ops.truth (← x.value) then Expr.allHold rest else pure false

end

end

variable (ops : Operations M V) (act : Activation V)

/-- A new value for a name, where it was declared last. -/
def Meaning.assign (name : String) (v : V) : List (String × V) → List (String × V)
  | [] => []
  | entry :: rest => if entry.1 = name then (name, v) :: rest else entry :: assign name v rest

mutual

/-- What a statement does. Objects are neither changed nor constructed, and nothing is thrown. -/
def Stmt.outcome (env : List (String × V)) : Stmt → M (Completion V)
  | .declareLocal name _ x => do return .next ((name, ← x.value ops act env) :: env)
  | .setLocal name x => do return .next (Meaning.assign name (← x.value ops act env) env)
  | .expr x => do
    let _ ← x.value ops act env
    return .next env
  | .ifThen cond body => do
    if ← ops.truth (← cond.value ops act env) then
      match ← Stmt.outcomeAll env body with
      | .next inner => return .next (inner.drop (inner.length - env.length))
      | .returned value? => return .returned value?
    else return .next env
  | .ret none => return .returned none
  | .ret (some x) => do return .returned (some (← x.value ops act env))
  | .setField .. | .throw _ | .superInit .. => Meaning.undefined

/-- What statements do, one after the other, until one returns. -/
def Stmt.outcomeAll (env : List (String × V)) : List Stmt → M (Completion V)
  | [] => return .next env
  | s :: rest => do
    match ← s.outcome env with
    | .next env => Stmt.outcomeAll env rest
    | .returned value? => return .returned value?

end

/-- The value that a method returns. -/
def Meaning.resultOf (body : List Stmt) : M V := do
  match ← Stmt.outcomeAll ops act [] body with
  | .returned (some v) => return v
  | _ => Meaning.undefined

end

end ClassSynth

import ClassSynth.Emit.Context
import ClassSynth.Proofs.Body.Occurrences
import ClassSynth.Proofs.Execution.Machine

/-!
# The meaning of scalar bodies

Bodies over numbers, truth values and references are evaluated directly: an expression has a value
in an environment, and a statement either goes on with a new environment or returns. A conjunction
is evaluated from the left and stops at the first condition that is false.

`ScalarBody` says which bodies these are. Their values are of known kinds (`Scalar.Kind`), and
the names of their local variables are in scope where they stand.
-/

namespace ClassSynth

/-! ## Values -/

/-- A value that scalar bodies compute with. -/
inductive Scalar
  | int (n : Int32)
  | bool (b : Bool)
  /-- A reference to an object, or `null`. -/
  | ref (object? : Option Nat)
  deriving DecidableEq, Repr

namespace Scalar

inductive Kind
  | int | bool | ref
  deriving DecidableEq, Repr

def kind : Scalar → Kind
  | int _ => .int
  | bool _ => .bool
  | ref _ => .ref

/-- The value as the machine holds it: truth values are zero and one. -/
def encode : Scalar → Machine.Value
  | int n => .int n
  | bool b => .int (if b then 1 else 0)
  | ref object? => .ref object?

/-- The kind that instructions tell apart. -/
def Kind.valueKind : Kind → ValueKind
  | int | bool => .int
  | ref => .reference

/-- The kind of the values of a type; none for wide and fractional numbers and for `void`. -/
def kindOf? (t : TypeName) : Option Kind :=
  match t.primitive? with
  | some .boolean => some .bool
  | some p => if p.isIntLike then some .int else none
  | none => if t.isVoid then none else some .ref

end Scalar

/-! ## Evaluation -/

/-- The values of the local variables in scope, last declared first. -/
abbrev Bindings := List (String × Scalar)

/-- What a statement leads to. -/
inductive Flow
  | next (env : Bindings)
  | returned (value? : Option Scalar)
  deriving DecidableEq, Repr

mutual

/-- The value of an expression. -/
def Expr.evaluate (args : List Scalar) (env : Bindings) : Expr → Option Scalar
  | .param 0 => none
  | .param (position + 1) => args[position]?
  | .localVar name _ => env.lookup name
  | .null => some (.ref none)
  | .bool b => some (.bool b)
  | .int n => some (.int n)
  | .arith op lhs rhs =>
    match lhs.evaluate args env, rhs.evaluate args env with
    | some (.int a), some (.int b) => some (.int (op.apply a b))
    | _, _ => none
  | .and items => (Expr.holdAll args env items).map .bool
  | .compare op lhs rhs =>
    match lhs.evaluate args env, rhs.evaluate args env with
    | some a, some b => some (.bool (op.holds (a == b)))
    | _, _ => none
  | _ => none

/-- Do all conditions hold? Those after the first that does not are not evaluated. -/
def Expr.holdAll (args : List Scalar) (env : Bindings) : List Expr → Option Bool
  | [] => some true
  | item :: rest =>
    match item.evaluate args env with
    | some (.bool true) => Expr.holdAll args env rest
    | some (.bool false) => some false
    | _ => none

end

/-- The environment with a new value for a name, where it was declared last. -/
def Bindings.assign (name : String) (v : Scalar) : Bindings → Bindings
  | [] => []
  | entry :: rest =>
    if entry.1 = name then (name, v) :: rest else entry :: Bindings.assign name v rest

/-- The end of a block, which started in an environment: what it declared goes out of scope. -/
def Flow.leave (outer : Bindings) : Flow → Flow
  | next env => next (env.drop (env.length - outer.length))
  | returned value? => returned value?

mutual

/-- What a statement does. -/
def Stmt.execute (args : List Scalar) (env : Bindings) : Stmt → Option Flow
  | .declareLocal name _ value => (value.evaluate args env).map fun v => .next ((name, v) :: env)
  | .setLocal name value => (value.evaluate args env).map fun v => .next (env.assign name v)
  | .expr value => (value.evaluate args env).map fun _ => .next env
  | .ifThen cond body =>
    match cond.evaluate args env with
    | some (.bool true) => (Stmt.executeAll args env body).map (Flow.leave env)
    | some (.bool false) => some (.next env)
    | _ => none
  | .ret none => some (.returned none)
  | .ret (some value) => (value.evaluate args env).map fun v => .returned (some v)
  | _ => none

/-- What statements do, one after the other, until one returns. -/
def Stmt.executeAll (args : List Scalar) (env : Bindings) : List Stmt → Option Flow
  | [] => some (.next env)
  | s :: rest =>
    match s.execute args env with
    | some (.next env) => Stmt.executeAll args env rest
    | some (.returned value?) => some (.returned value?)
    | none => none

end

/-- The result of a method: only a `void` method may end without `return`. -/
def evaluateBody (ctx : MethodContext) (body : List Stmt) (args : List Scalar) :
    Option (Option Scalar) :=
  match Stmt.executeAll args [] body with
  | some (.returned value?) => some value?
  | some (.next _) => if ctx.ret.isVoid then some none else none
  | none => none

/-! ## Scopes and kinds -/

/-- The kinds of the local variables in scope, last declared first. -/
abbrev KindScope := List (String × Scalar.Kind)

mutual

/-- The kind of an expression whose operands are of matching kinds. -/
def Expr.kind? (params : List TypeName) (scope : KindScope) : Expr → Option Scalar.Kind
  | .param index => (Expr.paramType? params index).bind Scalar.kindOf?
  | .localVar name type =>
    (scope.lookup name).filter fun kind => Scalar.kindOf? type = some kind
  | .null => some .ref
  | .bool _ => some .bool
  | .int _ => some .int
  | .arith _ lhs rhs =>
    if lhs.kind? params scope = some .int ∧ rhs.kind? params scope = some .int then some .int
    else none
  | .and items => if Expr.areConditions params scope items then some .bool else none
  | .compare _ lhs rhs =>
    if (lhs.kind? params scope).isSome ∧ lhs.kind? params scope = rhs.kind? params scope then
      some .bool
    else none
  | _ => none

/-- Are all expressions truth values? -/
def Expr.areConditions (params : List TypeName) (scope : KindScope) : List Expr → Bool
  | [] => true
  | item :: rest => item.kind? params scope = some .bool && Expr.areConditions params scope rest

end

mutual

/-- The scope after a statement whose parts are of matching kinds. -/
def Stmt.scope? (ctx : MethodContext) (scope : KindScope) : Stmt → Option KindScope
  | .declareLocal name type value =>
    match value.kind? ctx.params scope with
    | some kind => if Scalar.kindOf? type = some kind then some ((name, kind) :: scope) else none
    | none => none
  | .setLocal name value =>
    match value.kind? ctx.params scope with
    | some kind => if scope.lookup name = some kind then some scope else none
    | none => none
  | .expr value => if (value.kind? ctx.params scope).isSome then some scope else none
  | .ifThen cond body =>
    if cond.kind? ctx.params scope = some .bool ∧ (Stmt.scopeAll? ctx scope body).isSome then
      some scope
    else none
  | .ret none => some scope
  | .ret (some value) =>
    match value.kind? ctx.params scope with
    | some kind => if Scalar.kindOf? ctx.ret = some kind then some scope else none
    | none => none
  | _ => none

/-- The scope after statements. -/
def Stmt.scopeAll? (ctx : MethodContext) (scope : KindScope) : List Stmt → Option KindScope
  | [] => some scope
  | s :: rest => (s.scope? ctx scope).bind fun scope => Stmt.scopeAll? ctx scope rest

end

/-- A body over numbers, truth values and references, with parameters of such types: operands are of
matching kinds, each local variable is declared once, and it is used only in the block that declares
it. -/
structure ScalarBody (ctx : MethodContext) (body : List Stmt) : Prop where
  params : ∀ t ∈ ctx.params, (Scalar.kindOf? t).isSome
  kinds : (Stmt.scopeAll? ctx [] body).isSome
  once : (Stmt.declaredAll body).Nodup

end ClassSynth

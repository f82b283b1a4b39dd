import ClassSynth.Body.Basic
import ClassSynth.Emit.Context
import ClassSynth.Proofs.Verifier.Descriptor

/-!
# Typed bodies

Which bodies have operands of the types that their positions ask for. Types are compared either by
the slots of their values or by the kinds that the verifier tells apart. `Stmt.typesAfter?` follows
the local variables: a name stands for the variable of that name that was declared last, with the
type it was declared with. `SlottedBody` asks for less: operands of the right numbers of slots, as
far as their types are known.
-/

namespace ClassSynth

/-- How closely the types of operands are compared. -/
inductive Precision
  /-- By the number of slots. -/
  | width
  /-- By the kind of values. -/
  | kind
  deriving DecidableEq, Repr

namespace Precision

/-- Are values of the kinds alike? -/
def same : Precision → ValueKind → ValueKind → Bool
  | width, k, l => k.isWide == l.isWide
  | kind, k, l => k == l

/-- Does the type have values? The type of `null` is not told apart from other references by its
slots. -/
def inhabits (p : Precision) (t : TypeName) : Bool :=
  !t.isVoid && (p == width || !t.isNull)

/-- Can a member or a parameter have the type? -/
def declares (p : Precision) (t : TypeName) : Bool :=
  p.inhabits t && t.isDescribable

/-- Can a value of the type stand where one of a kind is wanted? -/
def admits (p : Precision) (k : ValueKind) (t : TypeName) : Bool :=
  !t.isVoid && p.same (.ofType t) k

end Precision

/-- The local variables in scope with their types, last declared first. A variable without a type is
out of scope, but hides others of its name. -/
abbrev TypeScope := List (String × Option TypeName)

namespace TypeScope

/-- The type of the variable that a name stands for. -/
def type? (scope : TypeScope) (name : String) : Option TypeName :=
  (scope.lookup name).join

/-- The scope behind a block that started in another scope. The slots of variables do not depend on
where they were declared, what they hold does. -/
def leave : Precision → TypeScope → TypeScope → TypeScope
  | .width, _, inner => inner
  | .kind, outer, inner =>
    (inner.take (inner.length - outer.length)).map (fun v => (v.1, none)) ++ outer

end TypeScope

section

variable (p : Precision) (ctx : MethodContext) (usable : Bool) (scope : TypeScope)

mutual

/-- The type of an expression whose operands are of the types they should be of; `usable` says
whether the receiver may be used. -/
def Expr.type? : Expr → Option TypeName
  | .this => if usable && ctx.className.isReference then some ctx.className else none
  | .param index => Expr.paramType? ctx.params index
  | .localVar name type =>
    if (scope.type? name).any fun declared => p.admits (.ofType declared) type then some type
    else none
  | .null => some .null
  | .bool _ => some .boolean
  | .int _ => some .int
  | .str _ => some .string
  | .getField target field =>
    if target.type?.any (p.admits .reference) && p.declares field.type then some field.type
    else none
  | .getStatic field => if p.declares field.type then some field.type else none
  | .invoke kind method target args =>
    if (kind == .static || Expr.receiverFits target) && method.params.all p.declares &&
        Expr.allFit (method.params.map .ofType) args &&
        (method.ret.isVoid || p.declares method.ret) then
      some method.ret
    else none
  | .new type params args =>
    if type.isReference && params.all p.declares && Expr.allFit (params.map .ofType) args then
      some type
    else none
  | .newArray element items =>
    if p.inhabits element && Expr.allFit (.replicate items.length (.ofType element)) items then
      some element.arrayOf
    else none
  | .cast type value =>
    if value.type?.any (p.admits .reference) && p.inhabits type then some type else none
  | .boxed value source =>
    if value.type?.any (p.admits (.ofType source)) then source.boxed? else none
  | .unboxed value target =>
    if value.type?.any (p.admits .reference) && target.isPrimitive then some target else none
  | .and items => if Expr.allFit (.replicate items.length .int) items then some .boolean else none
  | .compare _ lhs rhs =>
    if lhs.type?.any fun t => !t.isVoid && rhs.type?.any (p.admits (.ofType t)) then some .boolean
    else none
  | .arith _ lhs rhs =>
    if lhs.type?.any (p.admits .int) && rhs.type?.any (p.admits .int) then some .int else none

/-- Are the values of the expressions of the given kinds? -/
def Expr.allFit : List ValueKind → List Expr → Bool
  | [], [] => true
  | k :: ks, x :: xs => x.type?.any (p.admits k) && Expr.allFit ks xs
  | _, _ => false

/-- Is the receiver of a call a reference? -/
def Expr.receiverFits : Option Expr → Bool
  | some x => x.type?.any (p.admits .reference)
  | none => true

end

end

mutual

/-- The scope after a statement whose operands are of the types they should be of. The object under
construction is no operand, so the call of an inherited constructor is left to `bodyTypes?`. -/
def Stmt.typesAfter? (p : Precision) (ctx : MethodContext) (scope : TypeScope) :
    Stmt → Option TypeScope
  | .setField target field value =>
    if (target.type? p ctx true scope).any (p.admits .reference) && p.declares field.type &&
        (value.type? p ctx true scope).any (p.admits (.ofType field.type)) then
      some scope
    else none
  | .declareLocal name type value =>
    if p.inhabits type && (value.type? p ctx true scope).any (p.admits (.ofType type)) then
      some ((name, some type) :: scope)
    else none
  | .setLocal name value =>
    if (scope.type? name).any fun type =>
        (value.type? p ctx true scope).any (p.admits (.ofType type)) then
      some scope
    else none
  | .expr value => if (value.type? p ctx true scope).isSome then some scope else none
  | .ifThen cond body =>
    if (cond.type? p ctx true scope).any (p.admits .int) then
      (Stmt.typesAfterAll? p ctx scope body).map (scope.leave p)
    else none
  | .ret none => some scope
  | .ret (some value) =>
    if (value.type? p ctx true scope).any (p.admits (.ofType ctx.ret)) then some scope else none
  | .throw value =>
    if (value.type? p ctx true scope).any (p.admits .reference) then some scope else none
  | .superInit _ params args =>
    if (p == .width || !ctx.isConstructor) && params.all p.declares &&
        Expr.allFit p ctx true scope (params.map .ofType) args then
      some scope
    else none

/-- The scope after statements. -/
def Stmt.typesAfterAll? (p : Precision) (ctx : MethodContext) (scope : TypeScope) :
    List Stmt → Option TypeScope
  | [] => some scope
  | s :: rest => (s.typesAfter? p ctx scope).bind fun scope => Stmt.typesAfterAll? p ctx scope rest

end

/-- The scope after a body. Where kinds are compared, a constructor starts with its only call of an
inherited constructor, and the arguments do without the object under construction. -/
def bodyTypes? (p : Precision) (ctx : MethodContext) (body : List Stmt) : Option TypeScope :=
  if p == .kind && ctx.isConstructor then
    match body with
    | .superInit _ params args :: rest =>
      if params.all p.declares && Expr.allFit p ctx false [] (params.map .ofType) args then
        Stmt.typesAfterAll? p ctx [] rest
      else none
    | _ => none
  else Stmt.typesAfterAll? p ctx [] body

/-- A body whose operands are of the types that their positions ask for, in a method whose
parameters have values. -/
structure TypedBody (p : Precision) (ctx : MethodContext) (body : List Stmt) : Prop where
  params : ∀ t ∈ ctx.params, p.inhabits t = true
  scope : (bodyTypes? p ctx body).isSome = true

/-- The type of an expression is the type that the emitter sees. -/
theorem Expr.valueType?_of_type? {p : Precision} {ctx : MethodContext} {usable : Bool}
    {scope : TypeScope} {x : Expr} {t : TypeName} (h : x.type? p ctx usable scope = some t) :
    x.valueType? ctx.className ctx.params = some t := by
  cases x <;> rw [Expr.type?] at h <;> rw [Expr.valueType?]
  all_goals first
    | exact h
    | (split_ifs at h; exact h)

/-! ## Widths of operands

Which bodies have operands of as many slots as their positions ask for. Nothing else is asked of
them: names and parameters may be unknown, the numbers of arguments may be wrong, and statements may
not be reached; for these a body is refused where they are met.
-/

/-- The local variables of a body with their types, last declared first. -/
abbrev Declarations := List (String × TypeName)

section

variable (ctx : MethodContext) (scope : Declarations)

/-- The value takes so many slots, as far as its type is known. -/
def Expr.fills (slots : Nat) (x : Expr) : Bool :=
  (x.valueType? ctx.className ctx.params).all (·.slotSize == slots)

mutual

/-- Do the operands in the expression take the slots that they should? -/
def Expr.isSlotted : Expr → Bool
  | .this => ctx.className.slotSize == 1
  | .param _ | .null | .bool _ | .int _ | .str _ | .getStatic _ => true
  | .localVar name type => (scope.lookup name).all (·.slotSize == type.slotSize)
  | .getField target _ => target.isSlotted && target.fills ctx 1
  | .invoke kind method target args =>
    (kind == .static || Expr.isSlottedReceiver target) &&
      Expr.areSlotted (method.params.map (·.slotSize)) args
  | .new type params args =>
    type.slotSize == 1 && Expr.areSlotted (params.map (·.slotSize)) args
  | .newArray element items => Expr.areSlotted (.replicate items.length element.slotSize) items
  | .cast _ value => value.isSlotted && value.fills ctx 1
  | .boxed value source => value.isSlotted && value.fills ctx source.slotSize
  | .unboxed value _ => value.isSlotted && value.fills ctx 1
  | .and items => Expr.areSlotted (.replicate items.length 1) items
  | .compare _ lhs rhs =>
    lhs.isSlotted && rhs.isSlotted &&
      (lhs.valueType? ctx.className ctx.params).all fun t => rhs.fills ctx t.slotSize
  | .arith _ lhs rhs =>
    lhs.isSlotted && lhs.fills ctx 1 && rhs.isSlotted && rhs.fills ctx 1

/-- Do the values of the expressions take the given numbers of slots? -/
def Expr.areSlotted : List Nat → List Expr → Bool
  | n :: sizes, x :: rest => x.isSlotted && x.fills ctx n && Expr.areSlotted sizes rest
  | _, _ => true

/-- Does the receiver of a call take one slot? -/
def Expr.isSlottedReceiver : Option Expr → Bool
  | some x => x.isSlotted && x.fills ctx 1
  | none => true

end

end

mutual

/-- The local variables that a statement declares, last declared first. -/
def Stmt.declarations : Stmt → Declarations
  | .declareLocal name type _ => [(name, type)]
  | .ifThen _ body => Stmt.allDeclarations body
  | _ => []

/-- The local variables that the statements declare, last declared first. -/
def Stmt.allDeclarations : List Stmt → Declarations
  | [] => []
  | s :: rest => Stmt.allDeclarations rest ++ s.declarations

end

mutual

/-- Do the operands in the statement take the slots that they should? Declared variables have a type
with values. -/
def Stmt.isSlotted (ctx : MethodContext) (scope : Declarations) : Stmt → Bool
  | .setField target field value =>
    target.isSlotted ctx scope && target.fills ctx 1 &&
      value.isSlotted ctx scope && value.fills ctx field.type.slotSize
  | .declareLocal _ type value =>
    !type.isVoid && value.isSlotted ctx scope && value.fills ctx type.slotSize
  | .setLocal name value =>
    value.isSlotted ctx scope && (scope.lookup name).all fun t => value.fills ctx t.slotSize
  | .expr value => value.isSlotted ctx scope
  | .ifThen cond body =>
    cond.isSlotted ctx scope && cond.fills ctx 1 && Stmt.areSlotted ctx scope body
  | .ret none => true
  | .ret (some value) =>
    value.isSlotted ctx scope && (ctx.ret.isVoid || value.fills ctx ctx.ret.slotSize)
  | .throw value => value.isSlotted ctx scope && value.fills ctx 1
  | .superInit _ params args => Expr.areSlotted ctx scope (params.map (·.slotSize)) args

/-- Do the operands in the statements take the slots that they should? -/
def Stmt.areSlotted (ctx : MethodContext) (scope : Declarations) : List Stmt → Bool
  | [] => true
  | s :: rest => s.isSlotted ctx scope && Stmt.areSlotted ctx (s.declarations ++ scope) rest

end

/-- A body whose operands take the slots that their positions ask for, in a method whose parameters
have values. -/
structure SlottedBody (ctx : MethodContext) (body : List Stmt) : Prop where
  params : ∀ t ∈ ctx.params, t.isVoid = false
  body : Stmt.areSlotted ctx [] body = true

end ClassSynth

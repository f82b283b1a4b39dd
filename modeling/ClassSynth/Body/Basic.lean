import ClassSynth.Descriptor
import ClassSynth.Text.Quoted

/-!
# Bodies

What generated methods are made of, and its text.
-/

/-!
## Method bodies

The expressions and statements that generated methods are made of. They are typed: every reference
to a member carries its type, so a body can be lowered to code without looking at any class.
-/

namespace ClassSynth

/-- A field of a class. -/
structure FieldRef where
  owner : TypeName
  name : String
  type : TypeName
  deriving DecidableEq, Repr

/-- A method of a class or of an interface. -/
structure MethodRef where
  owner : TypeName
  name : String
  params : List TypeName
  ret : TypeName
  onInterface : Bool := false
  deriving DecidableEq, Repr

def MethodRef.descriptor (m : MethodRef) : String :=
  methodDescriptor m.params m.ret

/-- How a method is called. -/
inductive CallKind
  | static
  | virtual
  | interface
  /-- Without a search in subclasses, as for `super` calls. -/
  | special
  deriving DecidableEq, Repr

/-- Tests of two values. -/
inductive CompareOp
  | eq | ne
  deriving DecidableEq, Repr

/-- Operations on two `int` values. -/
inductive ArithOp
  | add | mul
  deriving DecidableEq, Repr

/-- An expression. -/
inductive Expr
  | this
  /-- A parameter of the method; the first has index one. -/
  | param (index : Nat)
  | localVar (name : String) (type : TypeName)
  | null
  | bool (value : Bool)
  | int (value : Int32)
  | str (value : String)
  | getField (target : Expr) (field : FieldRef)
  | getStatic (field : FieldRef)
  | invoke (kind : CallKind) (method : MethodRef) (target : Option Expr) (args : List Expr)
  | new (type : TypeName) (params : List TypeName) (args : List Expr)
  | newArray (element : TypeName) (items : List Expr)
  | cast (type : TypeName) (value : Expr)
  /-- A primitive value as an instance of its wrapper class. -/
  | boxed (value : Expr) (source : TypeName)
  /-- The primitive value in an instance of a wrapper class. -/
  | unboxed (value : Expr) (target : TypeName)
  | and (items : List Expr)
  | compare (op : CompareOp) (lhs rhs : Expr)
  | arith (op : ArithOp) (lhs rhs : Expr)
  deriving Repr, Inhabited

namespace Expr

def invokeStatic (method : MethodRef) (args : List Expr) : Expr :=
  .invoke .static method none args

/-- A call that searches the class of the receiver. -/
def invokeVirtual (target : Expr) (method : MethodRef) (args : List Expr) : Expr :=
  .invoke (if method.onInterface then .interface else .virtual) method (some target) args

/-- A call of an inherited method on the receiver. -/
def invokeSuper (method : MethodRef) (args : List Expr) : Expr :=
  .invoke .special method (some .this) args

/-- The parameter type at a one-based index. -/
def paramType? (params : List TypeName) : Nat → Option TypeName
  | 0 => none
  | n + 1 => params[n]?

/-- The type of the value that the expression leaves on the stack, unless it refers to a parameter
that does not exist or wraps a type that has no wrapper. -/
def valueType? (thisClass : TypeName) (params : List TypeName) : Expr → Option TypeName
  | this => some thisClass
  | param index => paramType? params index
  | localVar _ type => some type
  | null => some .null
  | bool _ | and _ | compare .. => some .boolean
  | int _ | arith .. => some .int
  | str _ => some .string
  | getField _ field | getStatic field => some field.type
  | invoke _ method _ _ => some method.ret
  | new type _ _ => some type
  | newArray element _ => some element.arrayOf
  | cast type _ => some type
  | boxed _ source => source.boxed?
  | unboxed _ target => some target

end Expr

/-- A statement. -/
inductive Stmt
  | setField (target : Expr) (field : FieldRef) (value : Expr)
  | declareLocal (name : String) (type : TypeName) (value : Expr)
  | setLocal (name : String) (value : Expr)
  | expr (value : Expr)
  | ifThen (cond : Expr) (body : List Stmt)
  | ret (value : Option Expr)
  | throw (value : Expr)
  /-- The call of an inherited constructor. -/
  | superInit (owner : TypeName) (params : List TypeName) (args : List Expr)
  deriving Repr, Inhabited

end ClassSynth

/-!
## Bodies as text

Bodies in the notation of the source language, for listings and error messages.
-/

namespace ClassSynth

/-- Symbol of a test. -/
def CompareOp.symbol : CompareOp → String
  | eq => "=="
  | ne => "!="

namespace Expr

/-- Sums are put in parentheses inside products. -/
def isSum : Expr → Bool
  | arith .add _ _ => true
  | _ => false

/-- Text in parentheses. -/
def parenthesized (s : String) : String := "(" ++ s ++ ")"

/-- Text between commas, in parentheses. -/
def argumentList (args : List String) : String :=
  parenthesized (", ".intercalate args)

/-- The text of a factor of a product. -/
def factorText (e : Expr) (text : String) : String :=
  if e.isSum then parenthesized text else text

/-- What a call is made on: the class, the inherited members, or the receiver. -/
def calleeText (kind : CallKind) (method : MethodRef) (target : Option Expr)
    (targetText : String) : String :=
  match kind, target with
  | .static, _ | _, none => method.owner.text
  | .special, some .this => "super"
  | _, some _ => targetText

mutual

/-- The text of an expression. -/
def render : Expr → String
  | this => "this"
  | param index => "$" ++ toString index
  | localVar name _ => name
  | null => "null"
  | bool value => if value then "true" else "false"
  | int value => toString value.toInt
  | str value => quoted value
  | getField target field => target.render ++ "." ++ field.name
  | getStatic field => field.owner.text ++ "." ++ field.name
  | invoke kind method target args =>
    calleeText kind method target (renderOption target) ++ "." ++ method.name ++
      argumentList (renderList args)
  | new type _ args => "new " ++ type.text ++ argumentList (renderList args)
  | newArray element items =>
    "new " ++ element.text ++ "[]\x7b" ++ ", ".intercalate (renderList items) ++ "\x7d"
  | cast type value => "((" ++ type.text ++ ") " ++ value.render ++ ")"
  | boxed value source =>
    match source.boxed? with
    | some wrapper => wrapper.text ++ ".valueOf(" ++ value.render ++ ")"
    | none => value.render
  | unboxed value target => value.render ++ "." ++ target.text ++ "Value()"
  | and items =>
    match renderList items with
    | [] => "true"
    | texts => " && ".intercalate texts
  | compare op lhs rhs => lhs.render ++ " " ++ op.symbol ++ " " ++ rhs.render
  | arith .add lhs rhs => lhs.render ++ " + " ++ rhs.render
  | arith .mul lhs rhs =>
    factorText lhs lhs.render ++ " * " ++ factorText rhs rhs.render

/-- The texts of the expressions. -/
def renderList : List Expr → List String
  | [] => []
  | e :: rest => e.render :: renderList rest

/-- The text of the expression, if there is one. -/
def renderOption : Option Expr → String
  | none => ""
  | some e => e.render

end

end Expr

namespace Stmt

mutual

/-- The text of a statement. -/
def render : Stmt → String
  | setField target field value =>
    target.render ++ "." ++ field.name ++ " = " ++ value.render ++ ";"
  | declareLocal name type value =>
    type.text ++ " " ++ name ++ " = " ++ value.render ++ ";"
  | setLocal name value => name ++ " = " ++ value.render ++ ";"
  | expr value => value.render ++ ";"
  | ifThen cond body =>
    "if (" ++ cond.render ++ ") \x7b " ++ " ".intercalate (renderList body) ++ " \x7d"
  | ret none => "return;"
  | ret (some value) => "return " ++ value.render ++ ";"
  | throw value => "throw " ++ value.render ++ ";"
  | superInit _ _ args => "super" ++ Expr.argumentList (Expr.renderList args) ++ ";"

/-- The texts of the statements. -/
def renderList : List Stmt → List String
  | [] => []
  | s :: rest => s.render :: renderList rest

end

end Stmt

/-- The text of a body, one statement on a line. -/
def renderBody (body : List Stmt) : String :=
  "\n".intercalate (Stmt.renderList body)

end ClassSynth

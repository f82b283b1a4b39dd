import ClassSynth.Body.Basic
import ClassSynth.Json.Value

/-!
# Bodies as documents

Expressions and statements as JSON documents, for tools that supply or inspect bodies. A node is an
object whose field `k` names its kind. Three kinds are short forms that are read but never written:
`invoke_virtual` chooses the call by the owner of the method, `invoke_super` calls on the receiver,
and `repeat` stands for copies of statements.
-/

namespace ClassSynth.Document

/-! ## Members -/

instance : InDocument FieldRef where
  read v := do
    let fields ← readFields ["owner", "name", "type"] v
    return {
      owner := ← fields.required "owner"
      name := ← fields.required "name"
      type := ← fields.required "type" }
  write f := .ofFields [field "owner" f.owner, field "name" f.name, field "type" f.type]

instance : InDocument MethodRef where
  read v := do
    let fields ← readFields ["owner", "name", "params", "ret", "interface"] v
    return {
      owner := ← fields.required "owner"
      name := ← fields.required "name"
      params := ← fields.optional "params" []
      ret := ← fields.required "ret"
      onInterface := ← fields.optional "interface" false }
  write m := .ofFields [
    field "owner" m.owner,
    field "name" m.name,
    field "params" m.params,
    field "ret" m.ret,
    field "interface" m.onInterface]

/-- The words for the kinds of calls. -/
def callKinds : List (String × CallKind) :=
  [("static", .static), ("virtual", .virtual), ("interface", .interface), ("special", .special)]

instance : InDocument CallKind where
  read := readWord callKinds
  write := writeWord callKinds

/-! ## Nodes -/

/-- The value of a field of a node; `null` if there is none. -/
def valueOf (v : JsonValue) (name : String) : Except ModelError JsonValue := do
  return ((← readFields [name] v).lookup name).getD .null

/-- A field of a node. -/
def part {α : Type} [InDocument α] (v : JsonValue) (name : String) : Except ModelError α := do
  InDocument.read (← valueOf v name)

/-- The items of a field of a node, each read by a function. -/
def partList {α : Type} (read : JsonValue → Except ModelError α) (v : JsonValue) (name : String) :
    Except ModelError (List α) := do
  match ← valueOf v name with
  | .null => return []
  | .array items => items.mapM read
  | _ => expected "an array"

/-- The types in a field of a node. -/
def typesOf (v : JsonValue) (name : String) : Except ModelError (List TypeName) :=
  partList InDocument.read v name

mutual

/-- How many levels a value has. -/
def depth : JsonValue → Nat
  | .array items => depthOfItems items + 1
  | .object fields => depthOfFields fields + 1
  | _ => 0

/-- How many levels the items have. -/
def depthOfItems : List JsonValue → Nat
  | [] => 0
  | v :: rest => max (depth v) (depthOfItems rest)

/-- How many levels the values of the fields have. -/
def depthOfFields : List (Option String × JsonValue) → Nat
  | [] => 0
  | (_, v) :: rest => max (depth v) (depthOfFields rest)

end

/-- A node of a kind. -/
def node (kind : String) (fields : List (String × JsonValue)) : JsonValue :=
  .ofFields (field "k" kind :: fields)

/-! ## Expressions -/

/-- Reads an expression. The parts of a node lie one level deeper, which bounds the fuel. -/
def readExpr : Nat → JsonValue → Except ModelError Expr
  | 0, _ => expected "an expression"
  | fuel + 1, v => do
    let sub (name : String) : Except ModelError Expr := do readExpr fuel (← valueOf v name)
    let subs (name : String) := partList (readExpr fuel) v name
    match (← part v "k" : String) with
    | "this" => return .this
    | "param" => return .param (← part v "index")
    | "local" => return .localVar (← part v "name") (← part v "type")
    | "null" => return .null
    | "bool" => return .bool (← part v "value")
    | "int" => return .int (← part v "value")
    | "str" => return .str (← part v "value")
    | "get_field" => return .getField (← sub "target") (← part v "field")
    | "get_static" => return .getStatic (← part v "field")
    | "invoke" =>
      let target ← match ← valueOf v "target" with
        | .null => pure none
        | t => some <$> readExpr fuel t
      return .invoke (← part v "kind") (← part v "method") target (← subs "args")
    | "invoke_virtual" =>
      return .invokeVirtual (← sub "target") (← part v "method") (← subs "args")
    | "invoke_super" => return .invokeSuper (← part v "method") (← subs "args")
    | "new" => return .new (← part v "class") (← typesOf v "params") (← subs "args")
    | "new_array" => return .newArray (← part v "element") (← subs "items")
    | "cast" => return .cast (← part v "type") (← sub "value")
    | "boxed" => return .boxed (← sub "value") (← part v "from")
    | "unboxed" => return .unboxed (← sub "value") (← part v "to")
    | "and" => return .and (← subs "items")
    | "eq" => return .compare .eq (← sub "lhs") (← sub "rhs")
    | "ne" => return .compare .ne (← sub "lhs") (← sub "rhs")
    | "add" => return .arith .add (← sub "lhs") (← sub "rhs")
    | "mul" => return .arith .mul (← sub "lhs") (← sub "rhs")
    | _ => expected "a kind of expression"

/-- The kind of a test. -/
def compareKind : CompareOp → String
  | .eq => "eq"
  | .ne => "ne"

/-- The kind of an operation. -/
def arithKind : ArithOp → String
  | .add => "add"
  | .mul => "mul"

mutual

/-- Writes an expression. -/
def writeExpr : Expr → JsonValue
  | .this => node "this" []
  | .param index => node "param" [field "index" index]
  | .localVar name type => node "local" [field "name" name, field "type" type]
  | .null => node "null" []
  | .bool value => node "bool" [field "value" value]
  | .int value => node "int" [field "value" value]
  | .str value => node "str" [field "value" value]
  | .getField target f => node "get_field" [("target", writeExpr target), field "field" f]
  | .getStatic f => node "get_static" [field "field" f]
  | .invoke kind method target args =>
    node "invoke" [
      field "kind" kind, field "method" method, ("target", writeTarget target),
      ("args", .array (writeExprs args))]
  | .new type params args =>
    node "new" [field "class" type, field "params" params, ("args", .array (writeExprs args))]
  | .newArray element items =>
    node "new_array" [field "element" element, ("items", .array (writeExprs items))]
  | .cast type value => node "cast" [field "type" type, ("value", writeExpr value)]
  | .boxed value source => node "boxed" [("value", writeExpr value), field "from" source]
  | .unboxed value target => node "unboxed" [("value", writeExpr value), field "to" target]
  | .and items => node "and" [("items", .array (writeExprs items))]
  | .compare op lhs rhs => node (compareKind op) [("lhs", writeExpr lhs), ("rhs", writeExpr rhs)]
  | .arith op lhs rhs => node (arithKind op) [("lhs", writeExpr lhs), ("rhs", writeExpr rhs)]

/-- Writes expressions. -/
def writeExprs : List Expr → List JsonValue
  | [] => []
  | e :: rest => writeExpr e :: writeExprs rest

/-- Writes the target of a call. -/
def writeTarget : Option Expr → JsonValue
  | none => .null
  | some e => writeExpr e

end

instance : InDocument Expr where
  read v := readExpr (depth v) v
  write := writeExpr

/-! ## Statements -/

/-- Reads what a node stands for: a statement, or copies of statements. -/
def readStmts : Nat → JsonValue → Except ModelError (List Stmt)
  | 0, _ => expected "a statement"
  | fuel + 1, v => do
    let body (name : String) : Except ModelError (List Stmt) := do
      return (← partList (readStmts fuel) v name).flatten
    match (← part v "k" : String) with
    | "set_field" =>
      return [.setField (← part v "target") (← part v "field") (← part v "value")]
    | "declare" =>
      return [.declareLocal (← part v "name") (← part v "type") (← part v "value")]
    | "set_local" => return [.setLocal (← part v "name") (← part v "value")]
    | "expr" => return [.expr (← part v "value")]
    | "if" => return [.ifThen (← part v "cond") (← body "then")]
    | "return" => return [.ret (← part v "value")]
    | "throw" => return [.throw (← part v "value")]
    | "super" =>
      return [.superInit (← part v "owner") (← typesOf v "params")
        (← partList InDocument.read v "args")]
    | "repeat" => return (List.replicate (← part v "times") (← body "body")).flatten
    | _ => expected "a kind of statement"

mutual

/-- Writes a statement. -/
def writeStmt : Stmt → JsonValue
  | .setField target f value =>
    node "set_field" [field "target" target, field "field" f, field "value" value]
  | .declareLocal name type value =>
    node "declare" [field "name" name, field "type" type, field "value" value]
  | .setLocal name value => node "set_local" [field "name" name, field "value" value]
  | .expr value => node "expr" [field "value" value]
  | .ifThen cond body => node "if" [field "cond" cond, ("then", .array (writeStmtList body))]
  | .ret value => node "return" [field "value" value]
  | .throw value => node "throw" [field "value" value]
  | .superInit owner params args =>
    node "super" [field "owner" owner, field "params" params, field "args" args]

/-- Writes statements. -/
def writeStmtList : List Stmt → List JsonValue
  | [] => []
  | s :: rest => writeStmt s :: writeStmtList rest

end

instance : InDocument (List Stmt) where
  read
    | .array items => do return (← items.mapM fun v => readStmts (depth v) v).flatten
    | _ => expected "an array"
  write body := .array (writeStmtList body)

end ClassSynth.Document

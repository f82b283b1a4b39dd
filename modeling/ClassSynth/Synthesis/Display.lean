import ClassSynth.Synthesis.Member

/-!
# Bodies of `toString`

The simple name of the class and, in braces, the members that take part with their values. The text
is put together by a string builder or by a helper class; every value goes to the overload for its
type.
-/

namespace ClassSynth.Synthesis

/-- The members that `toString` shows. -/
def shownMembers (members : List Member) : List Member :=
  members.filter fun m => !m.isVoid && !m.accessor.directives.toStringExclude

/-- The parameter type of the overload for primitive values of a type and for other values. -/
def displayParam (t : TypeName) : TypeName :=
  match t.primitive? with
  | some .byte | some .short => .int
  | some _ => t
  | none => .object

/-! ## String builder -/

/-- The class of string builders. -/
def builderClass : TypeName := ⟨"java.lang.StringBuilder"⟩

/-- The parameter type of the `append` for values of a type. -/
def appendParam (t : TypeName) : TypeName := if t == .string then .string else displayParam t

/-- The builder after a value was appended. -/
def append (builder value : Expr) (t : TypeName) : Expr :=
  .invokeVirtual builder
    { owner := builderClass, name := "append", params := [appendParam t], ret := builderClass }
    [value]

/-- The builder after a text was appended. -/
def appendText (builder : Expr) (text : String) : Expr := append builder (.str text) .string

/-- The builder after a member was appended. -/
def appendMember (owner : TypeName) (builder : Expr) (m : Member) : Expr :=
  append (appendText builder (m.field ++ "=")) (m.read owner .this) m.exposedType

/-- The builder after members were appended with commas between them. -/
def appendMembers (owner : TypeName) (builder : Expr) : List Member → Expr
  | [] => builder
  | m :: rest =>
    rest.foldl (fun b m => appendMember owner (appendText b ", ") m) (appendMember owner builder m)

/-- The text of an object. -/
def textOf (owner : TypeName) (e : Expr) : Expr :=
  .invokeVirtual e { owner, name := "toString", params := [], ret := .string } []

/-- The text that a string builder puts together. -/
def builderDisplay (callSuper : Bool) (owner superclass : TypeName) (members : List Member) :
    Expr :=
  let start := Expr.new builderClass [.string] [.str (owner.simpleName ++ "\x7b")]
  let shown := appendText (appendMembers owner start members) "\x7d"
  let inherited :=
    Expr.invokeSuper { owner := superclass, name := "toString", params := [], ret := .string } []
  textOf builderClass (if callSuper then append shown inherited .string else shown)

/-! ## Helper class -/

/-- The class that makes helpers. -/
def helperSource : TypeName := ⟨"com.google.common.base.MoreObjects"⟩

/-- The class of helpers. -/
def helperClass : TypeName := ⟨"com.google.common.base.MoreObjects$ToStringHelper"⟩

/-- The helper after a member was added. -/
def addMember (owner : TypeName) (helper : Expr) (m : Member) : Expr :=
  .invokeVirtual helper
    { owner := helperClass, name := "add", params := [.string, displayParam m.exposedType],
      ret := helperClass }
    [.str m.field, m.read owner .this]

/-- The text that a helper puts together. -/
def helperDisplay (owner : TypeName) (members : List Member) : Expr :=
  let start := Expr.invokeStatic
    { owner := helperSource, name := "toStringHelper", params := [.object], ret := helperClass }
    [.this]
  textOf helperClass (members.foldl (addMember owner) start)

/-- The body of `toString`. A helper class takes no inherited text. -/
def toStringBody (d : ToStringDirective) (owner superclass : TypeName) (members : List Member) :
    List Stmt :=
  let shown := shownMembers members
  [.ret (some (if d.useHelper then helperDisplay owner shown
    else builderDisplay d.callSuper owner superclass shown))]

end ClassSynth.Synthesis

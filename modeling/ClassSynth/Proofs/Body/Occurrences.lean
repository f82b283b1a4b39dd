import ClassSynth.Binding.Conversion
import ClassSynth.Body.Basic
import Mathlib.Data.List.Basic

/-!
# What bodies read, set and call

The local variables and the fields of objects that occur in a body, and the methods that it calls.
-/

namespace ClassSynth

/-! ## Local variables of bodies

The local variables that expressions and statements read. `Stmt.ReadsDeclaredAll` says that a body
declares local variables before it reads them.
-/

mutual

/-- The local variables that an expression reads. A static call has no receiver. -/
def Expr.localReads : Expr → List String
  | .this | .param _ | .null | .bool _ | .int _ | .str _ | .getStatic _ => []
  | .localVar name _ => [name]
  | .getField target _ => target.localReads
  | .invoke kind _ target args =>
    (if kind = .static then [] else Expr.localReadsOption target) ++ Expr.localReadsList args
  | .new _ _ args => Expr.localReadsList args
  | .newArray _ items => Expr.localReadsList items
  | .cast _ value => value.localReads
  | .boxed value _ => value.localReads
  | .unboxed value _ => value.localReads
  | .and items => Expr.localReadsList items
  | .compare _ lhs rhs => lhs.localReads ++ rhs.localReads
  | .arith _ lhs rhs => lhs.localReads ++ rhs.localReads

/-- The local variables that expressions read. -/
def Expr.localReadsList : List Expr → List String
  | [] => []
  | x :: rest => x.localReads ++ Expr.localReadsList rest

/-- The local variables that a receiver reads. -/
def Expr.localReadsOption : Option Expr → List String
  | none => []
  | some x => x.localReads

end

mutual

/-- The names that a statement declares, also in its blocks. -/
def Stmt.declared : Stmt → List String
  | .declareLocal name _ _ => [name]
  | .ifThen _ body => Stmt.declaredAll body
  | _ => []

/-- The names that statements declare. -/
def Stmt.declaredAll : List Stmt → List String
  | [] => []
  | s :: rest => s.declared ++ Stmt.declaredAll rest

end

namespace Stmt

mutual

/-- Every local variable that the statement reads is known or was declared before. -/
def ReadsDeclared (known : List String) : Stmt → Prop
  | setField target _ value => target.localReads ⊆ known ∧ value.localReads ⊆ known
  | declareLocal _ _ value | setLocal _ value | expr value | throw value => value.localReads ⊆ known
  | ifThen cond body => cond.localReads ⊆ known ∧ ReadsDeclaredAll known body
  | ret value => Expr.localReadsOption value ⊆ known
  | superInit _ _ args => Expr.localReadsList args ⊆ known

/-- Every local variable that the statements read is known or was declared before. -/
def ReadsDeclaredAll (known : List String) : List Stmt → Prop
  | [] => True
  | s :: rest => ReadsDeclared known s ∧ ReadsDeclaredAll (s.declared ++ known) rest

end

end Stmt

/-! ## Fields of bodies

The fields of objects that a body reads and sets. A conversion of a value reads what the value reads
and nothing else, whether it boxes, unboxes, casts or packs.
-/

namespace Expr

mutual

/-- The fields of objects that an expression reads. -/
def fieldRefs : Expr → List FieldRef
  | this | param _ | localVar _ _ | null | bool _ | int _ | str _ | getStatic _ => []
  | getField target field => target.fieldRefs ++ [field]
  | invoke _ _ target args => fieldRefsOption target ++ fieldRefsList args
  | new _ _ args => fieldRefsList args
  | newArray _ items => fieldRefsList items
  | cast _ value => value.fieldRefs
  | boxed value _ => value.fieldRefs
  | unboxed value _ => value.fieldRefs
  | and items => fieldRefsList items
  | compare _ lhs rhs => lhs.fieldRefs ++ rhs.fieldRefs
  | arith _ lhs rhs => lhs.fieldRefs ++ rhs.fieldRefs

/-- The fields that expressions read. -/
def fieldRefsList : List Expr → List FieldRef
  | [] => []
  | e :: rest => e.fieldRefs ++ fieldRefsList rest

/-- The fields that the receiver of a call reads. -/
def fieldRefsOption : Option Expr → List FieldRef
  | none => []
  | some e => e.fieldRefs

end

theorem mem_fieldRefsList {f : FieldRef} {es : List Expr} :
    f ∈ fieldRefsList es ↔ ∃ e ∈ es, f ∈ e.fieldRefs := by
  induction es with
  | nil => simp [fieldRefsList]
  | cons e es ih => simp [fieldRefsList, ih]

end Expr

namespace Stmt

mutual

/-- The fields of objects that a statement reads or sets. -/
def fieldRefs : Stmt → List FieldRef
  | setField target field value => target.fieldRefs ++ value.fieldRefs ++ [field]
  | declareLocal _ _ value => value.fieldRefs
  | setLocal _ value => value.fieldRefs
  | expr value => value.fieldRefs
  | ifThen cond body => cond.fieldRefs ++ fieldRefsList body
  | ret value => Expr.fieldRefsOption value
  | throw value => value.fieldRefs
  | superInit _ _ args => Expr.fieldRefsList args

/-- The fields that a body reads or sets. -/
def fieldRefsList : List Stmt → List FieldRef
  | [] => []
  | s :: rest => s.fieldRefs ++ fieldRefsList rest

end

theorem mem_fieldRefsList {f : FieldRef} {ss : List Stmt} :
    f ∈ fieldRefsList ss ↔ ∃ s ∈ ss, f ∈ s.fieldRefs := by
  induction ss with
  | nil => simp [fieldRefsList]
  | cons s ss ih => simp [fieldRefsList, ih]

theorem fieldRefsList_append (ss ss' : List Stmt) :
    fieldRefsList (ss ++ ss') = fieldRefsList ss ++ fieldRefsList ss' := by
  induction ss with
  | nil => rfl
  | cons s ss ih => simp [fieldRefsList, ih]

end Stmt

/-! ### Conversions -/

namespace Binding

theorem fieldRefs_coerce (target : TypeName) (arg : Typed) :
    (coerce target arg).fieldRefs = arg.value.fieldRefs := by
  unfold coerce
  split_ifs <;> simp [Expr.fieldRefs]

/-- What converted arguments read is read by an argument. -/
theorem exists_of_mem_convertArguments {a : Applicable} {args : List Typed} {f : FieldRef}
    (h : f ∈ Expr.fieldRefsList (convertArguments a args)) :
    ∃ arg ∈ args, f ∈ arg.value.fieldRefs := by
  have hzip : ∀ params : List TypeName,
      (∃ e ∈ (params.zip args).map (fun p => coerce p.1 p.2), f ∈ e.fieldRefs) →
      ∃ arg ∈ args, f ∈ arg.value.fieldRefs := by
    rintro params ⟨e, he, hf⟩
    obtain ⟨⟨param, arg⟩, hmem, rfl⟩ := List.mem_map.mp he
    exact ⟨arg, (List.of_mem_zip hmem).2, fieldRefs_coerce param arg ▸ hf⟩
  unfold convertArguments at h
  obtain ⟨e, he, hf⟩ := Expr.mem_fieldRefsList.mp h
  split_ifs at he with hpacked
  · rcases List.mem_append.mp he with he | he
    · exact hzip _ ⟨e, he, hf⟩
    · obtain rfl := List.mem_singleton.mp he
      rw [Expr.fieldRefs, Expr.mem_fieldRefsList] at hf
      obtain ⟨item, hitem, hf⟩ := hf
      obtain ⟨arg, harg, rfl⟩ := List.mem_map.mp hitem
      exact ⟨arg, List.mem_of_mem_drop harg, fieldRefs_coerce _ arg ▸ hf⟩
  · exact hzip _ ⟨e, he, hf⟩

end Binding

/-! ## Calls of bodies

The methods that a body calls, with their arguments. Constructors are not among them.
-/

namespace Expr

mutual

/-- The calls in an expression, each after those in its receiver and its arguments. -/
def calls : Expr → List (MethodRef × List Expr)
  | this | param _ | localVar _ _ | null | bool _ | int _ | str _ | getStatic _ => []
  | getField target _ => target.calls
  | invoke _ method target args => callsOption target ++ callsList args ++ [(method, args)]
  | new _ _ args => callsList args
  | newArray _ items => callsList items
  | cast _ value => value.calls
  | boxed value _ => value.calls
  | unboxed value _ => value.calls
  | and items => callsList items
  | compare _ lhs rhs => lhs.calls ++ rhs.calls
  | arith _ lhs rhs => lhs.calls ++ rhs.calls

/-- The calls in expressions. -/
def callsList : List Expr → List (MethodRef × List Expr)
  | [] => []
  | e :: rest => e.calls ++ callsList rest

/-- The calls in the receiver of a call. -/
def callsOption : Option Expr → List (MethodRef × List Expr)
  | none => []
  | some e => e.calls

end

theorem calls_invokeVirtual (target : Expr) (method : MethodRef) (args : List Expr) :
    (target.invokeVirtual method args).calls =
      target.calls ++ callsList args ++ [(method, args)] := by
  unfold invokeVirtual
  cases method.onInterface <;> rfl

end Expr

namespace Stmt

mutual

/-- The calls in a statement. -/
def calls : Stmt → List (MethodRef × List Expr)
  | setField target _ value => target.calls ++ value.calls
  | declareLocal _ _ value | setLocal _ value | expr value | throw value => value.calls
  | ifThen cond body => cond.calls ++ callsList body
  | ret value => Expr.callsOption value
  | superInit _ _ args => Expr.callsList args

/-- The calls in statements. -/
def callsList : List Stmt → List (MethodRef × List Expr)
  | [] => []
  | s :: rest => s.calls ++ callsList rest

end

end Stmt

end ClassSynth

import ClassSynth.Proofs.Body.Occurrences
import ClassSynth.Template.Basic
import Mathlib.Tactic.SplitIfs

/-!
# What an evaluation does

The calls, the new objects, the parameters and the wrapped value that are met when a template or an
expression is evaluated, from left to right. In an expression a local variable can stand for the
wrapped value, to be replaced by it (`Expr.fill`).
-/

namespace ClassSynth

/-- What is met in an evaluation. New objects are told apart by what stands for their class. -/
inductive Event (γ : Type)
  /-- The wrapped value. -/
  | wrapped
  | param (index : Nat)
  | call (name : String)
  | creation (object : γ)
  deriving DecidableEq, Repr

/-! ## Templates -/

namespace Template

mutual

/-- What a template says is done, for a method of so many parameters. A call takes place after its
arguments. -/
def events (params : Nat) : Template → List (Event String)
  | placeholder => [.wrapped]
  | param index => [.param index]
  | allParams => (List.range params).map fun i => .param (i + 1)
  | call target name args => eventsOption params target ++ eventsList params args ++ [.call name]
  | field target _ => target.events params
  | new className args => eventsList params args ++ [.creation className]
  | this | null | bool _ | int _ | str _ | path _ => []

def eventsList (params : Nat) : List Template → List (Event String)
  | [] => []
  | t :: rest => t.events params ++ eventsList params rest

def eventsOption (params : Nat) : Option Template → List (Event String)
  | none => []
  | some t => t.events params

end

mutual

/-- The wrapped value is met as often as it is written. -/
theorem count_wrapped_events (params : Nat) :
    (t : Template) → (t.events params).count .wrapped = t.placeholderCount
  | placeholder | this | null | bool _ | int _ | str _ | path _ => rfl
  | param index => by simp [events, placeholderCount]
  | allParams => by
    change ((List.range params).map fun i => Event.param (i + 1)).count _ = 0
    rw [List.count_eq_zero]
    simp
  | call target name args => by
    rw [events, placeholderCount, List.count_append, List.count_append,
      count_wrapped_eventsOption, count_wrapped_eventsList]
    simp
  | field target name => by
    rw [events, placeholderCount]
    exact count_wrapped_events params target
  | new className args => by
    rw [events, placeholderCount, List.count_append, count_wrapped_eventsList]
    simp

theorem count_wrapped_eventsList (params : Nat) :
    (ts : List Template) → (eventsList params ts).count .wrapped = placeholderCountList ts
  | [] => rfl
  | t :: rest => by
    rw [eventsList, placeholderCountList, List.count_append, count_wrapped_events,
      count_wrapped_eventsList]

theorem count_wrapped_eventsOption (params : Nat) :
    (t : Option Template) → (eventsOption params t).count .wrapped = placeholderCountOption t
  | none => rfl
  | some t => by
    rw [eventsOption, placeholderCountOption]
    exact count_wrapped_events params t

end

end Template

/-! ## Expressions -/

namespace Expr

mutual

/-- What an expression does. Conversions and packing do nothing of their own. -/
def events : Expr → List (Event TypeName)
  | this | null | bool _ | int _ | str _ | getStatic _ => []
  | param index => [.param index]
  | localVar _ _ => [.wrapped]
  | getField target _ => target.events
  | invoke _ method target args => eventsOption target ++ eventsList args ++ [.call method.name]
  | new type _ args => eventsList args ++ [.creation type]
  | newArray _ items => eventsList items
  | cast _ value => value.events
  | boxed value _ => value.events
  | unboxed value _ => value.events
  | and items => eventsList items
  | compare _ lhs rhs => lhs.events ++ rhs.events
  | arith _ lhs rhs => lhs.events ++ rhs.events

def eventsList : List Expr → List (Event TypeName)
  | [] => []
  | e :: rest => e.events ++ eventsList rest

def eventsOption : Option Expr → List (Event TypeName)
  | none => []
  | some e => e.events

end

mutual

/-- The expression with a value in the place of local variables. -/
def fill (w : Expr) : Expr → Expr
  | localVar _ _ => w
  | getField target field => .getField (fill w target) field
  | invoke kind method target args => .invoke kind method (fillOption w target) (fillList w args)
  | new type params args => .new type params (fillList w args)
  | newArray element items => .newArray element (fillList w items)
  | cast type value => .cast type (fill w value)
  | boxed value source => .boxed (fill w value) source
  | unboxed value target => .unboxed (fill w value) target
  | and items => .and (fillList w items)
  | compare op lhs rhs => .compare op (fill w lhs) (fill w rhs)
  | arith op lhs rhs => .arith op (fill w lhs) (fill w rhs)
  | this => .this
  | param index => .param index
  | null => .null
  | bool value => .bool value
  | int value => .int value
  | str value => .str value
  | getStatic field => .getStatic field

def fillList (w : Expr) : List Expr → List Expr
  | [] => []
  | e :: rest => fill w e :: fillList w rest

def fillOption (w : Expr) : Option Expr → Option Expr
  | none => none
  | some e => some (fill w e)

end

mutual

/-- The expression with the value in its places reads what it read without, and what the value reads
once for each place. -/
theorem count_fieldRefs_fill (w : Expr) (f : FieldRef) : (e : Expr) →
    (fill w e).fieldRefs.count f =
      e.fieldRefs.count f + e.events.count .wrapped * w.fieldRefs.count f
  | this | null | bool _ | int _ | str _ | getStatic _ => by simp [fill, fieldRefs, events]
  | param index => by simp [fill, fieldRefs, events]
  | localVar name type => by simp [fill, fieldRefs, events]
  | getField target field => by
    rw [fill, fieldRefs, fieldRefs, events, List.count_append, List.count_append,
      count_fieldRefs_fill w f target]
    omega
  | invoke kind method target args => by
    rw [fill, fieldRefs, fieldRefs, events, List.count_append, List.count_append, List.count_append,
      List.count_append, count_fieldRefs_fillOption w f target, count_fieldRefs_fillList w f args,
      Nat.add_mul, Nat.add_mul, show [Event.call method.name].count Event.wrapped = 0 from rfl]
    omega
  | new type params args => by
    rw [fill, fieldRefs, fieldRefs, events, List.count_append, count_fieldRefs_fillList w f args,
      Nat.add_mul, show [Event.creation type].count Event.wrapped = 0 from rfl]
    omega
  | newArray element items => by
    rw [fill, fieldRefs, fieldRefs, events]
    exact count_fieldRefs_fillList w f items
  | cast type value => by
    rw [fill, fieldRefs, fieldRefs, events]
    exact count_fieldRefs_fill w f value
  | boxed value source => by
    rw [fill, fieldRefs, fieldRefs, events]
    exact count_fieldRefs_fill w f value
  | unboxed value target => by
    rw [fill, fieldRefs, fieldRefs, events]
    exact count_fieldRefs_fill w f value
  | and items => by
    rw [fill, fieldRefs, fieldRefs, events]
    exact count_fieldRefs_fillList w f items
  | compare op lhs rhs => by
    rw [fill, fieldRefs, fieldRefs, events, List.count_append, List.count_append, List.count_append,
      count_fieldRefs_fill w f lhs, count_fieldRefs_fill w f rhs, Nat.add_mul]
    omega
  | arith op lhs rhs => by
    rw [fill, fieldRefs, fieldRefs, events, List.count_append, List.count_append, List.count_append,
      count_fieldRefs_fill w f lhs, count_fieldRefs_fill w f rhs, Nat.add_mul]
    omega

theorem count_fieldRefs_fillList (w : Expr) (f : FieldRef) : (es : List Expr) →
    (fieldRefsList (fillList w es)).count f =
      (fieldRefsList es).count f + (eventsList es).count .wrapped * w.fieldRefs.count f
  | [] => by simp [fillList, fieldRefsList, eventsList]
  | e :: rest => by
    rw [fillList, fieldRefsList, fieldRefsList, eventsList, List.count_append, List.count_append,
      List.count_append, count_fieldRefs_fill w f e, count_fieldRefs_fillList w f rest, Nat.add_mul]
    omega

theorem count_fieldRefs_fillOption (w : Expr) (f : FieldRef) : (e : Option Expr) →
    (fieldRefsOption (fillOption w e)).count f =
      (fieldRefsOption e).count f + (eventsOption e).count .wrapped * w.fieldRefs.count f
  | none => by simp [fillOption, fieldRefsOption, eventsOption]
  | some e => by
    rw [fillOption, fieldRefsOption, fieldRefsOption, eventsOption]
    exact count_fieldRefs_fill w f e

end

theorem fillList_eq_map (w : Expr) (es : List Expr) : fillList w es = es.map (fill w) := by
  induction es with
  | nil => rfl
  | cons e rest ih => rw [fillList, List.map_cons, ih]

theorem eventsList_append (es es' : List Expr) :
    eventsList (es ++ es') = eventsList es ++ eventsList es' := by
  induction es with
  | nil => rfl
  | cons e rest ih => rw [List.cons_append, eventsList, eventsList, ih, List.append_assoc]

/-- Expressions that do one by one the same as others. -/
theorem eventsList_map_congr {α : Type} {f g : α → Expr} {xs : List α}
    (h : ∀ x ∈ xs, (f x).events = (g x).events) :
    eventsList (xs.map f) = eventsList (xs.map g) := by
  induction xs with
  | nil => rfl
  | cons x xs ih =>
    obtain ⟨hx, hxs⟩ := List.forall_mem_cons.mp h
    rw [List.map_cons, List.map_cons, eventsList, eventsList, hx, ih hxs]

/-- How the expression calls a method, if it is a call. -/
def callKind? : Expr → Option CallKind
  | invoke kind _ _ _ => some kind
  | _ => none

theorem callKind?_fill {w e : Expr} {kind : CallKind} (h : e.callKind? = some kind) :
    (fill w e).callKind? = some kind := by
  cases e with
  | invoke => exact h
  | _ => cases h

end Expr

/-! ## Values -/

/-- The value with a value in the place of local variables. -/
def Typed.fill (w : Expr) (v : Typed) : Typed := ⟨Expr.fill w v.value, v.type⟩

namespace Binding

theorem coerce_fill (w : Expr) (target : TypeName) (arg : Typed) :
    coerce target (arg.fill w) = Expr.fill w (coerce target arg) := by
  unfold coerce Typed.fill
  split_ifs <;> rfl

theorem convertArguments_fill (w : Expr) (a : Applicable) (args : List Typed) :
    convertArguments a (args.map (Typed.fill w)) = (convertArguments a args).map (Expr.fill w) := by
  have hzip (params : List TypeName) :
      (params.zip (args.map (Typed.fill w))).map (fun pair => coerce pair.1 pair.2) =
        ((params.zip args).map fun pair => coerce pair.1 pair.2).map (Expr.fill w) := by
    rw [List.zip_map_right, List.map_map, List.map_map]
    exact List.map_congr_left fun pair _ => coerce_fill w pair.1 pair.2
  have hitems (element : TypeName) (items : List Typed) :
      (items.map (Typed.fill w)).map (coerce element) =
        (items.map (coerce element)).map (Expr.fill w) := by
    rw [List.map_map, List.map_map]
    exact List.map_congr_left fun item _ => coerce_fill w element item
  unfold convertArguments
  dsimp only
  split_ifs
  · rw [hzip, List.map_append, List.map_singleton, Expr.fill, Expr.fillList_eq_map,
      ← List.map_drop, hitems]
  · exact hzip _

theorem events_coerce (target : TypeName) (arg : Typed) :
    (coerce target arg).events = arg.value.events := by
  unfold coerce
  split_ifs <;> rfl

end Binding

end ClassSynth

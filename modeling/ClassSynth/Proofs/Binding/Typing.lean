import ClassSynth.Binding.Scope
import ClassSynth.Proofs.Acceptance.Typed
import ClassSynth.Proofs.Pool.Subtypes

/-!
# Types of bound expressions

An expression is well typed in a scope if its receivers and the targets of its fields are references
and if each call passes as many arguments as the method has parameters, each of a type that the
parameter takes (`Expr.WellTyped`). Then its operands have the slots that the emitter expects
(`Expr.slots_of_wellTyped`).
-/

namespace ClassSynth

open Binding (widensToInt)

/-! ## Types that are passed -/

/-- A value of the first type can be passed as it is where the second type is expected: it is of
that type or of a subtype, or it is widened to `int`. -/
def ClassPool.Passes (p : ClassPool) (source target : TypeName) : Prop :=
  source = target ∨ p.Subtype source target ∨ target = .int ∧ widensToInt source = true

section

variable {p : ClassPool} {source target : TypeName}

theorem TypeName.isPrimitive_eq_false {t : TypeName} (h : t.isReference = true) :
    t.isPrimitive = false := by
  rw [isReference, Bool.and_eq_true] at h
  simpa using h.1

theorem TypeName.isPrimitive_of_widensToInt {t : TypeName} (h : widensToInt t = true) :
    t.isPrimitive = true := by
  unfold widensToInt at h
  unfold isPrimitive
  cases hp : t.primitive? with
  | none => simp [hp] at h
  | some p => rfl

theorem TypeName.slotSize_of_widensToInt {t : TypeName} (h : widensToInt t = true) :
    t.slotSize = 1 := by
  unfold widensToInt at h
  split at h
  case h_4 => cases h
  all_goals
    next hp => rw [TypeName.eq_ofPrimitive hp]; decide

/-- Different types of which one is a subtype are both of references. -/
theorem ClassPool.Subtype.kinds (h : p.Subtype source target) :
    source = target ∨ source.isReference = true ∧ target.isReference = true := by
  cases h with
  | refl => exact .inl rfl
  | null ht => exact .inr ⟨by decide, ht⟩
  | object hs => exact .inr ⟨hs, by decide⟩
  | above hs ht => exact .inr ⟨hs, ht⟩
  | array hs ht => exact .inr ⟨hs, ht⟩

theorem ClassPool.Passes.slotSize (h : p.Passes source target) :
    source.slotSize = target.slotSize := by
  rcases h with rfl | h | ⟨rfl, h⟩
  · rfl
  · rcases h.kinds with rfl | ⟨hs, ht⟩
    · rfl
    · rw [TypeName.slotSize_of_isReference hs, TypeName.slotSize_of_isReference ht]
  · rw [TypeName.slotSize_of_widensToInt h]
    decide

/-- What is passed as it is need not be wrapped or unwrapped. -/
theorem ClassPool.Passes.kinds (h : p.Passes source target) :
    (source.isPrimitive && target.isReference) = false ∧
      (source.isReference && target.isPrimitive) = false := by
  have hsame (t : TypeName) : (t.isPrimitive && t.isReference) = false := by
    cases href : t.isReference with
    | false => rw [Bool.and_false]
    | true => rw [TypeName.isPrimitive_eq_false href, Bool.false_and]
  rcases h with rfl | h | ⟨rfl, h⟩
  · exact ⟨hsame _, Bool.and_comm .. ▸ hsame _⟩
  · rcases h.kinds with rfl | ⟨hs, ht⟩
    · exact ⟨hsame _, Bool.and_comm .. ▸ hsame _⟩
    · rw [TypeName.isPrimitive_eq_false hs, TypeName.isPrimitive_eq_false ht]
      simp
  · have hs := hsame source
    rw [TypeName.isPrimitive_of_widensToInt h, Bool.true_and] at hs
    rw [hs]
    exact ⟨by rw [Bool.and_comm]; rfl, rfl⟩

end

/-! ## Well-typed expressions -/

section

variable (p : ClassPool) (s : Scope)

/-- The type of the value of an expression in the scope. -/
def Expr.typeIn (x : Expr) : Option TypeName := x.valueType? s.thisClass s.params

/-- The value of the expression is a reference. -/
def Expr.IsReference (x : Expr) : Prop := ∃ t, x.typeIn s = some t ∧ t.isReference = true

/-- The value of the expression can be passed where the type is expected. -/
def Expr.PassesAs (x : Expr) (target : TypeName) : Prop :=
  ∃ t, x.typeIn s = some t ∧ p.Passes t target

mutual

/-- Receivers and targets of fields are references, and calls have arguments that their parameters
take. Conditions and local variables do not occur. -/
def Expr.WellTyped : Expr → Prop
  | .this => s.isStatic = false
  | .param _ | .null | .bool _ | .int _ | .str _ | .getStatic _ => True
  | .getField target _ => target.IsReference s ∧ target.WellTyped
  | .invoke kind method target args =>
    (kind = .static ∨ Expr.ReceiverWellTyped target) ∧
      List.Forall₂ (Expr.PassesAs p s) args method.params ∧ Expr.AllWellTyped args
  | .new type params args =>
    type.isReference = true ∧ List.Forall₂ (Expr.PassesAs p s) args params ∧ Expr.AllWellTyped args
  | .newArray element items => (∀ x ∈ items, x.PassesAs p s element) ∧ Expr.AllWellTyped items
  | .cast type x => type.isReference = true ∧ x.IsReference s ∧ x.WellTyped
  | .boxed x source => source.isPrimitive = true ∧ x.typeIn s = some source ∧ x.WellTyped
  | .unboxed x target => target.isPrimitive = true ∧ x.IsReference s ∧ x.WellTyped
  | .arith _ x y =>
    (x.typeIn s = some .int ∧ x.WellTyped) ∧ y.typeIn s = some .int ∧ y.WellTyped
  | .localVar .. | .and _ | .compare .. => False

def Expr.AllWellTyped : List Expr → Prop
  | [] => True
  | x :: rest => x.WellTyped ∧ Expr.AllWellTyped rest

/-- The receiver of a call is a well-typed reference. -/
def Expr.ReceiverWellTyped : Option Expr → Prop
  | some x => x.IsReference s ∧ x.WellTyped
  | none => False

end

/-- A method of the class with the parameters of the scope. -/
structure Scope.Of (ctx : MethodContext) : Prop where
  className : ctx.className = s.thisClass
  params : ctx.params = s.params
  isStatic : ctx.isStatic = s.isStatic

end

namespace Expr

variable {p : ClassPool} {s : Scope} {ctx : MethodContext} {x : Expr} {xs : List Expr}
  {t : TypeName}

theorem allWellTyped_iff : AllWellTyped p s xs ↔ ∀ x ∈ xs, x.WellTyped p s := by
  induction xs with
  | nil => simp [AllWellTyped]
  | cons x xs ih => simp [AllWellTyped, ih]

mutual

/-- The operands of a well-typed expression have the slots that they should have. -/
theorem slots_of_wellTyped (hctx : s.Of ctx) (hclass : s.thisClass.isReference = true) :
    (x : Expr) → x.WellTyped p s → {t : TypeName} → x.typeIn s = some t →
      x.slots? ctx [] = some t.slotSize
  | .this, h, t, ht => by
    obtain rfl := Option.some.inj ht
    have hstatic : ctx.isStatic = false := hctx.isStatic.trans h
    rw [slots?, hstatic, hctx.className, hclass, TypeName.slotSize_of_isReference hclass]
    rfl
  | .param index, _, t, ht => by
    rw [typeIn, valueType?] at ht
    rw [slots?, hctx.params, ht, Option.map_some]
  | .null, _, t, ht | .bool _, _, t, ht | .int _, _, t, ht | .str _, _, t, ht => by
    obtain rfl := Option.some.inj ht
    rw [slots?]
    rfl
  | .getStatic field, _, t, ht => by
    obtain rfl := Option.some.inj ht
    rw [slots?]
  | .getField target field, h, t, ht => by
    obtain rfl := Option.some.inj ht
    rw [slots?, slots_of_reference hctx hclass target h.1 h.2]
    rfl
  | .invoke kind method target args, h, t, ht => by
    obtain rfl := Option.some.inj ht
    obtain ⟨hreceiver, hpasses, hargs⟩ := h
    have hslots : (kind == .static || receiverSlots? ctx [] target == some 1) = true := by
      rcases hreceiver with rfl | hreceiver
      · rfl
      · rw [receiverSlots_of_wellTyped hctx hclass target hreceiver]
        simp
    rw [slots?, hslots, haveSlots_of_wellTyped hctx hclass args hargs hpasses]
    rfl
  | .new type params args, h, t, ht => by
    obtain rfl := Option.some.inj ht
    obtain ⟨htype, hpasses, hargs⟩ := h
    rw [slots?, htype, haveSlots_of_wellTyped hctx hclass args hargs hpasses,
      TypeName.slotSize_of_isReference htype]
    rfl
  | .newArray element items, h, t, ht => by
    obtain rfl := Option.some.inj ht
    have hslots := haveSlots_of_wellTyped hctx hclass items h.2 (forall₂_replicate h.1)
    rw [List.map_replicate] at hslots
    rw [slots?, hslots, element.slotSize_arrayOf]
    rfl
  | .cast type value, h, t, ht => by
    obtain rfl := Option.some.inj ht
    obtain ⟨htype, href, hvalue⟩ := h
    rw [slots?, htype, slots_of_reference hctx hclass value href hvalue,
      TypeName.slotSize_of_isReference htype]
    rfl
  | .boxed value source, h, t, ht => by
    obtain ⟨hsource, htype, hvalue⟩ := h
    rw [slots?, hsource, slots_of_wellTyped hctx hclass value hvalue htype,
      TypeName.slotSize_of_isReference (TypeName.isReference_of_boxed? ht)]
    simp
  | .unboxed value target, h, t, ht => by
    obtain rfl := Option.some.inj ht
    obtain ⟨htarget, href, hvalue⟩ := h
    rw [slots?, htarget, slots_of_reference hctx hclass value href hvalue]
    rfl
  | .arith op lhs rhs, h, t, ht => by
    obtain rfl := Option.some.inj ht
    obtain ⟨⟨hltype, hlhs⟩, hrtype, hrhs⟩ := h
    rw [slots?, slots_of_wellTyped hctx hclass lhs hlhs hltype,
      slots_of_wellTyped hctx hclass rhs hrhs hrtype]
    rfl
  | .localVar .., h, _, _ | .and _, h, _, _ | .compare .., h, _, _ => by
    rw [WellTyped] at h
    exact h.elim

theorem slots_of_reference (hctx : s.Of ctx) (hclass : s.thisClass.isReference = true) :
    (x : Expr) → x.IsReference s → x.WellTyped p s → x.slots? ctx [] = some 1
  | x, ⟨t, ht, href⟩, h => by
    rw [slots_of_wellTyped hctx hclass x h ht, TypeName.slotSize_of_isReference href]

theorem haveSlots_of_wellTyped (hctx : s.Of ctx) (hclass : s.thisClass.isReference = true) :
    (xs : List Expr) → AllWellTyped p s xs → {ts : List TypeName} →
      List.Forall₂ (PassesAs p s) xs ts → haveSlots ctx [] (ts.map TypeName.slotSize) xs = true
  | [], _, _, .nil => rfl
  | x :: xs, h, t :: ts, .cons ⟨source, hsource, hpasses⟩ hxs => by
    rw [List.map_cons, haveSlots, slots_of_wellTyped hctx hclass x h.1 hsource, hpasses.slotSize,
      haveSlots_of_wellTyped hctx hclass xs h.2 hxs, beq_self_eq_true]
    rfl

theorem receiverSlots_of_wellTyped (hctx : s.Of ctx) (hclass : s.thisClass.isReference = true) :
    (target : Option Expr) → ReceiverWellTyped p s target → receiverSlots? ctx [] target = some 1
  | none, h => h.elim
  | some x, h => by
    rw [receiverSlots?, slots_of_reference hctx hclass x h.1 h.2]

end

end Expr

end ClassSynth

import ClassSynth.Proofs.Binding.Conversion
import ClassSynth.Proofs.Synthesis.Acceptance

/-!
# Adapted values

A value is adapted to a type by what the two types are: references are cast, primitive values are
widened to `int` or boxed, and wrappers are unboxed. The result has operands of the right slots and a
type that passes as the wanted one, unless nothing is unboxed: `void` is neither primitive nor a
reference, and where a primitive value is wanted it is taken for a wrapper (`adapted_iff`).
-/

namespace ClassSynth

open Precision (width)

/-! ## References -/

theorem Precision.admits_reference {t : TypeName} (h : t.isReference = true) :
    width.admits .reference t = true :=
  admits_width (t := .object) (TypeName.isVoid_of_isReference h) (by decide)
    ((TypeName.slotSize_of_isReference h).trans (by decide))

namespace TypeName

variable {s t : TypeName} {p : Primitive}

theorem isReference_wrapper (p : Primitive) : (⟨p.wrapper⟩ : TypeName).isReference = true := by
  cases p <;> decide

theorem isVoid_of_primitive? (h : t.primitive? = some p) : t.isVoid = false := by
  rw [eq_ofPrimitive h]
  cases p <;> decide

theorem primitive?_of_isVoid (h : t.isVoid = true) : t.primitive? = none := by
  cases hp : t.primitive? with
  | none => rfl
  | some p => exact absurd h (by rw [isVoid_of_primitive? hp]; decide)

end TypeName

open ClassSynth.TypeName

namespace Binding

variable {p : ClassPool} {ctx : MethodContext} {usable : Bool} {scope : TypeScope} {v : Typed}
  {target : TypeName} {x : Expr}

/-- The value adapted to a type: its operands have the slots that are expected, it passes as a value
of the type, and `void` is not converted to anything else. -/
structure IsAdapted (p : ClassPool) (ctx : MethodContext) (usable : Bool) (scope : TypeScope)
    (v : Typed) (target : TypeName) (x : Expr) : Prop where
  typed : ∃ t, x.type? .width ctx usable scope = some t ∧ p.Passes t target
  void : v.type.isVoid = true → target.isVoid = true ∧ x = v.value

/-- A value that is no `void` and stands as it is. -/
theorem IsAdapted.of_passes (h : v.value.type? .width ctx usable scope = some v.type)
    (hvoid : v.type.isVoid = false) (hpasses : p.Passes v.type target) :
    IsAdapted p ctx usable scope v target v.value :=
  ⟨⟨v.type, h, hpasses⟩, fun hv => absurd hv (by simp [hvoid])⟩

theorem type?_cast (h : x.type? .width ctx usable scope = some v.type)
    (hv : v.type.isReference = true) (ht : target.isVoid = false) :
    (Expr.cast target x).type? .width ctx usable scope = some target := by
  rw [Expr.type?, h]
  simp [Precision.admits_reference hv, Precision.inhabits, ht]

theorem type?_unboxed {t : TypeName} (h : x.type? .width ctx usable scope = some t)
    (ht : t.isReference = true) (hprimitive : target.isPrimitive = true) :
    (Expr.unboxed x target).type? .width ctx usable scope = some target := by
  rw [Expr.type?, h]
  simp [Precision.admits_reference ht, hprimitive]

theorem type?_boxed {source : Primitive} (h : x.type? .width ctx usable scope = some v.type)
    (hv : v.type.primitive? = some source) :
    (Expr.boxed x v.type).type? .width ctx usable scope = some ⟨source.wrapper⟩ := by
  have hvoid := isVoid_of_primitive? hv
  rw [Expr.type?, h]
  simp [Precision.admits_width hvoid hvoid rfl, boxed?, hv]

/-- The integral types other than `boolean` and `int` widen to `int`. -/
theorem widensToInt_of_isIntLike {t : TypeName} {source : Primitive}
    (ht : t.primitive? = some source) (hint : source.isIntLike = true) (hboolean : source ≠ .boolean)
    (hne : t ≠ .int) : widensToInt t = true := by
  obtain rfl := eq_ofPrimitive ht
  cases source with
  | boolean => exact absurd rfl hboolean
  | int => exact absurd (by decide) hne
  | byte | short | char => decide
  | long | float | double => cases hint

/-- A wrapper that is unboxed is cast unless it is known to be one. -/
theorem type?_wrapper (wrapper : TypeName) (hwrapper : wrapper.isReference = true)
    (h : v.value.type? .width ctx usable scope = some v.type) (hv : v.type.isReference = true) :
    (if v.type == wrapper then v.value else .cast wrapper v.value).type? .width ctx usable scope
      = some wrapper := by
  split
  · next hsame => rw [h, beq_iff_eq.mp hsame]
  · exact type?_cast h hv (isVoid_of_isReference hwrapper)

/-- A value is adapted, unless `void` is to be unboxed. -/
theorem within_adapt (h : v.value.type? .width ctx usable scope = some v.type)
    (hunboxed : ¬ (v.type.isVoid = true ∧ target.isPrimitive = true)) :
    Within p.Loads (adapt v target) (IsAdapted p ctx usable scope v target) := by
  unfold adapt
  refine .ite (fun hsame => .pure ?_) fun hne => ?_
  · have hsame : v.type = target := beq_iff_eq.mp hsame
    exact ⟨⟨v.type, h, .inl hsame⟩, fun hv => ⟨hsame ▸ hv, rfl⟩⟩
  split
  · next hsource htarget =>
    refine .ite (fun _ => .throw) fun hvoid => ?_
    simp only [Bool.or_eq_true, not_or, Bool.not_eq_true] at hvoid
    have href := isReference_of_primitive? hsource hvoid.1
    refine (ClassPool.within_isSubtype v.type target).bind fun holds hholds => ?_
    refine .ite (fun hyes => .pure ?_) fun _ => .pure ?_
    · exact .of_passes h hvoid.1 (.inr (.inl (hholds hyes)))
    · exact ⟨⟨target, type?_cast h href hvoid.2, .inl rfl⟩,
        fun hv => absurd hv (by simp [hvoid.1])⟩
  · next source goal hsource htarget =>
    refine .ite (fun hwiden => .pure ?_) fun _ => .throw
    simp only [Bool.and_eq_true, beq_iff_eq, decide_eq_true_eq] at hwiden
    obtain ⟨⟨rfl, hint⟩, hboolean⟩ := hwiden
    have hwidens := widensToInt_of_isIntLike hsource hint hboolean (by simpa using hne)
    exact .of_passes h (isVoid_of_primitive? hsource) (.inr (.inr ⟨rfl, hwidens⟩))
  · next source hsource htarget =>
    refine (ClassPool.within_isSubtype ⟨source.wrapper⟩ target).bind fun holds hholds => ?_
    refine .ite (fun hyes => .pure ?_) fun _ => .throw
    exact ⟨⟨_, type?_boxed h hsource, .inr (.inl (hholds hyes))⟩,
      fun hv => absurd hv (by simp [isVoid_of_primitive? hsource])⟩
  · next goal hsource htarget =>
    have hprimitive : target.isPrimitive = true := by simp [isPrimitive, htarget]
    have hvoid : v.type.isVoid = false := by
      by_contra hv
      exact hunboxed ⟨by simpa using hv, hprimitive⟩
    have href := isReference_of_primitive? hsource hvoid
    have hwrapper := isReference_wrapper goal
    have hvalue := type?_wrapper ⟨goal.wrapper⟩ hwrapper h href
    exact .pure ⟨⟨target, type?_unboxed hvalue hwrapper hprimitive, .inl rfl⟩,
      fun hv => absurd hv (by simp [hvoid])⟩

/-- Where a primitive value is wanted, `void` is cast to the wrapper and unboxed, in every pool. -/
theorem run_adapt_void (p : ClassPool) (hv : v.type.isVoid = true) {goal : Primitive}
    (ht : target.primitive? = some goal) :
    (adapt v target).run.run p
      = (.ok (.unboxed (.cast ⟨goal.wrapper⟩ v.value) target), p) := by
  have hsource := primitive?_of_isVoid hv
  have hne : (v.type == target) = false := by
    rw [beq_eq_false_iff_ne]
    intro hsame
    rw [hsame, ht] at hsource
    cases hsource
  have hwrapper : (v.type == ⟨goal.wrapper⟩) = false := by
    rw [beq_eq_false_iff_ne]
    intro hsame
    rw [hsame, isVoid_of_isReference (isReference_wrapper goal)] at hv
    cases hv
  simp only [adapt, hne, hsource, ht, hwrapper]
  rfl

/-- `void` is no operand. -/
theorem type?_unboxed_void (wrapper : TypeName)
    (h : v.value.type? .width ctx usable scope = some v.type) (hv : v.type.isVoid = true) :
    (Expr.unboxed (.cast wrapper v.value) target).type? .width ctx usable scope = none := by
  simp [Expr.type?, h, Precision.admits, hv]

/-- **What is adapted has the type that is wanted, unless `void` is unboxed.** Whenever a value of
its type with operands of the right slots is adapted to another type, the result again has operands
of the right slots, it passes as a value of the other type, and `void` stays `void`: exactly if it is
not the case that `void` stands where a primitive value is wanted. In that case the result has an
operand without a value. -/
theorem adapted_iff {p' : ClassPool} (h : v.value.type? .width ctx usable scope = some v.type)
    (hrun : (adapt v target).run.run p = (.ok x, p')) :
    (IsAdapted p ctx usable scope v target x ↔
        ¬ (v.type.isVoid = true ∧ target.isPrimitive = true)) ∧
      (v.type.isVoid = true ∧ target.isPrimitive = true →
        x.type? .width ctx usable scope = none) := by
  have hunboxed : v.type.isVoid = true ∧ target.isPrimitive = true →
      x.type? .width ctx usable scope = none := by
    rintro ⟨hv, hprimitive⟩
    obtain ⟨goal, ht⟩ := Option.isSome_iff_exists.mp hprimitive
    rw [run_adapt_void p hv ht] at hrun
    obtain rfl := Except.ok.inj (Prod.mk.inj hrun).1
    exact type?_unboxed_void ⟨goal.wrapper⟩ h hv
  refine ⟨⟨fun hadapted hvoid => ?_, fun hvoid => ?_⟩, hunboxed⟩
  · obtain ⟨t, ht, -⟩ := hadapted.typed
    rw [hunboxed hvoid] at ht
    cases ht
  · exact (within_adapt h hvoid p x p' (refl_of ClassPool.Loads p) hrun).2

/-- The method `int take(byte)`. -/
def takeMethod : MethodContext where
  className := ⟨"demo.Box"⟩
  params := [.ofPrimitive .byte]
  ret := .int

/-- A call of the static method `void gc()`. -/
def gcCall : Expr :=
  .invoke .static { owner := ⟨"java.lang.System"⟩, name := "gc", params := [], ret := .void } none []

/-- A `byte` parameter is widened to `int`. The result of a method that returns nothing is unboxed
to `int`, though it has no value. -/
theorem adapted_iff_int :
    IsAdapted { major := 52 } takeMethod true [] ⟨.param 1, .ofPrimitive .byte⟩ .int (.param 1) ∧
      (adapt ⟨gcCall, .void⟩ .int).run.run { major := 52 } =
        (.ok (.unboxed (.cast ⟨"java.lang.Integer"⟩ gcCall) .int), { major := 52 }) ∧
      (Expr.unboxed (.cast ⟨"java.lang.Integer"⟩ gcCall) .int).type? .width takeMethod true [] =
        none := by
  have hparam : (Expr.param 1).type? .width takeMethod true [] = some (.ofPrimitive .byte) := by
    rw [Expr.type?]
    rfl
  have hcall : gcCall.type? .width takeMethod true [] = some .void := by
    simp [gcCall, Expr.type?, Expr.allFit]
    decide
  have hint : TypeName.int.primitive? = some .int := by decide
  have hvoid : (adapt ⟨gcCall, .void⟩ .int).run.run { major := 52 } =
      (.ok (.unboxed (.cast ⟨"java.lang.Integer"⟩ gcCall) .int), { major := 52 }) :=
    run_adapt_void _ (by decide) hint
  have hbyte : (adapt ⟨.param 1, .ofPrimitive .byte⟩ .int).run.run { major := 52 } =
      (.ok (.param 1), { major := 52 }) := rfl
  exact ⟨(adapted_iff hparam hbyte).1.mpr (by decide), hvoid,
    (adapted_iff (v := ⟨gcCall, .void⟩) hcall hvoid).2 (by decide)⟩

end Binding

end ClassSynth

import ClassSynth.Proofs.Acceptance.Steps
import ClassSynth.Proofs.Verifier.Expressions

/-!
# Expressions that are lowered

`Expr.slots?` counts the slots of the value of an expression whose operands have the slots that
their positions ask for. Lowering such an expression succeeds and pushes that many slots
(`completes_expr`). Conditions are left out, since they are lowered with jumps.
-/

namespace ClassSynth

section

variable (ctx : MethodContext) (scope : TypeScope)

mutual

/-- The slots of the value of an expression whose operands have the slots that they should have. -/
def Expr.slots? : Expr → Option Nat
  | .this => if ctx.isStatic || !ctx.className.isReference then none else some 1
  | .param index => (Expr.paramType? ctx.params index).map TypeName.slotSize
  | .localVar name type =>
    if (scope.type? name).any (·.slotSize == type.slotSize) then some type.slotSize else none
  | .null | .bool _ | .int _ | .str _ => some 1
  | .getField target field => if target.slots? == some 1 then some field.type.slotSize else none
  | .getStatic field => some field.type.slotSize
  | .invoke kind method target args =>
    if (kind == .static || Expr.receiverSlots? target == some 1) &&
        Expr.haveSlots (method.params.map TypeName.slotSize) args then
      some method.ret.slotSize
    else none
  | .new type params args =>
    if type.isReference && Expr.haveSlots (params.map TypeName.slotSize) args then some 1 else none
  | .newArray element items =>
    if Expr.haveSlots (.replicate items.length element.slotSize) items then some 1 else none
  | .cast type value =>
    if type.isReference && value.slots? == some 1 then some 1 else none
  | .boxed value source =>
    if source.isPrimitive && value.slots? == some source.slotSize then some 1 else none
  | .unboxed value target =>
    if target.isPrimitive && value.slots? == some 1 then some target.slotSize else none
  | .arith _ lhs rhs => if lhs.slots? == some 1 && rhs.slots? == some 1 then some 1 else none
  | .and _ | .compare .. => none

/-- Do the values of the expressions have so many slots? -/
def Expr.haveSlots : List Nat → List Expr → Bool
  | [], [] => true
  | n :: ns, x :: xs => x.slots? == some n && Expr.haveSlots ns xs
  | _, _ => false

/-- The slots of the receiver of a call. -/
def Expr.receiverSlots? : Option Expr → Option Nat
  | some x => x.slots?
  | none => none

end

end

theorem TypeName.slotSize_of_isReference {t : TypeName} (h : t.isReference = true) :
    t.slotSize = 1 := by
  rw [isReference, isPrimitive, Bool.and_eq_true, Bool.not_eq_true', Bool.not_eq_true',
    Option.isSome_eq_false_iff, Option.isNone_iff_eq_none] at h
  rw [slotSize, h.2, isWide, h.1]
  rfl

theorem TypeName.isReference_of_boxed? {t w : TypeName} (h : t.boxed? = some w) :
    w.isReference = true := by
  rw [boxed?, Option.map_eq_some_iff] at h
  obtain ⟨p, -, rfl⟩ := h
  cases p <;> decide

theorem TypeName.exists_boxed? {t : TypeName} (h : t.isPrimitive = true) :
    ∃ w, t.boxed? = some w := by
  rw [isPrimitive, Option.isSome_iff_exists] at h
  obtain ⟨p, hp⟩ := h
  exact ⟨_, by rw [boxed?, hp, Option.map_some]⟩

theorem totalSlots_eq (types : List TypeName) :
    totalSlots types = (types.map TypeName.slotSize).sum := rfl

namespace Emit

variable {ctx : MethodContext} {scope : TypeScope}

theorem length_of_haveSlots {ns : List Nat} {xs : List Expr}
    (h : Expr.haveSlots ctx scope ns xs = true) : ns.length = xs.length := by
  induction ns generalizing xs with
  | nil =>
    cases xs with
    | nil => rfl
    | cons x xs => simp [Expr.haveSlots] at h
  | cons n ns ih =>
    cases xs with
    | nil => simp [Expr.haveSlots] at h
    | cons x xs =>
      rw [Expr.haveSlots, Bool.and_eq_true] at h
      rw [List.length_cons, List.length_cons, ih h.2]

/-- A parameter has a slot if it has a type. -/
theorem exists_paramSlot? {index : Nat} {t : TypeName}
    (h : Expr.paramType? ctx.params index = some t) :
    ∃ slot, ctx.paramSlot? index = some (slot, t) := by
  cases index with
  | zero => cases h
  | succ n =>
    rw [Expr.paramType?] at h
    rw [MethodContext.paramSlot?, h]
    exact ⟨_, rfl⟩

mutual

/-- Lowering an expression succeeds and pushes the slots of its value. -/
theorem completes_expr : (x : Expr) → {k : Nat} → x.slots? ctx scope = some k → (n : Nat) →
    Completes ctx scope (expr .value x) ⟨n, 0⟩ ⟨n + k, 0⟩
  | .this, k, h, n => by
    rw [Expr.slots?, Option.ite_none_left_eq_some, Bool.or_eq_true, not_or, Bool.not_eq_true,
      Option.some.injEq] at h
    obtain ⟨⟨hstatic, -⟩, rfl⟩ := h
    rw [expr]
    exact (completes_loadThis hstatic n).bind fun _ => .pure
  | .param index, k, h, n => by
    rw [Expr.slots?, Option.map_eq_some_iff] at h
    obtain ⟨t, ht, rfl⟩ := h
    obtain ⟨slot, hslot⟩ := exists_paramSlot? ht
    rw [expr]
    refine .read_bind ?_
    rw [hslot]
    exact (completes_load t slot n).bind fun _ => .pure
  | .localVar name type, k, h, n => by
    rw [Expr.slots?, Option.ite_none_right_eq_some, Option.any_eq_true] at h
    obtain ⟨⟨t, ht, hsize⟩, hk⟩ := h
    obtain rfl : t.slotSize = k := (beq_iff_eq.mp hsize).trans (Option.some.inj hk)
    rw [expr]
    exact .findLocal_bind ht fun slot => (completes_load t slot n).bind fun _ => .pure
  | .null, k, h, n => by
    rw [Expr.slots?] at h
    obtain rfl := Option.some.inj h
    rw [expr]
    exact completes_instruction.bind fun _ =>
      ((completes_pushOne (c := 0) rfl).spend (by omega) (Nat.le_refl _)).bind fun _ => .pure
  | .bool value, k, h, n => by
    rw [Expr.slots?] at h
    obtain rfl := Option.some.inj h
    rw [expr]
    exact completes_pushInt _ n
  | .int value, k, h, n => by
    rw [Expr.slots?] at h
    obtain rfl := Option.some.inj h
    rw [expr]
    exact (completes_pushInt _ n).bind fun _ => .pure
  | .str value, k, h, n => by
    rw [Expr.slots?] at h
    obtain rfl := Option.some.inj h
    rw [expr]
    refine (completes_addConstants _).bind fun index => (completes_loadConstant index).bind fun _ =>
      Completes.bind ?_ fun _ => .pure
    exact (completes_pushType .string).spend (by decide) (Nat.le_refl _)
  | .getField target field, k, h, n => by
    rw [Expr.slots?, Option.ite_none_right_eq_some, beq_iff_eq, Option.some.injEq] at h
    obtain ⟨htarget, rfl⟩ := h
    rw [expr]
    exact (completes_expr target htarget n).bind fun _ => (completes_addConstants _).bind fun _ =>
      completes_instruction.bind fun _ => (completes_pop 1).bind fun _ =>
      (completes_pushPaid field.type (by omega)).bind fun _ => .pure
  | .getStatic field, k, h, n => by
    rw [Expr.slots?] at h
    obtain rfl := Option.some.inj h
    rw [expr]
    exact (completes_addConstants _).bind fun _ => completes_instruction.bind fun _ =>
      (completes_pushPaid field.type (by omega)).bind fun _ => .pure
  | .invoke kind method target args, k, h, n => by
    rw [Expr.slots?, Option.ite_none_right_eq_some, Bool.and_eq_true, Option.some.injEq] at h
    obtain ⟨⟨htarget, hargs⟩, rfl⟩ := h
    have hcount := length_of_haveSlots hargs
    rw [List.length_map] at hcount
    have hrest : ∀ below, below = (if kind = .static then 0 else 1) →
        Completes ctx scope (do
          checkCount method.params args
          exprs .value args
          call kind method
          settle .value) ⟨n + below, 0⟩ ⟨n + method.ret.slotSize, 0⟩ := by
      rintro below rfl
      refine (completes_checkCount hcount).bind fun _ => (completes_exprs args hargs _).bind
        fun _ => Completes.bind ?_ fun _ => .pure
      rw [Nat.add_assoc, Nat.add_comm _ (List.sum _), ← totalSlots_eq]
      exact completes_call kind method n
    rw [expr]
    by_cases hkind : kind = .static
    · rw [if_neg (not_not_intro hkind)]
      exact hrest 0 (by rw [if_pos hkind])
    · rw [if_pos hkind]
      have hreceiver : Expr.receiverSlots? ctx scope target = some 1 := by
        simpa [hkind] using htarget
      exact (completes_receiver method target hreceiver n).bind fun _ =>
        hrest 1 (by rw [if_neg hkind])
  | .new type params args, k, h, n => by
    rw [Expr.slots?, Option.ite_none_right_eq_some, Bool.and_eq_true, Option.some.injEq] at h
    obtain ⟨⟨-, hargs⟩, rfl⟩ := h
    have hcount := length_of_haveSlots hargs
    rw [List.length_map] at hcount
    have hcall : Completes ctx scope (callConstructor type params)
        ⟨n + 2 + (params.map TypeName.slotSize).sum, 0⟩ ⟨n + 1, 0⟩ := by
      have hheight : n + 2 + (params.map TypeName.slotSize).sum
          = n + 1 + (totalSlots params + 1) := by rw [totalSlots_eq]; omega
      exact hheight ▸ completes_callConstructor type params (n + 1)
    rw [expr]
    refine (completes_newObject type n).bind fun ⟨index, fresh⟩ =>
      (completes_checkCount hcount).bind fun _ => (completes_exprs args hargs _).bind fun _ =>
      hcall.bind fun _ => (completes_replaceAll rfl).bind fun _ => .pure
  | .newArray element items, k, h, n => by
    rw [Expr.slots?, Option.ite_none_right_eq_some, Option.some.injEq] at h
    obtain ⟨hitems, rfl⟩ := h
    rw [expr]
    exact (completes_pushInt _ n).bind fun _ => (completes_newArray element n).bind fun _ =>
      (completes_elements element items hitems 0 n).bind fun _ => .pure
  | .cast type value, k, h, n => by
    rw [Expr.slots?, Option.ite_none_right_eq_some, Bool.and_eq_true, beq_iff_eq,
      Option.some.injEq] at h
    obtain ⟨⟨htype, hvalue⟩, rfl⟩ := h
    have hprimitive : ¬ type.isPrimitive = true := by
      rw [TypeName.isReference, Bool.and_eq_true] at htype
      simpa using htype.1
    have hpush : Completes ctx scope (pushType type) ⟨n, 0 + 2 + 1⟩ ⟨n + 1, 0⟩ :=
      TypeName.slotSize_of_isReference htype ▸ completes_pushPaid type (by omega)
    rw [expr, if_neg hprimitive]
    exact (completes_expr value hvalue n).bind fun _ => (completes_addConstants _).bind fun _ =>
      completes_instruction.bind fun _ => (completes_pop 1).bind fun _ => hpush.bind fun _ => .pure
  | .boxed value source, k, h, n => by
    rw [Expr.slots?, Option.ite_none_right_eq_some, Bool.and_eq_true, beq_iff_eq,
      Option.some.injEq] at h
    obtain ⟨⟨hsource, hvalue⟩, rfl⟩ := h
    obtain ⟨wrapper, hwrapper⟩ := TypeName.exists_boxed? hsource
    have hsize := TypeName.slotSize_of_isReference (TypeName.isReference_of_boxed? hwrapper)
    rw [expr, hwrapper, ← hsize]
    exact (completes_expr value hvalue n).bind fun _ => (completes_call .static _ n).bind
      fun _ => .pure
  | .unboxed value target, k, h, n => by
    rw [Expr.slots?, Option.ite_none_right_eq_some, Bool.and_eq_true, beq_iff_eq,
      Option.some.injEq] at h
    obtain ⟨⟨htarget, hvalue⟩, rfl⟩ := h
    obtain ⟨wrapper, hwrapper⟩ := TypeName.exists_boxed? htarget
    rw [expr, hwrapper]
    exact (completes_expr value hvalue n).bind fun _ => (completes_call .virtual _ n).bind
      fun _ => .pure
  | .arith op lhs rhs, k, h, n => by
    rw [Expr.slots?, Option.ite_none_right_eq_some, Bool.and_eq_true, beq_iff_eq, beq_iff_eq,
      Option.some.injEq] at h
    obtain ⟨⟨hlhs, hrhs⟩, rfl⟩ := h
    rw [expr_arith]
    exact (completes_expr lhs hlhs n).bind fun _ => (completes_expr rhs hrhs (n + 1)).bind fun _ =>
      completes_instruction.bind fun _ => (completes_pop 2).bind fun _ =>
      ((completes_pushOne (c := 0) rfl).spend (by omega) (Nat.le_refl _)).bind fun _ => .pure
  | .and items, k, h, n => by
    rw [Expr.slots?] at h
    cases h
  | .compare op lhs rhs, k, h, n => by
    rw [Expr.slots?] at h
    cases h

/-- Lowering arguments succeeds and pushes the slots of all their values. -/
theorem completes_exprs : (xs : List Expr) → {ns : List Nat} →
    Expr.haveSlots ctx scope ns xs = true → (n : Nat) →
    Completes ctx scope (exprs .value xs) ⟨n, 0⟩ ⟨n + ns.sum, 0⟩
  | [], [], _, n => by
    rw [exprs]
    exact .pure
  | [], _ :: _, h, n | _ :: _, [], h, n => by simp [Expr.haveSlots] at h
  | x :: xs, k :: ns, h, n => by
    rw [Expr.haveSlots, Bool.and_eq_true, beq_iff_eq] at h
    rw [exprs, List.sum_cons, ← Nat.add_assoc]
    exact (completes_expr x h.1 n).bind fun _ => completes_exprs xs h.2 (n + k)

theorem completes_receiver (method : MethodRef) : (target : Option Expr) →
    Expr.receiverSlots? ctx scope target = some 1 → (n : Nat) →
    Completes ctx scope (receiver method target) ⟨n, 0⟩ ⟨n + 1, 0⟩
  | none, h, n => by
    rw [Expr.receiverSlots?] at h
    cases h
  | some x, h, n => by
    rw [Expr.receiverSlots?] at h
    rw [receiver]
    exact completes_expr x h n

theorem completes_elements (element : TypeName) : (xs : List Expr) →
    Expr.haveSlots ctx scope (.replicate xs.length element.slotSize) xs = true →
    (index n : Nat) → Completes ctx scope (elements element index xs) ⟨n + 1, 0⟩ ⟨n + 1, 0⟩
  | [], _, index, n => by
    rw [elements]
    exact .pure
  | x :: xs, h, index, n => by
    rw [List.length_cons, List.replicate_succ, Expr.haveSlots, Bool.and_eq_true, beq_iff_eq] at h
    rw [elements]
    have harray : Completes ctx scope (pushType element.arrayOf) ⟨n + 1, 0 + 2⟩ ⟨n + 1 + 1, 0⟩ :=
      element.slotSize_arrayOf ▸ completes_pushPaid element.arrayOf (Nat.le_refl _)
    have hpop : Completes ctx scope (pop (2 + element.slotSize))
        ⟨n + 1 + 1 + 1 + element.slotSize, 0 + 2⟩ ⟨n + 1, 0⟩ := by
      have hheight : n + 1 + 1 + 1 + element.slotSize = n + 1 + (2 + element.slotSize) := by omega
      rw [hheight]
      exact (completes_pop _).spend (Nat.zero_le _) (Nat.zero_le _)
    exact completes_instruction.bind fun _ => harray.bind fun _ =>
      (completes_pushInt _ (n + 1 + 1)).bind fun _ => (completes_expr x h.1 _).bind fun _ =>
      completes_instruction.bind fun _ => hpop.bind fun _ => completes_elements element xs h.2 _ n

end

end Emit

end ClassSynth

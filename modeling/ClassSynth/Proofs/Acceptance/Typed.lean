import ClassSynth.Proofs.Acceptance.Method

/-!
# Typed operands that are lowered

`Expr.Has` says of an expression without conditions that it has a type, both for the emitter and for
the verifier, and `Expr.Tests` says of a condition that it can be tested. The lemmas follow the
constructors, so that what larger expressions have is put together from what their parts have.

The emitter takes names of types as they are, the verifier reads descriptors. What is said about the
verifier holds under the condition `described`, that all types can be described.
-/

namespace ClassSynth

open Precision

/-- Slots tell the wide kinds from the others. -/
theorem Precision.admits_width {s t : TypeName} (hs : s.isVoid = false) (ht : t.isVoid = false)
    (h : s.slotSize = t.slotSize) : width.admits (.ofType t) s = true := by
  rw [← ValueKind.slots_ofType hs, ← ValueKind.slots_ofType ht] at h
  refine admits_iff.mpr ⟨hs, ?_⟩
  rw [same, beq_iff_eq]
  rw [ValueKind.slots, ValueKind.slots] at h
  cases hk : (ValueKind.ofType s).isWide <;> cases hl : (ValueKind.ofType t).isWide
  all_goals first | rfl | simp [hk, hl] at h

namespace TypeName

theorem isVoid_of_isDescribable {t : TypeName} (h : t.isDescribable = true) : t.isVoid = false := by
  rw [Bool.eq_false_iff, Ne, isVoid_iff]
  rintro rfl
  revert h
  decide

theorem isVoid_of_isReference {t : TypeName} (h : t.isReference = true) : t.isVoid = false := by
  rw [isReference, Bool.and_eq_true] at h
  simpa using h.2

/-- The type has values. Where types are described, it has a descriptor, too. -/
structure HasValues (described : Prop) (t : TypeName) : Prop where
  nonVoid : t.isVoid = false
  describable : described → t.isDescribable = true

theorem HasValues.of_isDescribable {described : Prop} {t : TypeName} (h : t.isDescribable = true) :
    t.HasValues described :=
  ⟨isVoid_of_isDescribable h, fun _ => h⟩

theorem HasValues.declares {described : Prop} {t : TypeName} (h : t.HasValues described)
    (hd : described) : width.declares t = true :=
  declares_iff.mpr ⟨by simp [inhabits, h.nonVoid], h.describable hd⟩

theorem all_declares {described : Prop} {ts : List TypeName}
    (h : ∀ t ∈ ts, t.HasValues described) (hd : described) : ts.all width.declares = true :=
  List.all_eq_true.mpr fun t ht => (h t ht).declares hd

end TypeName

namespace Expr

/-- The expression has a type, and its value has the slots of the type. -/
structure Has (described : Prop) (ctx : MethodContext) (scope : TypeScope) (x : Expr)
    (t : TypeName) : Prop where
  value : x.valueType? ctx.className ctx.params = some t
  slots : x.slots? ctx scope = some t.slotSize
  type : described → x.type? .width ctx true scope = some t

/-- The expression can stand where a value of a type is wanted. -/
def Fits (described : Prop) (ctx : MethodContext) (scope : TypeScope) (x : Expr) (t : TypeName) :
    Prop :=
  ∃ s, x.Has described ctx scope s ∧ s.isVoid = false ∧ s.slotSize = t.slotSize

/-- The expression is a condition that can be tested. -/
structure Tests (described : Prop) (ctx : MethodContext) (scope : TypeScope) (x : Expr) :
    Prop where
  decides : x.decides ctx scope = true
  type : described → (x.type? .width ctx true scope).any (width.admits .int) = true

variable {described : Prop} {ctx : MethodContext} {scope : TypeScope} {x : Expr} {s t : TypeName}

theorem Has.fits (h : x.Has described ctx scope t) (ht : t.isVoid = false) :
    x.Fits described ctx scope t :=
  ⟨t, h, ht, rfl⟩

theorem Has.fits_of_size (h : x.Has described ctx scope s) (hs : s.isVoid = false)
    (hsize : s.slotSize = t.slotSize) : x.Fits described ctx scope t :=
  ⟨s, h, hs, hsize⟩

/-- References can stand for each other. -/
theorem Has.fits_of_isReference (h : x.Has described ctx scope s) (hs : s.isReference = true)
    (ht : t.isReference = true) : x.Fits described ctx scope t :=
  h.fits_of_size (TypeName.isVoid_of_isReference hs)
    ((TypeName.slotSize_of_isReference hs).trans (TypeName.slotSize_of_isReference ht).symm)

theorem Fits.admits (h : x.Fits described ctx scope t) (ht : t.isVoid = false) (hd : described) :
    (x.type? .width ctx true scope).any (width.admits (.ofType t)) = true := by
  obtain ⟨s, hx, hs, hsize⟩ := h
  rw [hx.type hd, Option.any_some]
  exact admits_width hs ht hsize

theorem Fits.slots (h : x.Fits described ctx scope t) :
    x.slots? ctx scope = some t.slotSize := by
  obtain ⟨s, hx, -, hsize⟩ := h
  rw [hx.slots, hsize]

/-- The value of an expression that is no condition. -/
theorem yields_of_slots? {k : Nat} (h : x.slots? ctx scope = some k) :
    x.yields? ctx scope = some k := by
  cases x
  case and | compare => rw [slots?] at h; cases h
  all_goals exact h

theorem Has.admits_reference (h : x.Has described ctx scope t) (ht : t.isReference = true)
    (hd : described) : (x.type? .width ctx true scope).any (width.admits .reference) = true :=
  (h.fits_of_isReference (t := .object) ht (by decide)).admits (by decide) hd

theorem Has.slots_reference (h : x.Has described ctx scope t) (ht : t.isReference = true) :
    x.slots? ctx scope = some 1 := by
  rw [h.slots, TypeName.slotSize_of_isReference ht]

/-! ## Values -/

theorem Has.this (hstatic : ctx.isStatic = false) (hclass : ctx.className.isReference = true) :
    Expr.this.Has described ctx scope ctx.className where
  value := by rw [valueType?]
  slots := by rw [slots?, hstatic, hclass, TypeName.slotSize_of_isReference hclass]; rfl
  type := fun _ => by rw [type?, hclass]; rfl

theorem Has.param {index : Nat} (h : paramType? ctx.params index = some t) :
    (Expr.param index).Has described ctx scope t where
  value := by rw [valueType?, h]
  slots := by rw [slots?, h, Option.map_some]
  type := fun _ => by rw [type?, h]

theorem Has.localVar {name : String} (h : scope.type? name = some t) (ht : t.isVoid = false) :
    (Expr.localVar name t).Has described ctx scope t where
  value := by rw [valueType?]
  slots := by rw [slots?, h, Option.any_some, if_pos (beq_self_eq_true _)]
  type := fun _ => by rw [type?, h, Option.any_some, if_pos (admits_width ht ht rfl)]

theorem Has.int {value : Int32} : (Expr.int value).Has described ctx scope .int :=
  ⟨by rw [valueType?], by rw [slots?]; rfl, fun _ => by rw [type?]⟩

theorem Has.bool {value : Bool} : (Expr.bool value).Has described ctx scope .boolean :=
  ⟨by rw [valueType?], by rw [slots?]; rfl, fun _ => by rw [type?]⟩

theorem Has.str {value : String} : (Expr.str value).Has described ctx scope .string :=
  ⟨by rw [valueType?], by rw [slots?]; rfl, fun _ => by rw [type?]⟩

theorem Has.null : Expr.null.Has described ctx scope .null :=
  ⟨by rw [valueType?], by rw [slots?]; rfl, fun _ => by rw [type?]⟩

/-! ## Calls -/

section

variable {xs : List Expr} {ts : List TypeName} {method : MethodRef}

theorem allFit_of_fits (h : List.Forall₂ (Fits described ctx scope) xs ts)
    (hts : ∀ t ∈ ts, t.HasValues described) (hd : described) :
    allFit .width ctx true scope (ts.map .ofType) xs = true := by
  induction h with
  | nil => rfl
  | cons hx _ ih =>
    rw [List.map_cons, allFit, hx.admits (hts _ List.mem_cons_self).nonVoid hd,
      ih fun t ht => hts t (List.mem_cons_of_mem _ ht)]
    rfl

theorem haveSlots_of_fits (h : List.Forall₂ (Fits described ctx scope) xs ts) :
    haveSlots ctx scope (ts.map TypeName.slotSize) xs = true := by
  induction h with
  | nil => rfl
  | cons hx _ ih => rw [List.map_cons, haveSlots, hx.slots, ih, beq_self_eq_true]; rfl

/-- The signature of a method that can be called with arguments. -/
structure Calls (described : Prop) (ctx : MethodContext) (scope : TypeScope) (method : MethodRef)
    (args : List Expr) : Prop where
  params : ∀ t ∈ method.params, t.HasValues described
  args : List.Forall₂ (Fits described ctx scope) args method.params
  ret : method.ret.HasValues described

theorem Calls.has (h : Calls described ctx scope method xs) {kind : CallKind}
    {target : Option Expr}
    (hkind : kind = .static ∨ ∃ receiver s, target = some receiver ∧
      receiver.Has described ctx scope s ∧ s.isReference = true) :
    (Expr.invoke kind method target xs).Has described ctx scope method.ret where
  value := by rw [valueType?]
  slots := by
    have hreceiver : (kind == .static || receiverSlots? ctx scope target == some 1) = true := by
      rcases hkind with rfl | ⟨receiver, s, rfl, hreceiver, hs⟩
      · rfl
      · rw [receiverSlots?, hreceiver.slots_reference hs]
        simp
    rw [slots?, hreceiver, haveSlots_of_fits h.args]
    rfl
  type := fun hd => by
    have hreceiver : (kind == .static || receiverFits .width ctx true scope target) = true := by
      rcases hkind with rfl | ⟨receiver, s, rfl, hreceiver, hs⟩
      · rfl
      · rw [receiverFits, hreceiver.admits_reference hs hd]
        simp
    rw [type?, hreceiver, TypeName.all_declares h.params hd, allFit_of_fits h.args h.params hd,
      h.ret.declares hd]
    simp

theorem Calls.invokeStatic (h : Calls described ctx scope method xs) :
    (Expr.invokeStatic method xs).Has described ctx scope method.ret :=
  h.has (.inl rfl)

theorem Calls.invokeVirtual (h : Calls described ctx scope method xs)
    (hx : x.Has described ctx scope s) (hs : s.isReference = true) :
    (Expr.invokeVirtual x method xs).Has described ctx scope method.ret :=
  h.has (.inr ⟨x, s, rfl, hx, hs⟩)

theorem Calls.invokeSuper (h : Calls described ctx scope method xs) (hstatic : ctx.isStatic = false)
    (hclass : ctx.className.isReference = true) :
    (Expr.invokeSuper method xs).Has described ctx scope method.ret :=
  h.has (.inr ⟨.this, ctx.className, rfl, .this hstatic hclass, hclass⟩)

theorem Has.new (ht : t.isReference = true) (hts : ∀ t ∈ ts, t.HasValues described)
    (h : List.Forall₂ (Fits described ctx scope) xs ts) :
    (Expr.new t ts xs).Has described ctx scope t where
  value := by rw [valueType?]
  slots := by
    rw [slots?, ht, haveSlots_of_fits h, TypeName.slotSize_of_isReference ht]
    rfl
  type := fun hd => by
    rw [type?, ht, TypeName.all_declares hts hd, allFit_of_fits h hts hd]
    rfl

theorem forall₂_replicate {P : Expr → TypeName → Prop} (h : ∀ x ∈ xs, P x t) :
    List.Forall₂ P xs (.replicate xs.length t) := by
  induction xs with
  | nil => exact .nil
  | cons x xs ih =>
    exact .cons (h x List.mem_cons_self) (ih fun y hy => h y (List.mem_cons_of_mem _ hy))

theorem Has.newArray (ht : t.HasValues described) (h : ∀ x ∈ xs, x.Fits described ctx scope t) :
    (Expr.newArray t xs).Has described ctx scope t.arrayOf where
  value := by rw [valueType?]
  slots := by
    have hslots := haveSlots_of_fits (forall₂_replicate h)
    rw [List.map_replicate] at hslots
    rw [slots?, hslots, t.slotSize_arrayOf]
    rfl
  type := fun hd => by
    have hall := allFit_of_fits (forall₂_replicate h)
      (fun u hu => (List.eq_of_mem_replicate hu) ▸ ht) hd
    rw [List.map_replicate] at hall
    rw [type?, inhabits, ht.nonVoid, hall]
    rfl

end

theorem Has.cast (hx : x.Has described ctx scope s) (hs : s.isReference = true)
    (ht : t.isReference = true) : (Expr.cast t x).Has described ctx scope t where
  value := by rw [valueType?]
  slots := by
    rw [slots?, hx.slots_reference hs, ht, TypeName.slotSize_of_isReference ht]
    rfl
  type := fun hd => by
    rw [type?, hx.admits_reference hs hd, inhabits, TypeName.isVoid_of_isReference ht]
    rfl

theorem Has.boxed (hx : x.Fits described ctx scope s) (hs : s.boxed? = some t)
    (hvoid : s.isVoid = false) : (Expr.boxed x s).Has described ctx scope t where
  value := by rw [valueType?, hs]
  slots := by
    have hprimitive : s.isPrimitive = true := by
      rw [TypeName.boxed?, Option.map_eq_some_iff] at hs
      obtain ⟨p, hp, -⟩ := hs
      rw [TypeName.isPrimitive, hp]
      rfl
    rw [slots?, hx.slots, hprimitive,
      TypeName.slotSize_of_isReference (TypeName.isReference_of_boxed? hs), beq_self_eq_true]
    rfl
  type := fun hd => by rw [type?, hx.admits hvoid hd, if_pos rfl, hs]

theorem Has.arith {op : ArithOp} {y : Expr} (hx : x.Has described ctx scope .int)
    (hy : y.Has described ctx scope .int) : (Expr.arith op x y).Has described ctx scope .int where
  value := by rw [valueType?]
  slots := by
    rw [slots?, hx.slots, hy.slots]
    rfl
  type := fun hd => by
    rw [type?, hx.type hd, hy.type hd]
    rfl

/-! ## Conditions -/

theorem Tests.of_has (h : x.Has described ctx scope .boolean) (hbool : ∀ b, x ≠ .bool b) :
    x.Tests described ctx scope := by
  have hslots : x.slots? ctx scope = some 1 := h.slots
  refine ⟨?_, fun hd => by rw [h.type hd]; rfl⟩
  cases x
  case bool b => exact absurd rfl (hbool b)
  case and | compare => rw [slots?] at hslots; cases hslots
  all_goals rw [Expr.decides, hslots, beq_self_eq_true] <;> simp

theorem Tests.compare {op : CompareOp} {y : Expr} (hx : x.Has described ctx scope s)
    (hs : s.isVoid = false) (hy : y.Fits described ctx scope s) :
    (Expr.compare op x y).Tests described ctx scope := by
  constructor
  · by_cases hnull : y = .null
    · subst hnull
      have hsize : s.slotSize = 1 := Option.some.inj hy.slots.symm
      rw [Expr.decides, hx.slots, hsize, beq_self_eq_true]
    · by_cases hleft : x = .null
      · subst hleft
        have hsize : s.slotSize = 1 := Option.some.inj hx.slots.symm
        rw [Expr.decides, hy.slots, hsize, beq_self_eq_true]
        exact fun h => absurd h hnull
      · rw [Expr.decides, hx.value, Option.any_some, hx.slots, hy.slots, beq_self_eq_true]
        · rfl
        · exact hnull
        · exact hleft
  · intro hd
    rw [type?, hx.type hd, Option.any_some, hs, hy.admits hs hd]
    rfl

theorem allFit_replicate {items : List Expr} (h : ∀ x ∈ items, x.Tests described ctx scope)
    (hd : described) :
    allFit .width ctx true scope (.replicate items.length .int) items = true := by
  induction items with
  | nil => rfl
  | cons x xs ih =>
    rw [List.length_cons, List.replicate_succ, allFit, (h x List.mem_cons_self).type hd,
      ih fun y hy => h y (List.mem_cons_of_mem _ hy)]
    rfl

theorem allDecide_of_tests {items : List Expr} (h : ∀ x ∈ items, x.Tests described ctx scope) :
    allDecide ctx scope items = true := by
  induction items with
  | nil => rw [allDecide]
  | cons x xs ih =>
    rw [allDecide, (h x List.mem_cons_self).decides,
      ih fun y hy => h y (List.mem_cons_of_mem _ hy)]
    rfl

theorem Tests.and {items : List Expr} (hne : items ≠ [])
    (h : ∀ x ∈ items, x.Tests described ctx scope) :
    (Expr.and items).Tests described ctx scope := by
  constructor
  · rw [Expr.decides, allDecide_of_tests h, List.isEmpty_eq_false_iff.mpr hne]
    rfl
  · intro hd
    rw [type?, allFit_replicate h hd]
    rfl

/-- The value of a conjunction. -/
theorem Tests.yields_and {items : List Expr} (h : (Expr.and items).Tests described ctx scope) :
    (Expr.and items).yields? ctx scope = some 1 := by
  rw [yields?, if_pos h.decides]

end Expr

/-! ## Statements -/

open ClassSynth.Expr

namespace Stmt

/-- Behind the statement the local variables are known, for the emitter and for the verifier. -/
structure Leads (described : Prop) (declares : Bool) (ctx : MethodContext) (scope : TypeScope)
    (s : Stmt) (scope' : TypeScope) : Prop where
  slots : s.scopeAfter? declares ctx scope = some scope'
  types : described → s.typesAfter? .width ctx scope = some scope'

/-- The same behind statements. -/
structure LeadsAll (described : Prop) (declares : Bool) (ctx : MethodContext) (scope : TypeScope)
    (body : List Stmt) (scope' : TypeScope) : Prop where
  slots : scopeAfterAll? declares ctx scope body = some scope'
  types : described → typesAfterAll? .width ctx scope body = some scope'

variable {described : Prop} {declares : Bool} {ctx : MethodContext}
  {scope scope' scope'' : TypeScope} {s : Stmt} {body rest : List Stmt} {x : Expr} {t : TypeName}

theorem LeadsAll.last (h : s.Leads described declares ctx scope scope') :
    LeadsAll described declares ctx scope [s] scope' where
  slots := by
    rw [scopeAfterAll?, List.isEmpty_nil, Bool.not_true, Bool.and_false, if_neg Bool.false_ne_true,
      h.slots]
    rfl
  types := fun hd => by
    rw [typesAfterAll?, h.types hd]
    rfl

theorem LeadsAll.cons (h : s.Leads described declares ctx scope scope') (hexits : s.exits = false)
    (hrest : LeadsAll described declares ctx scope' rest scope'') :
    LeadsAll described declares ctx scope (s :: rest) scope'' where
  slots := by
    rw [scopeAfterAll?, hexits, Bool.false_and, if_neg Bool.false_ne_true, h.slots]
    exact hrest.slots
  types := fun hd => by
    rw [typesAfterAll?, h.types hd]
    exact hrest.types hd

/-- Statements that leave the scope as it is. -/
theorem LeadsAll.append (h : ∀ s ∈ body, s.Leads described declares ctx scope scope)
    (hexits : ∀ s ∈ body, s.exits = false)
    (hrest : LeadsAll described declares ctx scope rest scope') :
    LeadsAll described declares ctx scope (body ++ rest) scope' := by
  induction body with
  | nil => exact hrest
  | cons s body ih =>
    exact .cons (h s List.mem_cons_self) (hexits s List.mem_cons_self)
      (ih (fun s hs => h s (List.mem_cons_of_mem _ hs))
        fun s hs => hexits s (List.mem_cons_of_mem _ hs))

theorem Leads.ret (hx : x.yields? ctx scope = some ctx.ret.slotSize)
    (htype : described →
      (x.type? .width ctx true scope).any (width.admits (.ofType ctx.ret)) = true)
    (hret : ctx.ret.isVoid = false) :
    (Stmt.ret (some x)).Leads described declares ctx scope scope where
  slots := by rw [scopeAfter?, hret, hx, beq_self_eq_true]; rfl
  types := fun hd => by rw [typesAfter?, htype hd, if_pos rfl]

theorem Leads.ret_fits (hx : x.Fits described ctx scope ctx.ret) (hret : ctx.ret.isVoid = false) :
    (Stmt.ret (some x)).Leads described declares ctx scope scope :=
  .ret (yields_of_slots? hx.slots) (hx.admits hret) hret

theorem Leads.retNone (hret : ctx.ret.isVoid = true) :
    (Stmt.ret none).Leads described declares ctx scope scope where
  slots := by rw [scopeAfter?, if_pos hret]
  types := fun _ => by rw [typesAfter?]

theorem Leads.ifThen (hx : x.Tests described ctx scope)
    (h : LeadsAll described declares ctx scope body scope') :
    (Stmt.ifThen x body).Leads described declares ctx scope scope' where
  slots := by rw [scopeAfter?, if_pos hx.decides, h.slots]
  types := fun hd => by
    rw [typesAfter?, if_pos (hx.type hd), h.types hd]
    rfl

theorem Leads.declareLocal {name : String} (ht : t.isVoid = false)
    (hx : x.Fits described ctx scope t) :
    (Stmt.declareLocal name t x).Leads described true ctx scope ((name, some t) :: scope) where
  slots := by rw [scopeAfter?, yields_of_slots? hx.slots, beq_self_eq_true]; rfl
  types := fun hd => by rw [typesAfter?, inhabits, ht, hx.admits ht hd]; rfl

theorem Leads.setLocal {name : String} (hname : scope.type? name = some t) (ht : t.isVoid = false)
    (hx : x.Fits described ctx scope t) :
    (Stmt.setLocal name x).Leads described declares ctx scope scope where
  slots := by
    rw [scopeAfter?, hname, Option.any_some, yields_of_slots? hx.slots, beq_self_eq_true]
    rfl
  types := fun hd => by rw [typesAfter?, hname, Option.any_some, hx.admits ht hd, if_pos rfl]

theorem Leads.setField {target : Expr} {field : FieldRef} {s : TypeName}
    (htarget : target.Has described ctx scope s) (hs : s.isReference = true)
    (hfield : field.type.HasValues described) (hx : x.Fits described ctx scope field.type) :
    (Stmt.setField target field x).Leads described declares ctx scope scope where
  slots := by
    rw [scopeAfter?, htarget.slots_reference hs, hx.slots, beq_self_eq_true, beq_self_eq_true]
    rfl
  types := fun hd => by
    rw [typesAfter?, htarget.admits_reference hs hd, hfield.declares hd,
      hx.admits hfield.nonVoid hd]
    rfl

theorem Leads.superInit {owner : TypeName} {params : List TypeName} {args : List Expr}
    (hstatic : ctx.isStatic = false) (hparams : ∀ t ∈ params, t.HasValues described)
    (hargs : List.Forall₂ (Expr.Fits described ctx scope) args params) :
    (Stmt.superInit owner params args).Leads described declares ctx scope scope where
  slots := by
    rw [scopeAfter?, hstatic, haveSlots_of_fits hargs]
    rfl
  types := fun hd => by
    rw [typesAfter?, TypeName.all_declares hparams hd, allFit_of_fits hargs hparams hd]
    rfl

/-- What is known of a body that leads to its end. -/
theorem LeadsAll.slotted (h : LeadsAll described declares ctx [] body scope)
    (hends : ctx.ret.isVoid = true ∨ exitsAll body = true) : Emit.Slotted declares ctx body where
  scope := by rw [h.slots]; rfl
  ends := hends

theorem LeadsAll.typedBody (h : LeadsAll described declares ctx [] body scope) (hd : described)
    (hparams : ∀ t ∈ ctx.params, t.isVoid = false) : TypedBody .width ctx body where
  params := fun t ht => by simp [inhabits, hparams t ht]
  scope := by
    have htypes : bodyTypes? .width ctx body = some scope := h.types hd
    rw [htypes]
    rfl

end Stmt

end ClassSynth

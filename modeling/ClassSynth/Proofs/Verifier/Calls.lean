import ClassSynth.Proofs.Verifier.Pieces

/-!
# Members, arrays and objects

Accesses to members and calls turn values of the kinds that their descriptors list. While an array
is filled it stays on the stack (`Fills`), and while a constructor is called its object lies twice
below the arguments, as an object under construction (`turns_newObject`).
-/

namespace ClassSynth

open Emit Emitter VerificationType

namespace Emit

variable {α : Type} {p : Precision} {ctx : MethodContext} {usable : Bool} {scope : TypeScope}
  {n : Nat} {ks : List ValueKind} {t : Option Label}

/-! ## Fields -/

theorem adds_fieldRef (f : FieldRef) :
    ConstantPool.Adds (ConstantPool.addFieldRef f.owner.internalName f.name f.type.descriptor)
      fun r index => r.memberRef index = .ok
        { owner := f.owner.internalName, name := f.name, descriptor := f.type.descriptor
          onInterface := false } :=
  ConstantPool.adds_member false (.inl ⟨rfl, rfl⟩) _ _ _

theorem turns_getField {field : FieldRef} (h : p.declares field.type = true) :
    Turns p ctx usable scope n (do
      instruction Opcode.getfield (.short (← fieldRef field))
      pop 1
      pushType field.type) none [.reference] field.type.valueKinds := by
  obtain ⟨htype, hdescribable⟩ := Precision.declares_iff.mp h
  refine turns_indexed _ (adds_fieldRef field) (fun _ => plain_short rfl) (fun _ => rfl) ?_
    (.inr htype) (.pop_bind rfl (.pushType _))
  intro r index hmember
  rw [effect?_field hmember rfl hdescribable rfl, TypeName.valueKinds_of_inhabits htype]
  rfl

theorem turns_getStatic {field : FieldRef} (h : p.declares field.type = true) :
    Turns p ctx usable scope n (do
      instruction Opcode.getstatic (.short (← fieldRef field))
      pushType field.type) none [] field.type.valueKinds := by
  obtain ⟨htype, hdescribable⟩ := Precision.declares_iff.mp h
  refine turns_indexed _ (adds_fieldRef field) (fun _ => plain_short rfl) (fun _ => rfl) ?_
    (.inr htype) (.pushType _)
  intro r index hmember
  rw [effect?_field hmember rfl hdescribable rfl, TypeName.valueKinds_of_inhabits htype]
  rfl

theorem slotsOf_pair (k l : ValueKind) : ValueKind.slotsOf [k, l] = k.slots + l.slots := by
  simp [ValueKind.slotsOf]

theorem turns_putField {field : FieldRef} (h : p.declares field.type = true) :
    Turns p ctx usable scope n (do
      instruction Opcode.putfield (.short (← fieldRef field))
      pop (1 + field.type.slotSize)) none [.reference, .ofType field.type] [] := by
  obtain ⟨htype, hdescribable⟩ := Precision.declares_iff.mp h
  have hslots : ValueKind.slotsOf [.reference, .ofType field.type] = 1 + field.type.slotSize := by
    rw [slotsOf_pair, ValueKind.slots_ofType (Precision.isVoid_of_inhabits htype)]
    rfl
  refine turns_indexed .void (adds_fieldRef field) (fun _ => plain_short rfl)
    (fun _ => rfl) ?_ (.inl (by decide)) (.pop hslots)
  intro r index hmember
  rw [effect?_field hmember rfl hdescribable rfl]
  rfl

theorem turns_cast {type : TypeName} (h : p.inhabits type = true)
    (hprimitive : type.isPrimitive = false) : Turns p ctx usable scope n (do
      let index ← addConstants (ConstantPool.addClass type.internalName)
      instruction Opcode.checkcast (.short index)
      pop 1
      pushType type) none [.reference] type.valueKinds := by
  refine turns_indexed _ (ConstantPool.adds_class _) (fun _ => plain_short rfl) (fun _ => rfl) ?_
    (.inr h) (.pop_bind rfl (.pushType _))
  intro r index _
  rw [TypeName.isPrimitive, Option.isSome_eq_false_iff, Option.isNone_iff_eq_none] at hprimitive
  rw [TypeName.valueKinds_of_inhabits h, ValueKind.ofType, hprimitive]
  rfl

/-! ## Calls -/

theorem adds_methodRef (m : MethodRef) :
    ConstantPool.Adds
      ((if m.onInterface then ConstantPool.addInterfaceMethodRef else ConstantPool.addMethodRef)
        m.owner.internalName m.name m.descriptor)
      fun r index => r.memberRef index = .ok
        { owner := m.owner.internalName, name := m.name, descriptor := m.descriptor
          onInterface := m.onInterface } := by
  cases m.onInterface with
  | true => exact ConstantPool.adds_member true (.inr (.inr ⟨rfl, rfl⟩)) _ _ _
  | false => exact ConstantPool.adds_member false (.inr (.inl ⟨rfl, rfl⟩)) _ _ _

theorem call_eq (kind : CallKind) (m : MethodRef) :
    call kind m = (do
      let index ← methodRef m
      instruction (callForm kind index (totalSlots m.params)).opcode
        (callForm kind index (totalSlots m.params)).operand
      pop (totalSlots m.params + if kind = .static then 0 else 1)
      pushType m.ret) := by
  cases kind <;> rfl

/-- The receiver that a call takes. -/
def receiverKinds (kind : CallKind) : List ValueKind :=
  if kind = .static then [] else [.reference]

theorem isVoid_of_declares {params : List TypeName} (h : ∀ t ∈ params, p.declares t = true) :
    ∀ t ∈ params, t.isVoid = false :=
  fun t ht => Precision.isVoid_of_inhabits (Precision.declares_iff.mp (h t ht)).1

theorem slotsOf_operands (kind : CallKind) {params : List TypeName}
    (h : ∀ t ∈ params, p.declares t = true) :
    ValueKind.slotsOf (receiverKinds kind ++ params.map .ofType)
      = totalSlots params + if kind = .static then 0 else 1 := by
  have hparams := ValueKind.slotsOf_ofType (isVoid_of_declares h)
  rw [ValueKind.slotsOf] at hparams ⊢
  rw [List.map_append, List.sum_append, hparams, Nat.add_comm, receiverKinds]
  split_ifs <;> rfl

/-- The effect of a call. A constructor that is called so is called on an object that is there. -/
def callEffect (kind : CallKind) (m : MethodRef) : Effect :=
  if kind = .special ∧ m.name = "<init>" ∧ m.ret.valueKinds = [] then .init (m.params.map .ofType)
  else .takes (receiverKinds kind ++ m.params.map .ofType) m.ret.valueKinds

theorem effect?_call {r : ConstantPool} {index : UInt16} {found : ConstantPool.MemberRef}
    {m : MethodRef} (hmember : r.memberRef index = .ok found) (hname : found.name = m.name)
    (hdescriptor : found.descriptor = m.descriptor)
    (hparams : ∀ t ∈ m.params, p.declares t = true)
    (hret : m.ret.isVoid = true ∨ p.declares m.ret = true) (kind : CallKind) (slots : Nat) :
    (callForm kind index slots).effect? r = some (callEffect kind m) := by
  have hcall := ofCall?_eq hmember hdescriptor
    (fun t ht => (Precision.declares_iff.mp (hparams t ht)).2)
    (hret.imp_right fun h => (Precision.declares_iff.mp h).2) (callForm kind index slots).opcode
  rw [effect?_callForm, hcall, callEffect, hname]
  cases kind with
  | special => simp [callForm, receiverKinds, Opcode.invokespecial, Opcode.invokestatic]
  | static => simp [callForm, receiverKinds]
  | virtual =>
    simp [callForm, receiverKinds, Opcode.invokevirtual, Opcode.invokespecial, Opcode.invokestatic]
  | interface =>
    simp [callForm, receiverKinds, Opcode.invokeinterface, Opcode.invokespecial,
      Opcode.invokestatic]

theorem fits_call {kind : CallKind} {m : MethodRef} {pool : ConstantPool} {pc : Nat}
    {locals base xs ys : List VerificationType}
    (hxs : List.Forall₂ p.Offers xs (receiverKinds kind ++ m.params.map .ofType))
    (hret : m.ret.isVoid = true ∨ p.inhabits m.ret = true) (hgives : Gives pool m.ret ys) :
    Fits p pc (callEffect kind m) ⟨locals, flat (base ++ xs)⟩ ⟨locals, flat (base ++ ys)⟩ := by
  unfold callEffect
  split_ifs with hinit
  · obtain ⟨rfl, _, hnone⟩ := hinit
    have hys := hgives.offers (p := p)
    rw [hnone] at hys
    cases hys
    rw [List.append_nil]
    cases hxs with
    | cons hx hxs => exact .again rfl (Precision.holds_of_offers hxs) hx.1
  · exact .takes (s := ⟨locals, flat (base ++ xs)⟩) rfl (Precision.holds_of_offers hxs)
      (hgives.yields hret)

theorem turns_call (kind : CallKind) {m : MethodRef} (hparams : ∀ t ∈ m.params, p.declares t = true)
    (hret : m.ret.isVoid = true ∨ p.declares m.ret = true) :
    Turns p ctx usable scope n (call kind m) none (receiverKinds kind ++ m.params.map .ofType)
      m.ret.valueKinds where
  steps := advances_call kind m ctx
  turned := by
    intro e u e' locals base xs _ hrun _ _ hslots hxs _
    rw [call_eq, methodRef] at hrun
    obtain ⟨index, pool, hpool, hmember, hrun⟩ := exists_of_adds (adds_methodRef m) hrun
    rw [runs_instruction_bind] at hrun
    have hend : (callEffect kind m).localsEnd = 0 := by
      unfold callEffect
      split_ifs <;> rfl
    obtain ⟨ys, hgives, hturned⟩ := turned_replaces (e := { e with pool }) (plain_callForm kind _ _)
      (isUnconditionalExit_callForm kind _ _)
      (fun r hr hindexable => effect?_call (hmember r hr hindexable) rfl rfl hparams hret kind _)
      (hend ▸ Nat.zero_le _) hslots hxs
      (.pop_bind (slotsOf_operands kind hparams) (.pushType m.ret))
      (fun _ _ _ hgives => fits_call hxs
        (hret.imp_right fun h => (Precision.declares_iff.mp h).1) hgives) hrun
    exact ⟨ys, hgives.offers, (Turned.constants hpool hslots).trans hturned⟩

/-! ## Arrays -/

/-- A new array takes its length from the stack. -/
theorem turned_newArray {element : TypeName} {e e' : Emitter} {u : Unit}
    {locals base xs : List VerificationType} (hslots : e.slots = ⟨locals, flat (base ++ xs)⟩)
    (hxs : List.Forall₂ p.Offers xs [.int]) (hrun : Runs (newArray element) ctx e u e') :
    ∃ ys, Gives e'.pool element.arrayOf ys ∧ Turned p none e e' locals base ys := by
  have hinhabits : p.inhabits element.arrayOf = true := by
    simp [Precision.inhabits, TypeName.isVoid_arrayOf, TypeName.isNull_arrayOf]
  have hkinds : element.arrayOf.valueKinds = [.reference] := by
    rw [TypeName.valueKinds_of_inhabits hinhabits, TypeName.ofType_arrayOf]
  have hrest : Replaces p ctx (do pop 1; pushType element.arrayOf) [.int] element.arrayOf :=
    .pop_bind rfl (.pushType _)
  unfold newArray at hrun
  cases hprimitive : element.primitive? with
  | some primitive =>
    simp only [hprimitive] at hrun
    rw [runs_instruction_bind] at hrun
    exact turned_takes (plain_byte rfl) rfl (fun _ _ _ => by rw [hkinds]; rfl) hslots hxs
      (.inr hinhabits) hrest hrun
  | none =>
    simp only [hprimitive] at hrun
    obtain ⟨index, pool, hpool, _, hrun⟩ := exists_of_adds (ConstantPool.adds_class _) hrun
    rw [runs_instruction_bind] at hrun
    obtain ⟨ys, hgives, hturned⟩ := turned_takes (e := { e with pool }) (plain_short rfl) rfl
      (fun _ _ _ => by rw [hkinds]; rfl) hslots hxs (.inr hinhabits) hrest hrun
    exact ⟨ys, hgives, (Turned.constants hpool hslots).trans hturned⟩

/-- The step stores elements into the array on the stack, which stays there. -/
structure Fills (p : Precision) (ctx : MethodContext) (usable : Bool) (scope : TypeScope) (n : Nat)
    (step : Emit Unit) (element : TypeName) : Prop where
  steps : ∀ e u e', n ≤ e.labels.size → Runs step ctx e u e' → Steps false n e e'
  turned : ∀ e u e' locals base x, n ≤ e.labels.size → Runs step ctx e u e' → e'.Small →
    Ready p ctx usable scope e → e.slots = ⟨locals, flat (base ++ [x])⟩ →
    Represents e.pool element.arrayOf x → Turned p none e e' locals base [x]

theorem fills_nothing (element : TypeName) :
    Fills p ctx usable scope n (Pure.pure ()) element where
  steps := fun e u e' hn hrun => Advances.pure ctx e u e' hn hrun
  turned := by
    intro e u e' locals base x _ hrun _ _ hslots _
    obtain ⟨_, rfl⟩ := runs_pure.mp hrun
    exact .refl hslots (by simp)

theorem slotsOf_element {element : TypeName} (h : p.inhabits element = true) :
    ValueKind.slotsOf [.reference, .int, .ofType element] = 2 + element.slotSize := by
  have helement := ValueKind.slots_ofType (Precision.isVoid_of_inhabits h)
  simp only [ValueKind.slotsOf, List.map_cons, List.map_nil, List.sum_cons, List.sum_nil, helement]
  change 1 + (1 + (element.slotSize + 0)) = _
  omega

/-- An element at an index: its code stands above the array twice and the index. -/
theorem turns_element {element : TypeName} {x : Emit Unit} (index : Int32)
    (h : p.inhabits element = true)
    (hx : Turns p ctx usable scope n x none [] [.ofType element]) :
    Turns p ctx usable scope n (do
      pushInt index
      x
      instruction element.arrayStore
      pop (2 + element.slotSize)) none [.reference] [] := by
  refine ((turns_pushInt index).above [.reference]).bind fun _ =>
    (hx.above [.reference, .int]).bind fun _ => ?_
  exact turns_instruction .void (plain_arrayStore element)
    (isUnconditionalExit_arrayStore element) (effect?_arrayStore element) (.inl (by decide))
    (.pop (slotsOf_element h))

/-- The array is doubled for every element. -/
theorem turned_dup {element : TypeName} {e e' : Emitter} {u : Unit}
    {locals base : List VerificationType} {x : VerificationType}
    (hslots : e.slots = ⟨locals, flat (base ++ [x])⟩) (hx : Represents e.pool element.arrayOf x)
    (hrun : Runs (pushType element.arrayOf) ctx (e.append ⟨Opcode.dup, .empty⟩) u e') :
    ∃ ys, Gives e'.pool element.arrayOf ys ∧ Turned p none e e' locals (base ++ [x]) ys := by
  have hslots' : e.slots = ⟨locals, flat (base ++ [x] ++ [])⟩ := by rw [hslots, List.append_nil]
  have hrun' : Runs (pushType element.arrayOf) ctx { e.append ⟨Opcode.dup, .empty⟩ with
      slots := ⟨locals, flat (base ++ [x])⟩ } u e' := by
    rwa [with_slots_eq (e := e.append ⟨Opcode.dup, .empty⟩) hslots']
  refine turned_pushType [] .dup (plain_simple rfl) rfl
    (fun _ _ _ => rfl) (Nat.zero_le _) hslots' ?_ hrun'
  intro ys pool hpool hgives
  obtain ⟨hvoid, _⟩ | ⟨_, vt, hvt, rfl⟩ := hgives
  · rw [TypeName.isVoid_arrayOf] at hvoid
    cases hvoid
  obtain rfl := (hx.grows hpool).eq hvt
  have hwide : x.isWide = false := by
    have hkind := hx.kind?
    rw [TypeName.ofType_arrayOf] at hkind
    exact isWide_of_kind? hkind
  rw [List.append_nil, List.append_assoc]
  exact .dup (s := ⟨locals, flat (base ++ [x])⟩) rfl hwide

theorem Fills.cons {element : TypeName} {x rest : Emit Unit} {index : Int32}
    (helement : p.inhabits element = true)
    (hx : Turns p ctx usable scope n x none [] [.ofType element])
    (hrest : Fills p ctx usable scope n rest element) :
    Fills p ctx usable scope n (do
      instruction Opcode.dup
      pushType element.arrayOf
      pushInt index
      x
      instruction element.arrayStore
      pop (2 + element.slotSize)
      rest) element := by
  have hstore := turns_element index helement hx
  have hdup : Advances false n n (do instruction Opcode.dup; pushType element.arrayOf) :=
    (advances_instruction).bind fun _ => advances_pushType _
  -- the doubled array is used up before the rest
  have hstates : ∀ e u e', n ≤ e.labels.size → Runs (do
      instruction Opcode.dup
      pushType element.arrayOf
      pushInt index
      x
      instruction element.arrayStore
      pop (2 + element.slotSize)
      rest) ctx e u e' → ∃ e₁ e₂,
        Runs (pushType element.arrayOf) ctx (e.append ⟨Opcode.dup, .empty⟩) () e₁ ∧
        Steps false n e e₁ ∧ Runs (do
          pushInt index
          x
          instruction element.arrayStore
          pop (2 + element.slotSize)) ctx e₁ () e₂ ∧ Steps false n e₁ e₂ ∧
        Runs rest ctx e₂ u e' ∧ Steps false n e₂ e' := by
    intro e u e' hn hrun
    rw [runs_instruction_bind] at hrun
    obtain ⟨_, e₁, hpush, hrun⟩ := runs_bind.mp hrun
    have hto₁ := hdup ctx e () e₁ hn (runs_instruction_bind.mpr hpush)
    have hn₁ := Nat.le_trans hn hto₁.size_labels_le
    have hregroup : (do
        pushInt index
        x
        instruction element.arrayStore
        pop (2 + element.slotSize)
        rest) = (do
          pushInt index
          x
          instruction element.arrayStore
          pop (2 + element.slotSize)) >>= fun _ => rest := by simp only [bind_assoc]
    rw [hregroup] at hrun
    obtain ⟨_, e₂, hrun₂, hrun₃⟩ := runs_bind.mp hrun
    have hto₂ := hstore.steps e₁ () e₂ hn₁ hrun₂
    exact ⟨e₁, e₂, hpush, hto₁, hrun₂, hto₂, hrun₃,
      hrest.steps e₂ u e' (Nat.le_trans hn₁ hto₂.size_labels_le) hrun₃⟩
  constructor
  · intro e u e' hn hrun
    obtain ⟨e₁, e₂, _, hto₁, _, hto₂, _, hto₃⟩ := hstates e u e' hn hrun
    exact hto₁.trans (hto₂.trans hto₃)
  · intro e u e' locals base y hn hrun hsmall hready hslots hy
    obtain ⟨e₁, e₂, hrun₁, hto₁, hrun₂, hto₂, hrun₃, hto₃⟩ := hstates e u e' hn hrun
    have hn₁ := Nat.le_trans hn hto₁.size_labels_le
    have hn₂ := Nat.le_trans hn₁ hto₂.size_labels_le
    obtain ⟨ys, hgives, hturned₁⟩ := turned_dup (p := p) hslots hy hrun₁
    have hkinds : element.arrayOf.valueKinds = [.reference] := by
      rw [TypeName.valueKinds, if_neg (by simp [TypeName.isVoid_arrayOf]), TypeName.ofType_arrayOf]
    have hys : List.Forall₂ p.Offers ys [.reference] := hkinds ▸ hgives.offers
    have hready₁ := hturned₁.ready [] hready (by rw [hslots, List.append_nil]) hys
    obtain ⟨zs, hzs, hturned₂⟩ := hstore.turned e₁ () e₂ locals (base ++ [y]) ys hn₁ hrun₂
      (hsmall.of_steps hto₃) hready₁ hturned₁.slots hys (by simp)
    cases hzs
    have hslots₂ : e₂.slots = ⟨locals, flat (base ++ [y])⟩ := by
      rw [hturned₂.slots, List.append_nil]
    have hturned₃ := hrest.turned e₂ u e' locals base y hn₂ hrun₃ hsmall
      (hturned₂.ready _ hready₁ hturned₁.slots .nil) hslots₂
      (hy.grows (hturned₁.trans hturned₂).moves.steps.pool)
    exact (hturned₁.trans hturned₂).under.trans hturned₃

/-- A new array with its elements. -/
theorem turns_newArray {element : TypeName} {fill : Emit Unit}
    (hfill : Fills p ctx usable scope n fill element) :
    Turns p ctx usable scope n (do newArray element; fill) none [.int] [.reference] where
  steps := by
    intro e u e' hn hrun
    obtain ⟨_, e₁, hnew, hrest⟩ := runs_bind.mp hrun
    have hto₁ : Steps false n e e₁ := advances_newArray element ctx e () e₁ hn hnew
    exact hto₁.trans (hfill.steps e₁ u e' (Nat.le_trans hn hto₁.size_labels_le) hrest)
  turned := by
    intro e u e' locals base xs hn hrun hsmall hready hslots hxs _
    obtain ⟨_, e₁, hnew, hrest⟩ := runs_bind.mp hrun
    obtain ⟨ys, hgives, hturned₁⟩ := turned_newArray hslots hxs hnew
    have hready₁ := hturned₁.ready xs hready hslots (hgives.offers (p := p))
    obtain ⟨hvoid, _⟩ | ⟨_, y, hy, rfl⟩ := hgives
    · rw [TypeName.isVoid_arrayOf] at hvoid
      cases hvoid
    have hn₁ := Nat.le_trans hn hturned₁.size_labels_le
    have hturned₂ := hfill.turned e₁ u e' locals base y hn₁ hrest hsmall hready₁ hturned₁.slots hy
    have hkind := hy.kind?
    rw [TypeName.ofType_arrayOf] at hkind
    exact ⟨[y], .cons (.of_kind? hkind) .nil, hturned₁.trans hturned₂⟩

/-! ## Objects -/

variable {e e' : Emitter} {u : Unit} {locals base xs : List VerificationType}

/-- An object under construction lies twice on the stack. -/
theorem turned_newObject {type : TypeName} {created : UInt16 × VerificationType}
    (hpc : e.pc ≤ 65535)
    (hslots : e.slots = ⟨locals, flat base⟩) (hrun : Runs (newObject type) ctx e created e') :
    created.2 = .uninitialized e.pc.toUInt16 ∧ e.pc < e'.pc ∧
      Turned p none e e' locals base [created.2, created.2] := by
  rw [newObject, runs_get_bind] at hrun
  obtain ⟨index, pool, hpool, _, hrun⟩ := exists_of_adds (ConstantPool.adds_class _) hrun
  rw [runs_instruction_bind, runs_push_bind, runs_instruction_bind, runs_push_bind, runs_pure]
    at hrun
  obtain ⟨rfl, rfl⟩ := hrun
  have hoffset : e.pc.toUInt16.toNat = e.pc := Machine.toNat_toUInt16 hpc
  have hconstants : Turned p none e { e with pool } locals base [] :=
    Turned.constants hpool (by rw [hslots, List.append_nil])
  have hturned := Turned.push (p := p) (e := { e with pool }) (i := ⟨Opcode.new, .short index⟩) .new
    (plain_short rfl) rfl (fun _ _ _ => rfl) (Nat.zero_le _) hslots
    (.new (s := ⟨locals, flat base⟩) rfl hoffset)
  have hfits : Fits p (Emitter.append { e with pool } ⟨Opcode.new, .short index⟩).pc .dup
      ⟨locals, flat (base ++ [.uninitialized e.pc.toUInt16])⟩
      ⟨locals, flat (base ++ [.uninitialized e.pc.toUInt16] ++
        [.uninitialized e.pc.toUInt16])⟩ := by
    rw [List.append_assoc]
    exact .dup (s := ⟨locals, flat (base ++ [.uninitialized e.pc.toUInt16])⟩) rfl rfl
  have hturned' := Turned.push (i := ⟨Opcode.dup, .empty⟩) .dup (plain_simple rfl) rfl
    (fun _ _ _ => rfl) (Nat.zero_le _) hturned.slots hfits
  refine ⟨rfl, ?_, hconstants.trans (hturned.trans hturned'.under)⟩
  exact Nat.lt_of_lt_of_le (Ordered.pc_lt_append { e with pool } ⟨Opcode.new, .short index⟩)
    hturned'.moves.steps.pc_le

/-- The call of a constructor takes the object and the arguments. -/
theorem of_callConstructor {owner : TypeName} {params : List TypeName} {target : VerificationType}
    (hparams : ∀ t ∈ params, p.declares t = true)
    (hslots : e.slots = ⟨locals, flat (base ++ target :: xs)⟩)
    (hxs : List.Forall₂ p.Offers xs (params.map .ofType)) (htarget : target.isWide = false)
    (hrun : Runs (callConstructor owner params) ctx e u e') :
    ∃ pool i, e.pool.Grows pool ∧ i.Plain ∧ i.isUnconditionalExit = false ∧
      Means { e with pool } i (.init (params.map .ofType)) ∧
      e' = { Emitter.append { e with pool } i with slots := ⟨locals, flat base⟩ } := by
  rw [callConstructor, constructorRef, methodRef] at hrun
  obtain ⟨index, pool, hpool, hmember, hrun⟩ := exists_of_adds (adds_methodRef
    { owner, name := constructorName, params, ret := .void }) hrun
  rw [runs_instruction_bind] at hrun
  obtain ⟨s, hpop, rfl⟩ := runs_pop.mp hrun
  refine ⟨pool, ⟨Opcode.invokespecial, .short index⟩, hpool, plain_short rfl, rfl, ?_, ?_⟩
  · intro r hr hindexable
    have hvoid : TypeName.void.isVoid = true := by decide
    have hkinds : TypeName.void.valueKinds = [] := if_pos hvoid
    have heffect := effect?_call (m := { owner, name := constructorName, params, ret := .void })
      (hmember r hr hindexable) rfl rfl hparams (.inl hvoid) .special 0
    have hinit : callEffect .special { owner, name := constructorName, params, ret := .void }
        = .init (params.map .ofType) := if_pos ⟨rfl, rfl, hkinds⟩
    rwa [hinit] at heffect
  · have hpop' : SlotState.pop? ⟨locals, flat (base ++ target :: xs)⟩ (totalSlots params + 1)
        = some s := hslots ▸ hpop
    have hlength : (flat (target :: xs)).length = totalSlots params + 1 := by
      rw [flat_cons, List.length_append, length_slots, htarget,
        Precision.length_flat (Precision.holds_of_offers hxs),
        ValueKind.slotsOf_ofType (isVoid_of_declares hparams), Nat.add_comm]
      rfl
    have hpush : (⟨locals, flat (base ++ target :: xs)⟩ : SlotState)
        = SlotState.pushAll ⟨locals, flat base⟩ (target :: xs) := by
      simp [SlotState.pushAll]
    rw [hpush] at hpop'
    obtain rfl := SlotState.pop?_pushAll hlength hpop'
    rfl

/-- The object is under construction nowhere but on top. -/
theorem replaceAll_values {old : VerificationType} {index : UInt16} (hraw : old.isRaw = true)
    (hlocals : old ∉ locals) (hbase : old ∉ flat base) :
    SlotState.replaceAll ⟨locals, flat (base ++ [old])⟩ old (.object index)
      = ⟨locals, flat (base ++ [.object index])⟩ := by
  have hkept : ∀ ts : List VerificationType, old ∉ ts →
      ts.map (fun t => if t = old then .object index else t) = ts := by
    intro ts hts
    refine (List.map_congr_left (g := id) fun t ht => if_neg ?_).trans (List.map_id ts)
    rintro rfl
    exact hts ht
  have hold : old.slots = [old] := by
    rw [VerificationType.slots, if_neg (by simp [isWide_of_isRaw hraw])]
  have hnew : (VerificationType.object index).slots = [.object index] := rfl
  rw [SlotState.replaceAll]
  simp only [flat_append, flat_cons, flat_nil, List.append_nil, hold, hnew, List.map_append,
    hkept locals hlocals, hkept _ hbase, List.map_cons, List.map_nil, if_pos]

/-- An object is made, and its constructor is called. -/
theorem turns_new {type : TypeName} {params : List TypeName} {args : Emit Unit}
    (htype : type.valueKinds = [.reference]) (hparams : ∀ t ∈ params, p.declares t = true)
    (hargs : Turns p ctx usable scope n args none [] (params.map .ofType)) :
    Turns p ctx usable scope n (newObject type >>= fun created => do
      args
      callConstructor type params
      replaceAll created.2 (.object created.1)) none [] type.valueKinds where
  steps := by
    intro e u e' hn hrun
    obtain ⟨created, e₁, hnew, hrun⟩ := runs_bind.mp hrun
    obtain ⟨_, e₂, hrunArgs, hrun⟩ := runs_bind.mp hrun
    have hto₁ : Steps false n e e₁ := advances_newObject type ctx e created e₁ hn hnew
    have hn₁ := Nat.le_trans hn hto₁.size_labels_le
    have hto₂ := hargs.steps e₁ () e₂ hn₁ hrunArgs
    have hcall : Advances false n n (do
        callConstructor type params
        replaceAll created.2 (.object created.1)) :=
      (advances_callConstructor _ _).bind fun _ => advances_replaceAll
    exact hto₁.trans (hto₂.trans (hcall ctx e₂ u e' (Nat.le_trans hn₁ hto₂.size_labels_le) hrun))
  turned := by
    intro e u e' locals base xs hn hrun hsmall hready hslots hxs _
    cases hxs
    rw [List.append_nil] at hslots
    obtain ⟨created, e₁, hnew, hrun⟩ := runs_bind.mp hrun
    obtain ⟨_, e₂, hrunArgs, hrun⟩ := runs_bind.mp hrun
    have hto₁ : Steps false n e e₁ := advances_newObject type ctx e created e₁ hn hnew
    have hn₁ := Nat.le_trans hn hto₁.size_labels_le
    have hto₂ := hargs.steps e₁ () e₂ hn₁ hrunArgs
    have hcall : Advances false n n (do
        callConstructor type params
        replaceAll created.2 (.object created.1)) :=
      (advances_callConstructor _ _).bind fun _ => advances_replaceAll
    have hsmall₂ := hsmall.of_steps (hcall ctx e₂ u e' (Nat.le_trans hn₁ hto₂.size_labels_le) hrun)
    have hpc : e.pc ≤ 65535 := (hsmall₂.of_steps (hto₁.trans hto₂)).pc
    obtain ⟨hfresh, hlt, hturned₁⟩ := turned_newObject (p := p) hpc hslots hnew
    -- the object is under construction by the instruction that is there now
    have hready₁ : Ready p ctx usable scope e₁ := by
      refine hturned₁.ready_of_fresh [] hready (by rw [hslots, List.append_nil]) ?_
      intro offset hmem
      have hoffset : VerificationType.uninitialized offset = created.2 := by simpa using hmem
      rw [hfresh] at hoffset
      obtain rfl := VerificationType.uninitialized.inj hoffset
      rwa [Machine.toNat_toUInt16 hpc]
    obtain ⟨ys, hys, hturned₂⟩ := hargs.turned e₁ () e₂ locals (base ++ [created.2, created.2]) []
      hn₁ hrunArgs hsmall₂ hready₁ (by rw [hturned₁.slots, List.append_nil]) .nil (by simp)
    have hraw : created.2.isRaw = true := by rw [hfresh]; rfl
    have hslots₂ : e₂.slots = ⟨locals, flat ((base ++ [created.2]) ++ created.2 :: ys)⟩ := by
      rw [hturned₂.slots]
      simp
    obtain ⟨_, e₃, hconstructor, hreplace⟩ := runs_bind.mp hrun
    obtain ⟨pool, i, hpool, hplain, hexit, hmeans, he₃⟩ := of_callConstructor hparams hslots₂ hys
      (isWide_of_isRaw hraw) hconstructor
    have he' := runs_replaceAll.mp hreplace
    have hreplaced : SlotState.replaceAll ⟨locals, flat (base ++ [created.2])⟩ created.2
        (.object created.1) = ⟨locals, flat (base ++ [.object created.1])⟩ := replaceAll_values hraw
      (fun hmem => hready.built _ (by rw [hslots]; exact hfresh ▸ hmem)) (fun hmem => by
        have hlow := hready.fresh e.pc.toUInt16 (by rw [hslots]; exact hfresh ▸ hmem)
        rw [Machine.toNat_toUInt16 hpc] at hlow
        exact Nat.lt_irrefl _ hlow)
    have he' : e' = { Emitter.append { e₂ with pool } i with
        slots := ⟨locals, flat (base ++ [.object created.1])⟩ } := by
      rw [he', he₃, ← hreplaced]
    have hfits : Fits p e₂.pc (.init (params.map .ofType))
        ⟨locals, flat (base ++ ([created.2, created.2] ++ ys))⟩
        ⟨locals, flat (base ++ [.object created.1])⟩ := hreplaced ▸
      .construct (s := ⟨locals, flat (base ++ ([created.2, created.2] ++ ys))⟩) (by simp)
        (Precision.holds_of_offers hys) (isWide_of_isRaw hraw) hraw fun _ => rfl
    have hturned₃ := hturned₁.trans hturned₂.under
    have hconstants := hturned₃.trans (.constants (p := p) hpool hturned₃.slots)
    have hheight : (flat (base ++ [.object created.1])).length
        ≤ (flat (base ++ ([created.2, created.2] ++ ys))).length := by
      have hone : created.2.slots.length = 1 := by rw [length_slots, isWide_of_isRaw hraw]; rfl
      have hobject : (VerificationType.object created.1).slots.length = 1 := rfl
      simp only [flat_append, flat_cons, flat_nil, List.length_append, hone, hobject,
        List.length_nil]
      omega
    have hact := Turned.act (e := { e₂ with pool }) _ _ hplain hexit hmeans (Nat.zero_le _)
      hturned₃.slots hfits (Nat.le_refl e₂.maxStack) (Nat.le_trans hheight (Nat.le_max_left _ _))
    exact ⟨_, htype ▸ .cons (.of_kind? rfl) .nil, he' ▸ hconstants.trans hact⟩

end Emit

end ClassSynth

import ClassSynth.Proofs.Emit.Order
import ClassSynth.Proofs.Emit.Room
import ClassSynth.Proofs.Verifier.Typing

/-!
# Steps that succeed

`Completes` says of a step without jumps that it succeeds wherever the stack has as many slots as
it takes, and how many slots there are behind it. Steps compose (`Completes.bind`), and whatever
lies below stays.

Heights come with a credit: the code so far pays for the stack with two slots for each of its bytes,
and what an instruction pushes has to be paid for. So the stack never has more slots than twice the
bytes of the code.
-/

namespace ClassSynth

/-- The slots of the stack, and those beyond that the code so far pays for. -/
structure Height where
  slots : Nat
  credit : Nat := 0

/-- A height with more slots below. -/
def Height.above (base : Nat) (h : Height) : Height := ⟨base + h.slots, h.credit⟩

theorem Height.above_zero (h : Height) : h.above 0 = h := by
  rw [above, Nat.zero_add]

namespace Emitter

/-- A point of the code where the stack has a height, with variables in scope. -/
structure Poised (ctx : MethodContext) (scope : TypeScope) (h : Height) (e : Emitter) : Prop where
  stack : e.slots.stack.length = h.slots
  paid : h.slots + h.credit ≤ 2 * e.pc
  maxStack : e.maxStack ≤ 2 * e.pc
  receiver : ctx.isStatic = false → (e.slots.locals.headD .top).isWide = false
  named : e.named.map (fun l => (l.name, some l.type)) = scope

/-- Neither the labels nor the local variables change, and what was reached stays so. -/
structure Straight (e e' : Emitter) : Prop extends SameLocals e e' where
  labels : e'.labels = e.labels
  reachable : e'.reachable = e.reachable

theorem Straight.refl (e : Emitter) : Straight e e := ⟨⟨rfl, rfl, rfl⟩, rfl, rfl⟩

theorem Straight.trans {e₁ e₂ e₃ : Emitter} (h : Straight e₁ e₂) (h' : Straight e₂ e₃) :
    Straight e₁ e₃ :=
  ⟨h.toSameLocals.trans h'.toSameLocals, h'.labels.trans h.labels, h'.reachable.trans h.reachable⟩

/-- The variable of a name is the one that the scope knows. -/
theorem Poised.exists_named {ctx : MethodContext} {scope : TypeScope} {h : Height} {e : Emitter}
    (he : e.Poised ctx scope h) {name : String} {t : TypeName} (ht : scope.type? name = some t) :
    ∃ l ∈ e.named, e.named.find? (·.name == name) = some l ∧ l.type = t := by
  have hlookup : ∀ named : List NamedLocal,
      (named.map fun l => (l.name, some l.type)).lookup name
        = (named.find? (·.name == name)).map fun l => some l.type := by
    intro named
    induction named with
    | nil => rfl
    | cons l named ih =>
      rw [List.map_cons, List.lookup_cons, List.find?_cons, ih, BEq.comm]
      cases l.name == name <;> rfl
  rw [TypeScope.type?, ← he.named, hlookup] at ht
  cases hfind : e.named.find? (·.name == name) with
  | none =>
    rw [hfind] at ht
    cases ht
  | some l =>
    rw [hfind] at ht
    exact ⟨l, List.mem_of_find?_eq_some hfind, rfl, Option.some.inj ht⟩

end Emitter

namespace Emit

open Emitter

variable {α β : Type} {ctx : MethodContext} {scope : TypeScope} {a b d : Height}

/-- Wherever the stack has the slots of `a` above others, the step succeeds and leaves those of `b`
in their place. -/
def Completes (ctx : MethodContext) (scope : TypeScope) (step : Emit α) (a b : Height) : Prop :=
  ∀ base e, Poised ctx scope (a.above base) e →
    ∃ r e', Runs step ctx e r e' ∧ Poised ctx scope (b.above base) e' ∧ Straight e e'

namespace Completes

variable {x : Emit α}

theorem pure {r : α} : Completes ctx scope (Pure.pure r : Emit α) a a :=
  fun _ e h => ⟨r, e, runs_pure.mpr ⟨rfl, rfl⟩, h, .refl e⟩

theorem bind {f : α → Emit β} (hx : Completes ctx scope x a b)
    (hf : ∀ r, Completes ctx scope (f r) b d) : Completes ctx scope (x >>= f) a d := by
  intro base e h
  obtain ⟨r, e₁, hrun₁, h₁, hstraight₁⟩ := hx base e h
  obtain ⟨s, e₂, hrun₂, h₂, hstraight₂⟩ := hf r base e₁ h₁
  exact ⟨s, e₂, runs_bind.mpr ⟨r, e₁, hrun₁, hrun₂⟩, h₂, hstraight₁.trans hstraight₂⟩

/-- A step above values that it does not touch. -/
theorem under (k : Nat) (h : Completes ctx scope x a b) :
    Completes ctx scope x (a.above k) (b.above k) := by
  intro base e he
  have habove : ∀ c : Height, (c.above k).above base = c.above (base + k) := fun c => by
    rw [Height.above, Height.above, Height.above, Nat.add_assoc]
  rw [habove] at he ⊢
  exact h (base + k) e he

/-- Credit may be left unused. -/
theorem spend {m n c c' k k' : Nat} (h : Completes ctx scope x ⟨m, c⟩ ⟨n, k⟩) (hc : c ≤ c')
    (hk : k' ≤ k) : Completes ctx scope x ⟨m, c'⟩ ⟨n, k'⟩ := by
  intro base e he
  obtain ⟨r, e', hrun, he', hstraight⟩ := h base e
    { he with paid := Nat.le_trans (Nat.add_le_add_left hc _) he.paid }
  exact ⟨r, e', hrun, { he' with paid := Nat.le_trans (Nat.add_le_add_left hk _) he'.paid },
    hstraight⟩

theorem read_bind {f : MethodContext → Emit β} (h : Completes ctx scope (f ctx) a b) :
    Completes ctx scope (read >>= f) a b := by
  intro base e he
  obtain ⟨r, e', hrun, hrest⟩ := h base e he
  exact ⟨r, e', runs_read_bind.mpr hrun, hrest⟩

theorem get_bind {f : Emitter → Emit β} (h : ∀ e, Completes ctx scope (f e) a b) :
    Completes ctx scope (MonadState.get >>= f) a b := by
  intro base e he
  obtain ⟨r, e', hrun, hrest⟩ := h e base e he
  exact ⟨r, e', runs_get_bind.mpr hrun, hrest⟩

theorem check {p : Prop} [Decidable p] {cause : CodeGenError} (hp : ¬ p) :
    Completes ctx scope (if p then fail cause else Pure.pure ()) a a := by
  rw [if_neg hp]
  exact .pure

theorem findLocal_bind {name : String} {t : TypeName} {f : NamedLocal → Emit β}
    (ht : scope.type? name = some t) (h : ∀ slot, Completes ctx scope (f ⟨name, slot, t⟩) a b) :
    Completes ctx scope (findLocal name >>= f) a b := by
  intro base e he
  obtain ⟨l, -, hfind, rfl⟩ := he.exists_named ht
  obtain rfl : l.name = name := by simpa using List.find?_some hfind
  obtain ⟨r, e', hrun, hrest⟩ := h l.slot base e he
  exact ⟨r, e', runs_bind.mpr ⟨l, e, runs_findLocal.mpr ⟨hfind, rfl⟩, hrun⟩, hrest⟩

end Completes

/-! ## Primitive steps -/

section

variable {n c : Nat}

theorem completes_addConstants (step : ConstantPool.Adding α) :
    Completes ctx scope (addConstants step) a a :=
  fun _ _ he => ⟨_, _, runs_addConstants.mpr ⟨rfl, rfl⟩, { he with }, ⟨rfl, rfl, rfl⟩, rfl, rfl⟩

/-- An instruction pays for two slots. -/
theorem completes_form {x : Emit Unit} {i : Instruction}
    (h : ∀ e u e', Runs x ctx e u e' ↔ e' = e.append i) :
    Completes ctx scope x ⟨n, c⟩ ⟨n, c + 2⟩ := by
  intro base e he
  have hpc := Emitter.Ordered.pc_lt_append e i
  have hpaid := he.paid
  have hmax := he.maxStack
  simp only [Height.above] at hpaid
  refine ⟨(), e.append i, (h e () _).mpr rfl, ⟨he.stack, ?_, ?_, he.receiver, he.named⟩,
    ⟨rfl, rfl, rfl⟩, rfl, rfl⟩
  · simp only [Height.above]
    omega
  · change e.maxStack ≤ _
    omega

theorem completes_instruction {opcode : UInt8} {operand : Operand} :
    Completes ctx scope (instruction opcode operand) ⟨n, c⟩ ⟨n, c + 2⟩ :=
  completes_form fun _ _ _ => runs_instruction

theorem completes_push (t : VerificationType) :
    Completes ctx scope (push t) ⟨n, c + t.slots.length⟩ ⟨n + t.slots.length, c⟩ := by
  intro base e he
  have hstack : (e.slots.push t).stack.length = base + (n + t.slots.length) := by
    rw [SlotState.push, List.length_append, he.stack, Height.above, Nat.add_assoc]
  have hpaid : base + n + (c + t.slots.length) ≤ 2 * e.pc := he.paid
  refine ⟨(), e.pushed t, runs_push.mpr rfl, ⟨hstack, ?_, ?_, he.receiver, he.named⟩,
    ⟨rfl, rfl, rfl⟩, rfl, rfl⟩
  · change base + (n + t.slots.length) + c ≤ 2 * e.pc
    omega
  · change max e.maxStack (e.slots.push t).stack.length ≤ 2 * e.pc
    rw [hstack]
    exact Nat.max_le.mpr ⟨he.maxStack, by omega⟩

/-- A value of one slot. -/
theorem completes_pushOne {t : VerificationType} (ht : t.isWide = false) :
    Completes ctx scope (push t) ⟨n, c + 1⟩ ⟨n + 1, c⟩ := by
  have hslots : t.slots.length = 1 := by rw [VerificationType.slots, if_neg (by simp [ht])]; rfl
  exact hslots ▸ completes_push t

theorem completes_pushType (t : TypeName) :
    Completes ctx scope (pushType t) ⟨n, c + t.slotSize⟩ ⟨n + t.slotSize, c⟩ := by
  intro base e he
  cases hvoid : t.isVoid with
  | true =>
    have hsize : t.slotSize = 0 := by rw [TypeName.slotSize, if_pos hvoid]
    rw [hsize] at he ⊢
    exact ⟨(), e, runs_pushType.mpr (.inl ⟨hvoid, rfl⟩), he, .refl e⟩
  | false =>
    obtain ⟨vt, e₁, hadd, he₁, hstraight₁⟩ :=
      completes_addConstants (verificationType t) base e he
    obtain ⟨hvt, rfl⟩ := runs_addConstants.mp hadd
    have hsize : vt.slots.length = t.slotSize := hvt ▸ length_slots_verificationType hvoid e.pool
    rw [← hsize] at he₁ ⊢
    obtain ⟨_, e₂, hpush, he₂, hstraight₂⟩ := completes_push vt base _ he₁
    refine ⟨(), e₂, runs_pushType.mpr (.inr ⟨hvoid, ?_⟩), he₂, hstraight₁.trans hstraight₂⟩
    rw [← hvt, ← runs_push.mp hpush]

/-- What an instruction pushes is paid for. -/
theorem completes_pushPaid (t : TypeName) (hc : 2 ≤ c) :
    Completes ctx scope (pushType t) ⟨n, c⟩ ⟨n + t.slotSize, 0⟩ :=
  (completes_pushType t).spend (by rw [Nat.zero_add]; exact Nat.le_trans t.slotSize_le hc)
    (Nat.le_refl _)

theorem completes_pop (k : Nat) : Completes ctx scope (pop k) ⟨n + k, c⟩ ⟨n, c + k⟩ := by
  intro base e he
  have hstack : e.slots.stack.length = base + (n + k) := he.stack
  have hpaid : base + (n + k) + c ≤ 2 * e.pc := he.paid
  refine ⟨(), _, runs_pop.mpr ⟨_, pop?_eq_some.mpr ⟨by omega, rfl⟩, rfl⟩,
    ⟨?_, ?_, he.maxStack, he.receiver, he.named⟩, ⟨rfl, rfl, rfl⟩, rfl, rfl⟩
  · simp only [List.length_take, Height.above]
    omega
  · simp only [Height.above]
    omega

theorem completes_replaceAll {old new : VerificationType} (hnew : new.isWide = false) :
    Completes ctx scope (replaceAll old new) a a := by
  intro base e he
  refine ⟨(), _, runs_replaceAll.mpr rfl, ⟨?_, he.paid, he.maxStack, fun hstatic => ?_, he.named⟩,
    ⟨rfl, rfl, rfl⟩, rfl, rfl⟩
  · rw [SlotState.replaceAll, List.length_map]
    exact he.stack
  · have hreceiver := he.receiver hstatic
    rw [SlotState.replaceAll]
    cases hlocals : e.slots.locals with
    | nil => rfl
    | cons t ts =>
      rw [hlocals] at hreceiver
      rw [List.map_cons, List.headD_cons]
      split_ifs
      · exact hnew
      · exact hreceiver

end

/-! ## Small pieces -/

theorem completes_load (t : TypeName) (slot n : Nat) :
    Completes ctx scope (load t slot) ⟨n, 0⟩ ⟨n + t.slotSize, 0⟩ :=
  (completes_form (i := loadForm (.ofType t) slot) fun _ _ _ => runs_slotInstruction).bind fun _ =>
    completes_pushPaid t (Nat.le_refl _)

theorem completes_loadConstant {n c : Nat} (index : UInt16) :
    Completes ctx scope (loadConstant index) ⟨n, c⟩ ⟨n, c + 2⟩ :=
  completes_form fun _ _ _ => runs_loadConstant

theorem completes_pushInt (value : Int32) (n : Nat) :
    Completes ctx scope (pushInt value) ⟨n, 0⟩ ⟨n + 1, 0⟩ := by
  have hpush : Completes ctx scope (push .integer) ⟨n, 0 + 2⟩ ⟨n + 1, 0⟩ :=
    (completes_pushOne (c := 0) rfl).spend (by omega) (Nat.le_refl _)
  unfold pushInt
  split_ifs
  · exact completes_instruction.bind fun _ => hpush
  · exact completes_instruction.bind fun _ => hpush
  · exact completes_instruction.bind fun _ => hpush
  · exact (completes_addConstants _).bind fun index =>
      (completes_loadConstant index).bind fun _ => hpush

theorem completes_loadThis (hstatic : ctx.isStatic = false) (n : Nat) :
    Completes ctx scope loadThis ⟨n, 0⟩ ⟨n + 1, 0⟩ := by
  refine .read_bind ?_
  rw [if_neg (by simp [hstatic])]
  refine completes_instruction.bind fun _ => fun base e he => ?_
  have hpush : Completes ctx scope (push (e.slots.locals.headD .top)) ⟨n, 0 + 2⟩ ⟨n + 1, 0⟩ :=
    (completes_pushOne (c := 0) (he.receiver hstatic)).spend (by omega) (Nat.le_refl _)
  obtain ⟨_, e', hrun, hrest⟩ := hpush base e he
  exact ⟨(), e', runs_get_bind.mpr hrun, hrest⟩

theorem completes_checkCount {params : List TypeName} {args : List Expr}
    (h : params.length = args.length) : Completes ctx scope (checkCount params args) a a :=
  .check (not_not_intro h)

theorem completes_call (kind : CallKind) (method : MethodRef) (n : Nat) :
    Completes ctx scope (call kind method)
      ⟨n + (totalSlots method.params + if kind = .static then 0 else 1), 0⟩
      ⟨n + method.ret.slotSize, 0⟩ := by
  refine (completes_addConstants _).bind fun index => ?_
  cases kind
  all_goals exact completes_instruction.bind fun _ => (completes_pop _).bind fun _ =>
    completes_pushPaid method.ret (by omega)

theorem completes_newArray (element : TypeName) (n : Nat) :
    Completes ctx scope (newArray element) ⟨n + 1, 0⟩ ⟨n + 1, 0⟩ := by
  have hpush : Completes ctx scope (pushType element.arrayOf) ⟨n, 0 + 2 + 1⟩ ⟨n + 1, 0⟩ :=
    element.slotSize_arrayOf ▸ completes_pushPaid element.arrayOf (by omega)
  unfold newArray
  split
  · exact completes_instruction.bind fun _ => (completes_pop 1).bind fun _ => hpush
  · exact (completes_addConstants _).bind fun _ => completes_instruction.bind fun _ =>
      (completes_pop 1).bind fun _ => hpush

theorem completes_newObject (t : TypeName) (n : Nat) :
    Completes ctx scope (newObject t) ⟨n, 0⟩ ⟨n + 2, 0⟩ := by
  refine .get_bind fun e => (completes_addConstants _).bind fun index =>
    completes_instruction.bind fun _ => ?_
  have hpush : ∀ k c, Completes ctx scope (push (.uninitialized e.pc.toUInt16)) ⟨k, c + 1⟩
      ⟨k + 1, c⟩ := fun _ _ => completes_pushOne rfl
  exact (hpush n 1).bind fun _ => completes_instruction.bind fun _ =>
    ((hpush (n + 1) 2).spend (Nat.le_refl _) (Nat.zero_le _)).bind fun _ => .pure

theorem completes_callConstructor (t : TypeName) (params : List TypeName) (n : Nat) :
    Completes ctx scope (callConstructor t params) ⟨n + (totalSlots params + 1), 0⟩ ⟨n, 0⟩ := by
  have hpop : Completes ctx scope (pop (totalSlots params + 1))
      ⟨n + (totalSlots params + 1), 0 + 2⟩ ⟨n, 0⟩ :=
    (completes_pop (totalSlots params + 1)).spend (Nat.zero_le _) (Nat.zero_le _)
  unfold callConstructor constructorRef methodRef
  exact (completes_addConstants _).bind fun _ => completes_instruction.bind fun _ => hpop

end Emit

end ClassSynth

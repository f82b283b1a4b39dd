import ClassSynth.Emit.Lower
import ClassSynth.Emit.State
import ClassSynth.Proofs.Checked
import Mathlib.Tactic.SplitIfs

/-!
# Runs of the emitter

`Runs step ctx e a e'` says that a step succeeds with `a` and leads from the state `e` to `e'`. Here
stands what the success of each primitive step says about the two states; composed steps are taken
apart by `runs_bind`.
-/

namespace ClassSynth

/-- The emitter with one more instruction. -/
def Emitter.append (e : Emitter) (i : Instruction) : Emitter :=
  { e with code := e.code.push i, pc := e.pc + i.sizeAt e.pc }

/-- The emitter with one more value on the stack. -/
def Emitter.pushed (e : Emitter) (t : VerificationType) : Emitter :=
  { e with
    slots := e.slots.push t
    maxStack := max e.maxStack (e.slots.push t).stack.length }

/-- What the emitter knows of a label. -/
def Emitter.info (e : Emitter) (l : Label) : LabelInfo :=
  e.labels.getD l {}

namespace Emit

variable {α β : Type} {ctx : MethodContext} {e e' : Emitter} {u : Unit}

/-- The step succeeds, and leads from one state to another. -/
def Runs (step : Emit α) (ctx : MethodContext) (e : Emitter) (a : α) (e' : Emitter) : Prop :=
  ((step ctx).run.run e).run = (.ok a, e')

/-! ## Composed steps -/

@[simp] theorem runs_pure {a b : α} : Runs (pure a) ctx e b e' ↔ b = a ∧ e' = e := by
  change ((Except.ok a : Except Error α), e) = (Except.ok b, e') ↔ _
  rw [Prod.mk.injEq, Except.ok.injEq, eq_comm (a := a), eq_comm (a := e)]

theorem runs_bind {x : Emit α} {f : α → Emit β} {b : β} :
    Runs (x >>= f) ctx e b e' ↔ ∃ a e₁, Runs x ctx e a e₁ ∧ Runs (f a) ctx e₁ b e' := by
  have hrun : (((x >>= f) ctx).run.run e).run =
      match ((x ctx).run.run e).run with
      | (.ok a, e₁) => ((f a ctx).run.run e₁).run
      | (.error err, e₁) => (.error err, e₁) := by
    change ExceptT.bindCont (fun a => f a ctx) (x ctx e).1 (x ctx e).2 = _
    change _ = match x ctx e with | (.ok a, e₁) => f a ctx e₁ | (.error err, e₁) => _
    rcases x ctx e with ⟨r, e₁⟩
    cases r <;> rfl
  unfold Runs
  rw [hrun]
  rcases ((x ctx).run.run e).run with ⟨r, e₁⟩
  cases r with
  | error err => simp
  | ok a =>
    constructor
    · exact fun h => ⟨a, e₁, rfl, h⟩
    · rintro ⟨a', e₁', ha, h⟩
      obtain ⟨rfl, rfl⟩ : a = a' ∧ e₁ = e₁' := by simpa using ha
      exact h

/-- A step with a known result is followed by the rest. -/
theorem runs_bind_of {x : Emit α} {f : α → Emit β} {a : α} {e₁ : Emitter} {b : β}
    (hx : ∀ a' e', Runs x ctx e a' e' ↔ a' = a ∧ e' = e₁) :
    Runs (x >>= f) ctx e b e' ↔ Runs (f a) ctx e₁ b e' := by
  rw [runs_bind]
  constructor
  · rintro ⟨a', e₂, ha, hf⟩
    obtain ⟨rfl, rfl⟩ := (hx a' e₂).mp ha
    exact hf
  · exact fun hf => ⟨a, e₁, (hx a e₁).mpr ⟨rfl, rfl⟩, hf⟩

@[simp] theorem runs_get {s : Emitter} : Runs get ctx e s e' ↔ s = e ∧ e' = e := by
  change ((Except.ok e : Except Error Emitter), e) = (Except.ok s, e') ↔ _
  rw [Prod.mk.injEq, Except.ok.injEq, eq_comm (a := e), eq_comm (a := e)]

@[simp] theorem runs_get_bind {f : Emitter → Emit β} {b : β} :
    Runs (get >>= f) ctx e b e' ↔ Runs (f e) ctx e b e' :=
  runs_bind_of fun _ _ => runs_get

@[simp] theorem runs_read {c : MethodContext} : Runs read ctx e c e' ↔ c = ctx ∧ e' = e := by
  change ((Except.ok ctx : Except Error MethodContext), e) = (Except.ok c, e') ↔ _
  rw [Prod.mk.injEq, Except.ok.injEq, eq_comm (a := ctx), eq_comm (a := e)]

@[simp] theorem runs_read_bind {f : MethodContext → Emit β} {b : β} :
    Runs (read >>= f) ctx e b e' ↔ Runs (f ctx) ctx e b e' :=
  runs_bind_of fun _ _ => runs_read

@[simp] theorem runs_modifyGet {f : Emitter → α × Emitter} {a : α} :
    Runs (modifyGet f) ctx e a e' ↔ a = (f e).1 ∧ e' = (f e).2 := by
  change ((Except.ok (f e).1 : Except Error α), (f e).2) = (Except.ok a, e') ↔ _
  rw [Prod.mk.injEq, Except.ok.injEq, eq_comm (b := a), eq_comm (b := e')]

@[simp] theorem runs_modify {f : Emitter → Emitter} : Runs (modify f) ctx e u e' ↔ e' = f e := by
  change ((Except.ok () : Except Error Unit), f e) = (Except.ok u, e') ↔ _
  rw [Prod.mk.injEq, eq_comm (b := e')]
  exact and_iff_right rfl

@[simp] theorem runs_modify_bind {f : Emitter → Emitter} {g : Unit → Emit β} {b : β} :
    Runs (modify f >>= g) ctx e b e' ↔ Runs (g ()) ctx (f e) b e' :=
  runs_bind_of fun _ _ => by rw [runs_modify, and_iff_right rfl]

@[simp] theorem runs_throw {err : Error} {a : α} : ¬ Runs (throw err) ctx e a e' := by
  intro h
  change ((Except.error err : Except Error α), e) = (Except.ok a, e') at h
  cases h

@[simp] theorem runs_fail {cause : CodeGenError} {a : α} : ¬ Runs (fail cause) ctx e a e' :=
  runs_throw

@[simp] theorem runs_orFail {r : Except CodeGenError α} {a : α} :
    Runs (orFail r) ctx e a e' ↔ r = .ok a ∧ e' = e := by
  cases r with
  | error cause => simp [orFail]
  | ok b => simp [orFail, eq_comm]

/-- A check that ends the step if it fails. -/
@[simp] theorem runs_check {p : Prop} [Decidable p] {cause : CodeGenError} :
    Runs (if p then fail cause else pure ()) ctx e u e' ↔ ¬ p ∧ e' = e := by
  by_cases hp : p <;> simp [hp]

@[simp] theorem runs_check_bind {p : Prop} [Decidable p] {cause : CodeGenError}
    {f : Unit → Emit β} {b : β} :
    Runs ((if p then fail cause else pure ()) >>= f) ctx e b e' ↔
      ¬ p ∧ Runs (f ()) ctx e b e' := by
  by_cases hp : p <;> simp [hp, runs_bind]

/-! ## Primitive steps -/

@[simp] theorem runs_instruction {opcode : UInt8} {operand : Operand} :
    Runs (instruction opcode operand) ctx e u e' ↔ e' = e.append ⟨opcode, operand⟩ :=
  runs_modify

@[simp] theorem runs_instruction_bind {opcode : UInt8} {operand : Operand} {f : Unit → Emit β}
    {b : β} : Runs (instruction opcode operand >>= f) ctx e b e' ↔
      Runs (f ()) ctx (e.append ⟨opcode, operand⟩) b e' :=
  runs_modify_bind

@[simp] theorem runs_push {t : VerificationType} :
    Runs (push t) ctx e u e' ↔ e' = e.pushed t :=
  runs_modify

@[simp] theorem runs_push_bind {t : VerificationType} {f : Unit → Emit β} {b : β} :
    Runs (push t >>= f) ctx e b e' ↔ Runs (f ()) ctx (e.pushed t) b e' :=
  runs_modify_bind

@[simp] theorem runs_addConstants {step : ConstantPool.Adding α} {a : α} :
    Runs (addConstants step) ctx e a e' ↔
      a = (step.run e.pool).1 ∧ e' = { e with pool := (step.run e.pool).2 } :=
  runs_modifyGet

@[simp] theorem runs_addConstants_bind {step : ConstantPool.Adding α} {f : α → Emit β} {b : β} :
    Runs (addConstants step >>= f) ctx e b e' ↔
      Runs (f (step.run e.pool).1) ctx { e with pool := (step.run e.pool).2 } b e' :=
  runs_bind_of fun _ _ => runs_addConstants

theorem runs_pushType {t : TypeName} :
    Runs (pushType t) ctx e u e' ↔
      t.isVoid = true ∧ e' = e ∨
      t.isVoid = false ∧ e' = { e with pool := ((verificationType t).run e.pool).2 }.pushed
        ((verificationType t).run e.pool).1 := by
  unfold pushType
  cases hvoid : t.isVoid with
  | true => simp
  | false => simp

theorem pop?_eq_some {s s' : SlotState} {n : Nat} :
    s.pop? n = some s' ↔
      n ≤ s.stack.length ∧ s' = { s with stack := s.stack.take (s.stack.length - n) } := by
  unfold SlotState.pop?
  by_cases hn : n ≤ s.stack.length <;> simp [hn, eq_comm]

theorem runs_pop {n : Nat} :
    Runs (pop n) ctx e u e' ↔ ∃ s, e.slots.pop? n = some s ∧ e' = { e with slots := s } := by
  unfold pop
  rw [runs_get_bind]
  cases e.slots.pop? n with
  | none => simp
  | some s => simp

theorem runs_pop_bind {n : Nat} {f : Unit → Emit β} {b : β} :
    Runs (pop n >>= f) ctx e b e' ↔
      ∃ s, e.slots.pop? n = some s ∧ Runs (f ()) ctx { e with slots := s } b e' := by
  rw [runs_bind]
  constructor
  · rintro ⟨_, _, hpop, hf⟩
    obtain ⟨s, hs, rfl⟩ := runs_pop.mp hpop
    exact ⟨s, hs, hf⟩
  · rintro ⟨s, hs, hf⟩
    exact ⟨(), _, runs_pop.mpr ⟨s, hs, rfl⟩, hf⟩

@[simp] theorem runs_setLocal {slot : Nat} {t : VerificationType} :
    Runs (setLocal slot t) ctx e u e' ↔
      e' = { e with
        slots := e.slots.setLocal slot t
        maxLocals := max e.maxLocals (slot + t.slots.length) } :=
  runs_modify

@[simp] theorem runs_replaceAll {old new : VerificationType} :
    Runs (replaceAll old new) ctx e u e' ↔ e' = { e with slots := e.slots.replaceAll old new } :=
  runs_modify

@[simp] theorem runs_newLabel {l : Label} :
    Runs newLabel ctx e l e' ↔ l = e.labels.size ∧ e' = { e with labels := e.labels.push {} } :=
  runs_modifyGet

@[simp] theorem runs_newLabel_bind {f : Label → Emit β} {b : β} :
    Runs (newLabel >>= f) ctx e b e' ↔
      Runs (f e.labels.size) ctx { e with labels := e.labels.push {} } b e' :=
  runs_bind_of fun _ _ => runs_newLabel

@[simp] theorem runs_endOfFlow : Runs endOfFlow ctx e u e' ↔ e' = { e with reachable := false } :=
  runs_modify

@[simp] theorem runs_declare_bind {name : String} {t : TypeName} {f : Nat → Emit β} {b : β} :
    Runs (declare name t >>= f) ctx e b e' ↔
      Runs (f e.nextLocal) ctx { e with
        nextLocal := e.nextLocal + t.slotSize
        named := { name, slot := e.nextLocal, type := t } :: e.named } b e' :=
  runs_bind_of fun _ _ => runs_modifyGet

theorem runs_findLocal {name : String} {l : NamedLocal} :
    Runs (findLocal name) ctx e l e' ↔ e.named.find? (·.name == name) = some l ∧ e' = e := by
  unfold findLocal
  rw [runs_get_bind]
  cases e.named.find? (·.name == name) with
  | none => simp
  | some found => simp [eq_comm]

theorem runs_typeOf {x : Expr} {t : TypeName} :
    Runs (typeOf x) ctx e t e' ↔ x.valueType? ctx.className ctx.params = some t ∧ e' = e := by
  unfold typeOf
  rw [runs_read_bind]
  cases x.valueType? ctx.className ctx.params with
  | none => simp
  | some found => simp [eq_comm]

/-! ## Labels -/

/-- The state of a label after a jump with the given slots. -/
def joined (info : LabelInfo) (slots : SlotState) : Except CodeGenError SlotState :=
  match info.state? with
  | some jumped => jumped.merge slots
  | none => .ok slots

/-- The emitter after a jump to a label, where the merged state is `s`. -/
def jumpTo (e : Emitter) (opcode : UInt8) (l : Label) (s : SlotState) : Emitter :=
  { e.append ⟨opcode, .branch l⟩ with
    labels := e.labels.setIfInBounds l
      { e.info l with state? := some s, jumps := e.pc :: (e.info l).jumps }
    reachable := e.reachable && opcode != Opcode.goto }

@[simp] theorem runs_label_bind {l : Label} {f : LabelInfo → Emit β} {b : β} :
    Runs (label l >>= f) ctx e b e' ↔ Runs (f (e.info l)) ctx e b e' :=
  runs_bind_of fun _ _ => by
    unfold label
    rw [runs_get_bind, runs_pure]
    rfl

theorem runs_branch {opcode : UInt8} {l : Label} {n : Nat} :
    Runs (branch opcode l n) ctx e u e' ↔
      ∃ s joint, e.slots.pop? n = some s ∧ joined (e.info l) s = .ok joint ∧
        e' = jumpTo { e with slots := s } opcode l joint := by
  unfold branch
  rw [runs_pop_bind]
  refine exists_congr fun s => ?_
  rw [exists_and_left]
  refine and_congr_right fun _ => ?_
  rw [runs_get_bind, runs_instruction_bind, runs_label_bind, runs_get_bind]
  change Runs (match (e.info l).state? with | some jumped => _ | none => _) ctx _ u e' ↔ _
  unfold joined
  cases (e.info l).state? with
  | none =>
    rw [pure_bind, runs_modify]
    simp [jumpTo, Emitter.append, Emitter.info]
  | some jumped =>
    rw [runs_bind]
    simp [jumpTo, Emitter.append, Emitter.info, and_assoc]

/-- The emitter after a label was put before the next instruction. -/
def placed (e : Emitter) (l : Label) : Emitter :=
  { e with
    labels := e.labels.setIfInBounds l
      { e.info l with placement? := some { pc := e.pc, position := e.code.size } } }

/-- The emitter after a label that is jumped to was put before the next instruction, where the state
is `s`. -/
def joinAt (e : Emitter) (l : Label) (s : SlotState) : Emitter :=
  { placed e l with slots := s, reachable := true, frames := recordFrame e.frames e.pc s }

/-- The state at a label that was jumped to in state `jumped`. -/
def arriving (e : Emitter) (jumped : SlotState) : Except CodeGenError SlotState :=
  if e.reachable then e.slots.merge jumped else .ok jumped

theorem runs_place {l : Label} :
    Runs (place l) ctx e u e' ↔
      (e.info l).state? = none ∧ e' = placed e l ∨
      ∃ jumped s, (e.info l).state? = some jumped ∧ arriving e jumped = .ok s ∧
        e' = joinAt e l s := by
  unfold place
  rw [runs_get_bind, runs_label_bind, runs_modify_bind]
  cases hstate : (e.info l).state? with
  | none => simp [placed, hstate]
  | some jumped =>
    unfold arriving
    by_cases hreachable : e.reachable = true
    · simp [hreachable, runs_bind, joinAt, placed, hstate, and_assoc]
    · simp [hreachable, joinAt, placed, hstate]

/-! ## Whole bodies -/

theorem forM_eq_ok {f : α → Except Error Unit} {xs : List α} (h : xs.forM f = .ok ()) :
    ∀ x ∈ xs, f x = .ok () := by
  induction xs with
  | nil => simp
  | cons x xs ih =>
    obtain ⟨⟨⟩, hx, hxs⟩ := Checked.bind_eq_ok.mp h
    exact List.forall_mem_cons.mpr ⟨hx, ih hxs⟩

/-- What a successful end of emission says. -/
theorem of_finish {code : EmittedCode} (h : finish e = .ok code) :
    (∀ info ∈ e.labels.toList, checkLabel info = .ok ()) ∧ e.pc ≤ 65535 ∧
      ∃ bytes, Instruction.encode (resolvedCode e) = .ok bytes ∧
        code = {
          code := bytes
          maxStack := e.maxStack.toUInt16
          maxLocals := e.maxLocals.toUInt16
          frames := e.frames.reverse.map fun (pc, s) => s.toFrame pc } := by
  unfold finish at h
  obtain ⟨⟨⟩, hlabels, h⟩ := Checked.bind_eq_ok.mp h
  split_ifs at h with hpc
  · cases h
  · obtain ⟨bytes, hbytes, hcode⟩ := Checked.bind_eq_ok.mp h
    rw [Checked.mapError_eq_ok] at hbytes
    exact ⟨forM_eq_ok hlabels, Nat.le_of_not_lt hpc, bytes, hbytes, (Except.ok.inj hcode).symm⟩

theorem of_runWith {step : Emit Unit} {pool : ConstantPool} {code : EmittedCode}
    (h : (runWith step ctx pool).1 = .ok code) :
    ∃ e, Runs step ctx (start ctx pool) () e ∧ finish e = .ok code ∧
      (runWith step ctx pool).2 = e.pool := by
  unfold runWith at h ⊢
  rcases hstep : (step ctx).run.run (start ctx pool) with ⟨r, e⟩
  rw [hstep] at h
  cases r with
  | error err => cases h
  | ok u => exact ⟨e, hstep, h, rfl⟩

end Emit

end ClassSynth

/-!
## Slots at the start of a method

A value of a type fills as many slots as the type has, and the receiver and the parameters fill the
local variables with which a method starts.
-/

namespace ClassSynth

/-- The slots of a value are as many as its type says. -/
theorem length_slots_verificationType {t : TypeName} (h : t.isVoid = false) (pool : ConstantPool) :
    ((verificationType t).run pool).1.slots.length = t.slotSize := by
  have hnone : ∀ text : String, t.text = text → Primitive.ofKeyword? text = none →
      t.isWide = false := by
    rintro text rfl htext
    rw [TypeName.isWide, TypeName.primitive?, htext]
    rfl
  rw [TypeName.slotSize, h, if_neg Bool.false_ne_true]
  unfold verificationType
  by_cases hnull : t.isNull = true
  · rw [if_pos hnull, hnone "null" (by simpa [TypeName.isNull] using hnull) (by decide)]
    rfl
  · rw [if_neg hnull, TypeName.isWide]
    cases t.primitive? with
    | none => rfl
    | some p => cases p <;> rfl

namespace MethodContext

theorem length_slotsOfTypes {types : List TypeName} (h : ∀ t ∈ types, t.isVoid = false)
    (pool : ConstantPool) : ((slotsOfTypes types).run pool).1.length = totalSlots types := by
  induction types generalizing pool with
  | nil => rfl
  | cons t types ih =>
    have hfirst := length_slots_verificationType (h t List.mem_cons_self) pool
    have hrest := ih (fun t ht => h t (List.mem_cons_of_mem _ ht)) ((verificationType t).run pool).2
    have hrun : ((slotsOfTypes (t :: types)).run pool).1 =
      ((verificationType t).run pool).1.slots ++
        ((slotsOfTypes types).run ((verificationType t).run pool).2).1 := rfl
    rw [hrun, List.length_append, hfirst, hrest]
    rfl

theorem length_entryReceiver (ctx : MethodContext) (pool : ConstantPool) :
    (ctx.entryReceiver.run pool).1.length = ctx.receiverSlots := by
  unfold entryReceiver receiverSlots
  split_ifs <;> rfl

/-- The receiver and the parameters fill the slots at the start of a method. -/
theorem length_entry {ctx : MethodContext} (h : ∀ t ∈ ctx.params, t.isVoid = false)
    (pool : ConstantPool) :
    (Emit.start ctx pool).entry.length = ctx.receiverSlots + totalSlots ctx.params := by
  have hentry : (Emit.start ctx pool).entry = (ctx.entryReceiver.run pool).1 ++
      ((slotsOfTypes ctx.params).run (ctx.entryReceiver.run pool).2).1 := rfl
  rw [hentry, List.length_append, length_entryReceiver, length_slotsOfTypes h]

end MethodContext

/-- Local variables start behind the parameters, unless these leave no slots. -/
theorem Emit.nextLocal_start {ctx : MethodContext} {pool : ConstantPool}
    (h : (Emit.start ctx pool).entry.length ≤ 65535) :
    (Emit.start ctx pool).nextLocal = (Emit.start ctx pool).entry.length :=
  Nat.mod_eq_of_lt (Nat.lt_succ_of_le h)

end ClassSynth

import ClassSynth.Proofs.Emit.Order

/-!
# Where control goes on

The verifier demands a frame behind every instruction that control does not leave forwards. Where
control reaches a small piece of lowering it reaches its end, and the frames that are demanded so
far are there (`Sealed`): only code that is reached is appended, and a label that makes code reached
again records a frame.
-/

namespace ClassSynth

/-! ## Frames behind exits -/

namespace Instruction

@[simp] theorem isUnconditionalExit_mapLabels (f : Label → Label) (i : Instruction) :
    (i.mapLabels f).isUnconditionalExit = i.isUnconditionalExit := by
  have hshape : (i.mapLabels f).operand.shape = i.operand.shape := Operand.shape_mapLabels _
  rw [isUnconditionalExit, isUnconditionalExit, hshape]
  rfl

end Instruction

namespace Emitter

/-- A frame is recorded behind every exit, as far as there is code behind it or control reaches the
place of the next instruction. -/
structure Sealed (e : Emitter) : Prop where
  pc : e.pc = Instruction.endFrom 0 e.code.toList
  frames : ∀ k i, e.code.toList[k]? = some i → i.isUnconditionalExit = true →
    k + 1 < e.code.size ∨ e.reachable = true →
    ∃ f ∈ e.frames, f.1 = Instruction.offsetIn e.code.toList (k + 1)

namespace Sealed

variable {e : Emitter}

/-- Code is appended where it is reached. If it ends with an exit, the place behind it is not. -/
theorem append (he : e.Sealed) (hreached : e.reachable = true) {i : Instruction} (s : SlotState)
    (labels : Array LabelInfo) {reachable : Bool}
    (hexit : i.isUnconditionalExit = true → reachable = false) :
    Sealed { e.append i with slots := s, labels, reachable } where
  pc := by
    simp only [Emitter.append, Array.toList_push, Instruction.endFrom, List.foldl_append,
      List.foldl_cons, List.foldl_nil]
    rw [he.pc, Instruction.endFrom]
  frames := by
    intro k j hj hjexit hmore
    simp only [Emitter.append, Array.toList_push, Array.size_push] at hj hmore ⊢
    rcases Nat.lt_trichotomy k e.code.size with hk | rfl | hk
    · rw [List.getElem?_append_left (by simpa using hk)] at hj
      rw [Instruction.offsetIn_append (by simpa using Nat.succ_le_of_lt hk)]
      exact he.frames k j hj hjexit (.inr hreached)
    · rw [← Array.length_toList, List.getElem?_concat_length] at hj
      obtain rfl := Option.some.inj hj
      rw [hexit hjexit] at hmore
      rcases hmore with hmore | hmore
      · exact absurd hmore (Nat.lt_irrefl _)
      · cases hmore
    · rw [List.getElem?_eq_none (by simpa using Nat.succ_le_of_lt hk)] at hj
      cases hj

/-- A frame that is recorded once stays. -/
theorem recorded {frames : List (Nat × SlotState)} {pc p : Nat} {s : SlotState}
    (h : ∃ f ∈ frames, f.1 = p) : ∃ f ∈ Emit.recordFrame frames pc s, f.1 = p := by
  obtain ⟨f, hf, rfl⟩ := h
  unfold Emit.recordFrame
  split
  · next last old rest =>
    split_ifs with hsame
    · rcases List.mem_cons.mp hf with rfl | hf
      · exact ⟨_, List.mem_cons_self, hsame.symm⟩
      · exact ⟨f, List.mem_cons_of_mem _ hf, rfl⟩
    · exact ⟨f, List.mem_cons_of_mem _ hf, rfl⟩
  · cases hf

theorem recorded_self (frames : List (Nat × SlotState)) (pc : Nat) (s : SlotState) :
    ∃ f ∈ Emit.recordFrame frames pc s, f.1 = pc := by
  unfold Emit.recordFrame
  split
  · split_ifs <;> exact ⟨_, List.mem_cons_self, rfl⟩
  · exact ⟨_, List.mem_cons_self, rfl⟩

theorem placed (he : e.Sealed) (l : Label) : (Emit.placed e l).Sealed :=
  ⟨he.pc, he.frames⟩

theorem joinAt (he : e.Sealed) (l : Label) (s : SlotState) : (Emit.joinAt e l s).Sealed where
  pc := he.pc
  frames := by
    intro k i hi hexit _
    by_cases hmore : k + 1 < e.code.size
    · exact recorded (he.frames k i hi hexit (.inl hmore))
    · -- the exit is the last instruction, and the label stands behind it
      have hk : k < e.code.toList.length := (List.getElem?_eq_some_iff.mp hi).1
      have hlast : k + 1 = e.code.toList.length := by
        rw [Array.length_toList] at hk ⊢
        omega
      have hoffset : Instruction.offsetIn e.code.toList (k + 1) = e.pc := by
        rw [hlast, Instruction.offsetIn_length, he.pc]
      change ∃ f ∈ Emit.recordFrame e.frames e.pc s,
        f.1 = Instruction.offsetIn e.code.toList (k + 1)
      rw [hoffset]
      exact recorded_self _ _ _

end Sealed

end Emitter

namespace Emit

open Emitter

variable {α β : Type} {ctx : MethodContext} {e e' : Emitter}

/-! ## Steps that go on -/

/-- Control reaches the later state, where the frames are complete. -/
structure Onward (e e' : Emitter) : Prop where
  isSealed : e'.Sealed
  reached : e'.reachable = true
  labels : e.labels.size ≤ e'.labels.size

/-- Where control reaches the step it reaches its end, and the frames stay complete. -/
def GoesOn (x : Emit α) : Prop :=
  ∀ ctx e a e', e.Sealed → e.reachable = true → Runs x ctx e a e' → Onward e e'

namespace GoesOn

theorem pure {a : α} : GoesOn (Pure.pure a : Emit α) := by
  intro ctx e b e' he hreached h
  rw [(runs_pure.mp h).2]
  exact ⟨he, hreached, Nat.le_refl _⟩

theorem bind {x : Emit α} {f : α → Emit β} (hx : GoesOn x) (hf : ∀ a, GoesOn (f a)) :
    GoesOn (x >>= f) := by
  intro ctx e b e' he hreached h
  obtain ⟨a, e₁, ha, hb⟩ := runs_bind.mp h
  have h₁ := hx ctx e a e₁ he hreached ha
  have h₂ := hf a ctx e₁ b e' h₁.isSealed h₁.reached hb
  exact ⟨h₂.isSealed, h₂.reached, Nat.le_trans h₁.labels h₂.labels⟩

theorem get : GoesOn (MonadState.get : Emit Emitter) := by
  intro ctx e s e' he hreached h
  rw [(runs_get.mp h).2]
  exact ⟨he, hreached, Nat.le_refl _⟩

theorem read : GoesOn (MonadReader.read : Emit MethodContext) := by
  intro ctx e s e' he hreached h
  rw [(runs_read.mp h).2]
  exact ⟨he, hreached, Nat.le_refl _⟩

theorem fail {cause : CodeGenError} : GoesOn (Emit.fail cause : Emit α) :=
  fun _ _ _ _ _ _ h => absurd h runs_fail

theorem ite {p : Prop} [Decidable p] {x y : Emit α} (hx : GoesOn x) (hy : GoesOn y) :
    GoesOn (if p then x else y) := by
  split_ifs
  · exact hx
  · exact hy

/-- A step that leaves code, frames and reachability alone. -/
theorem of_same {x : Emit α} (h : ∀ ctx e a e', Runs x ctx e a e' → e'.code = e.code ∧
    e'.pc = e.pc ∧ e'.frames = e.frames ∧ e'.reachable = e.reachable ∧
    e.labels.size ≤ e'.labels.size) : GoesOn x := by
  intro ctx e a e' he hreached hrun
  obtain ⟨hcode, hpc, hframes, hreachable, hlabels⟩ := h ctx e a e' hrun
  refine ⟨⟨by rw [hpc, hcode, he.pc], ?_⟩, hreachable.trans hreached, hlabels⟩
  rw [hcode, hframes, hreachable]
  exact he.frames

end GoesOn

theorem goesOn_form {x : Emit Unit} {i : Instruction} (hexit : i.isUnconditionalExit = false)
    (h : ∀ ctx e u e', Runs x ctx e u e' ↔ e' = e.append i) : GoesOn x := by
  intro ctx e u e' he hreached hrun
  rw [(h ctx e u e').mp hrun]
  refine ⟨?_, hreached, Nat.le_refl _⟩
  exact he.append hreached e.slots e.labels (fun hi => absurd hi (by rw [hexit]; decide))

theorem goesOn_instruction {opcode : UInt8} {operand : Operand}
    (h : Instruction.isUnconditionalExit ⟨opcode, operand⟩ = false := by rfl) :
    GoesOn (instruction opcode operand) :=
  goesOn_form h fun _ _ _ _ => runs_instruction

theorem goesOn_addConstants {step : ConstantPool.Adding α} : GoesOn (addConstants step) :=
  .of_same fun _ _ _ _ hrun => (runs_addConstants.mp hrun).2 ▸ ⟨rfl, rfl, rfl, rfl, Nat.le_refl _⟩

theorem goesOn_push {t : VerificationType} : GoesOn (push t) :=
  .of_same fun _ _ _ _ hrun => runs_push.mp hrun ▸ ⟨rfl, rfl, rfl, rfl, Nat.le_refl _⟩

theorem goesOn_pop {slots : Nat} : GoesOn (pop slots) := by
  refine .of_same fun _ _ _ _ hrun => ?_
  obtain ⟨s, _, rfl⟩ := runs_pop.mp hrun
  exact ⟨rfl, rfl, rfl, rfl, Nat.le_refl _⟩

theorem goesOn_setLocal {slot : Nat} {t : VerificationType} : GoesOn (setLocal slot t) :=
  .of_same fun _ _ _ _ hrun => runs_setLocal.mp hrun ▸ ⟨rfl, rfl, rfl, rfl, Nat.le_refl _⟩

theorem goesOn_replaceAll {old new : VerificationType} : GoesOn (replaceAll old new) :=
  .of_same fun _ _ _ _ hrun => runs_replaceAll.mp hrun ▸ ⟨rfl, rfl, rfl, rfl, Nat.le_refl _⟩

theorem goesOn_declare {name : String} {t : TypeName} : GoesOn (declare name t) :=
  .of_same fun _ _ _ _ hrun => (runs_modifyGet.mp hrun).2 ▸ ⟨rfl, rfl, rfl, rfl, Nat.le_refl _⟩

/-- A jump leads on unless it is unconditional. -/
theorem sealed_branch {opcode : UInt8} {l : Label} {pops : Nat} {u : Unit} (he : e.Sealed)
    (hreached : e.reachable = true)
    (hexit : Instruction.isUnconditionalExit ⟨opcode, .branch l⟩ = true → opcode = Opcode.goto)
    (hrun : Runs (branch opcode l pops) ctx e u e') :
    e'.Sealed ∧ e'.reachable = (opcode != Opcode.goto) := by
  obtain ⟨s, joint, _, _, rfl⟩ := runs_branch.mp hrun
  refine ⟨?_, by rw [jumpTo, hreached, Bool.true_and]⟩
  have hsealed : Sealed { e with slots := s } := ⟨he.pc, he.frames⟩
  refine hsealed.append hreached s _ fun hi => ?_
  rw [hexit hi, bne_self_eq_false, Bool.and_false]

theorem sealed_place {l : Label} {u : Unit} (he : e.Sealed) (hrun : Runs (place l) ctx e u e') :
    e'.Sealed ∧ ((e.info l).state? ≠ none ∨ e.reachable = true → e'.reachable = true) := by
  rcases runs_place.mp hrun with ⟨hstate, rfl⟩ | ⟨jumped, s, _, _, rfl⟩
  · refine ⟨he.placed l, fun h => ?_⟩
    rcases h with h | h
    · exact absurd hstate h
    · exact h
  · exact ⟨he.joinAt l s, fun _ => rfl⟩

theorem goesOn_place {l : Label} : GoesOn (place l) := by
  intro ctx e u e' he hreached hrun
  obtain ⟨hsealed, hreachable⟩ := sealed_place he hrun
  refine ⟨hsealed, hreachable (.inr hreached), ?_⟩
  rcases runs_place.mp hrun with ⟨_, rfl⟩ | ⟨_, _, _, _, rfl⟩
  · exact Nat.le_of_eq Array.size_setIfInBounds.symm
  · exact Nat.le_of_eq Array.size_setIfInBounds.symm

/-! ## Small pieces -/

theorem goesOn_pushType (t : TypeName) : GoesOn (pushType t) :=
  .ite (goesOn_addConstants.bind fun _ => goesOn_push) .pure

theorem isUnconditionalExit_shortForm (kind : ValueKind) {k : Nat} (hk : k ≤ 3) :
    Instruction.isUnconditionalExit ⟨kind.load0 + k.toUInt8, .empty⟩ = false ∧
      Instruction.isUnconditionalExit ⟨kind.store0 + k.toUInt8, .empty⟩ = false := by
  have hcases : k = 0 ∨ k = 1 ∨ k = 2 ∨ k = 3 := by omega
  rcases hcases with rfl | rfl | rfl | rfl <;> cases kind <;> decide

theorem isUnconditionalExit_slotForm {opcode0 opcode : UInt8} {slot : Nat}
    (h0 : ∀ k, k ≤ 3 → Instruction.isUnconditionalExit ⟨opcode0 + k.toUInt8, .empty⟩ = false)
    (h : ∀ wide, Instruction.isUnconditionalExit ⟨opcode, .slot slot.toUInt16 wide⟩ = false) :
    (slotForm opcode0 opcode slot).isUnconditionalExit = false := by
  unfold slotForm
  split_ifs with hslot
  · exact h0 slot hslot
  · exact h _

theorem isUnconditionalExit_loadForm (kind : ValueKind) (slot : Nat) :
    (loadForm kind slot).isUnconditionalExit = false :=
  isUnconditionalExit_slotForm (fun _ hk => (isUnconditionalExit_shortForm kind hk).1)
    (fun _ => by cases kind <;> rfl)

theorem isUnconditionalExit_storeForm (kind : ValueKind) (slot : Nat) :
    (storeForm kind slot).isUnconditionalExit = false :=
  isUnconditionalExit_slotForm (fun _ hk => (isUnconditionalExit_shortForm kind hk).2)
    (fun _ => by cases kind <;> rfl)

theorem goesOn_load (t : TypeName) (slot : Nat) : GoesOn (load t slot) := by
  have hform : GoesOn (slotInstruction (ValueKind.ofType t).load0 (ValueKind.ofType t).load slot) :=
    goesOn_form (isUnconditionalExit_loadForm _ _) fun _ _ _ _ => runs_slotInstruction
  exact hform.bind fun _ => goesOn_pushType t

theorem goesOn_store (t : TypeName) (slot : Nat) : GoesOn (store t slot) := by
  have hform :
      GoesOn (slotInstruction (ValueKind.ofType t).store0 (ValueKind.ofType t).store slot) :=
    goesOn_form (isUnconditionalExit_storeForm _ _) fun _ _ _ _ => runs_slotInstruction
  exact goesOn_pop.bind fun _ => hform.bind fun _ => goesOn_addConstants.bind fun _ =>
    goesOn_setLocal

theorem isUnconditionalExit_constantForm (index : UInt16) :
    (constantForm index).isUnconditionalExit = false := by
  unfold constantForm
  split_ifs <;> rfl

theorem goesOn_loadConstant (index : UInt16) : GoesOn (loadConstant index) :=
  goesOn_form (isUnconditionalExit_constantForm index) fun _ _ _ _ => runs_loadConstant

theorem isUnconditionalExit_iconst {value : Int32} (hlow : -1 ≤ value) (hhigh : value ≤ 5) :
    Instruction.isUnconditionalExit
      ⟨(Opcode.iconst0.toInt8.toInt32 + value).toInt8.toUInt8, .empty⟩ = false := by
  rcases small_cases hlow hhigh with rfl | rfl | rfl | rfl | rfl | rfl | rfl <;> rfl

theorem isUnconditionalExit_numberForm {value : Int32} {i : Instruction}
    (h : numberForm? value = some i) : i.isUnconditionalExit = false := by
  unfold numberForm? at h
  split_ifs at h with hsmall
  · obtain rfl := Option.some.inj h
    exact isUnconditionalExit_iconst hsmall.1 hsmall.2
  · obtain rfl := Option.some.inj h
    rfl
  · obtain rfl := Option.some.inj h
    rfl

theorem goesOn_pushInt (value : Int32) : GoesOn (pushInt value) := by
  unfold pushInt
  split_ifs with hsmall
  · exact (goesOn_instruction (isUnconditionalExit_iconst hsmall.1 hsmall.2)).bind fun _ =>
      goesOn_push
  · exact (goesOn_instruction).bind fun _ => goesOn_push
  · exact (goesOn_instruction).bind fun _ => goesOn_push
  · exact goesOn_addConstants.bind fun _ => (goesOn_loadConstant _).bind fun _ => goesOn_push

theorem goesOn_findLocal (name : String) : GoesOn (findLocal name) :=
  .of_same fun _ _ _ _ hrun => (runs_findLocal.mp hrun).2 ▸ ⟨rfl, rfl, rfl, rfl, Nat.le_refl _⟩

theorem goesOn_loadThis : GoesOn loadThis := by
  refine GoesOn.read.bind fun ctx => .ite (GoesOn.fail.bind fun _ => ?_) ?_
  all_goals exact (goesOn_instruction).bind fun _ => GoesOn.get.bind fun _ => goesOn_push

theorem goesOn_checkCount (params : List TypeName) (args : List Expr) :
    GoesOn (checkCount params args) :=
  .ite .fail .pure

theorem goesOn_typeOf (x : Expr) : GoesOn (typeOf x) :=
  .of_same fun _ _ _ _ hrun => (runs_typeOf.mp hrun).2 ▸ ⟨rfl, rfl, rfl, rfl, Nat.le_refl _⟩

theorem goesOn_methodRef (method : MethodRef) : GoesOn (methodRef method) :=
  goesOn_addConstants

theorem goesOn_call (kind : CallKind) (method : MethodRef) : GoesOn (call kind method) := by
  refine (goesOn_methodRef method).bind fun index => ?_
  cases kind
  all_goals exact (goesOn_instruction).bind fun _ => goesOn_pop.bind fun _ =>
    goesOn_pushType method.ret

theorem goesOn_newArray (element : TypeName) : GoesOn (newArray element) := by
  unfold newArray
  split
  · exact (goesOn_instruction).bind fun _ => goesOn_pop.bind fun _ => goesOn_pushType _
  · exact goesOn_addConstants.bind fun _ => (goesOn_instruction).bind fun _ =>
      goesOn_pop.bind fun _ => goesOn_pushType _

theorem goesOn_newObject (t : TypeName) : GoesOn (newObject t) :=
  GoesOn.get.bind fun _ => goesOn_addConstants.bind fun _ => (goesOn_instruction).bind fun _ =>
    goesOn_push.bind fun _ => (goesOn_instruction).bind fun _ => goesOn_push.bind fun _ => .pure

theorem goesOn_callConstructor (t : TypeName) (params : List TypeName) :
    GoesOn (callConstructor t params) :=
  (goesOn_methodRef _).bind fun _ => (goesOn_instruction).bind fun _ => goesOn_pop

theorem goesOn_arith (op : ArithOp) : GoesOn (instruction (arithOpcode op)) := by
  cases op <;> exact goesOn_instruction

theorem isUnconditionalExit_arrayStore (t : TypeName) :
    Instruction.isUnconditionalExit ⟨t.arrayStore, .empty⟩ = false := by
  unfold TypeName.arrayStore
  cases t.primitive? with
  | none => rfl
  | some p => cases p <;> rfl

theorem goesOn_arrayStore (t : TypeName) : GoesOn (instruction t.arrayStore) :=
  goesOn_instruction (isUnconditionalExit_arrayStore t)

theorem goesOn_dropValue (t : TypeName) : GoesOn (dropValue t) := by
  unfold dropValue
  split
  · exact .pure
  · exact (goesOn_instruction).bind fun _ => goesOn_pop
  · exact (goesOn_instruction).bind fun _ => goesOn_pop

end Emit

end ClassSynth

import ClassSynth.Proofs.Emit.Change

/-!
# The emitter step by step

Every step of lowering, if it succeeds, is a sequence of changes of the emitter. `of_emitMethod` and
`of_emitFragment` say so of whole bodies; a property that each `Emitter.Step` preserves therefore
holds of all emitted code.
-/

namespace ClassSynth

/-- The destination is one of the first `n` labels, unless the value stays on the stack. -/
def Destination.Within (n : Nat) : Destination → Prop
  | .value => True
  | .jumpIfFalse l => l < n

namespace Emit

open Emitter

variable {α β : Type} {locals : Bool} {m n : Nat}

/-- Whenever the step succeeds where `known` labels are known, it is a sequence of small changes. -/
def Advances (locals : Bool) (floor known : Nat) (step : Emit α) : Prop :=
  ∀ ctx e a e', known ≤ e.labels.size → Runs step ctx e a e' → Steps locals floor e e'

namespace Advances

theorem pure {a : α} : Advances locals m n (Pure.pure a : Emit α) := by
  intro ctx e b e' _ h
  rw [runs_pure] at h
  rw [h.2]

theorem bind {x : Emit α} {f : α → Emit β} (hx : Advances locals m n x)
    (hf : ∀ a, Advances locals m n (f a)) : Advances locals m n (x >>= f) := by
  intro ctx e b e' hn h
  obtain ⟨a, e₁, ha, hb⟩ := runs_bind.mp h
  have hsteps := hx ctx e a e₁ hn ha
  exact hsteps.trans (hf a ctx e₁ b e' (Nat.le_trans hn hsteps.size_labels_le) hb)

theorem get : Advances locals m n (MonadState.get : Emit Emitter) := by
  intro ctx e s e' _ h
  rw [(runs_get.mp h).2]

theorem read : Advances locals m n (MonadReader.read : Emit MethodContext) := by
  intro ctx e s e' _ h
  rw [(runs_read.mp h).2]

theorem fail {cause : CodeGenError} : Advances locals m n (Emit.fail cause : Emit α) :=
  fun _ _ _ _ _ h => absurd h runs_fail

theorem ite {p : Prop} [Decidable p] {x y : Emit α} (hx : Advances locals m n x)
    (hy : Advances locals m n y) : Advances locals m n (if p then x else y) := by
  split_ifs
  · exact hx
  · exact hy

/-- A step whose outcome is one small change. -/
theorem of_step {x : Emit α} (h : ∀ ctx e a e', Runs x ctx e a e' → Step locals m e e') :
    Advances locals m n x :=
  fun ctx e a e' _ hx => .single (h ctx e a e' hx)

end Advances

/-! ## Primitive steps -/

theorem advances_instruction {opcode : UInt8} {operand : Operand}
    (h : Instruction.Plain ⟨opcode, operand⟩ := by exact ⟨⟨rfl, trivial⟩, rfl⟩) :
    Advances locals m n (instruction opcode operand) :=
  .of_step fun _ e _ _ hrun => runs_instruction.mp hrun ▸ .instruction e ⟨opcode, operand⟩ h

theorem advances_addConstants {step : ConstantPool.Adding α} {P : ConstantPool → α → Prop}
    (h : ConstantPool.Adds step P) : Advances locals m n (addConstants step) :=
  .of_step fun _ e _ _ hrun => (runs_addConstants.mp hrun).2 ▸ .constants e _ (h e.pool).1

/-- Constants that are there change nothing. -/
theorem runs_addConstants_of_holds {ctx : MethodContext} {e e' : Emitter} {f : α → Emit β}
    {step : ConstantPool.Adding α} {a : α} {b : β} (h : e.pool.Holds step a) :
    Runs (addConstants step >>= f) ctx e b e' ↔ Runs (f a) ctx e b e' := by
  have hrun : step.run e.pool = (a, e.pool) := h
  rw [runs_addConstants_bind, hrun]

theorem advances_push {t : VerificationType} : Advances locals m n (push t) :=
  .of_step fun _ e _ _ hrun => runs_push.mp hrun ▸
    .slots e _ _ (Nat.le_max_left _ _)

theorem advances_pop {slots : Nat} : Advances locals m n (pop slots) := by
  refine .of_step fun ctx e a e' hrun => ?_
  obtain ⟨s, _, rfl⟩ := runs_pop.mp hrun
  exact .slots e s e.maxStack (Nat.le_refl _)

theorem advances_setLocal {slot : Nat} {t : VerificationType} :
    Advances true m n (setLocal slot t) :=
  .of_step fun _ e _ _ hrun => runs_setLocal.mp hrun ▸
    .store e _ _ rfl (Nat.le_max_left _ _)

theorem advances_replaceAll {old new : VerificationType} :
    Advances locals m n (replaceAll old new) :=
  .of_step fun _ e _ _ hrun => runs_replaceAll.mp hrun ▸
    .slots e _ e.maxStack (Nat.le_refl _)

theorem advances_branch {opcode : UInt8} {l : Label} {pops : Nat}
    (hopcode : Opcode.shape? opcode = some .branch) (hl : l < n) :
    Advances locals m n (branch opcode l pops) := by
  intro ctx e a e' hn hrun
  obtain ⟨s, joint, _, _, rfl⟩ := runs_branch.mp hrun
  have hpop : Step locals m e { e with slots := s } :=
    .slots e s e.maxStack (Nat.le_refl _)
  exact .tail (.single hpop) (.jump _ opcode l joint hopcode (Nat.lt_of_lt_of_le hl hn))

/-- A label that stands nowhere yet may be placed. -/
theorem steps_place {ctx : MethodContext} {e e' : Emitter} {l : Label}
    (hrun : Runs (place l) ctx e () e') (hfloor : m ≤ l) (hnew : (e.info l).placement? = none) :
    Steps locals m e e' := by
  rcases runs_place.mp hrun with ⟨hstate, rfl⟩ | ⟨jumped, s, hstate, _, rfl⟩
  · exact .single (.place e l hfloor hnew hstate)
  · exact .single (.join e l s hfloor hnew (by rw [hstate]; exact Option.some_ne_none _))

theorem advances_declare {name : String} {t : TypeName} : Advances true m n (declare name t) :=
  .of_step fun _ e _ _ hrun => (runs_modifyGet.mp hrun).2 ▸ .named e _ _ rfl

/-- The end of a flow, with an instruction before it. -/
theorem advances_exit {opcode : UInt8} (h : Instruction.Plain ⟨opcode, .empty⟩) :
    Advances locals m n (do instruction opcode; endOfFlow) := by
  refine .of_step fun ctx e a e' hrun => ?_
  rw [runs_instruction_bind, runs_endOfFlow] at hrun
  subst hrun
  exact .exit e ⟨opcode, .empty⟩ e.slots h

/-- The end of a flow, with an instruction before it that takes a value from the stack. -/
theorem advances_exitWith {opcode : UInt8} {slots : Nat}
    (h : Instruction.Plain ⟨opcode, .empty⟩) :
    Advances locals m n (do instruction opcode; pop slots; endOfFlow) := by
  refine .of_step fun ctx e a e' hrun => ?_
  rw [runs_instruction_bind, runs_pop_bind] at hrun
  obtain ⟨s, _, hrun⟩ := hrun
  rw [runs_endOfFlow] at hrun
  subst hrun
  exact .exit e ⟨opcode, .empty⟩ s h

/-! ## Small pieces -/

theorem adds_verificationType (t : TypeName) :
    ConstantPool.Adds (verificationType t) fun _ _ => True := by
  unfold verificationType
  split_ifs
  · exact .pure fun _ => trivial
  · split
    all_goals first
      | exact .pure fun _ => trivial
      | exact (ConstantPool.adds_class _).bind fun _ => .pure fun _ _ => trivial

theorem advances_pushType (t : TypeName) : Advances locals m n (pushType t) :=
  .ite ((advances_addConstants (adds_verificationType t)).bind fun _ => advances_push) .pure

theorem advances_slotInstruction {opcode0 opcode : UInt8} {slot : Nat}
    (h : (slotForm opcode0 opcode slot).Plain) :
    Advances locals m n (slotInstruction opcode0 opcode slot) :=
  .of_step fun _ e _ _ hrun => runs_slotInstruction.mp hrun ▸ .instruction e _ h

theorem advances_load (t : TypeName) (slot : Nat) : Advances locals m n (load t slot) :=
  (advances_slotInstruction (plain_loadForm _ slot)).bind fun _ => advances_pushType t

theorem advances_store (t : TypeName) (slot : Nat) : Advances true m n (store t slot) :=
  advances_pop.bind fun _ => (advances_slotInstruction (plain_storeForm _ slot)).bind fun _ =>
    (advances_addConstants (adds_verificationType t)).bind fun _ => advances_setLocal

theorem advances_loadConstant (index : UInt16) : Advances locals m n (loadConstant index) :=
  .of_step fun _ e _ _ hrun => runs_loadConstant.mp hrun ▸
    .instruction e _ (plain_constantForm index)

theorem advances_pushInt (value : Int32) : Advances locals m n (pushInt value) := by
  intro ctx e u e' _ hrun
  have hpush : ∀ e : Emitter, Step locals m e (e.pushed .integer) := fun e =>
    .slots e _ _ (Nat.le_max_left _ _)
  rcases runs_pushInt.mp hrun with ⟨i, hi, rfl⟩ | ⟨_, rfl⟩
  · exact .tail (.single (.instruction e i (plain_numberForm hi))) (hpush _)
  · have hpool : Step locals m e { e with pool := (e.pool.add (.integer value)).2 } :=
      .constants e _ (e.pool.grows_add _)
    exact .tail (.tail (.single hpool) (.instruction _ _ (plain_constantForm _))) (hpush _)

theorem advances_findLocal (name : String) : Advances locals m n (findLocal name) := by
  intro ctx e l e' _ hrun
  rw [(runs_findLocal.mp hrun).2]

theorem advances_fieldRef (f : FieldRef) : Advances locals m n (fieldRef f) :=
  advances_addConstants (ConstantPool.adds_member false (.inl ⟨rfl, rfl⟩) _ _ _)

theorem advances_methodRef (method : MethodRef) : Advances locals m n (methodRef method) := by
  unfold methodRef
  split_ifs
  · exact advances_addConstants
      (ConstantPool.adds_member true (.inr (.inr ⟨rfl, rfl⟩)) _ _ _)
  · exact advances_addConstants
      (ConstantPool.adds_member false (.inr (.inl ⟨rfl, rfl⟩)) _ _ _)

theorem advances_loadThis : Advances locals m n loadThis := by
  refine Advances.read.bind fun ctx => .ite (Advances.fail.bind fun _ => ?_) ?_
  all_goals exact (advances_instruction).bind fun _ =>
    Advances.get.bind fun _ => advances_push

theorem advances_checkCount (params : List TypeName) (args : List Expr) :
    Advances locals m n (checkCount params args) :=
  .ite .fail .pure

theorem advances_typeOf (x : Expr) : Advances locals m n (typeOf x) := by
  refine Advances.read.bind fun ctx => ?_
  split
  · exact .pure
  · exact .fail

theorem advances_settle {dest : Destination} (hdest : dest.Within n) :
    Advances locals m n (settle dest) := by
  cases dest with
  | value => exact .pure
  | jumpIfFalse l => exact advances_branch rfl hdest

/-- The emitter with two new labels. -/
def twoLabels (e : Emitter) : Emitter :=
  { e with labels := (e.labels.push {}).push {} }

@[simp] theorem size_twoLabels (e : Emitter) :
    (twoLabels e).labels.size = e.labels.size + 2 := by
  simp [twoLabels]

theorem info_twoLabels (e : Emitter) (l : Label) : (twoLabels e).info l = e.info l := by
  have htwo := info_push { e with labels := e.labels.push {} } l
  rwa [info_push e] at htwo

/-- The states on the way through a condition whose value is wanted. -/
structure ConditionRun (locals : Bool) (n : Nat) (jump : Label → Emit Unit) (ctx : MethodContext)
    (e e₁ e₂ e₃ e₄ e₅ e' : Emitter) : Prop where
  jumps : Runs (jump e.labels.size) ctx (twoLabels e) () e₁
  toJumped : Steps locals (e.labels.size + 2) (twoLabels e) e₁
  one : Runs (pushInt 1) ctx e₁ () e₂
  toOne : Steps locals n e₁ e₂
  goto : Runs (branch Opcode.goto (e.labels.size + 1) 0) ctx e₂ () e₃
  toGoto : Steps locals n e₂ e₃
  whenFalse : Runs (place e.labels.size) ctx e₃ () e₄
  toFalse : Steps locals n e₃ e₄
  zero : Runs (pushInt 0) ctx e₄ () e₅
  toZero : Steps locals n e₄ e₅
  done : Runs (place (e.labels.size + 1)) ctx e₅ () e'
  toDone : Steps locals n e₅ e'

/-- Placing a label leaves the others where they are. -/
theorem placement_of_place {ctx : MethodContext} {e e' : Emitter} {l k : Label}
    (h : Runs (place l) ctx e () e') (hk : l ≠ k) :
    (e'.info k).placement? = (e.info k).placement? := by
  have hplaced : ((placed e l).info k).placement? = (e.info k).placement? := by
    rw [info_placed_of_ne hk]
  rcases runs_place.mp h with ⟨_, rfl⟩ | ⟨_, _, _, _, rfl⟩
  · exact hplaced
  · exact hplaced

theorem exists_conditionRun {jump : Label → Emit Unit} {ctx : MethodContext} {e e' : Emitter}
    {u : Unit} (hjump : ∀ k l, n ≤ k → l < k → Advances locals k k (jump l))
    (hn : n ≤ e.labels.size) (h : Runs (condition jump .value) ctx e u e') :
    ∃ e₁ e₂ e₃ e₄ e₅, ConditionRun locals n jump ctx e e₁ e₂ e₃ e₄ e₅ e' := by
  rw [condition, runs_newLabel_bind, runs_newLabel_bind] at h
  have hpush : (e.labels.push {}).size = e.labels.size + 1 := by simp
  rw [hpush] at h
  obtain ⟨_, e₁, h₁, h⟩ := runs_bind.mp h
  obtain ⟨_, e₂, h₂, h⟩ := runs_bind.mp h
  obtain ⟨_, e₃, h₃, h⟩ := runs_bind.mp h
  obtain ⟨_, e₄, h₄, h⟩ := runs_bind.mp h
  obtain ⟨_, e₅, h₅, h₆⟩ := runs_bind.mp h
  have hto₁ := hjump (e.labels.size + 2) e.labels.size (by omega) (by omega) ctx _ _ e₁
    (Nat.le_of_eq (size_twoLabels e).symm) h₁
  have hto₂ : Steps locals (e.labels.size + 2) e₁ e₂ :=
    advances_pushInt 1 ctx _ _ e₂ (Nat.zero_le _) h₂
  have hsize : e.labels.size + 2 ≤ e₂.labels.size := by
    rw [← size_twoLabels]
    exact (hto₁.trans hto₂).size_labels_le
  have hto₃ : Steps locals (e.labels.size + 2) e₂ e₃ :=
    advances_branch rfl (Nat.lt_succ_self _) ctx _ _ e₃ hsize h₃
  -- neither label is placed on the way to the first place
  have hunplaced : ∀ l : Nat, l < e.labels.size + 2 → e.labels.size ≤ l →
      (e₃.info l).placement? = none := by
    intro l hlt hle
    rw [(hto₁.trans (hto₂.trans hto₃)).placement_of_lt hlt, info_twoLabels, info_of_le hle]
  have hto₄ : Steps locals n e₃ e₄ := steps_place h₄ hn (hunplaced _ (by omega) (by omega))
  have hto₅ : Steps locals (e.labels.size + 2) e₄ e₅ :=
    advances_pushInt 0 ctx _ _ e₅ (Nat.zero_le _) h₅
  have hdone : (e₅.info (e.labels.size + 1)).placement? = none := by
    rw [hto₅.placement_of_lt (by omega), placement_of_place h₄ (Nat.ne_of_lt (Nat.lt_succ_self _)),
      hunplaced _ (by omega) (by omega)]
  have hto₆ : Steps locals n e₅ e' := steps_place h₆ (Nat.le_succ_of_le hn) hdone
  exact ⟨e₁, e₂, e₃, e₄, e₅, h₁, hto₁, h₂, hto₂.lower (by omega), h₃, hto₃.lower (by omega), h₄,
    hto₄, h₅, hto₅.lower (by omega), h₆, hto₆⟩

/-- The way through a condition is a sequence of changes. -/
theorem ConditionRun.steps {jump : Label → Emit Unit} {ctx : MethodContext}
    {e e₁ e₂ e₃ e₄ e₅ e' : Emitter} (h : ConditionRun locals n jump ctx e e₁ e₂ e₃ e₄ e₅ e')
    (hn : n ≤ e.labels.size) : Steps locals n e e' := by
  have hlabels : Steps locals n e (twoLabels e) := .tail (.single (.newLabel e)) (.newLabel _)
  exact hlabels.trans ((h.toJumped.lower (by omega)).trans (h.toOne.trans (h.toGoto.trans
    (h.toFalse.trans (h.toZero.trans h.toDone)))))

theorem advances_condition {jump : Label → Emit Unit} {dest : Destination}
    (hjump : ∀ k l, n ≤ k → l < k → Advances locals k k (jump l)) (hdest : dest.Within n) :
    Advances locals n n (condition jump dest) := by
  cases dest with
  | jumpIfFalse l => exact hjump n l (Nat.le_refl n) hdest
  | value =>
    intro ctx e u e' hn h
    obtain ⟨e₁, e₂, e₃, e₄, e₅, hrun⟩ := exists_conditionRun hjump hn h
    exact hrun.steps hn

theorem advances_nullJump (op : CompareOp) {l : Label} (hl : l < n) :
    Advances locals m n (nullJump op l) := by
  cases op <;> exact advances_branch rfl hl

theorem advances_compareJump (op : CompareOp) (t : TypeName) {l : Label} (hl : l < n) :
    Advances locals m n (compareJump op t l) := by
  cases op
  all_goals
    refine .ite (advances_branch rfl hl) <| .ite (advances_branch rfl hl) <|
      (advances_instruction (plain_simple ?_)).bind fun _ => advances_pop.bind fun _ =>
      advances_push.bind fun _ => advances_branch rfl hl
    split <;> rfl

theorem advances_call (kind : CallKind) (method : MethodRef) :
    Advances locals m n (call kind method) := by
  refine (advances_methodRef method).bind fun index => ?_
  cases kind
  all_goals exact (advances_instruction).bind fun _ => advances_pop.bind fun _ =>
    advances_pushType method.ret

theorem advances_newArray (element : TypeName) : Advances locals m n (newArray element) := by
  unfold newArray
  split
  · exact (advances_instruction).bind fun _ => advances_pop.bind fun _ => advances_pushType _
  · exact (advances_addConstants (ConstantPool.adds_class _)).bind fun _ =>
      (advances_instruction).bind fun _ => advances_pop.bind fun _ => advances_pushType _

theorem advances_newObject (t : TypeName) : Advances locals m n (newObject t) :=
  Advances.get.bind fun _ => (advances_addConstants (ConstantPool.adds_class _)).bind fun _ =>
    (advances_instruction).bind fun _ => advances_push.bind fun _ =>
    (advances_instruction).bind fun _ => advances_push.bind fun _ => .pure

theorem advances_callConstructor (t : TypeName) (params : List TypeName) :
    Advances locals m n (callConstructor t params) :=
  (advances_methodRef _).bind fun _ => (advances_instruction).bind fun _ => advances_pop

/-! ## Expressions -/

theorem expr_compare_null_right (dest : Destination) (op : CompareOp) (lhs : Expr) :
    expr dest (.compare op lhs .null)
      = condition (fun l => do expr .value lhs; nullJump op l) dest := by
  rw [expr]

theorem expr_compare_null_left (dest : Destination) (op : CompareOp) {rhs : Expr}
    (h : rhs ≠ .null) :
    expr dest (.compare op .null rhs)
      = condition (fun l => do expr .value rhs; nullJump op l) dest := by
  rw [expr]
  exact h

theorem expr_compare (dest : Destination) (op : CompareOp) {lhs rhs : Expr} (hl : lhs ≠ .null)
    (hr : rhs ≠ .null) :
    expr dest (.compare op lhs rhs)
      = condition (fun l => do
          let t ← typeOf lhs
          expr .value lhs
          expr .value rhs
          compareJump op t l) dest := by
  rw [expr]
  · exact hr
  · exact hl

/-- The instruction of an operation on two numbers. -/
def arithOpcode : ArithOp → UInt8
  | .add => Opcode.iadd
  | .mul => Opcode.imul

theorem plain_arith (op : ArithOp) : Instruction.Plain ⟨arithOpcode op, .empty⟩ := by
  cases op <;> exact plain_simple rfl

theorem expr_arith (dest : Destination) (op : ArithOp) (lhs rhs : Expr) :
    expr dest (.arith op lhs rhs) = (do
      expr .value lhs
      expr .value rhs
      instruction (arithOpcode op)
      pop 2
      push .integer
      settle dest) := by
  rw [expr.eq_def]
  cases op <;> rfl

mutual

theorem advances_expr : (x : Expr) → (n : Nat) → (dest : Destination) → dest.Within n →
    Advances locals n n (expr dest x)
  | .this, n, dest, hdest => by
    rw [expr]
    exact advances_loadThis.bind fun _ => advances_settle hdest
  | .param index, n, dest, hdest => by
    rw [expr]
    refine Advances.read.bind fun ctx => ?_
    split
    · exact (advances_load _ _).bind fun _ => advances_settle hdest
    · exact Advances.fail.bind fun _ => advances_settle hdest
  | .localVar name _, n, dest, hdest => by
    rw [expr]
    exact (advances_findLocal name).bind fun l => (advances_load _ _).bind fun _ =>
      advances_settle hdest
  | .null, n, dest, hdest => by
    rw [expr]
    exact (advances_instruction).bind fun _ => advances_push.bind fun _ => advances_settle hdest
  | .bool value, n, dest, hdest => by
    cases dest with
    | value =>
      rw [expr]
      exact advances_pushInt _
    | jumpIfFalse l =>
      rw [expr]
      exact .ite .pure (advances_branch rfl hdest)
  | .int value, n, dest, hdest => by
    rw [expr]
    exact (advances_pushInt value).bind fun _ => advances_settle hdest
  | .str value, n, dest, hdest => by
    rw [expr]
    exact (advances_addConstants (ConstantPool.adds_string value)).bind fun _ =>
      (advances_loadConstant _).bind fun _ => (advances_pushType _).bind fun _ =>
      advances_settle hdest
  | .getField target field, n, dest, hdest => by
    rw [expr]
    exact (advances_expr target _ .value trivial).bind fun _ =>
      (advances_fieldRef field).bind fun _ =>
      (advances_instruction).bind fun _ => advances_pop.bind fun _ =>
      (advances_pushType _).bind fun _ => advances_settle hdest
  | .getStatic field, n, dest, hdest => by
    rw [expr]
    exact (advances_fieldRef field).bind fun _ => (advances_instruction).bind fun _ =>
      (advances_pushType _).bind fun _ => advances_settle hdest
  | .invoke kind method target args, n, dest, hdest => by
    rw [expr]
    have hcall : Advances locals n n (do
        checkCount method.params args
        exprs .value args
        call kind method
        settle dest) :=
      (advances_checkCount _ _).bind fun _ => (advances_exprs args _ .value trivial).bind fun _ =>
        (advances_call kind method).bind fun _ => advances_settle hdest
    exact .ite ((advances_receiver method target n).bind fun _ => hcall) hcall
  | .new type params args, n, dest, hdest => by
    rw [expr]
    exact (advances_newObject type).bind fun _ => (advances_checkCount _ _).bind fun _ =>
      (advances_exprs args _ .value trivial).bind fun _ =>
      (advances_callConstructor _ _).bind fun _ => advances_replaceAll.bind fun _ =>
      advances_settle hdest
  | .newArray element items, n, dest, hdest => by
    rw [expr]
    exact (advances_pushInt _).bind fun _ => (advances_newArray element).bind fun _ =>
      (advances_elements element items n 0).bind fun _ => advances_settle hdest
  | .cast type value, n, dest, hdest => by
    rw [expr]
    have hcast : Advances locals n n (do
        expr .value value
        let index ← addConstants (ConstantPool.addClass type.internalName)
        instruction Opcode.checkcast (.short index)
        pop 1
        pushType type
        settle dest) :=
      (advances_expr value _ .value trivial).bind fun _ =>
        (advances_addConstants (ConstantPool.adds_class _)).bind fun _ =>
        (advances_instruction).bind fun _ => advances_pop.bind fun _ =>
        (advances_pushType _).bind fun _ => advances_settle hdest
    exact .ite (Advances.fail.bind fun _ => hcast) hcast
  | .boxed value source, n, dest, hdest => by
    rw [expr]
    split
    · exact Advances.fail.bind fun _ => advances_settle hdest
    · exact (advances_expr value _ .value trivial).bind fun _ => (advances_call _ _).bind fun _ =>
        advances_settle hdest
  | .unboxed value target, n, dest, hdest => by
    rw [expr]
    split
    · exact Advances.fail.bind fun _ => advances_settle hdest
    · exact (advances_expr value _ .value trivial).bind fun _ => (advances_call _ _).bind fun _ =>
        advances_settle hdest
  | .arith op lhs rhs, n, dest, hdest => by
    rw [expr_arith]
    exact (advances_expr lhs _ .value trivial).bind fun _ =>
      (advances_expr rhs _ .value trivial).bind fun _ =>
      (advances_instruction (plain_arith op)).bind fun _ => advances_pop.bind fun _ =>
      advances_push.bind fun _ => advances_settle hdest
  | .and items, n, dest, hdest => by
    rw [expr]
    exact advances_condition (fun k l _ hl => advances_exprs items k (.jumpIfFalse l) hl) hdest
  | .compare op lhs rhs, n, dest, hdest => by
    have hlhs : ∀ {k : Nat}, Advances locals k k (expr .value lhs) :=
      advances_expr lhs _ .value trivial
    have hrhs : ∀ {k : Nat}, Advances locals k k (expr .value rhs) :=
      advances_expr rhs _ .value trivial
    by_cases hr : rhs = .null
    · rw [hr, expr_compare_null_right]
      exact advances_condition (fun _ _ _ hl => hlhs.bind fun _ => advances_nullJump op hl) hdest
    · by_cases hl : lhs = .null
      · rw [hl, expr_compare_null_left dest op hr]
        exact advances_condition (fun _ _ _ hl => hrhs.bind fun _ => advances_nullJump op hl) hdest
      · rw [expr_compare dest op hl hr]
        exact advances_condition (fun _ _ _ hl => (advances_typeOf lhs).bind fun t =>
          hlhs.bind fun _ => hrhs.bind fun _ => advances_compareJump op t hl) hdest

theorem advances_exprs : (xs : List Expr) → (n : Nat) → (dest : Destination) → dest.Within n →
    Advances locals n n (exprs dest xs)
  | [], n, dest, hdest => by
    rw [exprs]
    exact .pure
  | x :: xs, n, dest, hdest => by
    rw [exprs]
    exact (advances_expr x n dest hdest).bind fun _ => advances_exprs xs n dest hdest

theorem advances_receiver (method : MethodRef) : (target : Option Expr) → (n : Nat) →
    Advances locals n n (receiver method target)
  | some x, n => by
    rw [receiver]
    exact advances_expr x _ .value trivial
  | none, n => by
    rw [receiver]
    exact .fail

theorem advances_elements (element : TypeName) : (xs : List Expr) → (n index : Nat) →
    Advances locals n n (elements element index xs)
  | [], n, index => by
    rw [elements]
    exact .pure
  | x :: xs, n, index => by
    rw [elements]
    exact (advances_instruction).bind fun _ => (advances_pushType _).bind fun _ =>
      (advances_pushInt _).bind fun _ => (advances_expr x _ .value trivial).bind fun _ =>
      (advances_instruction (plain_arrayStore element)).bind fun _ => advances_pop.bind fun _ =>
      advances_elements element xs n (index + 1)

end

/-! ## Statements -/

theorem advances_dropValue (t : TypeName) : Advances locals m n (dropValue t) := by
  unfold dropValue
  split
  · exact .pure
  · exact (advances_instruction).bind fun _ => advances_pop
  · exact (advances_instruction).bind fun _ => advances_pop

theorem advances_checkReachable (s : Stmt) : Advances locals m n (checkReachable s) :=
  Advances.get.bind fun _ => .ite .fail .pure

/-- A label that was new before the changes is placed after them. -/
theorem steps_placeNew {before : Bool} {ctx : MethodContext} {e e₁ e' : Emitter}
    (hto : Steps before (e.labels.size + 1) { e with labels := e.labels.push {} } e₁)
    (hrun : Runs (place e.labels.size) ctx e₁ () e') (hm : m ≤ e.labels.size) :
    Steps locals m e₁ e' := by
  refine steps_place hrun hm ?_
  rw [hto.placement_of_lt (Nat.lt_succ_self _), info_push, info_of_le (Nat.le_refl _)]

/-! ### Statements that declare and assign no local variables -/

theorem advances_setField (target : Expr) (field : FieldRef) (value : Expr) (n : Nat) :
    Advances locals n n (stmt (.setField target field value)) := by
  rw [stmt]
  exact (advances_expr target _ .value trivial).bind fun _ =>
    (advances_expr value _ .value trivial).bind fun _ =>
    (advances_fieldRef field).bind fun _ => (advances_instruction).bind fun _ => advances_pop

theorem advances_exprStmt (value : Expr) (n : Nat) : Advances locals n n (stmt (.expr value)) := by
  rw [stmt]
  exact (advances_expr value _ .value trivial).bind fun _ => (advances_typeOf value).bind fun _ =>
    advances_dropValue _

theorem advances_retStmt (value? : Option Expr) (n : Nat) :
    Advances locals n n (stmt (.ret value?)) := by
  cases value? with
  | none =>
    rw [stmt]
    exact Advances.read.bind fun _ => .ite
      (Advances.fail.bind fun _ => advances_exit (plain_simple rfl))
      (advances_exit (plain_simple rfl))
  | some value =>
    rw [stmt]
    have hexit : ∀ ctx : MethodContext, Advances locals n n (do
        expr .value value
        instruction ctx.ret.returnOpcode
        pop ctx.ret.slotSize
        endOfFlow) :=
      fun _ => (advances_expr value _ .value trivial).bind fun _ => advances_exitWith (plain_ret _)
    exact Advances.read.bind fun ctx => .ite (Advances.fail.bind fun _ => hexit ctx) (hexit ctx)

theorem advances_throw (value : Expr) (n : Nat) : Advances locals n n (stmt (.throw value)) := by
  rw [stmt]
  exact (advances_expr value _ .value trivial).bind fun _ => advances_exitWith (plain_simple rfl)

theorem advances_superInit (owner : TypeName) (params : List TypeName) (args : List Expr)
    (n : Nat) : Advances locals n n (stmt (.superInit owner params args)) := by
  rw [stmt]
  exact advances_loadThis.bind fun _ => (advances_checkCount _ _).bind fun _ =>
    (advances_exprs args _ .value trivial).bind fun _ =>
    (advances_callConstructor _ _).bind fun _ => Advances.read.bind fun _ =>
    (advances_addConstants (ConstantPool.adds_class _)).bind fun _ =>
    advances_replaceAll

mutual

theorem advances_stmt : (s : Stmt) → (n : Nat) → Advances true n n (stmt s)
  | .setField target field value, n => advances_setField target field value n
  | .declareLocal name type value, n => by
    rw [stmt]
    exact (advances_expr value _ .value trivial).bind fun _ => advances_declare.bind fun _ =>
      advances_store _ _
  | .setLocal name value, n => by
    rw [stmt]
    exact (advances_findLocal name).bind fun _ =>
      (advances_expr value _ .value trivial).bind fun _ =>
      advances_store _ _
  | .expr value, n => advances_exprStmt value n
  | .ifThen cond body, n => by
    intro ctx e u e' hn h
    rw [stmt, runs_newLabel_bind] at h
    obtain ⟨_, e₁, hcond, h⟩ := runs_bind.mp h
    obtain ⟨_, e₂, hbody, hplace⟩ := runs_bind.mp h
    have hlabel : Steps true n e { e with labels := e.labels.push {} } := .single (.newLabel e)
    have hto₁ : Steps true (e.labels.size + 1) { e with labels := e.labels.push {} } e₁ :=
      advances_expr cond _ (.jumpIfFalse e.labels.size) (Nat.lt_succ_self _) ctx _ _ e₁ (by simp)
        hcond
    have hto₂ := advances_stmts body (e.labels.size + 1) ctx _ _ e₂
      (Nat.le_trans (by simp) hto₁.size_labels_le) hbody
    have hto₂ := hto₁.trans hto₂
    exact hlabel.trans ((hto₂.lower (by omega)).trans (steps_placeNew hto₂ hplace hn))
  | .ret value?, n => advances_retStmt value? n
  | .throw value, n => advances_throw value n
  | .superInit owner params args, n => advances_superInit owner params args n

theorem advances_stmts : (ss : List Stmt) → (n : Nat) → Advances true n n (stmts ss)
  | [], n => by
    rw [stmts]
    exact .pure
  | s :: ss, n => by
    rw [stmts]
    exact (advances_checkReachable s).bind fun _ => (advances_stmt s n).bind fun _ =>
      advances_stmts ss n

end

/-! ## Whole bodies -/

/-- The emitter after the end of a fragment. -/
def fragmentEnd (e : Emitter) : Emitter :=
  if e.reachable then e
  else { e with frames := recordFrame e.frames e.pc { locals := e.entry, stack := [] } }

theorem runs_endMethod {ctx : MethodContext} {e e' : Emitter} (h : Runs endMethod ctx e () e') :
    (e.reachable = false ∧ e' = e) ∨ (e.reachable = true ∧ ctx.ret.isVoid = true ∧
      e' = { e.append ⟨Opcode.returnVoid, .empty⟩ with reachable := false }) := by
  unfold endMethod at h
  rw [runs_get_bind] at h
  by_cases hreachable : e.reachable = true
  · rw [if_pos hreachable, runs_read_bind] at h
    by_cases hvoid : ctx.ret.isVoid = true
    · simp only [hvoid, Bool.not_true, Bool.false_eq_true, if_false, runs_instruction_bind,
        runs_endOfFlow] at h
      exact .inr ⟨hreachable, hvoid, h⟩
    · simp only [hvoid, Bool.not_false, if_true] at h
      obtain ⟨_, _, hfail, _⟩ := runs_bind.mp h
      exact absurd hfail runs_fail
  · rw [if_neg hreachable, runs_pure] at h
    exact .inl ⟨Bool.eq_false_iff.mpr hreachable, h.2⟩

/-- A method is lowered by small changes, at whose end nothing is reached. -/
theorem steps_method {ctx : MethodContext} {body : List Stmt} {e e' : Emitter}
    (h : Runs (do stmts body; endMethod) ctx e () e') :
    Steps true 0 e e' ∧ e'.reachable = false := by
  obtain ⟨_, e₁, hbody, hend⟩ := runs_bind.mp h
  have hsteps := advances_stmts body 0 ctx _ _ e₁ (Nat.zero_le _) hbody
  rcases runs_endMethod hend with ⟨hreachable, rfl⟩ | ⟨_, _, rfl⟩
  · exact ⟨hsteps, hreachable⟩
  · exact ⟨hsteps.tail (.exit e₁ ⟨Opcode.returnVoid, .empty⟩ e₁.slots (plain_simple rfl)), rfl⟩

theorem of_emitMethod {ctx : MethodContext} {body : List Stmt} {pool : ConstantPool}
    {code : EmittedCode} (h : (emitMethod ctx body pool).1 = .ok code) :
    ∃ e, Steps true 0 (start ctx pool) e ∧ e.reachable = false ∧ finish e = .ok code ∧
      (emitMethod ctx body pool).2 = e.pool := by
  obtain ⟨e, hrun, hfinish, hpool⟩ := of_runWith h
  obtain ⟨hsteps, hreachable⟩ := steps_method hrun
  exact ⟨e, hsteps, hreachable, hfinish, hpool⟩

theorem runs_of_emitFragment {ctx : MethodContext} {body : List Stmt} {pool : ConstantPool}
    {code : EmittedCode} (h : (emitFragment ctx body pool).1 = .ok code) :
    ∃ e, Runs (stmts body) ctx (start ctx pool) () e ∧ finish (fragmentEnd e) = .ok code ∧
      (emitFragment ctx body pool).2 = e.pool := by
  obtain ⟨e, hrun, hfinish, hpool⟩ := of_runWith h
  obtain ⟨_, e₁, hbody, hend⟩ := runs_bind.mp hrun
  have he : e = fragmentEnd e₁ := runs_modify.mp hend
  refine ⟨e₁, hbody, he ▸ hfinish, hpool.trans ?_⟩
  rw [he, fragmentEnd]
  split_ifs <;> rfl

/-- A fragment is emitted by small changes. -/
theorem of_emitFragment {ctx : MethodContext} {body : List Stmt} {pool : ConstantPool}
    {code : EmittedCode} (h : (emitFragment ctx body pool).1 = .ok code) :
    ∃ e, Steps true 0 (start ctx pool) e ∧ finish (fragmentEnd e) = .ok code ∧
      (emitFragment ctx body pool).2 = e.pool := by
  obtain ⟨e, hbody, hfinish, hpool⟩ := runs_of_emitFragment h
  exact ⟨e, advances_stmts body 0 ctx _ _ e (Nat.zero_le _) hbody, hfinish, hpool⟩

end Emit

end ClassSynth

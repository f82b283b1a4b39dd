import ClassSynth.Proofs.Emit.Steps
import ClassSynth.Proofs.Kept

/-!
# Constants of failed emission

Emission may fail anywhere, and the constants it added until then stay in the pool. It never takes
one away: the pool grows whether emission fails or not (`grows_emitMethod`, `grows_emitFragment`).
One lemma a step, and one induction over expressions and statements.
-/

namespace ClassSynth

/-- The later emitter knows the constants of the earlier one. -/
def Emitter.Knows (e e' : Emitter) : Prop := e.pool.Grows e'.pool

instance : IsPreorder Emitter Emitter.Knows where
  refl e := ConstantPool.Grows.refl e.pool
  trans _ _ _ := ConstantPool.Grows.trans

/-! ## The start of a method -/

namespace MethodContext

theorem adds_slotsOfTypes : (types : List TypeName) →
    ConstantPool.Adds (slotsOfTypes types) fun _ _ => True
  | [] => .pure fun _ => trivial
  | t :: types => (Emit.adds_verificationType t).bind fun _ =>
      (adds_slotsOfTypes types).bind fun _ => .pure fun _ _ _ => trivial

theorem adds_entryReceiver (ctx : MethodContext) :
    ConstantPool.Adds ctx.entryReceiver fun _ _ => True := by
  unfold entryReceiver
  split_ifs
  · exact .pure fun _ => trivial
  · exact .pure fun _ => trivial
  · exact (ConstantPool.adds_class _).bind fun _ => .pure fun _ _ => trivial

theorem adds_entrySlots (ctx : MethodContext) :
    ConstantPool.Adds ctx.entrySlots fun _ _ => True :=
  ctx.adds_entryReceiver.bind fun _ => (adds_slotsOfTypes ctx.params).bind fun _ =>
    .pure fun _ _ _ => trivial

theorem adds_entryLocals (ctx : MethodContext) :
    ConstantPool.Adds ctx.entryLocals fun _ _ => True :=
  ctx.adds_entrySlots.bind fun _ => .pure fun _ _ => trivial

end MethodContext

/-! ## Steps that may fail -/

namespace Emit

variable {α β : Type}

/-- The step takes no constants away, also when it fails. -/
def Retains (step : Emit α) : Prop := ∀ ctx, Keeps Emitter.Knows (step ctx)

namespace Retains

theorem pure {a : α} : Retains (Pure.pure a) := fun _ => Keeps.pure

theorem bind {step : Emit α} {f : α → Emit β} (hstep : Retains step) (hf : ∀ a, Retains (f a)) :
    Retains (step >>= f) :=
  fun ctx => (hstep ctx).bind fun a => hf a ctx

theorem get : Retains (MonadState.get : Emit Emitter) := fun _ => Keeps.get

theorem read : Retains (MonadReader.read : Emit MethodContext) := fun _ => Keeps.pure

theorem fail {cause : CodeGenError} : Retains (Emit.fail cause : Emit α) := fun _ => Keeps.throw

theorem ite {p : Prop} [Decidable p] {x y : Emit α} (hx : Retains x) (hy : Retains y) :
    Retains (if p then x else y) := by
  split_ifs
  · exact hx
  · exact hy

theorem modifyGet {f : Emitter → α × Emitter} (h : ∀ e, (f e).2.pool = e.pool) :
    Retains (MonadState.modifyGet f) :=
  fun _ e => by
    change e.pool.Grows (f e).2.pool
    rw [h]
    exact ConstantPool.Grows.refl _

theorem modified {f : Emitter → Emitter} (h : ∀ e, (f e).pool = e.pool) : Retains (modify f) :=
  modifyGet (f := fun e => (PUnit.unit, f e)) h

theorem orFail {r : Except CodeGenError α} : Retains (Emit.orFail r) := by
  cases r with
  | ok a => exact pure
  | error cause => exact fail

theorem addConstants {step : ConstantPool.Adding α} {P : ConstantPool → α → Prop}
    (h : ConstantPool.Adds step P) : Retains (Emit.addConstants step) :=
  fun _ e => (h e.pool).1

end Retains

/-! ## Small pieces -/

theorem retains_instruction {opcode : UInt8} {operand : Operand} :
    Retains (instruction opcode operand) :=
  .modified fun _ => rfl

theorem retains_push {t : VerificationType} : Retains (push t) :=
  .modified fun _ => rfl

theorem retains_pushType (t : TypeName) : Retains (pushType t) :=
  .ite ((Retains.addConstants (adds_verificationType t)).bind fun _ => retains_push) .pure

theorem retains_pop {slots : Nat} : Retains (pop slots) := by
  unfold pop
  refine Retains.get.bind fun e => ?_
  split
  · exact .modified fun _ => rfl
  · exact Retains.read.bind fun _ => .fail

theorem retains_setLocal {slot : Nat} {t : VerificationType} : Retains (setLocal slot t) :=
  .modified fun _ => rfl

theorem retains_replaceAll {old new : VerificationType} : Retains (replaceAll old new) :=
  .modified fun _ => rfl

theorem retains_newLabel : Retains newLabel :=
  .modifyGet fun _ => rfl

theorem retains_label {l : Label} : Retains (label l) :=
  Retains.get.bind fun _ => .pure

theorem retains_branch {opcode : UInt8} {l : Label} {pops : Nat} :
    Retains (branch opcode l pops) := by
  unfold branch
  refine retains_pop.bind fun _ => Retains.get.bind fun _ => retains_instruction.bind fun _ =>
    retains_label.bind fun info => Retains.get.bind fun e => ?_
  split
  · exact Retains.orFail.bind fun _ => .modified fun _ => rfl
  · exact Retains.pure.bind fun _ => .modified fun _ => rfl

theorem retains_place {l : Label} : Retains (place l) := by
  unfold place
  refine Retains.get.bind fun e => retains_label.bind fun info => ?_
  extract_lets placement
  refine Retains.bind ?_ fun _ => ?_
  · exact .modified fun _ => rfl
  · split
    · exact .pure
    · exact .ite (Retains.orFail.bind fun _ => .modified fun _ => rfl)
        (Retains.pure.bind fun _ => .modified fun _ => rfl)

theorem retains_slotInstruction {opcode0 opcode : UInt8} {slot : Nat} :
    Retains (slotInstruction opcode0 opcode slot) :=
  .ite retains_instruction retains_instruction

theorem retains_load (t : TypeName) (slot : Nat) : Retains (load t slot) :=
  retains_slotInstruction.bind fun _ => retains_pushType t

theorem retains_store (t : TypeName) (slot : Nat) : Retains (store t slot) :=
  retains_pop.bind fun _ => retains_slotInstruction.bind fun _ =>
    (Retains.addConstants (adds_verificationType t)).bind fun _ => retains_setLocal

theorem retains_loadConstant (index : UInt16) : Retains (loadConstant index) :=
  .ite retains_instruction retains_instruction

theorem retains_pushInt (value : Int32) : Retains (pushInt value) := by
  unfold pushInt
  refine .ite ?_ (.ite ?_ (.ite ?_ ?_))
  · exact retains_instruction.bind fun _ => retains_push
  · exact retains_instruction.bind fun _ => retains_push
  · exact retains_instruction.bind fun _ => retains_push
  · exact (Retains.addConstants (ConstantPool.adds_integer value)).bind fun index =>
      (retains_loadConstant index).bind fun _ => retains_push

theorem retains_findLocal (name : String) : Retains (findLocal name) := by
  unfold findLocal
  refine Retains.get.bind fun e => ?_
  split
  · exact .pure
  · exact .fail

theorem retains_fieldRef (f : FieldRef) : Retains (fieldRef f) :=
  .addConstants (ConstantPool.adds_member false (.inl ⟨rfl, rfl⟩) _ _ _)

theorem retains_methodRef (m : MethodRef) : Retains (methodRef m) := by
  unfold methodRef
  split_ifs
  · exact .addConstants (ConstantPool.adds_member true (.inr (.inr ⟨rfl, rfl⟩)) _ _ _)
  · exact .addConstants (ConstantPool.adds_member false (.inr (.inl ⟨rfl, rfl⟩)) _ _ _)

theorem retains_loadThis : Retains loadThis := by
  refine Retains.read.bind fun ctx => .ite (Retains.fail.bind fun _ => ?_) ?_
  all_goals exact retains_instruction.bind fun _ => Retains.get.bind fun _ => retains_push

theorem retains_checkCount (params : List TypeName) (args : List Expr) :
    Retains (checkCount params args) :=
  .ite .fail .pure

theorem retains_typeOf (x : Expr) : Retains (typeOf x) := by
  refine Retains.read.bind fun ctx => ?_
  split
  · exact .pure
  · exact .fail

theorem retains_settle (dest : Destination) : Retains (settle dest) := by
  cases dest with
  | value => exact .pure
  | jumpIfFalse l => exact retains_branch

theorem retains_condition {jump : Label → Emit Unit} (hjump : ∀ l, Retains (jump l))
    (dest : Destination) : Retains (condition jump dest) := by
  cases dest with
  | jumpIfFalse l => exact hjump l
  | value =>
    exact retains_newLabel.bind fun whenFalse => retains_newLabel.bind fun done =>
      (hjump whenFalse).bind fun _ => (retains_pushInt 1).bind fun _ => retains_branch.bind fun _ =>
      retains_place.bind fun _ => (retains_pushInt 0).bind fun _ => retains_place

theorem retains_nullJump (op : CompareOp) (l : Label) : Retains (nullJump op l) :=
  retains_branch

theorem retains_compareJump (op : CompareOp) (t : TypeName) (l : Label) :
    Retains (compareJump op t l) :=
  .ite retains_branch <| .ite retains_branch <| retains_instruction.bind fun _ =>
    retains_pop.bind fun _ => retains_push.bind fun _ => retains_branch

theorem retains_call (kind : CallKind) (m : MethodRef) : Retains (call kind m) := by
  refine (retains_methodRef m).bind fun index => ?_
  cases kind
  all_goals exact retains_instruction.bind fun _ => retains_pop.bind fun _ => retains_pushType m.ret

theorem retains_newArray (element : TypeName) : Retains (newArray element) := by
  unfold newArray
  split
  · exact retains_instruction.bind fun _ => retains_pop.bind fun _ => retains_pushType _
  · exact (Retains.addConstants (ConstantPool.adds_class _)).bind fun _ =>
      retains_instruction.bind fun _ => retains_pop.bind fun _ => retains_pushType _

theorem retains_newObject (t : TypeName) : Retains (newObject t) :=
  Retains.get.bind fun _ => (Retains.addConstants (ConstantPool.adds_class _)).bind fun _ =>
    retains_instruction.bind fun _ => retains_push.bind fun _ =>
    retains_instruction.bind fun _ => retains_push.bind fun _ => .pure

theorem retains_callConstructor (t : TypeName) (params : List TypeName) :
    Retains (callConstructor t params) :=
  (retains_methodRef _).bind fun _ => retains_instruction.bind fun _ => retains_pop

/-! ## Expressions -/

mutual

theorem retains_expr : (x : Expr) → (dest : Destination) → Retains (expr dest x)
  | .this, dest => by
    rw [expr]
    exact retains_loadThis.bind fun _ => retains_settle dest
  | .param index, dest => by
    rw [expr]
    refine Retains.read.bind fun ctx => ?_
    split
    · exact (retains_load _ _).bind fun _ => retains_settle dest
    · exact Retains.fail.bind fun _ => retains_settle dest
  | .localVar name _, dest => by
    rw [expr]
    exact (retains_findLocal name).bind fun l => (retains_load _ _).bind fun _ =>
      retains_settle dest
  | .null, dest => by
    rw [expr]
    exact retains_instruction.bind fun _ => retains_push.bind fun _ => retains_settle dest
  | .bool value, dest => by
    cases dest with
    | value =>
      rw [expr]
      exact retains_pushInt _
    | jumpIfFalse l =>
      rw [expr]
      exact .ite .pure retains_branch
  | .int value, dest => by
    rw [expr]
    exact (retains_pushInt value).bind fun _ => retains_settle dest
  | .str value, dest => by
    rw [expr]
    exact (Retains.addConstants (ConstantPool.adds_string value)).bind fun _ =>
      (retains_loadConstant _).bind fun _ => (retains_pushType _).bind fun _ => retains_settle dest
  | .getField target field, dest => by
    rw [expr]
    exact (retains_expr target .value).bind fun _ => (retains_fieldRef field).bind fun _ =>
      retains_instruction.bind fun _ => retains_pop.bind fun _ =>
      (retains_pushType _).bind fun _ => retains_settle dest
  | .getStatic field, dest => by
    rw [expr]
    exact (retains_fieldRef field).bind fun _ => retains_instruction.bind fun _ =>
      (retains_pushType _).bind fun _ => retains_settle dest
  | .invoke kind method target args, dest => by
    rw [expr]
    have hcall : Retains (do
        checkCount method.params args
        exprs .value args
        call kind method
        settle dest) :=
      (retains_checkCount _ _).bind fun _ => (retains_exprs args .value).bind fun _ =>
        (retains_call kind method).bind fun _ => retains_settle dest
    exact .ite ((retains_receiver method target).bind fun _ => hcall) hcall
  | .new type params args, dest => by
    rw [expr]
    exact (retains_newObject type).bind fun _ => (retains_checkCount _ _).bind fun _ =>
      (retains_exprs args .value).bind fun _ => (retains_callConstructor _ _).bind fun _ =>
      retains_replaceAll.bind fun _ => retains_settle dest
  | .newArray element items, dest => by
    rw [expr]
    exact (retains_pushInt _).bind fun _ => (retains_newArray element).bind fun _ =>
      (retains_elements element items 0).bind fun _ => retains_settle dest
  | .cast type value, dest => by
    rw [expr]
    have hcast : Retains (do
        expr .value value
        let index ← addConstants (ConstantPool.addClass type.internalName)
        instruction Opcode.checkcast (.short index)
        pop 1
        pushType type
        settle dest) :=
      (retains_expr value .value).bind fun _ =>
        (Retains.addConstants (ConstantPool.adds_class _)).bind fun _ =>
        retains_instruction.bind fun _ => retains_pop.bind fun _ =>
        (retains_pushType _).bind fun _ => retains_settle dest
    exact .ite (Retains.fail.bind fun _ => hcast) hcast
  | .boxed value source, dest => by
    rw [expr]
    split
    · exact Retains.fail.bind fun _ => retains_settle dest
    · exact (retains_expr value .value).bind fun _ => (retains_call _ _).bind fun _ =>
        retains_settle dest
  | .unboxed value target, dest => by
    rw [expr]
    split
    · exact Retains.fail.bind fun _ => retains_settle dest
    · exact (retains_expr value .value).bind fun _ => (retains_call _ _).bind fun _ =>
        retains_settle dest
  | .arith op lhs rhs, dest => by
    rw [expr_arith]
    exact (retains_expr lhs .value).bind fun _ => (retains_expr rhs .value).bind fun _ =>
      retains_instruction.bind fun _ => retains_pop.bind fun _ => retains_push.bind fun _ =>
      retains_settle dest
  | .and items, dest => by
    rw [expr]
    exact retains_condition (fun l => retains_exprs items (.jumpIfFalse l)) dest
  | .compare op lhs rhs, dest => by
    have hlhs := retains_expr lhs .value
    have hrhs := retains_expr rhs .value
    by_cases hr : rhs = .null
    · rw [hr, expr_compare_null_right]
      exact retains_condition (fun l => hlhs.bind fun _ => retains_nullJump op l) dest
    · by_cases hl : lhs = .null
      · rw [hl, expr_compare_null_left dest op hr]
        exact retains_condition (fun l => hrhs.bind fun _ => retains_nullJump op l) dest
      · rw [expr_compare dest op hl hr]
        exact retains_condition (fun l => (retains_typeOf lhs).bind fun t => hlhs.bind fun _ =>
          hrhs.bind fun _ => retains_compareJump op t l) dest

theorem retains_exprs : (xs : List Expr) → (dest : Destination) → Retains (exprs dest xs)
  | [], dest => by
    rw [exprs]
    exact .pure
  | x :: xs, dest => by
    rw [exprs]
    exact (retains_expr x dest).bind fun _ => retains_exprs xs dest

theorem retains_receiver (method : MethodRef) : (target : Option Expr) →
    Retains (receiver method target)
  | some x => by
    rw [receiver]
    exact retains_expr x .value
  | none => by
    rw [receiver]
    exact .fail

theorem retains_elements (element : TypeName) : (xs : List Expr) → (index : Nat) →
    Retains (elements element index xs)
  | [], index => by
    rw [elements]
    exact .pure
  | x :: xs, index => by
    rw [elements]
    exact retains_instruction.bind fun _ => (retains_pushType _).bind fun _ =>
      (retains_pushInt _).bind fun _ => (retains_expr x .value).bind fun _ =>
      retains_instruction.bind fun _ => retains_pop.bind fun _ =>
      retains_elements element xs (index + 1)

end

/-! ## Statements -/

theorem retains_dropValue (t : TypeName) : Retains (dropValue t) := by
  unfold dropValue
  split
  · exact .pure
  · exact retains_instruction.bind fun _ => retains_pop
  · exact retains_instruction.bind fun _ => retains_pop

theorem retains_endOfFlow : Retains endOfFlow :=
  .modified fun _ => rfl

theorem retains_declare (name : String) (t : TypeName) : Retains (declare name t) :=
  .modifyGet fun _ => rfl

theorem retains_checkReachable (s : Stmt) : Retains (checkReachable s) :=
  Retains.get.bind fun _ => .ite .fail .pure

mutual

theorem retains_stmt : (s : Stmt) → Retains (stmt s)
  | .setField target field value => by
    rw [stmt]
    exact (retains_expr target .value).bind fun _ => (retains_expr value .value).bind fun _ =>
      (retains_fieldRef field).bind fun _ => retains_instruction.bind fun _ => retains_pop
  | .declareLocal name type value => by
    rw [stmt]
    exact (retains_expr value .value).bind fun _ => (retains_declare name type).bind fun _ =>
      retains_store _ _
  | .setLocal name value => by
    rw [stmt]
    exact (retains_findLocal name).bind fun _ => (retains_expr value .value).bind fun _ =>
      retains_store _ _
  | .expr value => by
    rw [stmt]
    exact (retains_expr value .value).bind fun _ => (retains_typeOf value).bind fun _ =>
      retains_dropValue _
  | .ifThen cond body => by
    rw [stmt]
    exact retains_newLabel.bind fun skip => (retains_expr cond (.jumpIfFalse skip)).bind fun _ =>
      (retains_stmts body).bind fun _ => retains_place
  | .ret none => by
    rw [stmt]
    have hexit : Retains (do instruction Opcode.returnVoid; endOfFlow) :=
      retains_instruction.bind fun _ => retains_endOfFlow
    exact Retains.read.bind fun _ => .ite (Retains.fail.bind fun _ => hexit) hexit
  | .ret (some value) => by
    rw [stmt]
    have hexit : ∀ ctx : MethodContext, Retains (do
        expr .value value
        instruction ctx.ret.returnOpcode
        pop ctx.ret.slotSize
        endOfFlow) :=
      fun _ => (retains_expr value .value).bind fun _ => retains_instruction.bind fun _ =>
        retains_pop.bind fun _ => retains_endOfFlow
    exact Retains.read.bind fun ctx => .ite (Retains.fail.bind fun _ => hexit ctx) (hexit ctx)
  | .throw value => by
    rw [stmt]
    exact (retains_expr value .value).bind fun _ => retains_instruction.bind fun _ =>
      retains_pop.bind fun _ => retains_endOfFlow
  | .superInit owner params args => by
    rw [stmt]
    exact retains_loadThis.bind fun _ => (retains_checkCount _ _).bind fun _ =>
      (retains_exprs args .value).bind fun _ => (retains_callConstructor _ _).bind fun _ =>
      Retains.read.bind fun _ => (Retains.addConstants (ConstantPool.adds_class _)).bind fun _ =>
      retains_replaceAll

theorem retains_stmts : (ss : List Stmt) → Retains (stmts ss)
  | [] => by
    rw [stmts]
    exact .pure
  | s :: ss => by
    rw [stmts]
    exact (retains_checkReachable s).bind fun _ => (retains_stmt s).bind fun _ => retains_stmts ss

end

/-! ## Whole bodies -/

theorem retains_endMethod : Retains endMethod := by
  have hexit : Retains (do instruction Opcode.returnVoid; endOfFlow) :=
    retains_instruction.bind fun _ => retains_endOfFlow
  exact Retains.get.bind fun _ => .ite
    (Retains.read.bind fun _ => .ite (Retains.fail.bind fun _ => hexit) hexit) .pure

theorem retains_endFragment : Retains endFragment := by
  refine .modified fun e => ?_
  split_ifs <;> rfl

/-- The constants a method starts with are added to those of the pool. -/
theorem grows_runWith {step : Emit Unit} (h : Retains step) (ctx : MethodContext)
    (pool : ConstantPool) : pool.Grows (runWith step ctx pool).2 := by
  have hstart : pool.Grows (start ctx pool).pool := (ctx.adds_entrySlots pool).1
  have hrun : (start ctx pool).pool.Grows ((step ctx).run.run (start ctx pool)).2.pool :=
    h ctx (start ctx pool)
  have hpool : (runWith step ctx pool).2 = ((step ctx).run.run (start ctx pool)).2.pool := by
    unfold runWith
    split
    next result e hresult =>
      rw [hresult]
      cases result <;> rfl
  rw [hpool]
  exact hstart.trans hrun

end Emit

/-- Emission of a method keeps all constants, whether it fails or not. -/
theorem grows_emitMethod (ctx : MethodContext) (body : List Stmt) (pool : ConstantPool) :
    pool.Grows (emitMethod ctx body pool).2 :=
  Emit.grows_runWith ((Emit.retains_stmts body).bind fun _ => Emit.retains_endMethod) ctx pool

/-- Emission of a fragment keeps all constants, whether it fails or not. -/
theorem grows_emitFragment (ctx : MethodContext) (body : List Stmt) (pool : ConstantPool) :
    pool.Grows (emitFragment ctx body pool).2 :=
  Emit.grows_runWith ((Emit.retains_stmts body).bind fun _ => Emit.retains_endFragment) ctx pool

end ClassSynth

import ClassSynth.Proofs.Emit.Onward

/-!
# Code behind exits

The emitter refuses statements that are not reached, and records a frame where a label makes code
reached again, so a body whose conditions hide no dead code has a frame behind every exit
(`frames_behind_exits`). What a condition may hide is seen from its outcome: behind a constant
`false` the rest of a conjunction is dead, and a conjunction of constants leaves one of the two ways
to its value dead.
-/

namespace ClassSynth

/-! ## Conditions -/

/-- What is known of a condition before it runs. -/
inductive Outcome
  /-- It holds; no code tests it. -/
  | holds
  /-- Its code jumps or goes on. -/
  | tested
  /-- Its code ends with a jump. -/
  | fails
  deriving DecidableEq, Repr

namespace Outcome

/-- The outcome of a conjunction, unless there is code behind the jump of a condition that fails. -/
def andThen? : Outcome → Outcome → Option Outcome
  | holds, o => some o
  | o, holds => some o
  | tested, o => some o
  | fails, _ => none

/-- Does control reach the code behind the condition? -/
def goesOn : Outcome → Bool
  | fails => false
  | _ => true

/-- The outcome of an expression that is tested for zero, if the code of its operands is reached. -/
def testedIf (reached : Bool) : Option Outcome :=
  if reached then some tested else none

@[simp] theorem testedIf_eq_some {reached : Bool} {o : Outcome} :
    testedIf reached = some o ↔ reached = true ∧ o = tested := by
  cases reached <;> simp [testedIf, eq_comm]

end Outcome

namespace Expr

/-- Is the code for the value reached, given the outcome of the expression as a condition? The value
of a constant is pushed; other conditions leave zero or one in two ways. -/
def reachedWith (outcome? : Option Outcome) : Expr → Bool
  | .bool _ => true
  | _ => outcome? == some .tested

mutual

/-- The outcome of the expression as a condition, unless some of its code is not reached. -/
def outcome? : Expr → Option Outcome
  | .bool value => some (if value then .holds else .fails)
  | .and items => outcomeAll? items
  | .this | .param _ | .localVar _ _ | .null | .int _ | .str _ | .getStatic _ => some .tested
  | .getField x _ | .cast _ x | .boxed x _ | .unboxed x _ =>
    Outcome.testedIf (x.reachedWith x.outcome?)
  | .invoke kind _ target args =>
    Outcome.testedIf ((kind == .static || receiverReached target) && allReached args)
  | .new _ _ args => Outcome.testedIf (allReached args)
  | .newArray _ items => Outcome.testedIf (allReached items)
  | .compare _ lhs rhs | .arith _ lhs rhs =>
    Outcome.testedIf (lhs.reachedWith lhs.outcome? && rhs.reachedWith rhs.outcome?)

/-- The outcome of a conjunction. -/
def outcomeAll? : List Expr → Option Outcome
  | [] => some .holds
  | x :: xs => do (← x.outcome?).andThen? (← outcomeAll? xs)

/-- Is the code for the values of the expressions reached? -/
def allReached : List Expr → Bool
  | [] => true
  | x :: xs => x.reachedWith x.outcome? && allReached xs

/-- Is the code for the receiver of a call reached? -/
def receiverReached : Option Expr → Bool
  | none => true
  | some x => x.reachedWith x.outcome?

end

/-- Is all code for the value of the expression reached? -/
def reached (x : Expr) : Bool := x.reachedWith x.outcome?

end Expr

namespace Stmt

mutual

/-- Is all code of the expressions in the statement reached, if the statement is? -/
def reached : Stmt → Bool
  | .setField target _ value => target.reached && value.reached
  | .declareLocal _ _ value | .setLocal _ value | .expr value | .throw value => value.reached
  | .ret value? => value?.all Expr.reached
  | .ifThen cond body => cond.outcome?.isSome && reachedAll body
  | .superInit _ _ args => Expr.allReached args

def reachedAll : List Stmt → Bool
  | [] => true
  | s :: rest => s.reached && reachedAll rest

end

end Stmt

namespace Emit

open Emitter

variable {α β : Type} {ctx : MethodContext} {e e' : Emitter}

/-! ## Jumps -/

/-- Where control reaches a condition, it leaves the frames complete, and where the condition goes
on control does; a tested condition jumps to its label. -/
def Branches (o : Outcome) (x : Emit Unit) (l : Label) : Prop :=
  ∀ ctx e e', e.Sealed → e.reachable = true → l < e.labels.size → Runs x ctx e () e' →
    e'.Sealed ∧ e'.reachable = o.goesOn ∧ (o ≠ .holds → (e'.info l).state? ≠ none)

theorem branches_branch {opcode : UInt8} {l : Label} {pops : Nat} {o : Outcome}
    (hexit : Instruction.isUnconditionalExit ⟨opcode, .branch l⟩ = true → opcode = Opcode.goto)
    (ho : (opcode != Opcode.goto) = o.goesOn) : Branches o (branch opcode l pops) l := by
  intro ctx e e' he hreached hl hrun
  obtain ⟨hsealed, hreachable⟩ := sealed_branch he hreached hexit hrun
  refine ⟨hsealed, hreachable.trans ho, fun _ => ?_⟩
  obtain ⟨s, joint, _, _, rfl⟩ := runs_branch.mp hrun
  rw [state_jumpTo { e with slots := s } opcode joint hl]
  exact Option.some_ne_none _

theorem branches_tested {opcode : UInt8} {l : Label} {pops : Nat}
    (hexit : Instruction.isUnconditionalExit ⟨opcode, .branch l⟩ = false := by rfl)
    (hgoto : opcode ≠ Opcode.goto := by decide) : Branches .tested (branch opcode l pops) l :=
  branches_branch (fun hi => absurd hi (by rw [hexit]; decide)) (bne_iff_ne.mpr hgoto)

theorem branches_pure (l : Label) : Branches .holds (pure ()) l := by
  intro ctx e e' he hreached _ hrun
  rw [(runs_pure.mp hrun).2]
  exact ⟨he, hreached, fun h => absurd rfl h⟩

/-- Steps that go on may stand before a condition. -/
theorem Branches.after {o : Outcome} {x : Emit α} {f : α → Emit Unit} {l : Label}
    (hx : GoesOn x) (hf : ∀ a, Branches o (f a) l) : Branches o (x >>= f) l := by
  intro ctx e e' he hreached hl hrun
  obtain ⟨a, e₁, ha, hb⟩ := runs_bind.mp hrun
  have h₁ := hx ctx e a e₁ he hreached ha
  exact hf a ctx e₁ e' h₁.isSealed h₁.reached (Nat.lt_of_lt_of_le hl h₁.labels) hb

/-- The comparison of two values, as a condition. -/
theorem branches_compareJump (op : CompareOp) (t : TypeName) (l : Label) :
    Branches .tested (compareJump op t l) l := by
  cases op
  all_goals
    unfold compareJump
    simp only [reduceIte, reduceCtorEq]
    split_ifs
    · exact branches_tested
    · exact branches_tested
    · refine .after (goesOn_instruction ?_) fun _ => .after goesOn_pop fun _ =>
        .after goesOn_push fun _ => branches_tested
      split <;> rfl

theorem branches_nullJump (op : CompareOp) (l : Label) :
    Branches .tested (nullJump op l) l := by
  cases op <;> exact branches_tested

/-- A tested condition whose value is wanted: both ways to the value are reached. -/
theorem goesOn_condition {jump : Label → Emit Unit}
    (hjump : ∀ k l, l < k → Advances true k k (jump l))
    (h : ∀ l, Branches .tested (jump l) l) : GoesOn (condition jump .value) := by
  intro ctx e u e' he hreached hrun
  obtain ⟨e₁, e₂, e₃, e₄, e₅, hway⟩ :=
    exists_conditionRun (n := 0) (fun k l _ hl => hjump k l hl) (Nat.zero_le _) hrun
  have hlt : e.labels.size < (twoLabels e).labels.size := by
    rw [size_twoLabels]
    omega
  obtain ⟨he₁, hreached₁, hstate⟩ := h e.labels.size ctx (twoLabels e) e₁ ⟨he.pc, he.frames⟩
    hreached hlt hway.jumps
  have h₂ := goesOn_pushInt 1 ctx e₁ _ e₂ he₁ hreached₁ hway.one
  obtain ⟨he₃, _⟩ := sealed_branch h₂.isSealed h₂.reached (fun _ => rfl) hway.goto
  -- the place behind the jump is dead, but the condition jumps there
  have hjumped : (e₃.info e.labels.size).state? ≠ none :=
    (hway.toOne.trans hway.toGoto).state (hstate (by decide))
  obtain ⟨he₄, hreached₄⟩ := sealed_place he₃ hway.whenFalse
  have h₅ := goesOn_pushInt 0 ctx e₄ _ e₅ he₄ (hreached₄ (.inl hjumped)) hway.zero
  have h₆ := goesOn_place ctx e₅ _ e' h₅.isSealed h₅.reached hway.done
  exact ⟨h₆.isSealed, h₆.reached, (hway.steps (Nat.zero_le _)).size_labels_le⟩

/-! ## Expressions -/

section

variable {l : Label}

mutual

/-- A condition that holds leaves no code. -/
theorem same_of_holds : (x : Expr) → x.outcome? = some .holds → {e e' : Emitter} →
    Runs (expr (.jumpIfFalse l) x) ctx e () e' → e' = e
  | .bool value, ho, e, e', h => by
    cases value with
    | true =>
      rw [expr] at h
      exact (runs_pure.mp h).2
    | false => simp [Expr.outcome?] at ho
  | .and items, ho, e, e', h => by
    rw [Expr.outcome?] at ho
    rw [expr] at h
    exact same_of_holdsAll items ho h
  | .this, ho, _, _, _ | .param _, ho, _, _, _ | .localVar _ _, ho, _, _, _ | .null, ho, _, _, _
  | .int _, ho, _, _, _ | .str _, ho, _, _, _ | .getField _ _, ho, _, _, _
  | .getStatic _, ho, _, _, _ | .invoke _ _ _ _, ho, _, _, _ | .new _ _ _, ho, _, _, _
  | .newArray _ _, ho, _, _, _ | .cast _ _, ho, _, _, _ | .boxed _ _, ho, _, _, _
  | .unboxed _ _, ho, _, _, _ | .arith _ _ _, ho, _, _, _ | .compare _ _ _, ho, _, _, _ => by
    simp [Expr.outcome?] at ho

theorem same_of_holdsAll : (xs : List Expr) → Expr.outcomeAll? xs = some .holds →
    {e e' : Emitter} → Runs (exprs (.jumpIfFalse l) xs) ctx e () e' → e' = e
  | [], _, e, e', h => by
    rw [exprs] at h
    exact (runs_pure.mp h).2
  | x :: xs, ho, e, e', h => by
    rw [exprs] at h
    obtain ⟨_, e₁, hx, hxs⟩ := runs_bind.mp h
    rw [Expr.outcomeAll?] at ho
    obtain ⟨o, hox, ho⟩ := Option.bind_eq_some_iff.mp ho
    obtain ⟨os, hoxs, ho⟩ := Option.bind_eq_some_iff.mp ho
    obtain ⟨rfl, rfl⟩ : o = .holds ∧ os = .holds := by
      cases o <;> cases os <;> simp [Outcome.andThen?] at ho ⊢
    rw [same_of_holdsAll xs hoxs hxs, same_of_holds x hox hx]

end

end

/-- Where control reaches the step, it leaves its value on the stack or jumps to a label, with the
outcome `o`. A value in two ways is that of a tested condition. -/
def Delivers (o : Outcome) (x : Emit Unit) : Destination → Prop
  | .value => o = .tested → GoesOn x
  | .jumpIfFalse l => Branches o x l

theorem Delivers.after {o : Outcome} {x : Emit α} {f : α → Emit Unit} {dest : Destination}
    (hx : GoesOn x) (hf : ∀ a, Delivers o (f a) dest) : Delivers o (x >>= f) dest := by
  cases dest with
  | value => exact fun ho => hx.bind fun a => hf a ho
  | jumpIfFalse l => exact Branches.after hx hf

theorem delivers_settle (dest : Destination) : Delivers .tested (settle dest) dest := by
  cases dest with
  | value => exact fun _ => GoesOn.pure
  | jumpIfFalse l => exact branches_tested

theorem delivers_condition {o : Outcome} {jump : Label → Emit Unit} {dest : Destination}
    (hjump : ∀ k l, l < k → Advances true k k (jump l)) (h : ∀ l, Branches o (jump l) l) :
    Delivers o (condition jump dest) dest := by
  cases dest with
  | value =>
    rintro rfl
    exact goesOn_condition hjump h
  | jumpIfFalse l => exact h l

/-- The value of a constant is pushed. -/
theorem goesOn_reached {x : Expr} (h : x.reachedWith x.outcome? = true)
    (hx : ∀ {o}, x.outcome? = some o → Delivers o (expr .value x) .value) :
    GoesOn (expr .value x) := by
  by_cases hbool : ∃ value, x = .bool value
  · obtain ⟨value, rfl⟩ := hbool
    rw [expr]
    exact goesOn_pushInt _
  · have houtcome : x.outcome? = some .tested := by
      cases x <;> first | exact beq_iff_eq.mp h | exact absurd ⟨_, rfl⟩ hbool
    exact hx houtcome rfl

/-- Conditions one after the other, with one label. -/
theorem Branches.andThen {o₁ o₂ o : Outcome} {l : Label} {x y : Emit Unit}
    (hx : Branches o₁ x l) (hsteps : Advances true (l + 1) (l + 1) x) (hy : Branches o₂ y l)
    (hholds : o₂ = .holds → ∀ {ctx e e'}, Runs y ctx e () e' → e' = e)
    (ho : o₁.andThen? o₂ = some o) : Branches o (do x; y) l := by
  intro ctx e e' he hreached hl hrun
  obtain ⟨_, e₁, h₁, h₂⟩ := runs_bind.mp hrun
  obtain ⟨he₁, hreached₁, hstate₁⟩ := hx ctx e e₁ he hreached hl h₁
  by_cases hlast : o₂ = .holds
  · rw [hholds hlast h₂]
    obtain rfl : o₁ = o := by
      subst hlast
      cases o₁ <;> exact Option.some.inj ho
    exact ⟨he₁, hreached₁, hstate₁⟩
  · have hsize := (hsteps ctx e () e₁ hl h₁).size_labels_le
    have hgoesOn : o₁.goesOn = true ∧ o₂ = o := by
      cases o₁ <;> cases o₂ <;> simp_all [Outcome.andThen?, Outcome.goesOn]
    obtain ⟨he₂, hreached₂, hstate₂⟩ :=
      hy ctx e₁ e' he₁ (hreached₁.trans hgoesOn.1) (Nat.lt_of_lt_of_le hl hsize) h₂
    exact ⟨he₂, hgoesOn.2 ▸ hreached₂, fun _ => hstate₂ hlast⟩

mutual

/-- The code of an expression delivers its value. -/
theorem delivers_expr : (x : Expr) → (dest : Destination) → {o : Outcome} → x.outcome? = some o →
    Delivers o (expr dest x) dest
  | .this, dest, o, h => by
    obtain rfl := Option.some.inj h
    rw [expr]
    exact .after goesOn_loadThis fun _ => delivers_settle dest
  | .param index, dest, o, h => by
    obtain rfl := Option.some.inj h
    rw [expr]
    refine .after GoesOn.read fun ctx => ?_
    split
    · exact .after (goesOn_load _ _) fun _ => delivers_settle dest
    · exact .after GoesOn.fail fun _ => delivers_settle dest
  | .localVar name _, dest, o, h => by
    obtain rfl := Option.some.inj h
    rw [expr]
    exact .after (goesOn_findLocal name) fun _ => .after (goesOn_load _ _) fun _ =>
      delivers_settle dest
  | .null, dest, o, h => by
    obtain rfl := Option.some.inj h
    rw [expr]
    exact .after goesOn_instruction fun _ => .after goesOn_push fun _ => delivers_settle dest
  | .bool value, dest, o, h => by
    obtain rfl := Option.some.inj h
    cases dest with
    | value =>
      intro ho
      cases value <;> cases ho
    | jumpIfFalse l =>
      rw [expr]
      cases value with
      | true => exact branches_pure l
      | false => exact branches_branch (fun _ => rfl) rfl
  | .int value, dest, o, h => by
    obtain rfl := Option.some.inj h
    rw [expr]
    exact .after (goesOn_pushInt value) fun _ => delivers_settle dest
  | .str value, dest, o, h => by
    obtain rfl := Option.some.inj h
    rw [expr]
    exact .after goesOn_addConstants fun _ => .after (goesOn_loadConstant _) fun _ =>
      .after (goesOn_pushType _) fun _ => delivers_settle dest
  | .getField target field, dest, o, h => by
    obtain ⟨hsub, rfl⟩ := Outcome.testedIf_eq_some.mp h
    rw [expr]
    exact .after (goesOn_reached hsub (delivers_expr target .value)) fun _ =>
      .after goesOn_addConstants fun _ =>
      .after goesOn_instruction fun _ => .after goesOn_pop fun _ =>
      .after (goesOn_pushType _) fun _ => delivers_settle dest
  | .getStatic field, dest, o, h => by
    obtain rfl := Option.some.inj h
    rw [expr]
    exact .after goesOn_addConstants fun _ => .after goesOn_instruction fun _ =>
      .after (goesOn_pushType _) fun _ => delivers_settle dest
  | .invoke kind method target args, dest, o, h => by
    obtain ⟨hsub, rfl⟩ := Outcome.testedIf_eq_some.mp h
    rw [Bool.and_eq_true, Bool.or_eq_true, beq_iff_eq] at hsub
    obtain ⟨htarget, hargs⟩ := hsub
    rw [expr]
    have hcall : Delivers .tested (do
        checkCount method.params args
        exprs .value args
        call kind method
        settle dest) dest :=
      .after (goesOn_checkCount _ _) fun _ => .after (goesOn_values args hargs) fun _ =>
        .after (goesOn_call kind method) fun _ => delivers_settle dest
    split_ifs with hkind
    · exact .after (goesOn_receiver method target (htarget.resolve_left hkind)) fun _ => hcall
    · exact hcall
  | .new type params args, dest, o, h => by
    obtain ⟨hsub, rfl⟩ := Outcome.testedIf_eq_some.mp h
    rw [expr]
    exact .after (goesOn_newObject type) fun _ => .after (goesOn_checkCount _ _) fun _ =>
      .after (goesOn_values args hsub) fun _ => .after (goesOn_callConstructor _ _) fun _ =>
      .after goesOn_replaceAll fun _ => delivers_settle dest
  | .newArray element items, dest, o, h => by
    obtain ⟨hsub, rfl⟩ := Outcome.testedIf_eq_some.mp h
    rw [expr]
    exact .after (goesOn_pushInt _) fun _ => .after (goesOn_newArray element) fun _ =>
      .after (goesOn_elements element items 0 hsub) fun _ => delivers_settle dest
  | .cast type value, dest, o, h => by
    obtain ⟨hsub, rfl⟩ := Outcome.testedIf_eq_some.mp h
    rw [expr]
    have hcast : Delivers .tested (do
        expr .value value
        let index ← addConstants (ConstantPool.addClass type.internalName)
        instruction Opcode.checkcast (.short index)
        pop 1
        pushType type
        settle dest) dest :=
      .after (goesOn_reached hsub (delivers_expr value .value)) fun _ =>
        .after goesOn_addConstants fun _ => .after goesOn_instruction fun _ =>
        .after goesOn_pop fun _ => .after (goesOn_pushType _) fun _ => delivers_settle dest
    split_ifs
    · exact .after GoesOn.fail fun _ => hcast
    · exact hcast
  | .boxed value source, dest, o, h => by
    obtain ⟨hsub, rfl⟩ := Outcome.testedIf_eq_some.mp h
    rw [expr]
    split
    · exact .after GoesOn.fail fun _ => delivers_settle dest
    · exact .after (goesOn_reached hsub (delivers_expr value .value)) fun _ =>
        .after (goesOn_call _ _) fun _ => delivers_settle dest
  | .unboxed value target, dest, o, h => by
    obtain ⟨hsub, rfl⟩ := Outcome.testedIf_eq_some.mp h
    rw [expr]
    split
    · exact .after GoesOn.fail fun _ => delivers_settle dest
    · exact .after (goesOn_reached hsub (delivers_expr value .value)) fun _ =>
        .after (goesOn_call _ _) fun _ => delivers_settle dest
  | .arith op lhs rhs, dest, o, h => by
    obtain ⟨hsub, rfl⟩ := Outcome.testedIf_eq_some.mp h
    rw [Bool.and_eq_true] at hsub
    rw [expr_arith]
    exact .after (goesOn_reached hsub.1 (delivers_expr lhs .value)) fun _ =>
      .after (goesOn_reached hsub.2 (delivers_expr rhs .value)) fun _ =>
      .after (goesOn_arith op) fun _ => .after goesOn_pop fun _ => .after goesOn_push fun _ =>
      delivers_settle dest
  | .and items, dest, o, h => by
    rw [Expr.outcome?] at h
    rw [expr]
    exact delivers_condition (fun k l hl => advances_exprs items k (.jumpIfFalse l) hl)
      fun l => branches_exprs l items h
  | .compare op lhs rhs, dest, o, h => by
    obtain ⟨hsub, rfl⟩ := Outcome.testedIf_eq_some.mp h
    rw [Bool.and_eq_true] at hsub
    have hlhs : GoesOn (expr .value lhs) := goesOn_reached hsub.1 (delivers_expr lhs .value)
    have hrhs : GoesOn (expr .value rhs) := goesOn_reached hsub.2 (delivers_expr rhs .value)
    by_cases hr : rhs = .null
    · rw [hr, expr_compare_null_right]
      exact delivers_condition (fun k l hl => (advances_expr lhs k .value trivial).bind fun _ =>
        advances_nullJump op hl) fun l => .after hlhs fun _ => branches_nullJump op l
    · by_cases hl : lhs = .null
      · rw [hl, expr_compare_null_left dest op hr]
        exact delivers_condition (fun k l hl => (advances_expr rhs k .value trivial).bind fun _ =>
          advances_nullJump op hl) fun l => .after hrhs fun _ => branches_nullJump op l
      · rw [expr_compare dest op hl hr]
        exact delivers_condition (fun k l hl => (advances_typeOf lhs).bind fun t =>
          (advances_expr lhs k .value trivial).bind fun _ =>
          (advances_expr rhs k .value trivial).bind fun _ => advances_compareJump op t hl)
          fun l => .after (goesOn_typeOf lhs) fun t => .after hlhs fun _ => .after hrhs fun _ =>
            branches_compareJump op t l

theorem goesOn_values : (xs : List Expr) → Expr.allReached xs = true → GoesOn (exprs .value xs)
  | [], _ => by
    rw [exprs]
    exact .pure
  | x :: xs, h => by
    rw [Expr.allReached, Bool.and_eq_true] at h
    rw [exprs]
    exact (goesOn_reached h.1 (delivers_expr x .value)).bind fun _ => goesOn_values xs h.2

theorem branches_exprs (l : Label) : (xs : List Expr) → {o : Outcome} →
    Expr.outcomeAll? xs = some o → Branches o (exprs (.jumpIfFalse l) xs) l
  | [], o, h => by
    obtain rfl := Option.some.inj h
    rw [exprs]
    exact branches_pure l
  | x :: xs, o, h => by
    rw [Expr.outcomeAll?] at h
    obtain ⟨o₁, hx, h⟩ := Option.bind_eq_some_iff.mp h
    obtain ⟨o₂, hxs, h⟩ := Option.bind_eq_some_iff.mp h
    rw [exprs]
    exact Branches.andThen (delivers_expr x (.jumpIfFalse l) hx)
      (advances_expr x _ _ (Nat.lt_succ_self l))
      (branches_exprs l xs hxs) (fun ho {_ _ _} => same_of_holdsAll xs (ho ▸ hxs)) h

theorem goesOn_receiver (method : MethodRef) : (target : Option Expr) →
    Expr.receiverReached target = true → GoesOn (receiver method target)
  | some x, h => by
    rw [Expr.receiverReached] at h
    rw [receiver]
    exact goesOn_reached h (delivers_expr x .value)
  | none, _ => by
    rw [receiver]
    exact .fail

theorem goesOn_elements (element : TypeName) : (xs : List Expr) → (index : Nat) →
    Expr.allReached xs = true → GoesOn (elements element index xs)
  | [], index, _ => by
    rw [elements]
    exact .pure
  | x :: xs, index, h => by
    rw [Expr.allReached, Bool.and_eq_true] at h
    rw [elements]
    exact (goesOn_instruction).bind fun _ => (goesOn_pushType _).bind fun _ =>
      (goesOn_pushInt _).bind fun _ => (goesOn_reached h.1 (delivers_expr x .value)).bind fun _ =>
      (goesOn_arrayStore element).bind fun _ => goesOn_pop.bind fun _ =>
      goesOn_elements element xs (index + 1) h.2

end

theorem goesOn_expr (x : Expr) (h : x.reached = true) : GoesOn (expr .value x) :=
  goesOn_reached h (delivers_expr x .value)

/-! ## Statements -/

/-- Where control reaches the step, it leaves the frames complete. -/
def Seals (x : Emit Unit) : Prop :=
  ∀ ctx e e', e.Sealed → e.reachable = true → Runs x ctx e () e' → e'.Sealed

theorem GoesOn.seals {x : Emit Unit} (h : GoesOn x) : Seals x :=
  fun ctx e e' he hreached hrun => (h ctx e () e' he hreached hrun).isSealed

theorem GoesOn.seals_bind {x : Emit α} {f : α → Emit Unit} (hx : GoesOn x)
    (hf : ∀ a, Seals (f a)) : Seals (x >>= f) := by
  intro ctx e e' he hreached hrun
  obtain ⟨a, e₁, ha, hb⟩ := runs_bind.mp hrun
  have h₁ := hx ctx e a e₁ he hreached ha
  exact hf a ctx e₁ e' h₁.isSealed h₁.reached hb

theorem Seals.ite {p : Prop} [Decidable p] {x y : Emit Unit} (hx : Seals x) (hy : Seals y) :
    Seals (if p then x else y) := by
  split_ifs
  · exact hx
  · exact hy

/-- The end of a flow, with an instruction before it. -/
theorem seals_exit (opcode : UInt8) : Seals (do instruction opcode; endOfFlow) := by
  intro ctx e e' he hreached hrun
  rw [runs_instruction_bind, runs_endOfFlow] at hrun
  subst hrun
  exact he.append hreached e.slots e.labels fun _ => rfl

/-- The end of a flow, with an instruction before it that takes a value from the stack. -/
theorem seals_exitWith (opcode : UInt8) (slots : Nat) :
    Seals (do instruction opcode; pop slots; endOfFlow) := by
  intro ctx e e' he hreached hrun
  rw [runs_instruction_bind, runs_pop_bind] at hrun
  obtain ⟨s, _, hrun⟩ := hrun
  rw [runs_endOfFlow] at hrun
  subst hrun
  exact he.append hreached s e.labels fun _ => rfl

mutual

theorem seals_stmt : (s : Stmt) → s.reached = true → Seals (stmt s)
  | .setField target field value, h => by
    rw [Stmt.reached, Bool.and_eq_true] at h
    rw [stmt]
    exact (goesOn_expr target h.1).seals_bind fun _ => (goesOn_expr value h.2).seals_bind fun _ =>
      goesOn_addConstants.seals_bind fun _ => (goesOn_instruction).seals_bind fun _ =>
      goesOn_pop.seals
  | .declareLocal name type value, h => by
    rw [stmt]
    exact (goesOn_expr value h).seals_bind fun _ => goesOn_declare.seals_bind fun _ =>
      (goesOn_store _ _).seals
  | .setLocal name value, h => by
    rw [stmt]
    exact (goesOn_findLocal name).seals_bind fun _ => (goesOn_expr value h).seals_bind fun _ =>
      (goesOn_store _ _).seals
  | .expr value, h => by
    rw [stmt]
    exact (goesOn_expr value h).seals_bind fun _ => (goesOn_typeOf value).seals_bind fun _ =>
      (goesOn_dropValue _).seals
  | .ifThen cond body, h => by
    rw [Stmt.reached, Bool.and_eq_true] at h
    obtain ⟨o, ho⟩ := Option.isSome_iff_exists.mp h.1
    intro ctx e e' he hreached hrun
    rw [stmt, runs_newLabel_bind] at hrun
    obtain ⟨_, e₁, hcond, hrun⟩ := runs_bind.mp hrun
    obtain ⟨_, e₂, hbody, hplace⟩ := runs_bind.mp hrun
    have hbranches : Branches o (expr (.jumpIfFalse e.labels.size) cond) e.labels.size :=
      delivers_expr cond (.jumpIfFalse e.labels.size) ho
    have hlabel : Sealed { e with labels := e.labels.push {} } := ⟨he.pc, he.frames⟩
    obtain ⟨he₁, _⟩ := hbranches ctx _ e₁ hlabel hreached (by simp) hcond
    exact (sealed_place (sealed_stmts body h.2 he₁ hbody) hplace).1
  | .ret none, _ => by
    rw [stmt]
    exact GoesOn.read.seals_bind fun _ =>
      .ite (GoesOn.fail.seals_bind fun _ => seals_exit _) (seals_exit _)
  | .ret (some value), h => by
    rw [stmt]
    have hexit : ∀ ctx : MethodContext, Seals (do
        expr .value value
        instruction ctx.ret.returnOpcode
        pop ctx.ret.slotSize
        endOfFlow) :=
      fun _ => (goesOn_expr value h).seals_bind fun _ => seals_exitWith _ _
    exact GoesOn.read.seals_bind fun ctx =>
      .ite (GoesOn.fail.seals_bind fun _ => hexit ctx) (hexit ctx)
  | .throw value, h => by
    rw [stmt]
    exact (goesOn_expr value h).seals_bind fun _ => seals_exitWith _ _
  | .superInit owner params args, h => by
    rw [stmt]
    exact goesOn_loadThis.seals_bind fun _ => (goesOn_checkCount _ _).seals_bind fun _ =>
      (goesOn_values args h).seals_bind fun _ => (goesOn_callConstructor _ _).seals_bind fun _ =>
      GoesOn.read.seals_bind fun _ => goesOn_addConstants.seals_bind fun _ =>
      goesOn_replaceAll.seals

/-- Statements that control does not reach are refused. -/
theorem sealed_stmts : (ss : List Stmt) → Stmt.reachedAll ss = true → {ctx : MethodContext} →
    {e e' : Emitter} → e.Sealed → Runs (stmts ss) ctx e () e' → e'.Sealed
  | [], _, ctx, e, e', he, hrun => by
    rw [stmts] at hrun
    rw [(runs_pure.mp hrun).2]
    exact he
  | s :: ss, h, ctx, e, e', he, hrun => by
    rw [Stmt.reachedAll, Bool.and_eq_true] at h
    rw [stmts] at hrun
    obtain ⟨_, e₁, hcheck, hrun⟩ := runs_bind.mp hrun
    obtain ⟨_, e₂, hstmt, hrest⟩ := runs_bind.mp hrun
    rw [checkReachable, runs_get_bind, runs_check] at hcheck
    obtain ⟨hreached, rfl⟩ := hcheck
    exact sealed_stmts ss h.2 (seals_stmt s h.1 ctx e₁ e₂ he (by simpa using hreached) hstmt) hrest

end

/-! ## Methods -/

theorem sealed_endMethod (he : e.Sealed) (h : Runs endMethod ctx e () e') : e'.Sealed := by
  rcases runs_endMethod h with ⟨_, rfl⟩ | ⟨hreached, _, rfl⟩
  · exact he
  · exact he.append hreached e.slots e.labels fun _ => rfl

/-- In the code of a method whose conditions hide no dead code, every instruction behind an exit has
a frame. -/
theorem frames_behind_exits {ctx : MethodContext} {body : List Stmt} {pool : ConstantPool}
    {code : EmittedCode} (hbody : Stmt.reachedAll body = true)
    (h : (emitMethod ctx body pool).1 = .ok code) :
    ∃ decoded, Instruction.decode code.code = .ok decoded ∧
      ∀ p q, [p, q] <:+: decoded → p.2.isUnconditionalExit = true →
        ∃ f ∈ code.frames, f.pc = q.1 := by
  obtain ⟨e, hrun, hfinish, _⟩ := of_runWith h
  have hordered := (Ordered.start ctx pool).steps (steps_method hrun).1
  obtain ⟨_, e₁, hstmts, hend⟩ := runs_bind.mp hrun
  have hstart : (start ctx pool).Sealed := ⟨rfl, fun _ _ hi => nomatch hi⟩
  have hsealed := sealed_endMethod (sealed_stmts body hbody hstart hstmts) hend
  obtain ⟨_, _, bytes, hbytes, rfl⟩ := of_finish hfinish
  refine ⟨_, Instruction.decode_encode hordered.fits_resolvedCode hbytes, fun p q hpq hexit => ?_⟩
  -- the two instructions stand at neighbouring positions of the code
  obtain ⟨before, after, hsplit⟩ := hpq
  have hp : (Instruction.placed (resolvedCode e))[before.length]? = some p := by simp [← hsplit]
  have hq : (Instruction.placed (resolvedCode e))[before.length + 1]? = some q := by
    simp [← hsplit]
  rw [Instruction.placed_eq_mapIdx, List.getElem?_mapIdx, resolvedCode, List.getElem?_map,
    Option.map_map] at hp hq
  obtain ⟨i, hi, rfl⟩ := Option.map_eq_some_iff.mp hp
  obtain ⟨j, hj, rfl⟩ := Option.map_eq_some_iff.mp hq
  obtain ⟨⟨pc, s⟩, hf, hpc⟩ := hsealed.frames before.length i hi (by simpa using hexit)
    (.inl (by simpa using (List.getElem?_eq_some_iff.mp hj).1))
  refine ⟨s.toFrame pc, List.mem_map.mpr ⟨(pc, s), List.mem_reverse.mpr hf, rfl⟩, ?_⟩
  have hoffset : (s.toFrame pc).pc = pc := rfl
  simpa [hoffset] using hpc

/-- A condition that fails behind a test, and a test whose value is returned: both jumps that exit
have a frame behind them. -/
theorem frames_behind_exits_condition :
    ∃ code decoded, (emitMethod
        { className := ⟨"A"⟩, params := [.int, .boolean], ret := .boolean, isStatic := true }
        [.ifThen (.and [.param 2, .bool false]) [],
          .ret (some (.compare .ne (.param 1) (.int 1)))] .empty).1 = .ok code ∧
      code.code = [27, 153, 0, 6, 167, 0, 3, 26, 4, 159, 0, 7, 4, 167, 0, 4, 3, 172] ∧
      Instruction.decode code.code = .ok decoded ∧
      ∀ p q, [p, q] <:+: decoded → p.2.isUnconditionalExit = true →
        ∃ f ∈ code.frames, f.pc = q.1 := by
  have hemit : (emitMethod
      { className := ⟨"A"⟩, params := [.int, .boolean], ret := .boolean, isStatic := true }
      [.ifThen (.and [.param 2, .bool false]) [],
        .ret (some (.compare .ne (.param 1) (.int 1)))] .empty).1
      = .ok ⟨[27, 153, 0, 6, 167, 0, 3, 26, 4, 159, 0, 7, 4, 167, 0, 4, 3, 172], 2, 2,
          [⟨7, [.integer, .integer], []⟩, ⟨16, [.integer, .integer], []⟩,
            ⟨17, [.integer, .integer], [.integer]⟩]⟩ := by
    decide +kernel
  obtain ⟨decoded, hdecode, hframes⟩ := frames_behind_exits (by decide) hemit
  exact ⟨_, decoded, hemit, rfl, hdecode, hframes⟩

end Emit

end ClassSynth

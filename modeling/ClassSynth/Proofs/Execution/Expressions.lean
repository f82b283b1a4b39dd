import ClassSynth.Proofs.Execution.Operations
import ClassSynth.Proofs.Execution.Paths

/-!
# Expressions on the machine

The code of a scalar expression takes the machine to the value of the expression: it is pushed, or,
where the expression is a condition, control goes on if it holds and jumps if it does not
(`achieves_expr`). A conjunction jumps from each of its items to the same label.
-/

namespace ClassSynth.Machine

open Emit Emitter Scalar

/-- The local variables of the machine hold the arguments and the values of the environment. -/
structure Holds (ctx : MethodContext) (args : List Scalar) (env : Bindings)
    (named : List NamedLocal) (locals : List Value) : Prop where
  args : ∀ position v, args[position]? = some v →
    locals[ctx.receiverSlots + position]? = some v.encode
  vars : ∀ name v, env.lookup name = some v → ∃ l, named.find? (·.name == name) = some l ∧
    kindOf? l.type = some v.kind ∧ locals[l.slot]? = some v.encode
  length : locals.length ≤ 65535

variable {f e e' : Emitter} {bytes : Bytes} {ctx : MethodContext} {u : Unit}
  {locals : List Value}

theorem within_mono {dest : Destination} {n m : Nat} (h : dest.Within n) (hnm : n ≤ m) :
    dest.Within m := by
  cases dest with
  | value => trivial
  | jumpIfFalse l => exact Nat.lt_of_lt_of_le h hnm

/-! ## Destinations -/

/-- The value of an expression gets where it should: it is pushed, or it is tested. -/
def Achieves (f : Emitter) (bytes : Bytes) (e e' : Emitter) (locals : List Value) :
    Destination → Scalar → Prop
  | .value, v => Pushes f bytes e e' locals v.encode
  | .jumpIfFalse l, v => ∃ b, v = .bool b ∧ Decides f bytes e e' locals l [] b

/-- A value that is pushed gets where it should. -/
theorem achieves_settle (hf : Finished f bytes) {dest : Destination} {e₁ : Emitter} {v : Scalar}
    (hto : Steps true 0 e e₁) (hkind : dest ≠ .value → v.kind = .bool)
    (hdest : dest.Within e.labels.size) (hrun : Runs (settle dest) ctx e₁ u e')
    (h : Steps true 0 e' f)
    (hpush : Steps true 0 e₁ f → Pushes f bytes e e₁ locals v.encode) :
    Achieves f bytes e e' locals dest v := by
  have hdest := within_mono hdest hto.size_labels_le
  have hsettle : Steps true e₁.labels.size e₁ e' :=
    advances_settle hdest ctx _ _ e' (Nat.le_refl _) hrun
  have hpush := hpush ((hsettle.weaken).trans h)
  cases dest with
  | value =>
    obtain ⟨_, rfl⟩ := runs_pure.mp hrun
    exact hpush
  | jumpIfFalse l =>
    obtain ⟨b, rfl⟩ := eq_bool_of_kind (hkind (by simp))
    refine ⟨b, rfl, .after hpush (decides_of_step hrun hdest hpush.reachable (by decide) ?_)⟩
    intro stack
    rw [step_branch hf hrun h rfl]
    cases b <;> rfl

/-- The result of a condition gets where it should. -/
theorem achieves_condition (hf : Finished f bytes) {jump : Label → Emit Unit} {dest : Destination}
    {holds : Bool}
    (hadvances : ∀ k l, e.labels.size ≤ k → l < k → Advances true k k (jump l))
    (hjump : ∀ (l : Nat) e₀ e₁, Runs (jump l) ctx e₀ () e₁ → Steps true 0 e₁ f →
      e₀.reachable = true → e₀.named = e.named → l < e₀.labels.size →
      Decides f bytes e₀ e₁ locals l [] holds)
    (hdest : dest.Within e.labels.size) (hreachable : e.reachable = true)
    (hrun : Runs (condition jump dest) ctx e u e') (h : Steps true 0 e' f) :
    Achieves f bytes e e' locals dest (.bool holds) := by
  cases dest with
  | jumpIfFalse l => exact ⟨holds, rfl, hjump l e e' hrun h hreachable rfl hdest⟩
  | value =>
    obtain ⟨e₁, e₂, e₃, e₄, e₅, hway⟩ := exists_conditionRun hadvances (Nat.le_refl _) hrun
    have h₅ : Steps true 0 e₅ f := (hway.toDone.weaken).trans h
    have h₄ : Steps true 0 e₄ f := (hway.toZero.weaken).trans h₅
    have h₃ : Steps true 0 e₃ f := (hway.toFalse.weaken).trans h₄
    have h₂ : Steps true 0 e₂ f := (hway.toGoto.weaken).trans h₃
    have h₁ : Steps true 0 e₁ f := (hway.toOne.weaken).trans h₂
    have hsize : e.labels.size + 2 ≤ e₃.labels.size := by
      have htwo := (hway.toJumped.weaken).trans
        ((hway.toOne.weaken).trans (hway.toGoto.weaken))
      have hle := htwo.size_labels_le
      rwa [size_twoLabels] at hle
    have hdecides := hjump e.labels.size (twoLabels e) e₁ hway.jumps h₁ hreachable rfl
      (by rw [size_twoLabels]; omega)
    obtain ⟨hcode₄, hfalse, hreach₄⟩ := of_place hway.whenFalse h₄ (by omega)
    obtain ⟨hcode', hdone, hreach'⟩ := of_place hway.done h
      (Nat.lt_of_lt_of_le (by omega) (hway.toFalse.trans hway.toZero).size_labels_le)
    cases holds with
    | true =>
      obtain ⟨hreach₁, hpath⟩ := hdecides.holding rfl
      have hone : Pushes f bytes e₁ e₂ locals (.int 1) := pushes_pushInt hf hway.one h₂ hreach₁
      obtain ⟨_, _, hjumped⟩ := of_branch hway.goto
      have hsize₂ : e.labels.size + 1 < e₂.labels.size := by
        have hle := (hway.toJumped.size_labels_le).trans hway.toOne.size_labels_le
        rw [size_twoLabels] at hle
        exact hle
      have hjumped := (hway.toFalse.trans hway.toZero).state (hjumped hsize₂)
      refine ⟨hreach' (.inr hjumped), fun stack => ?_⟩
      · refine (hpath stack).trans ((hone.path stack).trans (.single ?_))
        rw [step_branch hf hway.goto h₃ rfl]
        simp only [Operation.apply, stateAt, hdone, hcode']
        rfl
    | false =>
      obtain ⟨hstate, hpath⟩ := hdecides.failing rfl
      have hreach₄ := hreach₄ (.inr ((hway.toOne.trans hway.toGoto).state hstate))
      have hzero : Pushes f bytes e₄ e₅ locals (.int 0) := pushes_pushInt hf hway.zero h₅ hreach₄
      refine ⟨hreach' (.inl hzero.reachable), fun stack => (hpath stack).trans ?_⟩
      have hpath := hzero.path stack
      simp only [stateAt, hcode₄, hcode', hfalse] at hpath ⊢
      exact hpath

/-! ## Tests -/

theorem decides_nullJump (hf : Finished f bytes) {op : CompareOp} {l : Nat} {v : Scalar}
    (hrun : Runs (nullJump op l) ctx e u e') (h : Steps true 0 e' f) (hl : l < e.labels.size)
    (hreachable : e.reachable = true) (hv : v.kind = .ref) :
    Decides f bytes e e' locals l [v.encode] (op.holds (v == .ref none)) := by
  have hkind : v.encode.kind = .reference := by rw [kind_encode, hv]; rfl
  rw [← isZero_encode_ref hv]
  cases op with
  | eq =>
    refine decides_of_step hrun hl hreachable (by decide) fun stack => ?_
    rw [step_branch hf hrun h rfl]
    simp only [Operation.apply, stateAt, List.singleton_append, hkind, if_true, CompareOp.holds]
    cases v.encode.isZero <;> rfl
  | ne =>
    refine decides_of_step hrun hl hreachable (by decide) fun stack => ?_
    rw [step_branch hf hrun h rfl]
    simp only [Operation.apply, stateAt, List.singleton_append, hkind, if_true, CompareOp.holds]
    cases v.encode.isZero <;> rfl

/-- The jump that is taken if two values of a kind fail a test. -/
def differJump (op : CompareOp) : Kind → UInt8
  | .ref => if op = .eq then Opcode.ifAcmpne else Opcode.ifAcmpeq
  | _ => if op = .eq then Opcode.ifIcmpne else Opcode.ifIcmpeq

theorem compareJump_eq {op : CompareOp} {t : TypeName} {k : Kind} (ht : OfKind t k) (l : Label) :
    compareJump op t l = branch (differJump op k) l 2 := by
  unfold compareJump
  rw [ht.isReference, ht.isIntLike]
  cases k <;> rfl

theorem decides_compareJump (hf : Finished f bytes) {op : CompareOp} {t : TypeName} {l : Nat}
    {v w : Scalar} (ht : OfKind t v.kind) (hrun : Runs (compareJump op t l) ctx e u e')
    (h : Steps true 0 e' f) (hl : l < e.labels.size) (hreachable : e.reachable = true)
    (hkinds : v.kind = w.kind) :
    Decides f bytes e e' locals l [w.encode, v.encode] (op.holds (v == w)) := by
  rw [compareJump_eq ht] at hrun
  have hvkind := kind_encode v
  have hwkind := kind_encode w
  rw [← hkinds] at hwkind
  rw [← encode_beq hkinds]
  generalize v.kind = k at *
  cases op with
  | eq =>
    refine decides_of_step hrun hl hreachable (by cases k <;> decide) fun stack => ?_
    cases k with
    | _ =>
      rw [step_branch hf hrun h rfl]
      simp only [Operation.apply, stateAt, List.cons_append, List.nil_append, hvkind, hwkind,
        Kind.valueKind, and_self, if_true, CompareOp.holds]
      cases v.encode == w.encode <;> rfl
  | ne =>
    refine decides_of_step hrun hl hreachable (by cases k <;> decide) fun stack => ?_
    cases k with
    | _ =>
      rw [step_branch hf hrun h rfl]
      simp only [Operation.apply, stateAt, List.cons_append, List.nil_append, hvkind, hwkind,
        Kind.valueKind, and_self, if_true, CompareOp.holds]
      cases v.encode == w.encode <;> rfl

/-- A sum or a product of the two values on the stack. -/
theorem pushes_arith (hf : Finished f bytes) {op : ArithOp} {opcode : UInt8} {e₁ e₂ : Emitter}
    {a b : Int32} (hplain : Instruction.Plain ⟨opcode, .empty⟩)
    (hop : operation? ⟨opcode, .empty⟩ = some (.arith op))
    (ha : Pushes f bytes e e₁ locals (.int a)) (hb : Pushes f bytes e₁ e₂ locals (.int b))
    (hcode : e'.code = e₂.code.push ⟨opcode, .empty⟩) (hsame : e'.reachable = e₂.reachable)
    (h : Steps true 0 e' f) : Pushes f bytes e e' locals (.int (op.apply a b)) where
  reachable := hsame.trans hb.reachable
  path := fun stack => (ha.path stack).trans <| (hb.path (.int a :: stack)).trans <|
    .single (step_append hf hplain hcode h hop)

/-! ## Expressions -/

section

variable {args : List Scalar} {env : Bindings}

theorem pushes_param (hf : Finished f bytes)
    (hparams : ∀ t ∈ ctx.params, (kindOf? t).isSome) (hargs : Arguments ctx.params args)
    {index slot : Nat} {t : TypeName} (hslot : ctx.paramSlot? index = some (slot, t))
    (hrun : Runs (load t slot) ctx e u e') (h : Steps true 0 e' f) (hreachable : e.reachable = true)
    (hlocals : Holds ctx args env e.named locals) {v : Scalar}
    (hv : (Expr.param index).evaluate args env = some v) :
    Pushes f bytes e e' locals v.encode := by
  cases index with
  | zero => cases hslot
  | succ position =>
    rw [Expr.evaluate] at hv
    rw [MethodContext.paramSlot?] at hslot
    obtain ⟨t', ht, hpair⟩ := Option.map_eq_some_iff.mp hslot
    obtain ⟨rfl, rfl⟩ := Prod.mk.inj hpair
    obtain ⟨w, hw, hkind⟩ := hargs.getElem? ht
    obtain rfl : v = w := Option.some.inj (hv.symm.trans hw)
    -- all parameters before this one fill one slot
    have hbefore : totalSlots (ctx.params.take position) = position := by
      have hlt := (List.getElem?_eq_some_iff.mp ht).1
      rw [totalSlots_scalar fun t ht => hparams t (List.mem_of_mem_take ht), List.length_take]
      omega
    have hof := ofKind_of_kindOf? hkind
    refine pushes_load hf hrun h hreachable ?_ ?_ ?_ hlocals.length
    · rw [hof.valueKind]
      exact known_valueKind _
    · rw [hbefore]
      exact hlocals.args position v hv
    · rw [hof.valueKind, kind_encode]

theorem pushes_localVar (hf : Finished f bytes) {name : String} {l : NamedLocal}
    (hl : e.named.find? (·.name == name) = some l) (hrun : Runs (load l.type l.slot) ctx e u e')
    (h : Steps true 0 e' f) (hreachable : e.reachable = true)
    (hlocals : Holds ctx args env e.named locals) {v : Scalar}
    (hv : env.lookup name = some v) : Pushes f bytes e e' locals v.encode := by
  obtain ⟨l', hl', hkind, hvalue⟩ := hlocals.vars name v hv
  obtain rfl : l = l' := Option.some.inj (hl.symm.trans hl')
  have hof := ofKind_of_kindOf? hkind
  refine pushes_load hf hrun h hreachable ?_ hvalue ?_ hlocals.length
  · rw [hof.valueKind]
    exact known_valueKind _
  · rw [hof.valueKind, kind_encode]

/-- Expressions leave the local variables as they are. -/
theorem Holds.of_steps {floor : Nat} (hlocals : Holds ctx args env e.named locals)
    (h : Steps false floor e e') : Holds ctx args env e'.named locals := by
  rw [h.sameLocals.named]
  exact hlocals

/-- Wherever the code of an operand stands, it pushes the value. -/
def PushedBy (f : Emitter) (bytes : Bytes) (ctx : MethodContext) (args : List Scalar)
    (env : Bindings) (locals : List Value) (x : Expr) (v : Scalar) : Prop :=
  ∀ e e', Runs (expr .value x) ctx e () e' → Steps true 0 e' f → e.reachable = true →
    Holds ctx args env e.named locals → Pushes f bytes e e' locals v.encode

theorem decides_null (hf : Finished f bytes) {op : CompareOp} {x : Expr} {l : Nat} {v : Scalar}
    (hx : PushedBy f bytes ctx args env locals x v) (hv : v.kind = .ref)
    (hrun : Runs (do expr .value x; nullJump op l) ctx e () e') (h : Steps true 0 e' f)
    (hl : l < e.labels.size) (hreachable : e.reachable = true)
    (hlocals : Holds ctx args env e.named locals) :
    Decides f bytes e e' locals l [] (op.holds (v == .ref none)) := by
  obtain ⟨_, e₁, hoperand, hjump⟩ := runs_bind.mp hrun
  have hto₁ : Steps true e.labels.size e e₁ :=
    advances_expr x _ .value trivial ctx _ _ e₁ (Nat.le_refl _) hoperand
  have hl₁ : l < e₁.labels.size := Nat.lt_of_lt_of_le hl hto₁.size_labels_le
  have hto₂ : Steps true 0 e₁ e' := advances_nullJump op hl₁ ctx _ _ e' (Nat.le_refl _) hjump
  have hpush := hx e e₁ hoperand (hto₂.trans h) hreachable hlocals
  exact .after hpush (decides_nullJump hf hjump h hl₁ hpush.reachable hv)

theorem decides_compare (hf : Finished f bytes) {op : CompareOp} {lhs rhs : Expr} {l : Nat}
    {v w : Scalar} (hlhs : PushedBy f bytes ctx args env locals lhs v)
    (hrhs : PushedBy f bytes ctx args env locals rhs w)
    (hkind : lhs.kind? ctx.params env.kinds = some v.kind) (hkinds : v.kind = w.kind)
    (hrun : Runs (do
      let t ← typeOf lhs
      expr .value lhs
      expr .value rhs
      compareJump op t l) ctx e () e')
    (h : Steps true 0 e' f) (hl : l < e.labels.size) (hreachable : e.reachable = true)
    (hlocals : Holds ctx args env e.named locals) :
    Decides f bytes e e' locals l [] (op.holds (v == w)) := by
  obtain ⟨t, e₀, htype, hrest⟩ := runs_bind.mp hrun
  obtain ⟨ht, hsame⟩ := runs_typeOf.mp htype
  rw [hsame] at hrest
  obtain ⟨_, e₁, hrunl, hrest⟩ := runs_bind.mp hrest
  obtain ⟨_, e₂, hrunr, hjump⟩ := runs_bind.mp hrest
  have hof := ofKind_of_kindOf? (kindOf?_valueType hkind ht)
  have hto₁ : Steps false e.labels.size e e₁ :=
    advances_expr lhs _ .value trivial ctx _ _ e₁ (Nat.le_refl _) hrunl
  have hto₂ : Steps false e₁.labels.size e₁ e₂ :=
    advances_expr rhs _ .value trivial ctx _ _ e₂ (Nat.le_refl _) hrunr
  have hl₂ : l < e₂.labels.size :=
    Nat.lt_of_lt_of_le hl (Nat.le_trans hto₁.size_labels_le hto₂.size_labels_le)
  have hto₃ : Steps true 0 e₂ e' := advances_compareJump op t hl₂ ctx _ _ e' (Nat.le_refl _) hjump
  have hpushl := hlhs e e₁ hrunl (hto₂.weaken.trans (hto₃.trans h)) hreachable hlocals
  have hpushr := hrhs e₁ e₂ hrunr (hto₃.trans h) hpushl.reachable (hlocals.of_steps hto₁)
  exact .after hpushl (.after hpushr
    (decides_compareJump hf hof hjump h hl₂ hpushr.reachable hkinds))

mutual

/-- The code of an expression brings its value to the destination. -/
theorem achieves_expr (hf : Finished f bytes)
    (hparams : ∀ t ∈ ctx.params, (kindOf? t).isSome) (hargs : Arguments ctx.params args) :
    (x : Expr) → (dest : Destination) → (kind : Kind) → (e e' : Emitter) →
    x.kind? ctx.params env.kinds = some kind → (dest ≠ .value → kind = .bool) →
    dest.Within e.labels.size → Runs (expr dest x) ctx e () e' → Steps true 0 e' f →
    e.reachable = true → Holds ctx args env e.named locals →
    (v : Scalar) → x.evaluate args env = some v → Achieves f bytes e e' locals dest v
  | .param index, dest, kind, e, e', hkind, hbool, hdest, hrun, h, hreachable, hlocals, v, hv => by
    have hvkind : dest ≠ .value → v.kind = .bool := fun hne =>
      (Expr.kind_of_evaluate hargs hkind hv).trans (hbool hne)
    rw [expr, runs_read_bind] at hrun
    cases hslot : ctx.paramSlot? index with
    | none =>
      rw [hslot] at hrun
      obtain ⟨_, _, hfail, _⟩ := runs_bind.mp hrun
      exact absurd hfail runs_fail
    | some p =>
      rw [hslot] at hrun
      obtain ⟨_, e₁, hload, hsettle⟩ := runs_bind.mp hrun
      have hto : Steps true 0 e e₁ := advances_load _ _ ctx _ _ e₁ (Nat.zero_le _) hload
      exact achieves_settle hf hto hvkind hdest hsettle h fun h₁ =>
        pushes_param hf hparams hargs hslot hload h₁ hreachable hlocals hv
  | .localVar name type, dest, kind, e, e', hkind, hbool, hdest, hrun, h, hreachable, hlocals, v,
      hv => by
    have hvkind : dest ≠ .value → v.kind = .bool := fun hne =>
      (Expr.kind_of_evaluate hargs hkind hv).trans (hbool hne)
    rw [expr] at hrun
    obtain ⟨l, e₀, hfindRun, hrest⟩ := runs_bind.mp hrun
    obtain ⟨hfind, hsame⟩ := runs_findLocal.mp hfindRun
    rw [hsame] at hrest
    obtain ⟨_, e₁, hload, hsettle⟩ := runs_bind.mp hrest
    have hto : Steps true 0 e e₁ := advances_load _ _ ctx _ _ e₁ (Nat.zero_le _) hload
    rw [Expr.evaluate] at hv
    exact achieves_settle hf hto hvkind hdest hsettle h fun h₁ =>
      pushes_localVar hf hfind hload h₁ hreachable hlocals hv
  | .null, dest, kind, e, e', hkind, hbool, hdest, hrun, h, hreachable, hlocals, v, hv => by
    have hvkind : dest ≠ .value → v.kind = .bool := fun hne =>
      (Expr.kind_of_evaluate hargs hkind hv).trans (hbool hne)
    rw [Expr.evaluate] at hv
    obtain rfl := Option.some.inj hv
    rw [expr, runs_instruction_bind, runs_push_bind] at hrun
    have hto : Steps true 0 e ((e.append ⟨Opcode.aconstNull, .empty⟩).pushed .null) :=
      .tail (.single (.instruction e _ (plain_simple rfl))) (.slots _ _ _ (Nat.le_max_left _ _))
    exact achieves_settle hf hto hvkind hdest hrun h fun h₁ =>
      pushes_of_push hf (plain_simple rfl) rfl h₁ hreachable rfl
  | .bool value, dest, kind, e, e', hkind, hbool, hdest, hrun, h, hreachable, hlocals, v, hv => by
    rw [Expr.evaluate] at hv
    obtain rfl := Option.some.inj hv
    cases dest with
    | value =>
      rw [expr] at hrun
      have hpush : Pushes f bytes e e' locals (.int (if value then 1 else 0)) :=
        pushes_pushInt hf hrun h hreachable
      cases value <;> exact hpush
    | jumpIfFalse l =>
      rw [expr] at hrun
      refine ⟨value, rfl, ?_⟩
      cases value with
      | true =>
        obtain ⟨_, rfl⟩ := runs_pure.mp hrun
        exact ⟨fun _ => ⟨hreachable, fun _ => Relation.ReflTransGen.refl⟩,
          fun h => Bool.noConfusion h⟩
      | false =>
        obtain ⟨_, _, hstate⟩ := of_branch hrun
        refine ⟨fun h => Bool.noConfusion h, fun _ => ⟨hstate hdest, fun stack => .single ?_⟩⟩
        rw [step_branch hf hrun h rfl]
        rfl
  | .int value, dest, kind, e, e', hkind, hbool, hdest, hrun, h, hreachable, hlocals, v, hv => by
    have hvkind : dest ≠ .value → v.kind = .bool := fun hne =>
      (Expr.kind_of_evaluate hargs hkind hv).trans (hbool hne)
    rw [Expr.evaluate] at hv
    obtain rfl := Option.some.inj hv
    rw [expr] at hrun
    obtain ⟨_, e₁, hint, hsettle⟩ := runs_bind.mp hrun
    have hto : Steps true 0 e e₁ := advances_pushInt _ ctx _ _ e₁ (Nat.zero_le _) hint
    exact achieves_settle hf hto hvkind hdest hsettle h fun h₁ =>
      pushes_pushInt hf hint h₁ hreachable
  | .arith op lhs rhs, dest, kind, e, e', hkind, hbool, hdest, hrun, h, hreachable, hlocals, v,
      hv => by
    have hvkind : dest ≠ .value → v.kind = .bool := fun hne =>
      (Expr.kind_of_evaluate hargs hkind hv).trans (hbool hne)
    rw [Expr.kind?] at hkind
    split_ifs at hkind with hkinds
    obtain ⟨va, hva, hka⟩ := lhs.exists_evaluate hargs hkinds.1
    obtain ⟨vb, hvb, hkb⟩ := rhs.exists_evaluate hargs hkinds.2
    obtain ⟨a, rfl⟩ := eq_int_of_kind hka
    obtain ⟨b, rfl⟩ := eq_int_of_kind hkb
    rw [Expr.evaluate, hva, hvb] at hv
    obtain rfl := Option.some.inj hv
    rw [expr_arith] at hrun
    obtain ⟨_, e₁, hlhs, hrun⟩ := runs_bind.mp hrun
    obtain ⟨_, e₂, hrhs, hrun⟩ := runs_bind.mp hrun
    rw [runs_instruction_bind, runs_pop_bind] at hrun
    obtain ⟨s, _, hrun⟩ := hrun
    rw [runs_push_bind] at hrun
    have hto₁ : Steps false _ e e₁ :=
      advances_expr lhs _ .value trivial ctx _ _ e₁ (Nat.le_refl _) hlhs
    have hto₂ : Steps false _ e₁ e₂ :=
      advances_expr rhs _ .value trivial ctx _ _ e₂ (Nat.le_refl _) hrhs
    have hto₃ : Steps true 0 e₂
        (Emitter.pushed { e₂.append ⟨arithOpcode op, .empty⟩ with slots := s } .integer) :=
      .tail (.tail (.single (.instruction e₂ _ (plain_arith op)))
        (.slots _ s _ (Nat.le_refl _))) (.slots _ _ _ (Nat.le_max_left _ _))
    refine achieves_settle hf (hto₁.weaken.trans (hto₂.weaken.trans hto₃)) hvkind hdest hrun h
      fun h₃ => ?_
    have h₂ := hto₃.trans h₃
    have ha := achieves_expr hf hparams hargs lhs .value .int e e₁ hkinds.1
      (fun hne => absurd rfl hne) trivial hlhs (hto₂.weaken.trans h₂) hreachable hlocals _ hva
    have hb := achieves_expr hf hparams hargs rhs .value .int e₁ e₂ hkinds.2
      (fun hne => absurd rfl hne) trivial hrhs h₂ ha.reachable (hlocals.of_steps hto₁) _ hvb
    exact pushes_arith hf (plain_arith op) (by cases op <;> rfl) ha hb rfl rfl h₃
  | .and items, dest, kind, e, e', hkind, hbool, hdest, hrun, h, hreachable, hlocals, v, hv => by
    rw [Expr.kind?] at hkind
    split_ifs at hkind with hkinds
    rw [Expr.evaluate] at hv
    obtain ⟨b, hb, rfl⟩ := Option.map_eq_some_iff.mp hv
    rw [expr] at hrun
    refine achieves_condition hf (fun k l _ hl => advances_exprs items k (.jumpIfFalse l) hl) ?_
      hdest hreachable hrun h
    intro l e₀ e₁ hitems h₁ hreachable hnamed hl
    exact decides_exprs hf hparams hargs items l e₀ e₁ hkinds hl hitems h₁ hreachable
      (hnamed ▸ hlocals) b hb
  | .compare op lhs rhs, dest, kind, e, e', hkind, hbool, hdest, hrun, h, hreachable, hlocals, v,
      hv => by
    rw [Expr.kind?] at hkind
    split_ifs at hkind with hkinds
    obtain ⟨k, hk⟩ := Option.isSome_iff_exists.mp hkinds.1
    have hkr : rhs.kind? ctx.params env.kinds = some k := hkinds.2 ▸ hk
    obtain ⟨va, hva, hka⟩ := lhs.exists_evaluate hargs hk
    obtain ⟨vb, hvb, hkb⟩ := rhs.exists_evaluate hargs hkr
    rw [Expr.evaluate, hva, hvb] at hv
    obtain rfl := Option.some.inj hv
    have hpushl : PushedBy f bytes ctx args env locals lhs va :=
      fun e e' hrun h hreachable hlocals => achieves_expr hf hparams hargs lhs .value k e e' hk
        (fun hne => absurd rfl hne) trivial hrun h hreachable hlocals va hva
    have hpushr : PushedBy f bytes ctx args env locals rhs vb :=
      fun e e' hrun h hreachable hlocals => achieves_expr hf hparams hargs rhs .value k e e' hkr
        (fun hne => absurd rfl hne) trivial hrun h hreachable hlocals vb hvb
    by_cases hnullr : rhs = .null
    · subst hnullr
      rw [Expr.kind?] at hkr
      obtain rfl := Option.some.inj hkr
      rw [Expr.evaluate] at hvb
      obtain rfl := Option.some.inj hvb
      rw [expr_compare_null_right] at hrun
      refine achieves_condition hf (fun k l _ hl =>
        (advances_expr lhs k .value trivial).bind fun _ => advances_nullJump op hl) ?_
        hdest hreachable hrun h
      intro l e₀ e₁ hjump h₁ hreachable hnamed hl
      exact decides_null hf hpushl hka hjump h₁ hl hreachable (hnamed ▸ hlocals)
    · by_cases hnulll : lhs = .null
      · subst hnulll
        rw [Expr.kind?] at hk
        obtain rfl := Option.some.inj hk
        rw [Expr.evaluate] at hva
        obtain rfl := Option.some.inj hva
        rw [expr_compare_null_left dest op hnullr] at hrun
        have hsymm : (Scalar.ref none == vb) = (vb == Scalar.ref none) := by
          rw [Bool.eq_iff_iff, beq_iff_eq, beq_iff_eq, eq_comm]
        rw [hsymm]
        refine achieves_condition hf (fun k l _ hl =>
          (advances_expr rhs k .value trivial).bind fun _ => advances_nullJump op hl) ?_
          hdest hreachable hrun h
        intro l e₀ e₁ hjump h₁ hreachable hnamed hl
        exact decides_null hf hpushr hkb hjump h₁ hl hreachable (hnamed ▸ hlocals)
      · rw [expr_compare dest op hnulll hnullr] at hrun
        refine achieves_condition hf (fun k l _ hl =>
          (advances_typeOf lhs).bind fun t => (advances_expr lhs k .value trivial).bind fun _ =>
          (advances_expr rhs k .value trivial).bind fun _ => advances_compareJump op t hl) ?_
          hdest hreachable hrun h
        intro l e₀ e₁ hjump h₁ hreachable hnamed hl
        exact decides_compare hf hpushl hpushr (hka ▸ hk) (hka.trans hkb.symm) hjump h₁ hl
          hreachable (hnamed ▸ hlocals)

/-- The code of conditions goes on if all of them hold, else it jumps. -/
theorem decides_exprs (hf : Finished f bytes)
    (hparams : ∀ t ∈ ctx.params, (kindOf? t).isSome) (hargs : Arguments ctx.params args) :
    (items : List Expr) → (l : Nat) → (e e' : Emitter) →
    Expr.areConditions ctx.params env.kinds items = true → l < e.labels.size →
    Runs (exprs (.jumpIfFalse l) items) ctx e () e' → Steps true 0 e' f → e.reachable = true →
    Holds ctx args env e.named locals → (b : Bool) → Expr.holdAll args env items = some b →
    Decides f bytes e e' locals l [] b
  | [], l, e, e', _, _, hrun, _, hreachable, _, b, hb => by
    rw [exprs] at hrun
    obtain ⟨_, rfl⟩ := runs_pure.mp hrun
    rw [Expr.holdAll] at hb
    obtain rfl := Option.some.inj hb
    exact ⟨fun _ => ⟨hreachable, fun _ => Relation.ReflTransGen.refl⟩, fun h => Bool.noConfusion h⟩
  | item :: rest, l, e, e', hkinds, hl, hrun, h, hreachable, hlocals, b, hb => by
    rw [Expr.areConditions, Bool.and_eq_true, decide_eq_true_eq] at hkinds
    obtain ⟨v, hv, hkind⟩ := item.exists_evaluate hargs hkinds.1
    obtain ⟨first, rfl⟩ := eq_bool_of_kind hkind
    rw [exprs] at hrun
    obtain ⟨_, e₁, hitem, hrest⟩ := runs_bind.mp hrun
    have hto₁ : Steps false e.labels.size e e₁ :=
      advances_expr item _ (.jumpIfFalse l) hl ctx _ _ e₁ (Nat.le_refl _) hitem
    have hl₁ : l < e₁.labels.size := Nat.lt_of_lt_of_le hl hto₁.size_labels_le
    have hto₂ : Steps true e₁.labels.size e₁ e' :=
      advances_exprs rest _ (.jumpIfFalse l) hl₁ ctx _ _ e' (Nat.le_refl _) hrest
    obtain ⟨first', hfirst, hitem⟩ := achieves_expr hf hparams hargs item (.jumpIfFalse l)
      .bool e e₁ hkinds.1 (fun _ => rfl) hl hitem (hto₂.weaken.trans h) hreachable hlocals _ hv
    obtain rfl := Scalar.bool.inj hfirst
    rw [Expr.holdAll, hv] at hb
    cases first with
    | false =>
      obtain rfl := Option.some.inj hb
      obtain ⟨hstate, hpath⟩ := hitem.failing rfl
      exact ⟨fun h => Bool.noConfusion h, fun _ => ⟨hto₂.state hstate, hpath⟩⟩
    | true =>
      obtain ⟨hreach₁, hpath⟩ := hitem.holding rfl
      have hdecides := decides_exprs hf hparams hargs rest l e₁ e' hkinds.2 hl₁ hrest h hreach₁
        (hlocals.of_steps hto₁) b hb
      exact ⟨fun hb => ⟨(hdecides.holding hb).1, fun stack =>
          (hpath stack).trans ((hdecides.holding hb).2 stack)⟩,
        fun hb => ⟨(hdecides.failing hb).1, fun stack =>
          (hpath stack).trans ((hdecides.failing hb).2 stack)⟩⟩

end

end

end ClassSynth.Machine

import ClassSynth.Proofs.Acceptance.Conditions

/-!
# Statements that are lowered

`Stmt.scopeAfter?` accepts the statements whose operands have the slots that they should have and
behind which control goes on, as far as a statement follows. Lowering them succeeds, leaves nothing
on the stack and places all labels (`exists_stmts`).
-/

namespace ClassSynth

namespace Stmt

/-- Does control end with the statement? -/
def exits : Stmt → Bool
  | .ret _ | .throw _ => true
  | _ => false

/-- Does control end with the last statement? -/
def exitsAll (body : List Stmt) : Bool := body.getLast?.any exits

section

variable (declares : Bool) (ctx : MethodContext)

mutual

/-- The scope behind a statement whose operands have the slots that they should have. Local
variables are declared only if `declares` says so. -/
def scopeAfter? (scope : TypeScope) : Stmt → Option TypeScope
  | .setField target field value =>
    if target.slots? ctx scope == some 1 && value.slots? ctx scope == some field.type.slotSize then
      some scope
    else none
  | .declareLocal name type value =>
    if declares && value.yields? ctx scope == some type.slotSize then
      some ((name, some type) :: scope)
    else none
  | .setLocal name value =>
    if (scope.type? name).any fun t => value.yields? ctx scope == some t.slotSize then some scope
    else none
  | .expr value =>
    if (value.valueType? ctx.className ctx.params).any fun t =>
        value.yields? ctx scope == some t.slotSize then
      some scope
    else none
  | .ifThen cond body => if cond.decides ctx scope then scopeAfterAll? scope body else none
  | .ret none => if ctx.ret.isVoid then some scope else none
  | .ret (some value) =>
    if !ctx.ret.isVoid && value.yields? ctx scope == some ctx.ret.slotSize then some scope else none
  | .throw value => if value.yields? ctx scope == some 1 then some scope else none
  | .superInit _ params args =>
    if !ctx.isStatic && Expr.haveSlots ctx scope (params.map TypeName.slotSize) args then some scope
    else none

/-- The scope behind statements, of which only the last may end control. -/
def scopeAfterAll? (scope : TypeScope) : List Stmt → Option TypeScope
  | [] => some scope
  | s :: rest =>
    if s.exits && !rest.isEmpty then none
    else (s.scopeAfter? scope).bind fun scope => scopeAfterAll? scope rest

end

end

end Stmt

/-- A value in a later slot leaves the receiver alone. -/
theorem SlotState.headD_store {locals new : List VerificationType} {slot : Nat} (h : 0 < slot) :
    (store locals slot new).headD .top = locals.headD .top := by
  obtain ⟨slot, rfl⟩ := Nat.exists_eq_succ_of_ne_zero (Nat.ne_of_gt h)
  cases locals with
  | nil => simp [store, List.replicate_succ]
  | cons t ts => simp [store]

namespace Emitter

/-- A point between two statements. -/
structure Level (ctx : MethodContext) (declares : Bool) (scope : TypeScope) (e : Emitter) : Prop
    extends Poised ctx scope ⟨0, 0⟩ e where
  /-- Local variables leave the receiver alone. -/
  behind : ctx.isStatic = false → ∀ l ∈ e.named, 0 < l.slot
  next : declares = true → ctx.isStatic = false → 0 < e.nextLocal

variable {ctx : MethodContext} {declares : Bool} {scope : TypeScope} {e e' : Emitter}

theorem Level.of_same (h : e.Level ctx declares scope) (hpoised : Poised ctx scope ⟨0, 0⟩ e')
    (hnamed : e'.named = e.named) (hnext : e'.nextLocal = e.nextLocal) :
    e'.Level ctx declares scope :=
  ⟨hpoised, hnamed ▸ h.behind, hnext ▸ h.next⟩

end Emitter

namespace Emit

open Emitter

variable {ctx : MethodContext} {declares reached : Bool} {scope scope' : TypeScope} {e e' : Emitter}

/-- The step succeeds between two statements. It places its labels, and `reached` says whether
control goes on. -/
def Passes (ctx : MethodContext) (declares : Bool) (scope : TypeScope) (reached : Bool)
    (step : Emit Unit) (e : Emitter) : Prop :=
  ∃ e', Runs step ctx e () e' ∧ Level ctx declares scope e' ∧ Closes e e' ∧ e'.reachable = reached

/-! ## Simple statements -/

/-- A statement without jumps, behind which control goes on. -/
theorem passes_straight {step : Emit Unit} (h : Completes ctx scope step ⟨0, 0⟩ ⟨0, 0⟩)
    (he : Level ctx declares scope e) (hreachable : e.reachable = true) :
    Passes ctx declares scope true step e := by
  obtain ⟨_, e', hrun, he', hstraight⟩ := h 0 e he.toPoised
  exact ⟨e', hrun, he.of_same he' hstraight.named hstraight.nextLocal, .of_labels hstraight.labels,
    hstraight.reachable.trans hreachable⟩

/-- A value and what is done with it, without jumps. -/
theorem passes_value {x : Expr} {k : Nat} {rest : Emit Unit} (hx : x.yields? ctx scope = some k)
    (hrest : Completes ctx scope rest ⟨k, 0⟩ ⟨0, 0⟩) (he : Level ctx declares scope e)
    (hreachable : e.reachable = true) :
    Passes ctx declares scope true (do expr .value x; rest) e := by
  obtain ⟨e₁, hrun₁, hvalued⟩ := exists_valued hx he.toPoised
  obtain ⟨_, e₂, hrun₂, he₂, hstraight⟩ := hrest 0 e₁ (Height.above_zero _ ▸ hvalued.poised)
  exact ⟨e₂, runs_bind.mpr ⟨_, e₁, hrun₁, hrun₂⟩,
    he.of_same he₂ (hstraight.named.trans hvalued.named)
      (hstraight.nextLocal.trans hvalued.nextLocal),
    hvalued.toCloses.trans (.of_labels hstraight.labels),
    hstraight.reachable.trans (hvalued.reachable hreachable)⟩

/-- An instruction that takes all that lies on the stack. -/
theorem completes_taking (opcode : UInt8) (operand : Operand) (k : Nat) :
    Completes ctx scope (do instruction opcode operand; pop k) ⟨k, 0⟩ ⟨0, 0⟩ := by
  have hpop : Completes ctx scope (pop k) ⟨0 + k, 0 + 2⟩ ⟨0, 0⟩ :=
    (completes_pop k).spend (Nat.zero_le _) (Nat.zero_le _)
  rw [Nat.zero_add] at hpop
  exact completes_instruction.bind fun _ => hpop

/-- The end of control behind a step. -/
theorem Passes.ended {step : Emit Unit} (h : Passes ctx declares scope reached step e) :
    Passes ctx declares scope false (do step; endOfFlow) e := by
  obtain ⟨e', hrun, he', hcloses, -⟩ := h
  exact ⟨_, runs_bind.mpr ⟨(), e', hrun, runs_endOfFlow.mpr rfl⟩, { he' with },
    ⟨hcloses.size, hcloses.old, hcloses.new⟩, rfl⟩

/-! ## Local variables -/

/-- A store changes only a local variable. -/
theorem exists_store {t : TypeName} {slot : Nat} (he : Poised ctx scope ⟨t.slotSize, 0⟩ e)
    (hslot : ctx.isStatic = false → 0 < slot) :
    ∃ e', Runs (store t slot) ctx e () e' ∧ Poised ctx scope ⟨0, 0⟩ e' ∧ e'.named = e.named ∧
      e'.nextLocal = e.nextLocal ∧ e'.labels = e.labels ∧ e'.reachable = e.reachable := by
  have htake : Completes ctx scope (pop t.slotSize) ⟨0 + t.slotSize, 0⟩ ⟨0, 0⟩ :=
    (completes_pop t.slotSize).spend (Nat.zero_le _) (Nat.zero_le _)
  rw [Nat.zero_add] at htake
  have hform : Completes ctx scope (slotInstruction (ValueKind.ofType t).store0
      (ValueKind.ofType t).store slot) ⟨0, 0⟩ ⟨0, 0⟩ :=
    (completes_form (i := storeForm (.ofType t) slot) fun _ _ _ => runs_slotInstruction).spend
      (Nat.le_refl _) (Nat.zero_le _)
  obtain ⟨_, e₁, hrun₁, he₁, hstraight₁⟩ := htake 0 e (Height.above_zero _ ▸ he)
  obtain ⟨_, e₂, hrun₂, he₂, hstraight₂⟩ := hform 0 e₁ he₁
  obtain ⟨vt, e₃, hrun₃, he₃, hstraight₃⟩ :=
    completes_addConstants (verificationType t) 0 e₂ he₂
  have hstraight := (hstraight₁.trans hstraight₂).trans hstraight₃
  refine ⟨_, runs_bind.mpr ⟨_, e₁, hrun₁, runs_bind.mpr ⟨_, e₂, hrun₂,
    runs_bind.mpr ⟨vt, e₃, hrun₃, runs_setLocal.mpr rfl⟩⟩⟩,
    ⟨he₃.stack, he₃.paid, he₃.maxStack, fun hstatic => ?_, he₃.named⟩,
    hstraight.named, hstraight.nextLocal, hstraight.labels, hstraight.reachable⟩
  change ((SlotState.store e₃.slots.locals slot vt.slots).headD .top).isWide = false
  rw [SlotState.headD_store (hslot hstatic)]
  exact he₃.receiver hstatic

theorem passes_setLocal {name : String} {t : TypeName} {value : Expr}
    (ht : scope.type? name = some t) (hvalue : value.yields? ctx scope = some t.slotSize)
    (he : Level ctx declares scope e) (hreachable : e.reachable = true) :
    Passes ctx declares scope true (stmt (.setLocal name value)) e := by
  obtain ⟨l, hl, hfind, rfl⟩ := he.exists_named ht
  obtain ⟨e₁, hrun₁, hvalued⟩ := exists_valued hvalue he.toPoised
  obtain ⟨e₂, hrun₂, he₂, hnamed, hnext, hlabels, hreach⟩ :=
    exists_store hvalued.poised fun hstatic => he.behind hstatic l hl
  rw [stmt]
  exact ⟨e₂, runs_bind.mpr ⟨l, e, runs_findLocal.mpr ⟨hfind, rfl⟩,
    runs_bind.mpr ⟨_, e₁, hrun₁, hrun₂⟩⟩,
    he.of_same he₂ (hnamed.trans hvalued.named) (hnext.trans hvalued.nextLocal),
    hvalued.toCloses.trans (.of_labels hlabels), hreach.trans (hvalued.reachable hreachable)⟩

/-- The emitter with one more local variable. -/
def declared (e : Emitter) (name : String) (t : TypeName) : Emitter :=
  { e with
    nextLocal := e.nextLocal + t.slotSize
    named := { name, slot := e.nextLocal, type := t } :: e.named }

theorem passes_declareLocal {name : String} {t : TypeName} {value : Expr}
    (hvalue : value.yields? ctx scope = some t.slotSize) (he : Level ctx true scope e)
    (hreachable : e.reachable = true) :
    Passes ctx true ((name, some t) :: scope) true (stmt (.declareLocal name t value)) e := by
  obtain ⟨e₁, hrun₁, hvalued⟩ := exists_valued hvalue he.toPoised
  have hpoised := hvalued.poised
  have hnext : ctx.isStatic = false → 0 < e₁.nextLocal := fun hstatic => by
    rw [hvalued.nextLocal]
    exact he.next rfl hstatic
  have hdeclared : Poised ctx ((name, some t) :: scope) ⟨t.slotSize, 0⟩ (declared e₁ name t) :=
    ⟨hpoised.stack, hpoised.paid, hpoised.maxStack, hpoised.receiver,
      by rw [← hpoised.named]; rfl⟩
  obtain ⟨e₂, hrun₂, he₂, hnamed, hnext₂, hlabels, hreach⟩ := exists_store hdeclared hnext
  rw [stmt]
  refine ⟨e₂, runs_bind.mpr ⟨_, e₁, hrun₁, runs_declare_bind.mpr hrun₂⟩, ⟨he₂, ?_, ?_⟩,
    hvalued.toCloses.trans (.of_labels hlabels), hreach.trans (hvalued.reachable hreachable)⟩
  · intro hstatic l hl
    rw [hnamed] at hl
    rcases List.mem_cons.mp hl with rfl | hl
    · exact hnext hstatic
    · exact he.behind hstatic l (hvalued.named ▸ hl)
  · intro _ hstatic
    rw [hnext₂]
    exact Nat.lt_of_lt_of_le (hnext hstatic) (Nat.le_add_right _ _)

/-! ## Blocks -/

/-- A block that is left out if its condition does not hold. -/
theorem passes_ifThen {cond : Expr} {body : List Stmt} (hcond : cond.decides ctx scope = true)
    (hbody : ∀ e₁, Level ctx declares scope e₁ → e₁.reachable = true →
      ∃ reached, Passes ctx declares scope' reached (stmts body) e₁)
    (he : Level ctx declares scope e) (hreachable : e.reachable = true) :
    Passes ctx declares scope' true (stmt (.ifThen cond body)) e := by
  have hknown : e.labels.size < (e.labels.push {}).size := by
    rw [Array.size_push]
    exact Nat.lt_succ_self _
  have hnew : Emitter.info { e with labels := e.labels.push {} } e.labels.size = {} := by
    rw [info_push, info_of_le (Nat.le_refl _)]
  obtain ⟨_, e₁, hrun₁, hjumps⟩ := decides_expr cond hcond e.labels.size
    { e with labels := e.labels.push {} } { he.toPoised with }
    ⟨hknown, fun s hs => by rw [hnew] at hs; cases hs⟩
  have hsize₁ : e₁.labels.size = e.labels.size + 1 := hjumps.size.trans (Array.size_push _)
  obtain ⟨jumped, hjumped⟩ := Option.ne_none_iff_exists'.mp hjumps.jumped
  obtain ⟨reached, e₂, hrun₂, he₂, hcloses, -⟩ := hbody e₁
    (he.of_same hjumps.poised hjumps.named hjumps.nextLocal) (hjumps.reachable.trans hreachable)
  have hskip : e₂.info e.labels.size = e₁.info e.labels.size := hcloses.old _ (by omega)
  have hskipSize : e.labels.size < e₂.labels.size := by
    have := hcloses.size
    omega
  obtain ⟨s, hs, hrun₃⟩ := exists_place (hskip ▸ hjumped) (hjumps.expects.state jumped hjumped)
    fun _ => he₂.at_nil
  refine ⟨joinAt e₂ e.labels.size s, ?_, he₂.of_same ⟨by rw [joinAt, hs.stack]; rfl,
    Nat.zero_le _, he₂.maxStack, hs.receiver, he₂.named⟩ rfl rfl,
    ⟨?_, fun m hm => ?_, fun m hm hlt => ?_⟩, rfl⟩
  · rw [stmt, runs_newLabel_bind]
    exact runs_bind.mpr ⟨_, e₁, hrun₁, runs_bind.mpr ⟨_, e₂, hrun₂, hrun₃⟩⟩
  · rw [size_joinAt]
    exact Nat.le_of_lt hskipSize
  · have hne : m ≠ e.labels.size := Nat.ne_of_lt hm
    rw [info_joinAt_of_ne hne, hcloses.old m (by omega), hjumps.others m hne, info_push]
  · rw [size_joinAt] at hlt
    by_cases hmskip : m = e.labels.size
    · rw [hmskip, info_joinAt hskipSize]
      exact Option.some_ne_none _
    · rw [info_joinAt_of_ne hmskip]
      exact hcloses.new m (by omega) hlt

/-! ## Statements -/

theorem passes_setField {target value : Expr} {field : FieldRef}
    (htarget : target.slots? ctx scope = some 1)
    (hvalue : value.slots? ctx scope = some field.type.slotSize)
    (he : Level ctx declares scope e) (hreachable : e.reachable = true) :
    Passes ctx declares scope true (stmt (.setField target field value)) e := by
  refine passes_straight ?_ he hreachable
  have hput : Completes ctx scope (do
      instruction Opcode.putfield (.short (← fieldRef field))
      pop (1 + field.type.slotSize)) ⟨0 + 1 + field.type.slotSize, 0⟩ ⟨0, 0⟩ := by
    rw [Nat.zero_add]
    exact (completes_addConstants _).bind fun _ => completes_taking _ _ _
  rw [stmt]
  exact (completes_expr target htarget 0).bind fun _ =>
    (completes_expr value hvalue (0 + 1)).bind fun _ => hput

theorem passes_superInit {owner : TypeName} {params : List TypeName} {args : List Expr}
    (hstatic : ctx.isStatic = false)
    (hargs : Expr.haveSlots ctx scope (params.map TypeName.slotSize) args = true)
    (he : Level ctx declares scope e) (hreachable : e.reachable = true) :
    Passes ctx declares scope true (stmt (.superInit owner params args)) e := by
  have hcount := length_of_haveSlots hargs
  rw [List.length_map] at hcount
  have hcall : Completes ctx scope (callConstructor owner params)
      ⟨0 + 1 + (params.map TypeName.slotSize).sum, 0⟩ ⟨0, 0⟩ := by
    have hheight : 0 + 1 + (params.map TypeName.slotSize).sum = 0 + (totalSlots params + 1) := by
      rw [totalSlots_eq]
      omega
    exact hheight ▸ completes_callConstructor owner params 0
  refine passes_straight ?_ he hreachable
  rw [stmt]
  exact (completes_loadThis hstatic 0).bind fun _ => (completes_checkCount hcount).bind fun _ =>
    (completes_exprs args hargs (0 + 1)).bind fun _ => hcall.bind fun _ =>
    .read_bind ((completes_addConstants _).bind fun _ => completes_replaceAll rfl)

/-- A value that is dropped. -/
theorem completes_dropValue (t : TypeName) :
    Completes ctx scope (dropValue t) ⟨t.slotSize, 0⟩ ⟨0, 0⟩ := by
  have hsize : t.slotSize = 0 ∨ t.slotSize = 1 ∨ t.slotSize = 2 := by
    have := t.slotSize_le
    omega
  unfold dropValue
  rcases hsize with h | h | h <;> rw [h]
  · exact .pure
  · exact completes_taking _ _ 1
  · exact completes_taking _ _ 2

theorem passes_expr {value : Expr} {t : TypeName}
    (ht : value.valueType? ctx.className ctx.params = some t)
    (hvalue : value.yields? ctx scope = some t.slotSize) (he : Level ctx declares scope e)
    (hreachable : e.reachable = true) :
    Passes ctx declares scope true (stmt (.expr value)) e := by
  obtain ⟨e', hrun, hpassed⟩ := passes_value hvalue (completes_dropValue t) he hreachable
  obtain ⟨_, e₁, hrun₁, hrun₂⟩ := runs_bind.mp hrun
  rw [stmt]
  exact ⟨e', runs_bind.mpr ⟨_, e₁, hrun₁,
    runs_bind.mpr ⟨t, e₁, runs_typeOf.mpr ⟨ht, rfl⟩, hrun₂⟩⟩, hpassed⟩

/-- A value that is returned or thrown. -/
theorem passes_exit {value : Expr} {k : Nat} (opcode : UInt8)
    (hvalue : value.yields? ctx scope = some k) (he : Level ctx declares scope e)
    (hreachable : e.reachable = true) :
    Passes ctx declares scope false (do
      expr .value value
      instruction opcode
      pop k
      endOfFlow) e := by
  have hended := (passes_value hvalue (completes_taking opcode .empty k) he hreachable).ended
  simpa only [bind_assoc] using hended

theorem passes_return (he : Level ctx declares scope e) (hreachable : e.reachable = true) :
    Passes ctx declares scope false (do instruction Opcode.returnVoid; endOfFlow) e :=
  (passes_straight (completes_instruction.spend (Nat.le_refl _) (Nat.zero_le _)) he
    hreachable).ended

/-- A statement that is reached, with those behind it. -/
theorem passes_cons {s : Stmt} {rest : List Stmt} {reached₁ : Bool} {scope₁ : TypeScope}
    (hreachable : e.reachable = true) (hs : Passes ctx declares scope₁ reached₁ (stmt s) e)
    (hrest : ∀ e₁, Level ctx declares scope₁ e₁ → e₁.reachable = reached₁ →
      Passes ctx declares scope' reached (stmts rest) e₁) :
    Passes ctx declares scope' reached (stmts (s :: rest)) e := by
  obtain ⟨e₁, hrun₁, he₁, hcloses₁, hreachable₁⟩ := hs
  obtain ⟨e₂, hrun₂, he₂, hcloses₂, hreachable₂⟩ := hrest e₁ he₁ hreachable₁
  have hcheck : Runs (checkReachable s) ctx e () e := by
    rw [checkReachable, runs_get_bind, hreachable]
    exact runs_pure.mpr ⟨rfl, rfl⟩
  rw [stmts]
  exact ⟨e₂, runs_bind.mpr ⟨_, e, hcheck, runs_bind.mpr ⟨_, e₁, hrun₁, hrun₂⟩⟩, he₂,
    hcloses₁.trans hcloses₂, hreachable₂⟩

theorem passes_nil (he : Level ctx declares scope e) :
    Passes ctx declares scope e.reachable (stmts []) e := by
  rw [stmts]
  exact ⟨e, runs_pure.mpr ⟨rfl, rfl⟩, he, .of_labels rfl, rfl⟩

mutual

/-- Lowering a statement succeeds, leaves nothing on the stack and places all labels. -/
theorem passes_stmt : (s : Stmt) → {scope scope' : TypeScope} → {e : Emitter} →
    s.scopeAfter? declares ctx scope = some scope' → Level ctx declares scope e →
    e.reachable = true → Passes ctx declares scope' (!s.exits) (stmt s) e
  | .setField target field value, scope, scope', e, h, he, hreachable => by
    rw [Stmt.scopeAfter?, Option.ite_none_right_eq_some, Bool.and_eq_true, beq_iff_eq, beq_iff_eq,
      Option.some.injEq] at h
    obtain ⟨⟨htarget, hvalue⟩, rfl⟩ := h
    exact passes_setField htarget hvalue he hreachable
  | .declareLocal name type value, scope, scope', e, h, he, hreachable => by
    rw [Stmt.scopeAfter?, Option.ite_none_right_eq_some, Bool.and_eq_true, beq_iff_eq,
      Option.some.injEq] at h
    obtain ⟨⟨rfl, hvalue⟩, rfl⟩ := h
    exact passes_declareLocal hvalue he hreachable
  | .setLocal name value, scope, scope', e, h, he, hreachable => by
    rw [Stmt.scopeAfter?, Option.ite_none_right_eq_some, Option.any_eq_true,
      Option.some.injEq] at h
    obtain ⟨⟨t, ht, hvalue⟩, rfl⟩ := h
    exact passes_setLocal ht (beq_iff_eq.mp hvalue) he hreachable
  | .expr value, scope, scope', e, h, he, hreachable => by
    rw [Stmt.scopeAfter?, Option.ite_none_right_eq_some, Option.any_eq_true,
      Option.some.injEq] at h
    obtain ⟨⟨t, ht, hvalue⟩, rfl⟩ := h
    exact passes_expr ht (beq_iff_eq.mp hvalue) he hreachable
  | .ifThen cond body, scope, scope', e, h, he, hreachable => by
    rw [Stmt.scopeAfter?, Option.ite_none_right_eq_some] at h
    exact passes_ifThen h.1 (fun e₁ he₁ hreachable₁ => ⟨_, passes_stmts body h.2 he₁ hreachable₁⟩)
      he hreachable
  | .ret none, scope, scope', e, h, he, hreachable => by
    rw [Stmt.scopeAfter?, Option.ite_none_right_eq_some, Option.some.injEq] at h
    obtain ⟨hvoid, rfl⟩ := h
    obtain ⟨e', hrun, hpassed⟩ := passes_return he hreachable
    refine ⟨e', ?_, hpassed⟩
    rw [stmt, runs_read_bind]
    dsimp only
    rwa [if_neg (by simp [hvoid])]
  | .ret (some value), scope, scope', e, h, he, hreachable => by
    rw [Stmt.scopeAfter?, Option.ite_none_right_eq_some, Bool.and_eq_true, Bool.not_eq_true',
      beq_iff_eq, Option.some.injEq] at h
    obtain ⟨⟨hvoid, hvalue⟩, rfl⟩ := h
    obtain ⟨e', hrun, hpassed⟩ := passes_exit ctx.ret.returnOpcode hvalue he hreachable
    refine ⟨e', ?_, hpassed⟩
    rw [stmt, runs_read_bind]
    dsimp only
    rwa [if_neg (by simp [hvoid])]
  | .throw value, scope, scope', e, h, he, hreachable => by
    rw [Stmt.scopeAfter?, Option.ite_none_right_eq_some, beq_iff_eq, Option.some.injEq] at h
    obtain ⟨hvalue, rfl⟩ := h
    rw [stmt]
    exact passes_exit Opcode.athrow hvalue he hreachable
  | .superInit owner params args, scope, scope', e, h, he, hreachable => by
    rw [Stmt.scopeAfter?, Option.ite_none_right_eq_some, Bool.and_eq_true, Bool.not_eq_true',
      Option.some.injEq] at h
    obtain ⟨⟨hstatic, hargs⟩, rfl⟩ := h
    exact passes_superInit hstatic hargs he hreachable

theorem passes_stmts : (ss : List Stmt) → {scope scope' : TypeScope} → {e : Emitter} →
    Stmt.scopeAfterAll? declares ctx scope ss = some scope' → Level ctx declares scope e →
    e.reachable = true → Passes ctx declares scope' (!Stmt.exitsAll ss) (stmts ss) e
  | [], scope, scope', e, h, he, hreachable => by
    rw [Stmt.scopeAfterAll?, Option.some.injEq] at h
    rw [Stmt.exitsAll, List.getLast?_nil, Option.any_none, Bool.not_false, ← hreachable, ← h]
    exact passes_nil he
  | s :: rest, scope, scope', e, h, he, hreachable => by
    rw [Stmt.scopeAfterAll?, Option.ite_none_left_eq_some, Option.bind_eq_some_iff] at h
    obtain ⟨hlast, scope₁, hs, hrest⟩ := h
    refine passes_cons hreachable (passes_stmt s hs he hreachable) fun e₁ he₁ hreachable₁ => ?_
    cases rest with
    | nil =>
      rw [Stmt.scopeAfterAll?, Option.some.injEq] at hrest
      rw [Stmt.exitsAll, List.getLast?_singleton, Option.any_some, ← hreachable₁, ← hrest]
      exact passes_nil he₁
    | cons t rest =>
      have hexits : s.exits = false := by simpa using hlast
      rw [Stmt.exitsAll, List.getLast?_cons_cons, ← Stmt.exitsAll]
      exact passes_stmts (t :: rest) hrest he₁ (by rw [hreachable₁, hexits]; rfl)

end

end Emit

end ClassSynth

import ClassSynth.Proofs.Execution.LocalVariables

/-!
# Statements on the machine

The code of scalar statements does on the machine what the statements do: where they go on, the
machine gets to what follows, with the values of the new environment in the local variables, and
where they return, it returns their value (`proceeds_stmts`).

`tidy_stmts` comes first: whatever happens when the code runs, lowering gives each declared variable
a slot of its own.
-/

namespace ClassSynth.Machine

open Emit Emitter Scalar

variable {ctx : MethodContext} {e e' : Emitter}

/-! ## Statements taken apart -/

theorem of_declareLocal {name : String} {t : TypeName} {value : Expr} {k : Kind}
    (ht : kindOf? t = some k) (hrun : Runs (stmt (.declareLocal name t value)) ctx e () e') :
    ∃ e₁, Runs (expr .value value) ctx e () e₁ ∧ Steps true 0 e₁ e' ∧
      Stored { e₁ with
        nextLocal := e₁.nextLocal + t.slotSize
        named := { name, slot := e₁.nextLocal, type := t } :: e₁.named } e' t e₁.nextLocal := by
  rw [stmt] at hrun
  obtain ⟨_, e₁, hvalue, hrun⟩ := runs_bind.mp hrun
  rw [runs_declare_bind] at hrun
  have hstore : Steps true 0 _ e' := advances_store t e₁.nextLocal ctx _ _ e' (Nat.zero_le _) hrun
  exact ⟨e₁, hvalue, .head (.named e₁ _ _ rfl) hstore, stored_of_store ht hrun⟩

theorem of_setLocal {name : String} {value : Expr}
    (hrun : Runs (stmt (.setLocal name value)) ctx e () e') :
    ∃ l e₁, e.named.find? (·.name == name) = some l ∧ Runs (expr .value value) ctx e () e₁ ∧
      Runs (store l.type l.slot) ctx e₁ () e' := by
  rw [stmt] at hrun
  obtain ⟨l, e₀, hfindRun, hrest⟩ := runs_bind.mp hrun
  obtain ⟨hfind, hsame⟩ := runs_findLocal.mp hfindRun
  rw [hsame] at hrest
  obtain ⟨_, e₁, hvalue, hstore⟩ := runs_bind.mp hrest
  exact ⟨l, e₁, hfind, hvalue, hstore⟩

theorem of_exprStmt {value : Expr} (hrun : Runs (stmt (.expr value)) ctx e () e') :
    ∃ e₁ t, Runs (expr .value value) ctx e () e₁ ∧
      value.valueType? ctx.className ctx.params = some t ∧ Runs (dropValue t) ctx e₁ () e' := by
  rw [stmt] at hrun
  obtain ⟨_, e₁, hvalue, hrest⟩ := runs_bind.mp hrun
  obtain ⟨t, e₂, htype, hdrop⟩ := runs_bind.mp hrest
  obtain ⟨ht, hsame⟩ := runs_typeOf.mp htype
  rw [hsame] at hdrop
  exact ⟨e₁, t, hvalue, ht, hdrop⟩

/-- The states on the way through a conditional statement. -/
theorem of_ifThen {cond : Expr} {body : List Stmt}
    (hrun : Runs (stmt (.ifThen cond body)) ctx e () e') :
    ∃ e₁ e₂, Runs (expr (.jumpIfFalse e.labels.size) cond) ctx { e with labels := e.labels.push {} }
        () e₁ ∧ Runs (stmts body) ctx e₁ () e₂ ∧ Runs (place e.labels.size) ctx e₂ () e' ∧
      Steps false (e.labels.size + 1) { e with labels := e.labels.push {} } e₁ ∧
      Steps true (e.labels.size + 1) e₁ e₂ ∧ Steps false 0 e₂ e' := by
  rw [stmt, runs_newLabel_bind] at hrun
  obtain ⟨_, e₁, hcond, hrest⟩ := runs_bind.mp hrun
  obtain ⟨_, e₂, hbody, hplace⟩ := runs_bind.mp hrest
  have hto₁ : Steps false (e.labels.size + 1) { e with labels := e.labels.push {} } e₁ :=
    advances_expr cond _ (.jumpIfFalse e.labels.size) (Nat.lt_succ_self _) ctx _ _ e₁ (by simp)
      hcond
  have hto₂ := advances_stmts body (e.labels.size + 1) ctx _ _ e₂
    (Nat.le_trans (by simp) hto₁.size_labels_le) hbody
  have hto : Steps true (e.labels.size + 1) { e with labels := e.labels.push {} } e₂ :=
    (hto₁.mono (fun _ => rfl) (Nat.le_refl _)).trans hto₂
  exact ⟨e₁, e₂, hcond, hbody, hplace, hto₁, hto₂, steps_placeNew hto hplace (Nat.zero_le _)⟩

theorem of_retVoid (hrun : Runs (stmt (.ret none)) ctx e () e') :
    e' = { e.append ⟨Opcode.returnVoid, .empty⟩ with reachable := false } := by
  rw [stmt, runs_read_bind] at hrun
  by_cases hvoid : ctx.ret.isVoid = true
  · simpa [hvoid] using hrun
  · simp only [hvoid, Bool.not_false, if_true] at hrun
    obtain ⟨_, _, hfail, _⟩ := runs_bind.mp hrun
    exact absurd hfail runs_fail

theorem of_retValue {value : Expr} (hrun : Runs (stmt (.ret (some value))) ctx e () e') :
    ∃ e₁ s, Runs (expr .value value) ctx e () e₁ ∧
      e' = { e₁.append ⟨ctx.ret.returnOpcode, .empty⟩ with slots := s, reachable := false } := by
  rw [stmt, runs_read_bind] at hrun
  by_cases hvoid : ctx.ret.isVoid = true
  · simp only [hvoid, if_true] at hrun
    obtain ⟨_, _, hfail, _⟩ := runs_bind.mp hrun
    exact absurd hfail runs_fail
  · simp only [hvoid] at hrun
    obtain ⟨_, e₁, hvalue, hrest⟩ := runs_bind.mp hrun
    rw [runs_instruction_bind, runs_pop_bind] at hrest
    obtain ⟨s, _, hrest⟩ := hrest
    rw [runs_endOfFlow] at hrest
    exact ⟨e₁, s, hvalue, hrest⟩

theorem of_checkReachable {s : Stmt} {u : Unit} (hrun : Runs (checkReachable s) ctx e u e') :
    e.reachable = true ∧ e' = e := by
  unfold checkReachable at hrun
  rw [runs_get_bind] at hrun
  by_cases hreachable : e.reachable = true
  · simpa [hreachable] using hrun
  · simp [hreachable] at hrun

/-! ## Slots -/

theorem kind_of_declareLocal {name : String} {t : TypeName} {value : Expr}
    {scope after : KindScope} (h : (Stmt.declareLocal name t value).scope? ctx scope = some after) :
    ∃ k, value.kind? ctx.params scope = some k ∧ kindOf? t = some k ∧
      after = (name, k) :: scope := by
  rw [Stmt.scope?] at h
  split at h
  · next k hk =>
    split_ifs at h with ht
    exact ⟨k, hk, ht, (Option.some.inj h).symm⟩
  · cases h

theorem kind_of_setLocal {name : String} {value : Expr} {scope after : KindScope}
    (h : (Stmt.setLocal name value).scope? ctx scope = some after) :
    ∃ k, value.kind? ctx.params scope = some k ∧ scope.lookup name = some k := by
  rw [Stmt.scope?] at h
  split at h
  · next k hk =>
    split_ifs at h with hlookup
    exact ⟨k, hk, hlookup⟩
  · cases h

theorem kind_of_ret {value : Expr} {scope after : KindScope}
    (h : (Stmt.ret (some value)).scope? ctx scope = some after) :
    ∃ k, value.kind? ctx.params scope = some k ∧ kindOf? ctx.ret = some k := by
  rw [Stmt.scope?] at h
  split at h
  · next k hk =>
    split_ifs at h with hret
    exact ⟨k, hk, hret⟩
  · cases h

theorem kinds_of_ifThen {cond : Expr} {body : List Stmt} {scope after : KindScope}
    (h : (Stmt.ifThen cond body).scope? ctx scope = some after) :
    cond.kind? ctx.params scope = some .bool ∧
      ∃ inner, Stmt.scopeAll? ctx scope body = some inner := by
  rw [Stmt.scope?] at h
  split_ifs at h with hkinds
  exact ⟨hkinds.1, Option.isSome_iff_exists.mp hkinds.2⟩

variable {entry : Nat}

/-- Changes that name no local variable. -/
theorem tidy_of_steps {floor : Nat} {names : List String} (h : Tidy entry e)
    (hto : Steps false floor e e') : Tidy entry e' ∧ Grown e e' names :=
  ⟨h.of_steps hto, [], hto.sameLocals.named, by simp⟩

mutual

theorem tidy_stmt : (s : Stmt) → {scope after : KindScope} → {e e' : Emitter} →
    s.scope? ctx scope = some after → Runs (stmt s) ctx e () e' → Tidy entry e →
    Tidy entry e' ∧ Grown e e' s.declared
  | .declareLocal name t value, scope, after, e, e', hscope, hrun, h => by
    obtain ⟨k, _, ht, _⟩ := kind_of_declareLocal hscope
    obtain ⟨e₁, hvalue, _, hstored⟩ := of_declareLocal ht hrun
    have hto : Steps false _ e e₁ :=
      advances_expr value _ .value trivial ctx _ _ e₁ (Nat.le_refl _) hvalue
    refine ⟨(h.of_steps hto).declare ht hstored, [⟨name, e₁.nextLocal, t⟩], ?_, ?_⟩
    · rw [hstored.named, hto.sameLocals.named]
      rfl
    · simp [Stmt.declared]
  | .setLocal name value, scope, after, e, e', hscope, hrun, h => by
    obtain ⟨l, e₁, hl, hvalue, hstore⟩ := of_setLocal hrun
    have hto : Steps false _ e e₁ :=
      advances_expr value _ .value trivial ctx _ _ e₁ (Nat.le_refl _) hvalue
    have hmem := (name_of_find? hl).2
    obtain ⟨k, hk⟩ := Option.isSome_iff_exists.mp (h.scalar l hmem)
    have hstored := stored_of_store hk hstore
    have hslot : l.slot < e₁.nextLocal := by
      rw [hto.sameLocals.nextLocal]
      exact (h.bounds l hmem).2
    exact ⟨(h.of_steps hto).of_stored hstored hslot, [],
      hstored.named.trans hto.sameLocals.named, by simp⟩
  | .expr value, scope, after, e, e', hscope, hrun, h => by
    obtain ⟨e₁, t, hvalue, _, hdrop⟩ := of_exprStmt hrun
    have hto : Steps false 0 e e₁ :=
      (advances_expr value _ .value trivial ctx _ _ e₁ (Nat.le_refl _) hvalue).lower (Nat.zero_le _)
    have hto' : Steps false 0 e₁ e' := advances_dropValue t ctx _ _ e' (Nat.zero_le _) hdrop
    exact tidy_of_steps h (hto.trans hto')
  | .ifThen cond body, scope, after, e, e', hscope, hrun, h => by
    obtain ⟨_, inner, hinner⟩ := kinds_of_ifThen hscope
    obtain ⟨e₁, e₂, _, hbody, _, hto₁, _, hto₃⟩ := of_ifThen hrun
    have hlabel : Steps false (e.labels.size + 1) e { e with labels := e.labels.push {} } :=
      .single (.newLabel e)
    have htidy₁ := h.of_steps (hlabel.trans hto₁)
    obtain ⟨htidy₂, hgrown⟩ := tidy_stmts body hinner hbody htidy₁
    obtain ⟨new, hnew, hnames⟩ := hgrown
    refine ⟨htidy₂.of_steps hto₃, new, ?_, ?_⟩
    · rw [hto₃.sameLocals.named, hnew, (hlabel.trans hto₁).sameLocals.named]
    · simpa [Stmt.declared] using hnames
  | .ret none, scope, after, e, e', hscope, hrun, h => by
    obtain rfl := of_retVoid hrun
    have hto : Steps false 0 e
        { e.append ⟨Opcode.returnVoid, .empty⟩ with slots := e.slots, reachable := false } :=
      .single (.exit e _ e.slots (plain_simple rfl))
    exact tidy_of_steps h hto
  | .ret (some value), scope, after, e, e', hscope, hrun, h => by
    obtain ⟨e₁, s, hvalue, rfl⟩ := of_retValue hrun
    have hto : Steps false _ e e₁ :=
      advances_expr value _ .value trivial ctx _ _ e₁ (Nat.le_refl _) hvalue
    exact tidy_of_steps h (hto.tail (.exit e₁ _ s (plain_ret _)))
  | .setField .., _, _, _, _, hscope, _, _ => by simp [Stmt.scope?] at hscope
  | .throw _, _, _, _, _, hscope, _, _ => by simp [Stmt.scope?] at hscope
  | .superInit .., _, _, _, _, hscope, _, _ => by simp [Stmt.scope?] at hscope

theorem tidy_stmts : (body : List Stmt) → {scope after : KindScope} → {e e' : Emitter} →
    Stmt.scopeAll? ctx scope body = some after → Runs (stmts body) ctx e () e' → Tidy entry e →
    Tidy entry e' ∧ Grown e e' (Stmt.declaredAll body)
  | [], _, _, e, e', _, hrun, h => by
    rw [stmts] at hrun
    obtain ⟨_, rfl⟩ := runs_pure.mp hrun
    exact ⟨h, Grown.refl e' _⟩
  | s :: rest, scope, after, e, e', hscope, hrun, h => by
    rw [Stmt.scopeAll?] at hscope
    obtain ⟨middle, hs, hrest⟩ := Option.bind_eq_some_iff.mp hscope
    rw [stmts] at hrun
    obtain ⟨_, e₀, hcheck, hrun⟩ := runs_bind.mp hrun
    rw [(of_checkReachable hcheck).2] at hrun
    obtain ⟨_, e₁, hstmt, hrunRest⟩ := runs_bind.mp hrun
    obtain ⟨htidy₁, hgrown₁⟩ := tidy_stmt s hs hstmt h
    obtain ⟨htidy₂, hgrown₂⟩ := tidy_stmts rest hrest hrunRest htidy₁
    refine ⟨htidy₂, ?_⟩
    rw [Stmt.declaredAll]
    exact hgrown₁.trans hgrown₂

end

/-! ## Flow -/

/-- What the code between the emitters does: it goes on with the values of an environment in the
local variables, or the method returns. -/
def Proceeds (f : Emitter) (bytes : Bytes) (ctx : MethodContext) (args : List Scalar)
    (e e' : Emitter) (locals : List Value) : Flow → Prop
  | .next env => e'.reachable = true ∧ ∃ locals', locals'.length = locals.length ∧
      Holds ctx args env e'.named locals' ∧
      Reaches bytes f.pool (stateAt f e locals []) (stateAt f e' locals' [])
  | .returned value? =>
    Returns bytes f.pool (stateAt f e locals []) (value?.map Scalar.encode)

/-- The machine stands in front of a statement. -/
structure Ready (f e : Emitter) (ctx : MethodContext) (args : List Scalar) (env : Bindings)
    (locals : List Value) : Prop where
  tidy : Tidy (ctx.receiverSlots + args.length) e
  holds : Holds ctx args env e.named locals
  room : f.maxLocals ≤ locals.length
  reachable : e.reachable = true

variable {f : Emitter} {bytes : Bytes} {args : List Scalar} {env : Bindings} {locals : List Value}

/-- The value on the stack goes into a local variable. -/
theorem step_store (hf : Finished f bytes) {e₁ : Emitter} {t : TypeName} {slot : Nat} {v : Scalar}
    (ht : kindOf? t = some v.kind) (hstored : Stored e₁ e' t slot) (h : Steps true 0 e' f)
    (hslot : slot < locals.length) (hlocals : locals.length ≤ 65535) :
    step bytes f.pool (stateAt f e₁ locals [v.encode])
      = some (.running (stateAt f e' (locals.set slot v.encode) [])) := by
  have hof := ofKind_of_kindOf? ht
  have hop : operation? (storeForm (ValueKind.ofType t) slot)
      = some (.store (ValueKind.ofType t) slot) := by
    refine operation?_storeForm ?_ (by omega)
    rw [hof.valueKind]
    exact known_valueKind _
  rw [step_append hf (plain_storeForm _ slot) hstored.code h hop]
  have hkind : v.encode.kind = ValueKind.ofType t := by rw [hof.valueKind, kind_encode]
  simp only [Operation.apply, stateAt, hkind, hslot, and_self, if_true]

/-- The value of an expression goes into a local variable. -/
theorem reaches_stored (hf : Finished f bytes) {e₁ e₂ : Emitter} {t : TypeName} {slot : Nat}
    {v : Scalar} (ht : kindOf? t = some v.kind) (hpush : Pushes f bytes e e₁ locals v.encode)
    (hstored : Stored e₂ e' t slot) (hcode : e₂.code = e₁.code) (h : Steps true 0 e' f)
    (hslot : slot < locals.length) (hlocals : locals.length ≤ 65535) :
    Reaches bytes f.pool (stateAt f e locals [])
      (stateAt f e' (locals.set slot v.encode) []) := by
  refine (hpush.path []).tail ?_
  have hsame : stateAt f e₁ locals [v.encode] = stateAt f e₂ locals [v.encode] := by
    rw [stateAt, stateAt, hcode]
  rw [hsame]
  exact step_store hf ht hstored h hslot hlocals

/-- At the end of a block its local variables go out of scope. -/
theorem Holds.leave {inner rest : Bindings} {named : List NamedLocal}
    (h : Holds ctx args (inner ++ rest) named locals)
    (hdisjoint : ∀ name v, rest.lookup name = some v → inner.lookup name = none) :
    Holds ctx args rest named locals where
  args := h.args
  vars := by
    intro name v hv
    refine h.vars name v ?_
    rw [List.lookup_append, hdisjoint name v hv, Option.none_or, hv]
  length := h.length

theorem lookup_eq_none_of_names {inner : Bindings} {name : String}
    (h : ∀ entry ∈ inner.kinds, entry.1 ≠ name) : inner.lookup name = none := by
  rw [List.lookup_eq_none_iff]
  intro entry hentry
  have hne := h (entry.1, entry.2.kind) (List.mem_map_of_mem hentry)
  exact bne_iff_ne.mpr (Ne.symm hne)

theorem proceeds_drop (hf : Finished f bytes) {e₁ : Emitter} {t : TypeName} {v : Scalar}
    (ht : kindOf? t = some v.kind) (hpush : Pushes f bytes e e₁ locals v.encode)
    (hrun : Runs (dropValue t) ctx e₁ () e') (h : Steps true 0 e' f)
    (hholds : Holds ctx args env e₁.named locals) :
    Proceeds f bytes ctx args e e' locals (.next env) := by
  have hsize := (ofKind_of_kindOf? ht).slotSize
  simp only [dropValue, hsize] at hrun
  rw [runs_instruction_bind, runs_pop] at hrun
  obtain ⟨s, _, rfl⟩ := hrun
  refine ⟨hpush.reachable, locals, rfl, hholds, (hpush.path []).tail ?_⟩
  exact step_append (e := e₁) hf (plain_simple rfl) rfl h (rfl : operation? _ = some .pop)

theorem returns_value (hf : Finished f bytes) {e₁ : Emitter} {t : TypeName} {v : Scalar}
    (ht : kindOf? t = some v.kind) (hpush : Pushes f bytes e e₁ locals v.encode)
    (hcode : e'.code = e₁.code.push ⟨t.returnOpcode, .empty⟩) (h : Steps true 0 e' f) :
    Returns bytes f.pool (stateAt f e locals []) (some v.encode) := by
  have hof := ofKind_of_kindOf? ht
  have hop : operation? ⟨t.returnOpcode, .empty⟩ = some (.ret (some (ValueKind.ofType t))) := by
    refine operation?_ret ?_
    rw [hof.valueKind]
    exact known_valueKind _
  refine returns_of_reaches (hpush.path []) (returns_of_step ?_)
  rw [step_append hf (plain_ret _) hcode h hop]
  have hkind : v.encode.kind = ValueKind.ofType t := by rw [hof.valueKind, kind_encode]
  simp only [Operation.apply, stateAt, hkind, if_true]

theorem returns_void (hf : Finished f bytes)
    (hcode : e'.code = e.code.push ⟨Opcode.returnVoid, .empty⟩) (h : Steps true 0 e' f) :
    Returns bytes f.pool (stateAt f e locals []) none :=
  returns_of_step (step_append hf (plain_simple rfl) hcode h
    (rfl : operation? _ = some (.ret none)))

/-- Expressions leave the machine ready. -/
theorem Ready.of_steps {floor : Nat} (h : Ready f e ctx args env locals)
    (hto : Steps false floor e e') (hreachable : e'.reachable = true) :
    Ready f e' ctx args env locals where
  tidy := h.tidy.of_steps hto
  holds := h.holds.of_steps hto
  room := h.room
  reachable := hreachable

/-- The code of an expression pushes its value. -/
theorem Ready.pushes (hready : Ready f e ctx args env locals) (hf : Finished f bytes)
    (hparams : ∀ t ∈ ctx.params, (kindOf? t).isSome) (hargs : Arguments ctx.params args)
    {value : Expr} {k : Kind} (hk : value.kind? ctx.params env.kinds = some k) {v : Scalar}
    (hv : value.evaluate args env = some v) (hrun : Runs (expr .value value) ctx e () e')
    (h : Steps true 0 e' f) : Pushes f bytes e e' locals v.encode :=
  achieves_expr hf hparams hargs value .value k e e' hk (fun hne => absurd rfl hne) trivial hrun h
    hready.reachable hready.holds v hv

mutual

/-- The code of a statement does what the statement does. -/
theorem proceeds_stmt (hf : Finished f bytes)
    (hparams : ∀ t ∈ ctx.params, (kindOf? t).isSome) (hargs : Arguments ctx.params args) :
    (s : Stmt) → {env : Bindings} → {after : KindScope} → {e e' : Emitter} →
    {locals : List Value} → s.scope? ctx env.kinds = some after → s.declared.Nodup →
    (∀ name ∈ s.declared, name ∉ e.named.map (·.name)) → Runs (stmt s) ctx e () e' →
    Steps true 0 e' f → Ready f e ctx args env locals →
    {flow : Flow} → s.execute args env = some flow → Proceeds f bytes ctx args e e' locals flow
  | .declareLocal name t value, env, after, e, e', locals, hscope, _, _, hrun, h, hready, flow,
      hflow => by
    obtain ⟨k, hk, ht, _⟩ := kind_of_declareLocal hscope
    rw [Stmt.execute] at hflow
    obtain ⟨v, hv, rfl⟩ := Option.map_eq_some_iff.mp hflow
    obtain rfl := Expr.kind_of_evaluate hargs hk hv
    obtain ⟨e₁, hvalue, hstore, hstored⟩ := of_declareLocal ht hrun
    have hto : Steps false _ e e₁ :=
      advances_expr value _ .value trivial ctx _ _ e₁ (Nat.le_refl _) hvalue
    have hpush := hready.pushes hf hparams hargs hk hv hvalue (hstore.trans h)
    have hready₁ := hready.of_steps hto hpush.reachable
    have hslot : e₁.nextLocal < locals.length := by
      have hmax := hstored.maxLocals
      have hle := h.maxLocals_le
      have hroom := hready.room
      omega
    refine ⟨hstored.reachable.trans hpush.reachable, locals.set e₁.nextLocal v.encode,
      List.length_set, ?_,
      reaches_stored hf ht hpush hstored rfl h hslot hready.holds.length⟩
    rw [hstored.named]
    exact hready₁.holds.declare (l := ⟨name, e₁.nextLocal, t⟩) ht
      (fun l hl => (hready₁.tidy.bounds l hl).2) hready₁.tidy.entry_le hslot
  | .setLocal name value, env, after, e, e', locals, hscope, _, _, hrun, h, hready, flow,
      hflow => by
    obtain ⟨k, hk, hlookup⟩ := kind_of_setLocal hscope
    rw [Stmt.execute] at hflow
    obtain ⟨v, hv, rfl⟩ := Option.map_eq_some_iff.mp hflow
    obtain rfl := Expr.kind_of_evaluate hargs hk hv
    rw [Bindings.lookup_kinds] at hlookup
    obtain ⟨w, hw, hkind⟩ := Option.map_eq_some_iff.mp hlookup
    obtain ⟨l, e₁, hl, hvalue, hstore⟩ := of_setLocal hrun
    obtain ⟨l', hl', ht, _⟩ := hready.holds.vars name w hw
    obtain rfl : l = l' := Option.some.inj (hl.symm.trans hl')
    rw [hkind] at ht
    have hto : Steps false _ e e₁ :=
      advances_expr value _ .value trivial ctx _ _ e₁ (Nat.le_refl _) hvalue
    have hstore' : Steps true 0 e₁ e' := advances_store _ _ ctx _ _ e' (Nat.zero_le _) hstore
    have hstored := stored_of_store ht hstore
    have hpush := hready.pushes hf hparams hargs hk hv hvalue (hstore'.trans h)
    have hready₁ := hready.of_steps hto hpush.reachable
    have hbounds := hready.tidy.bounds l (name_of_find? hl).2
    have hslot : l.slot < locals.length := by
      have hmax := hstored.maxLocals
      have hle := h.maxLocals_le
      have hroom := hready.room
      omega
    refine ⟨hstored.reachable.trans hpush.reachable, locals.set l.slot v.encode, List.length_set,
      ?_, reaches_stored hf ht hpush hstored rfl h hslot hready.holds.length⟩
    rw [hstored.named, hto.sameLocals.named]
    exact hready.holds.assign hl hw hkind.symm hready.tidy.slots hbounds.1 hslot
  | .expr value, env, after, e, e', locals, hscope, _, _, hrun, h, hready, flow, hflow => by
    rw [Stmt.scope?] at hscope
    split_ifs at hscope with hkinds
    obtain ⟨k, hk⟩ := Option.isSome_iff_exists.mp hkinds
    rw [Stmt.execute] at hflow
    obtain ⟨v, hv, rfl⟩ := Option.map_eq_some_iff.mp hflow
    obtain rfl := Expr.kind_of_evaluate hargs hk hv
    obtain ⟨e₁, t, hvalue, ht, hdrop⟩ := of_exprStmt hrun
    have hto : Steps false _ e e₁ :=
      advances_expr value _ .value trivial ctx _ _ e₁ (Nat.le_refl _) hvalue
    have hdropped : Steps true 0 e₁ e' := advances_dropValue t ctx _ _ e' (Nat.zero_le _) hdrop
    have hpush := hready.pushes hf hparams hargs hk hv hvalue (hdropped.trans h)
    exact proceeds_drop hf (kindOf?_valueType hk ht) hpush hdrop h
      (hready.of_steps hto hpush.reachable).holds
  | .ifThen cond body, env, after, e, e', locals, hscope, honce, hfresh, hrun, h, hready, flow,
      hflow => by
    obtain ⟨hcond, inner, hinner⟩ := kinds_of_ifThen hscope
    obtain ⟨e₁, e₂, hcondRun, hbody, hplace, hto₁, hto₂, hto₃⟩ := of_ifThen hrun
    have hlabel : Steps false (e.labels.size + 1) e { e with labels := e.labels.push {} } :=
      .single (.newLabel e)
    have h₂ : Steps true 0 e₂ f := hto₃.weaken.trans h
    have h₁ : Steps true 0 e₁ f := hto₂.weaken.trans h₂
    obtain ⟨v, hv, hkind⟩ := cond.exists_evaluate hargs hcond
    obtain ⟨b, rfl⟩ := eq_bool_of_kind hkind
    have hlt : e.labels.size < (e.labels.push {}).size := by simp
    have hlt₂ : e.labels.size < e₂.labels.size :=
      Nat.lt_of_lt_of_le hlt (Nat.le_trans hto₁.size_labels_le hto₂.size_labels_le)
    obtain ⟨b', hb', hdecides⟩ := achieves_expr hf hparams hargs cond (.jumpIfFalse e.labels.size)
      .bool { e with labels := e.labels.push {} } e₁ hcond (fun _ => rfl) hlt hcondRun h₁
        hready.reachable hready.holds _ hv
    obtain rfl := Scalar.bool.inj hb'
    obtain ⟨hcode, htarget, hreach⟩ := of_place hplace h hlt₂
    -- the local variables of the block are new
    obtain ⟨htidy₂, new, hnew, hnames⟩ :=
      tidy_stmts body hinner hbody (hready.tidy.of_steps (hlabel.trans hto₁))
    have hnamed : e'.named = new ++ e.named := by
      rw [hto₃.sameLocals.named, hnew, (hlabel.trans hto₁).sameLocals.named]
    have hfreshNew : ∀ l ∈ new, l.name ∉ e.named.map (·.name) :=
      fun l hl => hfresh l.name (hnames l hl)
    rw [Stmt.execute, hv] at hflow
    cases b with
    | false =>
      obtain rfl := Option.some.inj hflow
      obtain ⟨hstate, hpath⟩ := hdecides.failing rfl
      refine ⟨hreach (.inr (hto₂.state hstate)), locals, rfl, ?_, ?_⟩
      · rw [hnamed]
        exact hready.holds.grow hfreshNew
      · have hpath := hpath []
        rw [htarget, ← hcode] at hpath
        exact hpath
    | true =>
      obtain ⟨hreach₁, hpath⟩ := hdecides.holding rfl
      obtain ⟨flow', hflow', rfl⟩ := Option.map_eq_some_iff.mp hflow
      have hready₁ : Ready f e₁ ctx args env locals := hready.of_steps (hlabel.trans hto₁) hreach₁
      have hfresh₁ : ∀ name ∈ Stmt.declaredAll body, name ∉ e₁.named.map (·.name) := by
        rw [(hlabel.trans hto₁).sameLocals.named]
        exact hfresh
      have hproceeds := proceeds_stmts hf hparams hargs body hinner honce hfresh₁ hbody h₂ hready₁
        hflow'
      cases flow' with
      | returned value? => exact returns_of_reaches (hpath []) hproceeds
      | next env' =>
        obtain ⟨hreach₂, locals', hlength, hholds, hgo⟩ := hproceeds
        refine ⟨hreach (.inl hreach₂), locals', hlength, ?_, ?_⟩
        · obtain ⟨flow', hflow'', hof⟩ := Stmt.exists_executeAll hargs body hinner
          obtain rfl := Option.some.inj (hflow'.symm.trans hflow'')
          obtain ⟨more, hmore, hdeclared⟩ := Stmt.scope_of_scopeAll? hinner
          have hkinds : env'.kinds = more ++ env.kinds := Eq.trans hof hmore
          obtain ⟨inside, rest, rfl, hinside, hrest, hdrop⟩ := Bindings.exists_append hkinds
          rw [hdrop, hto₃.sameLocals.named]
          refine hholds.leave fun name v hv => lookup_eq_none_of_names ?_
          rw [hinside]
          rintro entry hentry rfl
          -- a name in scope before the block is not declared in it
          have hlookup := congrArg (Option.map Scalar.kind) hv
          rw [← Bindings.lookup_kinds, hrest, Bindings.lookup_kinds] at hlookup
          obtain ⟨w, hw, _⟩ := Option.map_eq_some_iff.mp hlookup
          exact hfresh _ (hdeclared entry hentry) (hready.holds.name_mem hw)
        · have hsame : stateAt f e' locals' [] = stateAt f e₂ locals' [] := by
            rw [stateAt, stateAt, hcode]
          rw [hsame]
          exact (hpath []).trans hgo
  | .ret none, env, after, e, e', locals, _, _, _, hrun, h, _, flow, hflow => by
    rw [Stmt.execute] at hflow
    obtain rfl := Option.some.inj hflow
    exact returns_void hf (congrArg Emitter.code (of_retVoid hrun)) h
  | .ret (some value), env, after, e, e', locals, hscope, _, _, hrun, h, hready, flow, hflow => by
    obtain ⟨k, hk, ht⟩ := kind_of_ret hscope
    rw [Stmt.execute] at hflow
    obtain ⟨v, hv, rfl⟩ := Option.map_eq_some_iff.mp hflow
    obtain rfl := Expr.kind_of_evaluate hargs hk hv
    obtain ⟨e₁, s, hvalue, rfl⟩ := of_retValue hrun
    have hexit : Steps true 0 e₁
        { e₁.append ⟨ctx.ret.returnOpcode, .empty⟩ with slots := s, reachable := false } :=
      .single (.exit e₁ _ s (plain_ret _))
    have hpush := hready.pushes hf hparams hargs hk hv hvalue (hexit.trans h)
    exact returns_value hf ht hpush rfl h
  | .setField .., _, _, _, _, _, hscope, _, _, _, _, _, _, _ => by simp [Stmt.scope?] at hscope
  | .throw _, _, _, _, _, _, hscope, _, _, _, _, _, _, _ => by simp [Stmt.scope?] at hscope
  | .superInit .., _, _, _, _, _, hscope, _, _, _, _, _, _, _ => by simp [Stmt.scope?] at hscope

/-- The code of statements does what the statements do. -/
theorem proceeds_stmts (hf : Finished f bytes)
    (hparams : ∀ t ∈ ctx.params, (kindOf? t).isSome) (hargs : Arguments ctx.params args) :
    (body : List Stmt) → {env : Bindings} → {after : KindScope} → {e e' : Emitter} →
    {locals : List Value} → Stmt.scopeAll? ctx env.kinds body = some after →
    (Stmt.declaredAll body).Nodup →
    (∀ name ∈ Stmt.declaredAll body, name ∉ e.named.map (·.name)) →
    Runs (stmts body) ctx e () e' → Steps true 0 e' f → Ready f e ctx args env locals →
    {flow : Flow} → Stmt.executeAll args env body = some flow →
    Proceeds f bytes ctx args e e' locals flow
  | [], env, after, e, e', locals, _, _, _, hrun, _, hready, flow, hflow => by
    rw [stmts] at hrun
    obtain ⟨_, rfl⟩ := runs_pure.mp hrun
    rw [Stmt.executeAll] at hflow
    obtain rfl := Option.some.inj hflow
    exact ⟨hready.reachable, locals, rfl, hready.holds, Relation.ReflTransGen.refl⟩
  | s :: rest, env, after, e, e', locals, hscope, honce, hfresh, hrun, h, hready, flow, hflow => by
    rw [Stmt.scopeAll?] at hscope
    obtain ⟨middle, hs, hrest⟩ := Option.bind_eq_some_iff.mp hscope
    rw [Stmt.declaredAll] at honce hfresh
    obtain ⟨honceS, honceRest, hdisjoint⟩ := List.nodup_append.mp honce
    rw [stmts] at hrun
    obtain ⟨_, e₀, hcheck, hrun⟩ := runs_bind.mp hrun
    rw [(of_checkReachable hcheck).2] at hrun
    obtain ⟨_, e₁, hstmt, hrunRest⟩ := runs_bind.mp hrun
    have hto : Steps true 0 e e₁ := advances_stmt s 0 ctx _ _ e₁ (Nat.zero_le _) hstmt
    have htoRest : Steps true 0 e₁ e' := advances_stmts rest 0 ctx _ _ e' (Nat.zero_le _) hrunRest
    obtain ⟨flow₁, hflow₁, hof⟩ := s.exists_execute hargs hs
    have hproceeds := proceeds_stmt hf hparams hargs s hs honceS
      (fun name hname => hfresh name (List.mem_append_left _ hname)) hstmt (htoRest.trans h) hready
      hflow₁
    rw [Stmt.executeAll, hflow₁] at hflow
    cases flow₁ with
    | returned value? =>
      obtain rfl := Option.some.inj hflow
      exact hproceeds
    | next env₁ =>
      obtain ⟨hreach₁, locals₁, hlength, hholds, hpath⟩ := hproceeds
      obtain rfl : env₁.kinds = middle := hof
      obtain ⟨htidy, hgrown⟩ := tidy_stmt s hs hstmt hready.tidy
      have hready₁ : Ready f e₁ ctx args env₁ locals₁ :=
        ⟨htidy, hholds, hlength ▸ hready.room, hreach₁⟩
      have hfresh₁ : ∀ name ∈ Stmt.declaredAll rest, name ∉ e₁.named.map (·.name) := by
        intro name hname hmem
        rcases hgrown.names hmem with hdeclared | hnamed
        · exact hdisjoint name hdeclared name hname rfl
        · exact hfresh name (List.mem_append_right _ hname) hnamed
      have hrestProceeds := proceeds_stmts hf hparams hargs rest hrest honceRest hfresh₁ hrunRest h
        hready₁ hflow
      cases flow with
      | returned value? => exact returns_of_reaches hpath hrestProceeds
      | next env₂ =>
        obtain ⟨hreach₂, locals₂, hlength₂, hholds₂, hpath₂⟩ := hrestProceeds
        exact ⟨hreach₂, locals₂, hlength₂.trans hlength, hholds₂, hpath.trans hpath₂⟩

end

end ClassSynth.Machine

import ClassSynth.Action.Apply
import ClassSynth.Proofs.Patch.Sites
import ClassSynth.Proofs.Synthesis.Checks

/-!
# What synthesized code returns

The body of a factory is one sequence of instructions, which makes an object from all arguments and
returns it (`creates_of_emitMethod`). Guards go on or throw: no instruction of theirs returns
(`opcode_ne_of_guards`).
-/

namespace ClassSynth

open Emit Emitter

/-! ## New objects -/

/-- The loads of the arguments of a method, from a slot on. -/
def argumentLoads (slot : Nat) : List TypeName → List Instruction
  | [] => []
  | t :: rest => loadForm (ValueKind.ofType t) slot :: argumentLoads (slot + t.slotSize) rest

/-- The instructions that make an object of a class from all arguments of a method, and return it.
The arguments stand in the slots from a first one on. -/
def creation (type constructor : UInt16) (slot : Nat) (params : List TypeName) (opcode : UInt8) :
    List Instruction :=
  [⟨Opcode.new, .short type⟩, ⟨Opcode.dup, .empty⟩] ++ argumentLoads slot params ++
    [⟨Opcode.invokespecial, .short constructor⟩, ⟨opcode, .empty⟩]

/-- The instructions return a new object of a class, made by its constructor from all arguments of a
method. -/
def Creates (pool : ConstantPool) (implementation : TypeName) (slot : Nat)
    (params : List TypeName) (opcode : UInt8) (is : List Instruction) : Prop :=
  ∃ type constructor, is = creation type constructor slot params opcode ∧
    pool.className type = .ok implementation.internalName ∧
    pool.memberRef constructor = .ok {
      owner := implementation.internalName
      name := constructorName
      descriptor := methodDescriptor params .void
      onInterface := false }

theorem Creates.grows {pool pool' : ConstantPool} {implementation : TypeName} {slot : Nat}
    {params : List TypeName} {opcode : UInt8} {is : List Instruction}
    (h : Creates pool implementation slot params opcode is) (hgrows : pool.Grows pool') :
    Creates pool' implementation slot params opcode is := by
  obtain ⟨type, constructor, rfl, hclass, hmember⟩ := h
  exact ⟨type, constructor, rfl, hgrows.className hclass, hgrows.memberRef hmember⟩

theorem labels_argumentLoads {params : List TypeName} {slot : Nat} :
    ∀ i ∈ argumentLoads slot params, i.labels = [] := by
  induction params generalizing slot with
  | nil => exact fun i hi => absurd hi List.not_mem_nil
  | cons t rest ih =>
    refine List.forall_mem_cons.mpr ⟨?_, ih⟩
    unfold loadForm slotForm
    split_ifs <;> rfl

/-- An object is made without jumps. -/
theorem labels_creation {type constructor : UInt16} {slot : Nat} {params : List TypeName}
    {opcode : UInt8} : ∀ i ∈ creation type constructor slot params opcode, i.labels = [] := by
  intro i hi
  simp only [creation, List.mem_append, List.mem_cons, List.not_mem_nil, or_false] at hi
  obtain ((rfl | rfl) | hi) | rfl | rfl := hi
  · rfl
  · rfl
  · exact labels_argumentLoads i hi
  · rfl
  · rfl

theorem Creates.labels {pool : ConstantPool} {implementation : TypeName} {slot : Nat}
    {params : List TypeName} {opcode : UInt8} {is : List Instruction}
    (h : Creates pool implementation slot params opcode is) : ∀ i ∈ is, i.labels = [] := by
  obtain ⟨type, constructor, rfl, -, -⟩ := h
  exact labels_creation

namespace Emit

variable {ctx : MethodContext} {e e' : Emitter}

theorem paramSlot?_append {done rest : List TypeName} {t : TypeName}
    (hparams : ctx.params = done ++ t :: rest) :
    ctx.paramSlot? (done.length + 1) = some (ctx.receiverSlots + totalSlots done, t) := by
  simp [MethodContext.paramSlot?, hparams]

theorem totalSlots_append_singleton (done : List TypeName) (t : TypeName) :
    totalSlots (done ++ [t]) = totalSlots done + t.slotSize := by
  induction done with
  | nil => simp [totalSlots]
  | cons u done ih =>
    rw [List.cons_append, totalSlots, List.map_cons, List.foldr_cons, ← totalSlots, ih, totalSlots,
      totalSlots, List.map_cons, List.foldr_cons, Nat.add_assoc]

/-- Parameters are loaded one after the other. -/
theorem code_of_params {done rest : List TypeName} (hparams : ctx.params = done ++ rest)
    (h : Runs (exprs .value
      ((List.range' done.length rest.length).map fun i => Expr.param (i + 1))) ctx e () e') :
    e'.code.toList
      = e.code.toList ++ argumentLoads (ctx.receiverSlots + totalSlots done) rest := by
  induction rest generalizing done e with
  | nil =>
    rw [List.length_nil, List.range'_zero, List.map_nil, exprs] at h
    obtain ⟨-, rfl⟩ := runs_pure.mp h
    rw [argumentLoads, List.append_nil]
  | cons t rest ih =>
    rw [List.length_cons, List.range'_succ, List.map_cons, exprs] at h
    obtain ⟨_, e₁, hparam, hrest⟩ := runs_bind.mp h
    rw [expr, runs_read_bind, paramSlot?_append hparams] at hparam
    obtain ⟨_, e₂, hload, hsettle⟩ := runs_bind.mp hparam
    obtain ⟨-, rfl⟩ := runs_pure.mp hsettle
    have hparams' : ctx.params = (done ++ [t]) ++ rest := by rw [hparams, List.append_cons]
    have hlength : done.length + 1 = (done ++ [t]).length := by rw [List.length_append]; rfl
    rw [hlength] at hrest
    rw [ih hparams' hrest, code_of_load hload, totalSlots_append_singleton, ← Nat.add_assoc,
      Array.toList_push, List.append_assoc]
    rfl

/-- A new object: its class, the arguments and the call of the constructor. -/
theorem of_new {t : TypeName} {params : List TypeName} {args : List Expr}
    (h : Runs (expr .value (.new t params args)) ctx e () e') :
    ∃ created e₁ e₂ e₃, Runs (newObject t) ctx e created e₁ ∧
      Runs (exprs .value args) ctx e₁ () e₂ ∧ Runs (callConstructor t params) ctx e₂ () e₃ ∧
      e'.code = e₃.code ∧ e'.pool = e₃.pool := by
  rw [expr] at h
  obtain ⟨created, e₁, hnew, hchecked⟩ := runs_bind.mp h
  dsimp only at hchecked
  rw [checkCount, runs_check_bind] at hchecked
  obtain ⟨_, e₂, hargs, hconstruct⟩ := runs_bind.mp hchecked.2
  obtain ⟨_, e₃, hcall, hreplace⟩ := runs_bind.mp hconstruct
  obtain ⟨_, _, hreplaced, hsettle⟩ := runs_bind.mp hreplace
  obtain rfl := runs_replaceAll.mp hreplaced
  obtain ⟨-, rfl⟩ := runs_pure.mp hsettle
  exact ⟨created, e₁, e₂, e₃, hnew, hargs, hcall, rfl, rfl⟩

/-- The statement of a factory is an object made and returned. -/
theorem code_of_makeInstance {implementation : TypeName}
    (h : Runs (stmts (Action.makeInstance implementation ctx.params)) ctx e () e') :
    ∃ type constructor, e'.code.toList = e.code.toList ++
        creation type constructor ctx.receiverSlots ctx.params ctx.ret.returnOpcode ∧
      ctx.ret.isVoid = false ∧ e'.reachable = false ∧
      e'.Provides fun r => r.className type = .ok implementation.internalName ∧
        r.memberRef constructor = .ok {
          owner := implementation.internalName
          name := constructorName
          descriptor := methodDescriptor ctx.params .void
          onInterface := false } := by
  rw [Action.makeInstance, stmts] at h
  obtain ⟨_, e₀, hcheck, hbody⟩ := runs_bind.mp h
  obtain ⟨-, rfl⟩ := Machine.of_checkReachable hcheck
  obtain ⟨_, _, hret, hnil⟩ := runs_bind.mp hbody
  rw [stmts] at hnil
  obtain ⟨-, rfl⟩ := runs_pure.mp hnil
  obtain ⟨e₄, s, hvalue, rfl⟩ := Machine.of_retValue hret
  obtain ⟨created, e₁, e₂, e₃, hnew, hargs, hcall, hcode, hpool⟩ := of_new hvalue
  obtain ⟨hcodeNew, hclass⟩ := code_of_newObject hnew
  obtain ⟨constructor, hcodeCall, hmember⟩ := code_of_callConstructor hcall
  have hloads : e₂.code.toList = e₁.code.toList ++ argumentLoads ctx.receiverSlots ctx.params := by
    rw [List.range_eq_range'] at hargs
    have hdone : ctx.params = [] ++ ctx.params := rfl
    exact code_of_params hdone hargs
  have hvoid : ctx.ret.isVoid = false := by
    rw [stmt, runs_read_bind] at hret
    by_contra hvoid
    simp only [Bool.not_eq_false] at hvoid
    simp [hvoid, runs_bind] at hret
  have hto₂ : Steps false 0 e₁ e₂ :=
    advances_exprs _ 0 .value trivial ctx _ _ e₂ (Nat.zero_le _) hargs
  have hto₃ : Steps false 0 e₂ e₃ :=
    advances_callConstructor _ _ ctx _ _ e₃ (Nat.zero_le _) hcall
  refine ⟨created.1, constructor, ?_, hvoid, rfl, fun r hr hindexable => ⟨?_, ?_⟩⟩
  · simp [append, creation, hcode, hcodeCall, hloads, hcodeNew]
  · exact hclass.of_grows (hto₂.pool.trans hto₃.pool) r (hpool ▸ hr) hindexable
  · exact hmember r (hpool ▸ hr) hindexable

/-- **The code of a factory** makes an object from all arguments and returns it. -/
theorem creates_of_emitMethod {implementation : TypeName} {pool : ConstantPool} {code : EmittedCode}
    (h : (emitMethod ctx (Action.makeInstance implementation ctx.params) pool).1 = .ok code) :
    ctx.ret.isVoid = false ∧
      ∃ is, Instruction.encode is = .ok code.code ∧ (∀ i ∈ is, i.Fits) ∧
        (∀ i ∈ is, i.labels = []) ∧ ∀ r, (emitMethod ctx
          (Action.makeInstance implementation ctx.params) pool).2.Grows r → r.Indexable →
            Creates r implementation ctx.receiverSlots ctx.params ctx.ret.returnOpcode is := by
  obtain ⟨f, hrun, hfinish, hpool⟩ := of_runWith h
  obtain ⟨hsteps, -⟩ := steps_method hrun
  have hf := (Ordered.start ctx pool).steps hsteps
  obtain ⟨_, e₁, hbody, hend⟩ := runs_bind.mp hrun
  obtain ⟨type, constructor, hcode, hvoid, hreachable, hprovides⟩ := code_of_makeInstance hbody
  obtain rfl : f = e₁ := by
    obtain ⟨-, hsame⟩ | ⟨hreached, -, -⟩ := runs_endMethod hend
    · exact hsame
    · rw [hreachable] at hreached
      cases hreached
  have hresolved : resolvedCode f =
      creation type constructor ctx.receiverSlots ctx.params ctx.ret.returnOpcode := by
    rw [resolvedCode, hcode]
    exact Instruction.map_mapLabels_of_free labels_creation
  obtain ⟨-, -, bytes, hbytes, rfl⟩ := of_finish hfinish
  have hfits := hresolved ▸ hf.fits_resolvedCode
  rw [hresolved] at hbytes
  refine ⟨hvoid, _, hbytes, hfits, labels_creation, fun r hr hindexable => ?_⟩
  obtain ⟨hclass, hmember⟩ := hprovides r (hpool ▸ hr) hindexable
  exact ⟨type, constructor, rfl, hclass, hmember⟩

end Emit

/-! ## Guards -/

namespace Instruction

/-- Is the instruction a return? -/
def returns (i : Instruction) : Bool :=
  decide (Opcode.ireturn ≤ i.opcode ∧ i.opcode ≤ Opcode.returnVoid)

theorem opcode_ne_of_not_returns {i : Instruction} (h : i.returns = false) (t : TypeName) :
    i.opcode ≠ t.returnOpcode := by
  intro hsame
  have hreturns : ∀ k : ValueKind, Opcode.ireturn ≤ k.ret ∧ k.ret ≤ Opcode.returnVoid := by
    rintro ⟨⟩ <;> decide
  rw [returns, hsame] at h
  exact of_decide_eq_false h (hreturns _)

end Instruction

namespace Emitter

/-- No instruction so far returns. -/
def NeverReturns (e : Emitter) : Prop := ∀ i ∈ e.code.toList, i.returns = false

theorem NeverReturns.push {e e' : Emitter} {i : Instruction} (h : e.NeverReturns)
    (hcode : e'.code = e.code.push i) (hi : i.returns = false) : e'.NeverReturns := by
  intro j hj
  rw [hcode, Array.toList_push] at hj
  obtain hj | hj := List.mem_append.mp hj
  · exact h j hj
  · exact List.mem_singleton.mp hj ▸ hi

end Emitter

namespace Emit

variable {α β : Type}

/-- The step appends no return. -/
def Stays (x : Emit α) : Prop :=
  ∀ ctx e a e', Runs x ctx e a e' → e.NeverReturns → e'.NeverReturns

namespace Stays

theorem bind {x : Emit α} {f : α → Emit β} (hx : Stays x) (hf : ∀ a, Stays (f a)) :
    Stays (x >>= f) := by
  intro ctx e b e' h he
  obtain ⟨a, e₁, ha, hb⟩ := runs_bind.mp h
  exact hf a ctx e₁ b e' hb (hx ctx e a e₁ ha he)

/-- A step that leaves the code alone. -/
theorem of_same {x : Emit α} (h : ∀ ctx e a e', Runs x ctx e a e' → e'.code = e.code) : Stays x :=
  fun ctx e a e' hrun he i hi => he i (h ctx e a e' hrun ▸ hi)

theorem of_push {x : Emit α} (h : ∀ ctx e a e', Runs x ctx e a e' →
    ∃ i, e'.code = e.code.push i ∧ i.returns = false) : Stays x := by
  intro ctx e a e' hrun he
  obtain ⟨i, hcode, hi⟩ := h ctx e a e' hrun
  exact he.push hcode hi

theorem pure {a : α} : Stays (Pure.pure a : Emit α) :=
  .of_same fun _ _ _ _ h => by rw [(runs_pure.mp h).2]

theorem get : Stays (MonadState.get : Emit Emitter) :=
  .of_same fun _ _ _ _ h => by rw [(runs_get.mp h).2]

end Stays

theorem stays_instruction {opcode : UInt8} {operand : Operand}
    (h : Instruction.returns ⟨opcode, operand⟩ = false := by rfl) :
    Stays (instruction opcode operand) :=
  .of_push fun _ _ _ _ hrun => ⟨_, by rw [runs_instruction.mp hrun]; rfl, h⟩

theorem stays_addConstants {step : ConstantPool.Adding α} : Stays (addConstants step) :=
  .of_same fun _ _ _ _ hrun => by rw [(runs_addConstants.mp hrun).2]

theorem stays_pop {slots : Nat} : Stays (pop slots) := by
  refine .of_same fun _ _ _ _ hrun => ?_
  obtain ⟨s, -, rfl⟩ := runs_pop.mp hrun
  rfl

theorem stays_pushType (t : TypeName) : Stays (pushType t) :=
  .of_same fun _ _ _ _ hrun => (Machine.pushType_eq hrun).1

theorem returns_loadForm (kind : ValueKind) (slot : Nat) :
    (loadForm kind slot).returns = false := by
  unfold loadForm slotForm
  split_ifs with hslot
  · have hcases : slot = 0 ∨ slot = 1 ∨ slot = 2 ∨ slot = 3 := by omega
    rcases hcases with rfl | rfl | rfl | rfl <;> cases kind <;> rfl
  · cases kind <;> rfl

theorem returns_constantForm (index : UInt16) : (constantForm index).returns = false := by
  unfold constantForm
  split_ifs <;> rfl

/-- The test of a parameter loads it and jumps. -/
theorem stays_nullTest {index : Nat} {l : Label} :
    Stays (expr (.jumpIfFalse l) (.compare .eq (.param index) .null)) := by
  intro ctx e u e' hrun he
  obtain ⟨slot, t, -, hcode⟩ := code_of_nullTest hrun
  have hload : NeverReturns { e with code := e.code.push (loadForm (ValueKind.ofType t) slot) } :=
    he.push rfl (returns_loadForm _ _)
  exact hload.push hcode rfl

theorem stays_throwNew {exception : TypeName} {message : String} :
    Stays (stmt (.throw (.new exception [.string] [.str message]))) := by
  intro ctx e u e' hrun he i hi
  obtain ⟨new, text, construct, hcode, -⟩ := code_of_throwNew hrun
  rw [hcode, List.mem_append] at hi
  obtain hi | hi := hi
  · exact he i hi
  · simp only [List.mem_cons, List.not_mem_nil, or_false] at hi
    obtain rfl | rfl | rfl | rfl | rfl := hi
    · rfl
    · rfl
    · exact returns_constantForm text
    · rfl
    · rfl

theorem stays_str {text : String} : Stays (expr .value (.str text)) := by
  refine .of_push fun _ _ _ _ hrun => ?_
  obtain ⟨index, hcode, -⟩ := code_of_str hrun
  exact ⟨_, hcode, returns_constantForm index⟩

theorem stays_param {index : Nat} : Stays (expr .value (.param index)) := by
  refine .of_push fun ctx e u e' hrun => ?_
  rw [expr, runs_read_bind] at hrun
  cases hslot : ctx.paramSlot? index with
  | none =>
    simp only [hslot] at hrun
    obtain ⟨_, _, hfail, -⟩ := runs_bind.mp hrun
    exact absurd hfail runs_fail
  | some found =>
    simp only [hslot] at hrun
    obtain ⟨_, e₁, hload, hsettle⟩ := runs_bind.mp hrun
    obtain ⟨-, rfl⟩ := runs_pure.mp hsettle
    exact ⟨_, code_of_load hload, returns_loadForm _ _⟩

/-- An array without elements. -/
theorem stays_noElements : Stays (expr .value (.newArray .object [])) := by
  have hzero : Stays (pushInt 0) := by
    refine .of_push fun _ _ _ _ hrun => ?_
    obtain ⟨i, hi, rfl⟩ | ⟨hnone, -⟩ := runs_pushInt.mp hrun
    · obtain rfl := Option.some.inj hi
      exact ⟨_, rfl, rfl⟩
    · cases hnone
  have hnew : Stays (newArray .object) :=
    stays_addConstants.bind fun _ => (stays_instruction).bind fun _ => stays_pop.bind fun _ =>
      stays_pushType _
  rw [expr, elements]
  exact hzero.bind fun _ => hnew.bind fun _ => Stays.pure.bind fun _ => .pure

theorem stays_place {l : Label} : Stays (place l) := by
  refine .of_same fun _ _ _ _ hrun => ?_
  obtain ⟨-, rfl⟩ | ⟨_, _, -, -, rfl⟩ := runs_place.mp hrun <;> rfl

theorem stays_dropValue (t : TypeName) : Stays (dropValue t) := by
  unfold dropValue
  split
  · exact .pure
  · exact (stays_instruction).bind fun _ => stays_pop
  · exact (stays_instruction).bind fun _ => stays_pop

theorem stays_stmts {ss : List Stmt} (h : ∀ s ∈ ss, Stays (stmt s)) : Stays (stmts ss) := by
  induction ss with
  | nil =>
    rw [stmts]
    exact .pure
  | cons s ss ih =>
    obtain ⟨hs, hss⟩ := List.forall_mem_cons.mp h
    have hcheck : Stays (checkReachable s) :=
      .of_same fun _ _ _ _ hrun => by rw [(Machine.of_checkReachable hrun).2]
    rw [stmts]
    exact hcheck.bind fun _ => hs.bind fun _ => ih hss

end Emit

namespace Synthesis

/-- What checks a parameter. -/
inductive IsGuard : Stmt → Prop
  | throws (index : Nat) (exception : TypeName) (message : String) :
      IsGuard (throwIfNull index exception (.str message))
  | library (owner : TypeName) (name : String) (index : Nat) (message : String) :
      IsGuard (libraryCheck owner name index (.str message))

theorem isGuard_of_guard (index : Nat) (d : NonNullDirective) :
    Ensures (guard index d) IsGuard := by
  unfold guard
  dsimp only
  split
  · exact Ensures.trivial.bind fun _ _ => .ite (fun _ => .pure (.throws _ _ _)) fun _ => .throw
  · exact Ensures.trivial.bind fun _ _ => .pure (.library _ _ _ _)
  · exact Ensures.trivial.bind fun _ _ => .pure (.library _ _ _ _)

theorem isGuard_of_guards (m : MethodDeclaration) :
    Ensures (guards m) fun ss => ∀ s ∈ ss, IsGuard s :=
  Ensures.mapM (f := fun p : Nat × NonNullDirective => guard p.1 p.2)
    (fun p => isGuard_of_guard p.1 p.2) (guardedParams m)

theorem IsGuard.stays {s : Stmt} (h : IsGuard s) : Stays (stmt s) := by
  cases h with
  | throws index exception message =>
    rw [throwIfNull, stmt]
    refine Stays.bind (.of_same fun _ _ _ _ hrun => by rw [(runs_newLabel.mp hrun).2]) fun l => ?_
    refine stays_nullTest.bind fun _ => (stays_stmts ?_).bind fun _ => stays_place
    exact List.forall_mem_singleton.mpr stays_throwNew
  | library owner name index message =>
    have hargs : Stays (exprs .value
        [.param index, .str message, .newArray .object []]) := by
      simp only [exprs]
      exact stays_param.bind fun _ => stays_str.bind fun _ => stays_noElements.bind fun _ => .pure
    have hcheck : ∀ (params : List TypeName) (args : List Expr), Stays (checkCount params args) :=
      fun _ _ => .of_same fun _ _ _ _ hrun => by rw [(runs_check.mp hrun).2]
    have hcall : ∀ method, Stays (call .static method) := fun method =>
      Stays.bind stays_addConstants fun _ => (stays_instruction).bind fun _ => stays_pop.bind fun _ =>
        stays_pushType _
    rw [libraryCheck, stmt, Expr.invokeStatic, expr]
    refine Stays.bind ?_ fun _ => Stays.bind ?_ stays_dropValue
    · exact (hcheck _ _).bind fun _ => hargs.bind fun _ => (hcall _).bind fun _ => .pure
    · exact .of_same fun _ _ _ _ hrun => by rw [(runs_typeOf.mp hrun).2]

/-- **Guards never return.** The opcode of no instruction in the code of guards is that of a
return. -/
theorem opcode_ne_of_guards {ctx : MethodContext} {gs : List Stmt} {pool : ConstantPool}
    {code : EmittedCode} {fragment : Fragment} (hgs : ∀ s ∈ gs, IsGuard s)
    (hemit : (emitFragment ctx gs pool).1 = .ok code)
    (hfragment : Fragment.ofEmitted code = .ok fragment) (t : TypeName) :
    ∀ i ∈ fragment.code, i.opcode ≠ t.returnOpcode := by
  obtain ⟨e, hrun, hordered, -, hencode, hlabels⟩ := code_of_emitFragment hemit
  have hstart : (start ctx pool).NeverReturns := fun _ hi => absurd hi List.not_mem_nil
  have hreturns : e.NeverReturns :=
    stays_stmts (fun s hs => (hgs s hs).stays) ctx _ _ e hrun hstart
  rw [Fragment.code_of_encode hordered.fits_resolvedCode hencode hlabels hfragment]
  intro i hi
  obtain ⟨j, hj, rfl⟩ := List.mem_map.mp hi
  exact Instruction.opcode_ne_of_not_returns (i := j) (hreturns j hj) t

end Synthesis

end ClassSynth

import ClassSynth.Proofs.Execution.Checks
import ClassSynth.Proofs.Execution.Statements
import ClassSynth.Proofs.Pool.Subtypes
import ClassSynth.Synthesis.Guard

/-!
# Guards become checks

A custom guard is lowered to the seven instructions of a check (`checkAt_throwIfNull`), and guards
one after the other to checks one after the other (`checksAt_stmts`).
-/

namespace ClassSynth

open Emit Emitter Synthesis

/-! ## Pieces of a check -/

namespace Emitter

/-- Whatever constants are added to those of the emitter, the property holds, as long as they can
all be looked up. -/
def Provides (e : Emitter) (P : ConstantPool → Prop) : Prop :=
  ∀ r, e.pool.Grows r → r.Indexable → P r

theorem Provides.of_grows {e e' : Emitter} {P : ConstantPool → Prop} (h : e.Provides P)
    (hgrows : e.pool.Grows e'.pool) : e'.Provides P :=
  fun r hr hindexable => h r (hgrows.trans hr) hindexable

end Emitter

namespace Emit

variable {ctx : MethodContext} {e e' : Emitter} {u : Unit}

theorem code_of_load {t : TypeName} {slot : Nat} (h : Runs (load t slot) ctx e u e') :
    e'.code = e.code.push (loadForm (ValueKind.ofType t) slot) := by
  unfold load at h
  obtain ⟨_, e₁, hload, htype⟩ := runs_bind.mp h
  obtain rfl := runs_slotInstruction.mp hload
  exact (Machine.pushType_eq htype).1

/-- The test of a parameter against `null` loads it and jumps unless it is `null`. -/
theorem code_of_nullTest {index : Nat} {l : Label}
    (h : Runs (expr (.jumpIfFalse l) (.compare .eq (.param index) .null)) ctx e u e') :
    ∃ slot t, ctx.paramSlot? index = some (slot, t) ∧
      e'.code = (e.code.push (loadForm (ValueKind.ofType t) slot)).push
        ⟨Opcode.ifnonnull, .branch l⟩ := by
  rw [expr_compare_null_right, condition] at h
  obtain ⟨_, e₁, hparam, hjump⟩ := runs_bind.mp h
  rw [expr, runs_read_bind] at hparam
  cases hslot : ctx.paramSlot? index with
  | none =>
    simp only [hslot] at hparam
    obtain ⟨_, _, hfail, -⟩ := runs_bind.mp hparam
    exact absurd hfail runs_fail
  | some found =>
    obtain ⟨slot, t⟩ := found
    simp only [hslot] at hparam
    obtain ⟨_, e₂, hload, hsettle⟩ := runs_bind.mp hparam
    obtain ⟨-, rfl⟩ := runs_pure.mp hsettle
    refine ⟨slot, t, rfl, ?_⟩
    rw [(Machine.of_branch hjump).1, code_of_load hload]
    rfl

/-- A new object: its class can be looked up. -/
theorem code_of_newObject {t : TypeName} {created : UInt16 × VerificationType}
    (h : Runs (newObject t) ctx e created e') :
    e'.code = (e.code.push ⟨Opcode.new, .short created.1⟩).push ⟨Opcode.dup, .empty⟩ ∧
      e'.Provides fun r => r.className created.1 = .ok t.internalName := by
  rw [newObject, runs_get_bind, runs_addConstants_bind, runs_instruction_bind, runs_push_bind,
    runs_instruction_bind, runs_push_bind, runs_pure] at h
  obtain ⟨rfl, rfl⟩ := h
  exact ⟨rfl, (ConstantPool.adds_class t.internalName e.pool).2⟩

/-- A string constant: its text can be looked up. -/
theorem code_of_str {text : String} (h : Runs (expr .value (.str text)) ctx e u e') :
    ∃ index, e'.code = e.code.push (constantForm index) ∧
      e'.Provides fun r => ∃ i, r.get? index = some (.string i) ∧ r.utf8 i = .ok text := by
  rw [expr, runs_addConstants_bind] at h
  obtain ⟨_, e₁, hload, h⟩ := runs_bind.mp h
  obtain rfl := runs_loadConstant.mp hload
  obtain ⟨_, e₂, htype, hsettle⟩ := runs_bind.mp h
  obtain ⟨-, rfl⟩ := runs_pure.mp hsettle
  have hgrows : Steps false 0 _ e' := advances_pushType _ ctx _ _ e' (Nat.zero_le _) htype
  refine ⟨_, (Machine.pushType_eq htype).1, ?_⟩
  exact fun r hr => (ConstantPool.adds_string text e.pool).2 r (hgrows.pool.trans hr)

/-- The call of a constructor: the constructor can be looked up. -/
theorem code_of_callConstructor {owner : TypeName} {params : List TypeName}
    (h : Runs (callConstructor owner params) ctx e u e') :
    ∃ index, e'.code = e.code.push ⟨Opcode.invokespecial, .short index⟩ ∧
      e'.Provides fun r => r.memberRef index = .ok {
        owner := owner.internalName
        name := constructorName
        descriptor := methodDescriptor params .void
        onInterface := false } := by
  rw [callConstructor, constructorRef, methodRef, runs_addConstants_bind,
    runs_instruction_bind] at h
  obtain ⟨s, -, rfl⟩ := runs_pop.mp h
  exact ⟨_, rfl, (ConstantPool.adds_member false (.inr (.inl ⟨rfl, rfl⟩)) owner.internalName
    constructorName (methodDescriptor params .void) e.pool).2⟩

/-- A new exception with a message is thrown. -/
theorem code_of_throwNew {exception : TypeName} {message : String}
    (h : Runs (stmt (.throw (.new exception [.string] [.str message]))) ctx e u e') :
    ∃ new text construct, e'.code.toList = e.code.toList ++ [⟨Opcode.new, .short new⟩,
        ⟨Opcode.dup, .empty⟩, constantForm text, ⟨Opcode.invokespecial, .short construct⟩,
        ⟨Opcode.athrow, .empty⟩] ∧
      e'.Provides fun r => r.className new = .ok exception.internalName ∧
        (∃ i, r.get? text = some (.string i) ∧ r.utf8 i = .ok message) ∧
        r.memberRef construct = .ok (Thrower.messageConstructor exception.internalName) := by
  rw [stmt] at h
  obtain ⟨_, e₄, hvalue, hthrow⟩ := runs_bind.mp h
  rw [expr] at hvalue
  obtain ⟨⟨new, fresh⟩, e₁, hnew, hchecked⟩ := runs_bind.mp hvalue
  dsimp only at hchecked
  rw [checkCount, runs_check_bind] at hchecked
  obtain ⟨_, e₂, hargs, hconstruct⟩ := runs_bind.mp hchecked.2
  obtain ⟨_, e₃, hcall, hreplace⟩ := runs_bind.mp hconstruct
  obtain ⟨_, _, hreplaced, hsettle⟩ := runs_bind.mp hreplace
  obtain rfl := runs_replaceAll.mp hreplaced
  obtain ⟨-, rfl⟩ := runs_pure.mp hsettle
  rw [runs_instruction_bind, runs_pop_bind] at hthrow
  obtain ⟨s, -, hthrow⟩ := hthrow
  obtain rfl := runs_endOfFlow.mp hthrow
  rw [exprs] at hargs
  obtain ⟨_, _, htext, hnil⟩ := runs_bind.mp hargs
  rw [exprs] at hnil
  obtain ⟨-, rfl⟩ := runs_pure.mp hnil
  obtain ⟨hcodeNew, hclass⟩ := code_of_newObject hnew
  obtain ⟨text, hcodeText, hstring⟩ := code_of_str htext
  obtain ⟨construct, hcodeCall, hmember⟩ := code_of_callConstructor hcall
  have hto₂ : Steps false 0 e₁ e₂ :=
    advances_expr (.str message) 0 .value trivial ctx _ _ e₂ (Nat.zero_le _) htext
  have hto₃ : Steps false 0 e₂ e₃ :=
    advances_callConstructor exception [.string] ctx _ _ e₃ (Nat.zero_le _) hcall
  refine ⟨new, text, construct, ?_, fun r hr hindexable => ⟨?_, ?_, ?_⟩⟩
  · simp [append, hcodeCall, hcodeText, hcodeNew]
  · exact hclass.of_grows (hto₂.pool.trans hto₃.pool) r hr hindexable
  · exact hstring.of_grows hto₃.pool r hr hindexable
  · exact hmember r hr hindexable

end Emit

theorem ValueKind.ofType_of_isReference {t : TypeName} (h : t.isReference = true) :
    ofType t = .reference := by
  simp only [TypeName.isReference, TypeName.isPrimitive, Bool.and_eq_true, Bool.not_eq_true',
    Option.isSome_eq_false_iff, Option.isNone_iff_eq_none] at h
  rw [ofType, h.1]
  rfl

namespace Thrower

variable {ctx : MethodContext} {e e' f : Emitter} {r : ConstantPool}

/-! ## Checks -/

/-- The instructions of a check, with its constants. -/
def checkForm (slot : Nat) (behind : Label) (new text construct : UInt16) : List Instruction :=
  [loadForm .reference slot, ⟨Opcode.ifnonnull, .branch behind⟩, ⟨Opcode.new, .short new⟩,
    ⟨Opcode.dup, .empty⟩, constantForm text, ⟨Opcode.invokespecial, .short construct⟩,
    ⟨Opcode.athrow, .empty⟩]

/-- The instructions of a check stand in finished code, and its label behind them. -/
theorem checkAt_of_form {position slot : Nat} {behind : Label} {new text construct : UInt16}
    {x : Check} {before more : List Instruction} (hslot : x.slot = slot)
    (hcode : f.code.toList = before ++ (checkForm slot behind new text construct ++ more))
    (hposition : position = before.length)
    (hbehind : resolveLabel f.labels behind = position + Check.size)
    (hclass : r.className new = .ok x.className)
    (hstring : ∃ u, r.get? text = some (.string u) ∧ r.utf8 u = .ok x.message)
    (hmember : r.memberRef construct = .ok (messageConstructor x.className)) :
    CheckAt r (resolvedCode f) position x := by
  have hfound : ∀ k, (resolvedCode f)[position + k]?
      = (checkForm slot behind new text construct ++ more)[k]?.map
        (·.mapLabels (resolveLabel f.labels)) := by
    intro k
    rw [resolvedCode, List.getElem?_map, hcode, hposition,
      List.getElem?_append_right (Nat.le_add_right _ _), Nat.add_sub_cancel_left]
  have hload : (resolvedCode f)[position]? = some (loadForm .reference x.slot) := by
    rw [hslot]
    exact (hfound 0).trans (congrArg some ((plain_loadForm _ _).mapLabels _))
  have hjump : (resolvedCode f)[position + 1]?
      = some ⟨Opcode.ifnonnull, .branch (position + Check.size)⟩ := by
    rw [← hbehind]
    exact hfound 1
  have htext : (resolvedCode f)[position + 4]? = some (constantForm text) :=
    (hfound 4).trans (congrArg some ((plain_constantForm _).mapLabels _))
  obtain ⟨u, hget, hutf8⟩ := hstring
  exact {
    load := hload
    jump := hjump
    new := ⟨new, hfound 2, hclass⟩
    dup := hfound 3
    text := ⟨text, u, htext, hget, hutf8⟩
    construct := ⟨construct, hfound 5, hmember⟩
    throw := hfound 6 }

/-- A guard becomes a check. -/
theorem checkAt_throwIfNull {index : Nat} {exception : TypeName} {message : String}
    (href : ∀ slot t, ctx.paramSlot? index = some (slot, t) → t.isReference = true)
    (hrun : Runs (stmt (throwIfNull index exception (.str message))) ctx e () e')
    (hto : Steps true 0 e' f) (hr : f.pool.Grows r) (hindexable : r.Indexable) :
    ∃ slot t, ctx.paramSlot? index = some (slot, t) ∧
      e'.code.size = e.code.size + Check.size ∧
      CheckAt r (resolvedCode f) e.code.size ⟨slot, exception.internalName, message⟩ := by
  obtain ⟨e₁, e₂, htest, hbody, hplace, hto₁, hto₂, hto₃⟩ := Machine.of_ifThen hrun
  rw [stmts] at hbody
  obtain ⟨_, _, hcheck, hreached⟩ := runs_bind.mp hbody
  obtain ⟨-, rfl⟩ := Machine.of_checkReachable hcheck
  obtain ⟨_, _, hthrow, hnil⟩ := runs_bind.mp hreached
  rw [stmts] at hnil
  obtain ⟨-, rfl⟩ := runs_pure.mp hnil
  obtain ⟨slot, t, hslot, hcodeTest⟩ := code_of_nullTest htest
  rw [ValueKind.ofType_of_isReference (href slot t hslot)] at hcodeTest
  obtain ⟨new, text, construct, hcodeThrow, hprovides⟩ := code_of_throwNew hthrow
  have hcode : e₂.code.toList
      = e.code.toList ++ checkForm slot e.labels.size new text construct := by
    simp [hcodeThrow, hcodeTest, checkForm]
  have hsize : e₂.code.size = e.code.size + Check.size := by
    rw [← Array.length_toList, hcode, List.length_append, Array.length_toList]
    rfl
  have hlabel : e.labels.size < e₂.labels.size := by
    have hle := (hto₁.weaken.trans hto₂.weaken).size_labels_le
    rwa [Array.size_push] at hle
  have hsame : e'.code = e₂.code := (Machine.of_place hplace hto hlabel).1
  obtain ⟨more, hmore⟩ := hto.code
  rw [hsame, hcode, List.append_assoc] at hmore
  obtain ⟨hclass, hstring, hmember⟩ :=
    hprovides.of_grows (hto₃.pool.trans hto.pool) r hr hindexable
  refine ⟨slot, t, hslot, by rw [hsame, hsize], ?_⟩
  refine checkAt_of_form rfl hmore.symm Array.length_toList.symm ?_ hclass hstring hmember
  rw [Machine.resolveLabel_of_place hplace hto hlabel, hsize]

end Thrower

/-! ## Guards of a method -/

namespace Synthesis

/-- A guard with an exception of its own, and the class of the exception. -/
structure CustomGuard where
  index : Nat
  directive : NonNullDirective
  exception : TypeName

namespace CustomGuard

def message (g : CustomGuard) : String := formatMessage g.directive.message g.index

def stmt (g : CustomGuard) : Stmt := throwIfNull g.index g.exception (.str g.message)

/-- The check that the guard becomes. -/
def check (ctx : MethodContext) (g : CustomGuard) : Thrower.Check where
  slot := (ctx.paramSlot? g.index).elim 0 Prod.fst
  className := g.exception.internalName
  message := g.message

end CustomGuard

variable {p : ClassPool}

theorem within_guard {index : Nat} {d : NonNullDirective} (hcustom : d.handler = .custom) :
    Within p.Loads (guard index d) fun s => ∃ unit, p.lookup d.exception = .ok (some unit) ∧
      s = CustomGuard.stmt ⟨index, d, unit.name⟩ := by
  unfold guard
  simp only [hcustom]
  exact (ClassPool.within_getUnit _).bind fun unit hunit =>
    .ite (fun _ => .pure ⟨unit, hunit, rfl⟩) fun _ => .throw

theorem within_mapM_guard {params : List (Nat × NonNullDirective)}
    (hcustom : ∀ g ∈ params, g.2.handler = .custom) :
    Within p.Loads (params.mapM fun (i, d) => guard i d) fun body => ∃ gs : List CustomGuard,
      gs.map (fun g => (g.index, g.directive)) = params ∧ body = gs.map (·.stmt) ∧
      ∀ g ∈ gs, ∃ unit, p.lookup g.directive.exception = .ok (some unit) ∧
        unit.name = g.exception := by
  induction params with
  | nil =>
    rw [List.mapM_nil]
    exact .pure ⟨[], rfl, rfl, by simp⟩
  | cons param params ih =>
    obtain ⟨index, d⟩ := param
    obtain ⟨hhead, htail⟩ := List.forall_mem_cons.mp hcustom
    rw [List.mapM_cons]
    refine (within_guard hhead).bind fun s hs => (ih htail).bind fun body hbody => .pure ?_
    obtain ⟨unit, hunit, rfl⟩ := hs
    obtain ⟨gs, hparams, rfl, hfound⟩ := hbody
    exact ⟨⟨index, d, unit.name⟩ :: gs, by rw [List.map_cons, hparams], rfl,
      List.forall_mem_cons.mpr ⟨⟨unit, hunit, rfl⟩, hfound⟩⟩

/-- The guards of a method throw the exceptions that the pool finds. -/
theorem within_guards {m : MethodDeclaration}
    (hcustom : ∀ g ∈ guardedParams m, g.2.handler = .custom) :
    Within p.Loads (guards m) fun body => ∃ gs : List CustomGuard,
      gs.map (fun g => (g.index, g.directive)) = guardedParams m ∧ body = gs.map (·.stmt) ∧
      ∀ g ∈ gs, ∃ unit, p.lookup g.directive.exception = .ok (some unit) ∧
        unit.name = g.exception :=
  within_mapM_guard hcustom

/-- The guarded parameters come in order. -/
theorem pairwise_guardedParams (m : MethodDeclaration) :
    (guardedParams m).Pairwise fun g g' => g.1 < g'.1 := by
  refine List.Pairwise.filter _ (List.pairwise_filterMap.mpr ?_)
  have hpositions : (m.params.zipIdx.map Prod.snd).Pairwise (· < ·) := by
    rw [List.zipIdx_map_snd]
    exact List.pairwise_lt_range'
  refine (List.pairwise_map.mp hpositions).imp fun {a b} hlt g hg g' hg' => ?_
  obtain ⟨_, -, rfl⟩ := Option.map_eq_some_iff.mp hg
  obtain ⟨_, -, rfl⟩ := Option.map_eq_some_iff.mp hg'
  exact Nat.succ_lt_succ hlt

end Synthesis

namespace Thrower

open Synthesis

variable {ctx : MethodContext} {e e' f : Emitter} {r : ConstantPool}

/-- Guards one after the other become checks one after the other. -/
theorem checksAt_stmts {gs : List CustomGuard}
    (href : ∀ g ∈ gs, ∀ slot t, ctx.paramSlot? g.index = some (slot, t) → t.isReference = true)
    (hrun : Runs (stmts (gs.map (·.stmt))) ctx e () e') (hto : Steps true 0 e' f)
    (hr : f.pool.Grows r) (hindexable : r.Indexable) :
    (∀ g ∈ gs, ∃ t, ctx.paramSlot? g.index = some ((g.check ctx).slot, t)) ∧
      e'.code.size = e.code.size + gs.length * Check.size ∧
      ChecksAt r (resolvedCode f) e.code.size (gs.map (·.check ctx)) := by
  induction gs generalizing e with
  | nil =>
    rw [List.map_nil, stmts] at hrun
    obtain ⟨-, rfl⟩ := runs_pure.mp hrun
    exact ⟨by simp, by simp, trivial⟩
  | cons g gs ih =>
    rw [List.map_cons, stmts] at hrun
    obtain ⟨_, _, hcheck, hreached⟩ := runs_bind.mp hrun
    obtain ⟨-, rfl⟩ := Machine.of_checkReachable hcheck
    obtain ⟨_, e₁, hguard, hrest⟩ := runs_bind.mp hreached
    have hto₁ : Steps true 0 e₁ f :=
      Steps.trans (advances_stmts _ 0 ctx _ _ e' (Nat.zero_le _) hrest) hto
    obtain ⟨slot, t, hslot, hsize, hat⟩ :=
      checkAt_throwIfNull (href g List.mem_cons_self) hguard hto₁ hr hindexable
    obtain ⟨hslots, hsizeRest, hatRest⟩ := ih (fun g hg => href g (List.mem_cons_of_mem _ hg)) hrest
    have hsame : (g.check ctx).slot = slot := by rw [CustomGuard.check, hslot]; rfl
    rw [hsize] at hsizeRest hatRest
    refine ⟨List.forall_mem_cons.mpr ⟨⟨t, by rw [hsame, hslot]⟩, hslots⟩, ?_, ?_, hatRest⟩
    · rw [hsizeRest, List.length_cons, Nat.succ_mul]
      omega
    · rw [← hsame] at hat
      exact hat

end Thrower

end ClassSynth

import ClassSynth.Proofs.Acceptance.Locals
import ClassSynth.Proofs.Synthesis.Acceptance

/-!
# Safety of synthesized methods

The methods that are put together from members are emitted, as long as their code stays within the
range of jumps, they declare local variables before they read them, and on every path the stack of
their code stays within its bounds (`MemberMethod.emitted_and_safe`).
-/

namespace ClassSynth

open Emit Emitter ClassSynth.Expr

/-! ## Bytes of constructors -/

namespace Emit

variable {α β : Type} {m n : Nat} {ctx : MethodContext}

/-- The step appends at least so many bytes to the code. -/
def Costs (n : Nat) (step : Emit α) : Prop :=
  ∀ ctx e a e', Runs step ctx e a e' → e.pc + n ≤ e'.pc

theorem Costs.bind {x : Emit α} {f : α → Emit β} (hx : Costs m x) (hf : ∀ a, Costs n (f a)) :
    Costs (m + n) (x >>= f) := by
  intro ctx e b e' hrun
  obtain ⟨a, e₁, ha, hb⟩ := runs_bind.mp hrun
  have h₁ := hx ctx e a e₁ ha
  have h₂ := hf a ctx e₁ b e' hb
  omega

theorem Costs.after {x : Emit α} {f : α → Emit β} (hx : Advances false 0 0 x)
    (hf : ∀ a, Costs n (f a)) : Costs n (x >>= f) := by
  intro ctx e b e' hrun
  obtain ⟨a, e₁, ha, hb⟩ := runs_bind.mp hrun
  have h₁ := (hx ctx e a e₁ (Nat.zero_le _) ha).pc_le
  have h₂ := hf a ctx e₁ b e' hb
  omega

theorem Costs.before {x : Emit α} {f : α → Emit β} (hx : Costs n x)
    (hf : ∀ a, Advances false 0 0 (f a)) : Costs n (x >>= f) := by
  intro ctx e b e' hrun
  obtain ⟨a, e₁, ha, hb⟩ := runs_bind.mp hrun
  have h₁ := hx ctx e a e₁ ha
  have h₂ := (hf a ctx e₁ b e' (Nat.zero_le _) hb).pc_le
  omega

theorem costs_instruction {opcode : UInt8} {operand : Operand} :
    Costs 1 (instruction opcode operand) := by
  intro ctx e a e' hrun
  rw [runs_instruction.mp hrun]
  exact Ordered.pc_lt_append e _

/-- Loading a parameter takes code. -/
theorem costs_param (index : Nat) : Costs 1 (expr .value (.param index)) := by
  rw [expr]
  refine .after .read fun ctx => ?_
  have hsettle : Advances false 0 0 (settle .value) := advances_settle trivial
  cases ctx.paramSlot? index with
  | none => exact .before (fun _ _ _ _ h => absurd h runs_fail) fun _ => hsettle
  | some p =>
    refine .before (.before ?_ fun _ => advances_pushType p.2) fun _ => hsettle
    intro ctx e a e' hrun
    rw [runs_slotInstruction.mp hrun]
    exact Ordered.pc_lt_append e _

theorem costs_params (positions : List Nat) :
    Costs positions.length (exprs .value (positions.map .param)) := by
  induction positions with
  | nil =>
    rw [List.map_nil, exprs]
    exact fun ctx e a e' h => by rw [(runs_pure.mp h).2]; rfl
  | cons i positions ih =>
    rw [List.map_cons, exprs, List.length_cons, Nat.add_comm]
    exact (costs_param i).bind fun _ => ih

theorem costs_superInit (owner : TypeName) (params : List TypeName) (positions : List Nat) :
    Costs positions.length (stmt (.superInit owner params (positions.map .param))) := by
  rw [stmt]
  exact .after advances_loadThis fun _ =>
    .after (advances_checkCount _ _) fun _ =>
    (costs_params positions).before fun _ =>
    (advances_callConstructor _ _).bind fun _ => Advances.read.bind fun _ =>
    (advances_addConstants (ConstantPool.adds_class _)).bind fun _ => advances_replaceAll

theorem costs_setField (target : Expr) (field : FieldRef) (value : Expr) :
    Costs 1 (stmt (.setField target field value)) := by
  rw [stmt]
  exact .after (advances_expr target _ .value trivial) fun _ =>
    .after (advances_expr value _ .value trivial) fun _ =>
    .after (advances_fieldRef field) fun _ =>
    costs_instruction.before fun _ => advances_pop

/-- Statements that declare no local variables. -/
theorem advances_quiet {ss : List Stmt} (h : ∀ s ∈ ss, Advances false 0 0 (stmt s)) :
    Advances false 0 0 (stmts ss) := by
  induction ss with
  | nil =>
    rw [stmts]
    exact .pure
  | cons s ss ih =>
    rw [stmts]
    exact (advances_checkReachable s).bind fun _ => (h s List.mem_cons_self).bind fun _ =>
      ih fun s hs => h s (List.mem_cons_of_mem _ hs)

theorem costs_stmts {ss rest : List Stmt} (h : ∀ s ∈ ss, Costs 1 (stmt s))
    (hrest : ∀ s ∈ rest, Advances false 0 0 (stmt s)) : Costs ss.length (stmts (ss ++ rest)) := by
  induction ss with
  | nil =>
    intro ctx e a e' hrun
    exact (advances_quiet hrest ctx e a e' (Nat.zero_le _) hrun).pc_le
  | cons s ss ih =>
    rw [List.cons_append, stmts, List.length_cons, Nat.add_comm]
    exact .after (advances_checkReachable s) fun _ => (h s List.mem_cons_self).bind fun _ =>
      ih fun s hs => h s (List.mem_cons_of_mem _ hs)

end Emit

theorem totalSlots_le (types : List TypeName) : totalSlots types ≤ 2 * types.length := by
  induction types with
  | nil => exact Nat.le_refl _
  | cons t types ih =>
    have hsize := t.slotSize_le
    rw [totalSlots, List.map_cons, List.foldr_cons, ← totalSlots, List.length_cons]
    omega

namespace ConstructorPlan

variable {plan : ConstructorPlan} {owner superclass : TypeName}

theorem advances_body :
    ∀ s ∈ plan.body owner superclass, Advances false 0 0 (stmt s) := by
  intro s hs
  simp only [body, List.mem_append, List.mem_cons, List.mem_map, List.not_mem_nil, or_false] at hs
  obtain (rfl | ⟨⟨m, i⟩, -, rfl⟩) | rfl := hs
  · exact advances_superInit _ _ _ 0
  · exact advances_setField _ _ _ 0
  · exact advances_retStmt _ 0

/-- The code of a constructor has a byte for each parameter. -/
theorem costs_body : Costs plan.signature.params.length (stmts (plan.body owner superclass)) := by
  have hserves := plan.serves_signature
  obtain ⟨more, hparams, hmore, -⟩ := hserves.params
  have hlength : plan.signature.params.length
      ≤ plan.signature.forwarded.length + plan.members.length := by
    rw [hparams, List.length_append, List.length_map, hserves.forwarded.length_eq]
    omega
  have hsets : ∀ s ∈ plan.members.zipIdx.map fun entry =>
      Stmt.setField .this (entry.1.fieldRef owner) (.param (entry.2 + 1)), Costs 1 (stmt s) := by
    intro s hs
    obtain ⟨entry, -, rfl⟩ := List.mem_map.mp hs
    exact costs_setField _ _ _
  have hret : ∀ s ∈ [Stmt.ret none], Advances false 0 0 (stmt s) :=
    fun s hs => List.mem_singleton.mp hs ▸ advances_retStmt none 0
  have hall := (costs_superInit superclass (plan.superParams.map (·.type))
    plan.signature.forwarded).bind fun _ => costs_stmts hsets hret
  intro ctx e a e' hrun
  have hcost := Costs.after (advances_checkReachable _) (fun _ => hall) ctx e a e' hrun
  rw [List.length_map, List.length_zipIdx] at hcost
  omega

end ConstructorPlan

/-! ## Methods of members -/

/-- A method that is put together from members. -/
inductive MemberMethod
  | equals (members : List Member) (directive : EqualsDirective)
  | hashCode (members : List Member) (directive : HashCodeDirective)
  | display (members : List Member) (directive : ToStringDirective)
  | constructor (plan : ConstructorPlan)

namespace MemberMethod

/-- The types of members, and of the parameters of the inherited constructor. -/
def types : MemberMethod → List TypeName
  | equals members _ | hashCode members _ | display members _ => members.map Member.exposedType
  | constructor plan =>
    plan.members.map Member.storedType ++ plan.superParams.map Parameter.type

/-- The method in a class. -/
def context (owner : TypeName) : MemberMethod → MethodContext
  | equals .. =>
    ClassUnit.methodContext owner AccessFlags.isPublic "equals" [.object] .boolean
  | hashCode .. => ClassUnit.methodContext owner AccessFlags.isPublic "hashCode" [] .int
  | display .. => ClassUnit.methodContext owner AccessFlags.isPublic "toString" [] .string
  | constructor plan =>
    ClassUnit.methodContext owner AccessFlags.isPublic constructorName plan.signature.params .void

/-- The body of the method in a class. -/
def body (owner superclass : TypeName) : MemberMethod → List Stmt
  | equals members d => Synthesis.equalsBody d owner superclass members
  | hashCode members d => Synthesis.hashCodeBody d owner superclass members
  | display members d => Synthesis.toStringBody d owner superclass members
  | constructor plan => plan.body owner superclass

variable {described : Prop} {owner superclass : TypeName} {m : MemberMethod}

theorem isStatic_context : (m.context owner).isStatic = false := by
  have hflags : AccessFlags.has AccessFlags.isPublic AccessFlags.isStatic = false := by decide
  cases m <;> exact hflags

/-- Constructors alone declare no local variables. -/
def declares : MemberMethod → Bool
  | constructor _ => false
  | _ => true

theorem hasValues_plan {plan : ConstructorPlan}
    (h : ∀ t ∈ (constructor plan).types, t.HasValues described) : plan.HasValues described where
  members := fun _ hm => h _ (List.mem_append_left _ (List.mem_map_of_mem hm))
  superParams := fun _ hp =>
    h _ (List.mem_append_right _ (List.mem_map_of_mem (f := Parameter.type) hp))

theorem hasValues_params (h : ∀ t ∈ m.types, t.HasValues described) :
    ∀ t ∈ (m.context owner).params, t.HasValues described := by
  cases m with
  | equals => exact fun t ht => List.mem_singleton.mp ht ▸ TypeName.hasValues_object
  | hashCode | display => exact nofun
  | constructor plan => exact (hasValues_plan h).params

/-- The bodies lead to their ends. -/
theorem leads_body (h : ∀ t ∈ m.types, t.HasValues described) (hclass : owner.isReference = true) :
    ∃ scope, Stmt.LeadsAll described m.declares (m.context owner) [] (m.body owner superclass)
      scope := by
  have hstatic : (m.context owner).isStatic = false := isStatic_context
  cases m with
  | equals members d =>
    exact Synthesis.leads_equalsBody hstatic hclass d rfl rfl fun m hm =>
      h _ (List.mem_map_of_mem hm)
  | hashCode members d =>
    exact Synthesis.leads_hashCodeBody hstatic hclass d rfl fun m hm => h _ (List.mem_map_of_mem hm)
  | display members d =>
    exact ⟨_, Synthesis.leads_toStringBody hstatic hclass d rfl fun m hm =>
      h _ (List.mem_map_of_mem hm)⟩
  | constructor plan =>
    exact ⟨_, ConstructorPlan.leads_body (hasValues_plan h) hstatic hclass rfl rfl⟩

theorem ends_body : (m.context owner).ret.isVoid = true ∨
    Stmt.exitsAll (m.body owner superclass) = true := by
  cases m with
  | equals members d =>
    refine .inr ?_
    unfold body Synthesis.equalsBody
    dsimp only
    split_ifs <;> rfl
  | hashCode members d =>
    refine .inr ?_
    rw [body, Synthesis.hashCodeBody, Stmt.exitsAll, List.getLast?_append]
    rfl
  | display members d => exact .inr rfl
  | constructor plan => exact .inl rfl

theorem slotted_body (h : ∀ t ∈ m.types, t.isVoid = false) (hclass : owner.isReference = true) :
    Slotted m.declares (m.context owner) (m.body owner superclass) := by
  have htypes : ∀ t ∈ m.types, t.HasValues False := fun t ht => ⟨h t ht, False.elim⟩
  obtain ⟨scope, hleads⟩ := leads_body htypes hclass
  exact hleads.slotted ends_body

variable {pool : ConstantPool}

theorem length_entry (h : ∀ t ∈ m.types, t.isVoid = false) :
    (start (m.context owner) pool).entry.length = 1 + totalSlots (m.context owner).params := by
  have hparams : ∀ t ∈ (m.context owner).params, t.HasValues False :=
    hasValues_params fun t ht => ⟨h t ht, False.elim⟩
  rw [MethodContext.length_entry fun t ht => (hparams t ht).nonVoid, MethodContext.receiverSlots,
    isStatic_context]
  rfl

/-- Methods that declare local variables have few parameters. -/
theorem length_entry_le (h : ∀ t ∈ m.types, t.isVoid = false) (hdeclares : m.declares = true) :
    (start (m.context owner) pool).entry.length ≤ 255 := by
  rw [length_entry h]
  cases m with
  | equals =>
    change 1 + totalSlots [TypeName.object] ≤ 255
    decide
  | hashCode | display =>
    change 1 + totalSlots [] ≤ 255
    decide
  | constructor plan => cases hdeclares

theorem finished_body (h : ∀ t ∈ m.types, t.isVoid = false) (hclass : owner.isReference = true) :
    Finished (m.context owner) (m.body owner superclass) pool := by
  refine .of_slotted (slotted_body h hclass) fun hdeclares _ => ?_
  have hfew : (start (m.context owner) pool).entry.length ≤ 255 := length_entry_le h hdeclares
  rw [nextLocal_start (Nat.le_trans hfew (by decide)), length_entry h]
  exact Nat.lt_add_right _ Nat.zero_lt_one

/-- The slots of the parameters of a constructor are paid for by its code. -/
theorem maxLocals_le (h : ∀ t ∈ m.types, t.isVoid = false) (hclass : owner.isReference = true)
    (hpc : (emitterOf (m.context owner) (m.body owner superclass) pool).pc ≤ 32767) :
    (emitterOf (m.context owner) (m.body owner superclass) pool).maxLocals ≤ 65535 := by
  have hfinished : Finished (m.context owner) (m.body owner superclass) pool :=
    finished_body h hclass
  have hrun := hfinished.runs
  cases m with
  | equals | hashCode | display =>
    exact Nat.le_of_lt_succ (maxLocals_lt (length_entry_le h rfl) hrun (by omega))
  | constructor plan =>
    obtain ⟨_, e, hstmts, hend⟩ := runs_bind.mp hrun
    have hcost := ConstructorPlan.costs_body _ _ _ _ hstmts
    have hsame := (advances_quiet ConstructorPlan.advances_body _ _ _ _ (Nat.zero_le _)
      hstmts).sameLocals.maxLocals
    have hstart : (start ((constructor plan).context owner) pool).maxLocals
        = 1 + totalSlots plan.signature.params := length_entry h
    have hslots := totalSlots_le plan.signature.params
    have hlast : e.pc ≤ (emitterOf ((constructor plan).context owner)
          ((constructor plan).body owner superclass) pool).pc ∧
        (emitterOf ((constructor plan).context owner)
          ((constructor plan).body owner superclass) pool).maxLocals = e.maxLocals := by
      rcases runs_endMethod hend with ⟨_, hfinal⟩ | ⟨_, _, hfinal⟩ <;> rw [hfinal]
      · exact ⟨Nat.le_refl _, rfl⟩
      · exact ⟨Nat.le_add_right _ _, rfl⟩
    omega

/-- **Methods of members.** For every list of members whose types have values, every directive and
every list of inherited parameters, the method is emitted as long as its code stays within the range
of jumps, and it declares local variables before it reads them. If the types can be described and
the constants be indexed, the code has a safe stack on every path. -/
theorem emitted_and_safe (m : MemberMethod) (owner superclass : TypeName) (pool : ConstantPool)
    (hclass : owner.isReference = true) (htypes : ∀ t ∈ m.types, t.isVoid = false)
    (hrange : (emitterOf (m.context owner) (m.body owner superclass) pool).pc ≤ 32767) :
    Stmt.ReadsDeclaredAll [] (m.body owner superclass) ∧
      ∃ code, (emitMethod (m.context owner) (m.body owner superclass) pool).1 = .ok code ∧
        ((∀ t ∈ m.types, t.isDescribable = true) →
          (emitMethod (m.context owner) (m.body owner superclass) pool).2.Indexable →
          StackSafe (emitMethod (m.context owner) (m.body owner superclass) pool).2 code) := by
  have hfinished : Finished (m.context owner) (m.body owner superclass) pool :=
    finished_body htypes hclass
  obtain ⟨code, hcode⟩ := hfinished.exists_emitMethod (by omega) (.inl hrange)
  refine ⟨(slotted_body htypes hclass).readsDeclared, code, congrArg Prod.fst hcode,
    fun hdescribable hpool => ?_⟩
  have hvalues : ∀ t ∈ m.types, t.HasValues True := fun t ht =>
    ⟨htypes t ht, fun _ => hdescribable t ht⟩
  obtain ⟨scope, hleads⟩ := leads_body hvalues hclass
  have hbody : TypedBody .width (m.context owner) (m.body owner superclass) :=
    hleads.typedBody trivial fun t ht => (hasValues_params hvalues t ht).nonVoid
  exact hfinished.stackSafe hbody hrange (maxLocals_le htypes hclass hrange) hpool
    (congrArg Prod.fst hcode)

/-- The test of two primitive members, of one and of two slots, of an array and of what the class
inherits. -/
def agedEquals : MemberMethod :=
  .equals
    [⟨"age", ⟨"long"⟩, { name := "getAge", returnType := ⟨"long"⟩ }⟩,
      ⟨"size", ⟨"float"⟩, { name := "getSize", returnType := ⟨"float"⟩ }⟩,
      ⟨"data", ⟨"byte[]"⟩, { name := "getData", returnType := ⟨"byte[]"⟩ }⟩]
    { callSuper := true }

theorem emitted_and_safe_aged :
    Stmt.ReadsDeclaredAll [] (agedEquals.body ⟨"demo.Aged"⟩ ⟨"demo.Base"⟩) ∧
      ∃ code, (emitMethod (agedEquals.context ⟨"demo.Aged"⟩)
          (agedEquals.body ⟨"demo.Aged"⟩ ⟨"demo.Base"⟩) .empty).1 = .ok code ∧
        ((emitMethod (agedEquals.context ⟨"demo.Aged"⟩)
            (agedEquals.body ⟨"demo.Aged"⟩ ⟨"demo.Base"⟩) .empty).2.Indexable →
          StackSafe (emitMethod (agedEquals.context ⟨"demo.Aged"⟩)
            (agedEquals.body ⟨"demo.Aged"⟩ ⟨"demo.Base"⟩) .empty).2 code) := by
  obtain ⟨hreads, code, hcode, hsafe⟩ := emitted_and_safe agedEquals ⟨"demo.Aged"⟩ ⟨"demo.Base"⟩
    .empty (by decide) (by decide) (by decide +kernel)
  exact ⟨hreads, code, hcode, hsafe (by decide)⟩

end MemberMethod

end ClassSynth

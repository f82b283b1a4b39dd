import Mathlib.Algebra.Order.BigOperators.Group.List
import Mathlib.Algebra.BigOperators.Group.List.Basic
import ClassSynth.Proofs.Synthesis.Returns
import ClassSynth.Proofs.Synthesis.Signatures

/-!
# The code of constructors

The body of a constructor is one sequence of instructions (`ConstructorPlan.construction`): the call
of the inherited constructor on the receiver, with what the parameters at the forwarded positions
hold, and an assignment of its parameter to the field of each member. Positions become slots where
the parameters before them end, so that a wide parameter moves the later ones by two
(`paramLoad`).
-/

namespace ClassSynth

open Emit Emitter

/-- The instruction that loads the parameter at a one-based position of a method with a receiver. -/
def paramLoad (params : List TypeName) (position : Nat) : Instruction :=
  loadForm (ValueKind.ofType (params.getD (position - 1) .object))
    (1 + totalSlots (params.take (position - 1)))

/-- The instructions that assign a parameter to a field of the receiver. -/
def assignment (params : List TypeName) (field : UInt16) (position : Nat) : List Instruction :=
  [⟨Opcode.aload0, .empty⟩, paramLoad params position, ⟨Opcode.putfield, .short field⟩]

theorem labels_paramLoad (params : List TypeName) (position : Nat) :
    (paramLoad params position).labels = [] :=
  (plain_loadForm _ _).labels

namespace Emit

variable {ctx : MethodContext} {e e₁ e' : Emitter} {u : Unit}

theorem code_of_param {position : Nat} (hstatic : ctx.isStatic = false)
    (h : Runs (expr .value (.param position)) ctx e u e') :
    e'.code = e.code.push (paramLoad ctx.params position) := by
  rw [expr, runs_read_bind] at h
  cases hslot : ctx.paramSlot? position with
  | none =>
    simp only [hslot] at h
    obtain ⟨_, _, hfail, -⟩ := runs_bind.mp h
    exact absurd hfail runs_fail
  | some found =>
    simp only [hslot] at h
    obtain ⟨_, e₁, hload, hsettle⟩ := runs_bind.mp h
    obtain ⟨-, rfl⟩ := runs_pure.mp hsettle
    rw [code_of_load hload]
    cases position with
    | zero => cases hslot
    | succ k =>
      obtain ⟨t, ht, rfl⟩ := Option.map_eq_some_iff.mp hslot
      simp [paramLoad, MethodContext.receiverSlots, hstatic, ht]

theorem code_of_positions {positions : List Nat} (hstatic : ctx.isStatic = false)
    (h : Runs (exprs .value (positions.map .param)) ctx e u e') :
    e'.code.toList = e.code.toList ++ positions.map (paramLoad ctx.params) := by
  induction positions generalizing e with
  | nil =>
    rw [List.map_nil, exprs] at h
    obtain ⟨-, rfl⟩ := runs_pure.mp h
    simp
  | cons position positions ih =>
    rw [List.map_cons, exprs] at h
    obtain ⟨_, e₁, hparam, hrest⟩ := runs_bind.mp h
    rw [ih hrest, code_of_param hstatic hparam]
    simp

/-- The call of the inherited constructor. -/
theorem code_of_superInit {owner : TypeName} {params : List TypeName} {positions : List Nat}
    (hstatic : ctx.isStatic = false)
    (h : Runs (stmt (.superInit owner params (positions.map .param))) ctx e u e') :
    ∃ index, e'.code.toList = e.code.toList ++ (⟨Opcode.aload0, .empty⟩ ::
        positions.map (paramLoad ctx.params) ++ [⟨Opcode.invokespecial, .short index⟩]) ∧
      e'.Provides fun r => r.memberRef index = .ok {
        owner := owner.internalName
        name := constructorName
        descriptor := methodDescriptor params .void
        onInterface := false } := by
  rw [stmt] at h
  obtain ⟨_, e₁, hthis, hchecked⟩ := runs_bind.mp h
  obtain ⟨-, rfl⟩ := runs_loadThis.mp hthis
  rw [checkCount, runs_check_bind] at hchecked
  obtain ⟨_, e₂, hargs, hrest⟩ := runs_bind.mp hchecked.2
  obtain ⟨_, e₃, hcall, hinitialize⟩ := runs_bind.mp hrest
  rw [runs_read_bind, runs_addConstants_bind] at hinitialize
  obtain rfl := runs_replaceAll.mp hinitialize
  obtain ⟨index, hcode, hmember⟩ := code_of_callConstructor hcall
  have hloads := code_of_positions hstatic hargs
  refine ⟨index, ?_, ?_⟩
  · simp [hcode, hloads, append, pushed]
  · exact hmember.of_grows (ConstantPool.adds_class ctx.className.internalName e₃.pool).1

/-- The assignment of a parameter to a field of the receiver. -/
theorem code_of_setField {field : FieldRef} {position : Nat} (hstatic : ctx.isStatic = false)
    (h : Runs (stmt (.setField .this field (.param position))) ctx e u e') :
    ∃ index, e'.code.toList = e.code.toList ++ assignment ctx.params index position ∧
      e'.Provides fun r => r.memberRef index = .ok {
        owner := field.owner.internalName
        name := field.name
        descriptor := field.type.descriptor
        onInterface := false } := by
  rw [stmt] at h
  obtain ⟨_, e₁, hthis, hrest⟩ := runs_bind.mp h
  obtain ⟨_, e₂, hvalue, hput⟩ := runs_bind.mp hrest
  rw [expr] at hthis
  obtain ⟨_, _, hload, hsettle⟩ := runs_bind.mp hthis
  obtain ⟨-, rfl⟩ := runs_pure.mp hsettle
  obtain ⟨-, rfl⟩ := runs_loadThis.mp hload
  rw [fieldRef, ConstantPool.addFieldRef, runs_addConstants_bind, runs_instruction_bind] at hput
  obtain ⟨s, -, rfl⟩ := runs_pop.mp hput
  refine ⟨_, ?_, (ConstantPool.adds_member false (.inl ⟨rfl, rfl⟩) field.owner.internalName
    field.name field.type.descriptor e₂.pool).2⟩
  simp [assignment, append, pushed, code_of_param hstatic hvalue]

/-- A field of a class is referred to by an index. -/
def RefersTo (r : ConstantPool) (owner : TypeName) (index : UInt16) (m : Member) : Prop :=
  r.memberRef index = .ok {
    owner := owner.internalName
    name := m.field
    descriptor := m.storedType.descriptor
    onInterface := false }

/-- Members are assigned the parameters from a position on. -/
theorem code_of_assignments {owner : TypeName} {members : List Member} {ss : List Stmt}
    (hstatic : ctx.isStatic = false) {k : Nat}
    (h : Runs (stmts ((members.zipIdx k).map (fun (m, i) =>
      Stmt.setField .this (m.fieldRef owner) (.param (i + 1))) ++ ss)) ctx e u e') :
    ∃ fields e₁, e₁.code.toList = e.code.toList ++
        (fields.zipIdx k).flatMap (fun (field, i) => assignment ctx.params field (i + 1)) ∧
      e.pool.Grows e₁.pool ∧
      e₁.Provides (fun r => List.Forall₂ (RefersTo r owner) fields members) ∧
      Runs (stmts ss) ctx e₁ u e' := by
  induction members generalizing e k with
  | nil => exact ⟨[], e, by simp, .refl _, fun _ _ _ => .nil, h⟩
  | cons m members ih =>
    rw [List.zipIdx_cons, List.map_cons, List.cons_append, stmts] at h
    obtain ⟨_, _, hcheck, hreached⟩ := runs_bind.mp h
    obtain ⟨-, rfl⟩ := Machine.of_checkReachable hcheck
    obtain ⟨_, e₁, hset, hrest⟩ := runs_bind.mp hreached
    obtain ⟨field, hcode, hfield⟩ := code_of_setField hstatic hset
    obtain ⟨fields, e₂, hcodes, hgrows, hfields, hend⟩ := ih hrest
    have hto : Steps true 0 _ e₁ := advances_setField _ _ _ 0 ctx _ _ e₁ (Nat.zero_le _) hset
    refine ⟨field :: fields, e₂, by simp [hcodes, hcode], hto.pool.trans hgrows,
      fun r hr hindexable => ?_, hend⟩
    exact .cons (hfield.of_grows hgrows r hr hindexable) (hfields r hr hindexable)

/-- The end of a body without a value. -/
theorem code_of_ret (h : Runs (stmts [.ret none]) ctx e u e₁) (hend : Runs endMethod ctx e₁ () e') :
    e'.code.toList = e.code.toList ++ [⟨Opcode.returnVoid, .empty⟩] ∧ e'.pool = e.pool := by
  rw [stmts] at h
  obtain ⟨_, _, hcheck, hreached⟩ := runs_bind.mp h
  obtain ⟨-, rfl⟩ := Machine.of_checkReachable hcheck
  obtain ⟨_, e₂, hret, hnil⟩ := runs_bind.mp hreached
  rw [stmts] at hnil
  obtain ⟨-, rfl⟩ := runs_pure.mp hnil
  obtain rfl := Machine.of_retVoid hret
  obtain ⟨-, rfl⟩ | ⟨hreached, -, -⟩ := runs_endMethod hend
  · exact ⟨by simp [append], rfl⟩
  · cases hreached

end Emit

namespace ConstructorPlan

variable {plan : ConstructorPlan}

/-- The instructions of a constructor: the inherited constructor is called with the parameters that
are passed on, and the parameter at the place of each member is assigned to its field. -/
def construction (plan : ConstructorPlan) (inherited : UInt16) (fields : List UInt16) :
    List Instruction :=
  let params := plan.signature.params
  ⟨Opcode.aload0, .empty⟩ :: plan.signature.forwarded.map (paramLoad params) ++
    [⟨Opcode.invokespecial, .short inherited⟩] ++
    fields.zipIdx.flatMap (fun (field, i) => assignment params field (i + 1)) ++
    [⟨Opcode.returnVoid, .empty⟩]

/-- The instructions are those of the constructor, with the constants of a pool. -/
def Constructs (plan : ConstructorPlan) (pool : ConstantPool) (owner superclass : TypeName)
    (is : List Instruction) : Prop :=
  ∃ inherited fields, is = plan.construction inherited fields ∧
    pool.memberRef inherited = .ok {
      owner := superclass.internalName
      name := constructorName
      descriptor := methodDescriptor (plan.superParams.map Parameter.type) .void
      onInterface := false } ∧
    List.Forall₂ (RefersTo pool owner) fields plan.members

theorem labels_construction {inherited : UInt16} {fields : List UInt16} :
    ∀ i ∈ plan.construction inherited fields, i.labels = [] := by
  intro i hi
  simp only [construction, assignment, List.mem_append, List.mem_cons, List.mem_map,
    List.mem_flatMap, List.not_mem_nil, or_false] at hi
  obtain (((rfl | ⟨_, -, rfl⟩) | rfl) | ⟨_, -, rfl | rfl | rfl⟩) | rfl := hi
  all_goals first
    | rfl
    | exact labels_paramLoad _ _

/-- A constructor in its class. -/
def context (plan : ConstructorPlan) (owner : TypeName) : MethodContext :=
  ClassUnit.methodContext owner AccessFlags.isPublic constructorName plan.signature.params .void

theorem isStatic_context (owner : TypeName) : (plan.context owner).isStatic = false := by
  show AccessFlags.has AccessFlags.isPublic AccessFlags.isStatic = false
  decide

/-- The statements of the body become the instructions of the constructor. -/
theorem code_of_body {owner superclass : TypeName} {pool : ConstantPool} {e : Emitter}
    (h : Runs (do stmts (plan.body owner superclass); endMethod) (plan.context owner)
      (start (plan.context owner) pool) () e) :
    ∃ inherited fields, e.code.toList = plan.construction inherited fields ∧
      e.Provides fun r => r.memberRef inherited = .ok {
          owner := superclass.internalName
          name := constructorName
          descriptor := methodDescriptor (plan.superParams.map Parameter.type) .void
          onInterface := false } ∧
        List.Forall₂ (RefersTo r owner) fields plan.members := by
  have hstatic : (plan.context owner).isStatic = false := isStatic_context owner
  obtain ⟨_, e₃, hbody, hend⟩ := runs_bind.mp h
  rw [body, List.cons_append, stmts] at hbody
  obtain ⟨_, _, hcheck, hreached⟩ := runs_bind.mp hbody
  obtain ⟨-, rfl⟩ := Machine.of_checkReachable hcheck
  obtain ⟨_, e₁, hinit, hrest⟩ := runs_bind.mp hreached
  obtain ⟨inherited, hcode, hmember⟩ := code_of_superInit hstatic hinit
  obtain ⟨fields, e₂, hcodes, hgrows, hfields, hlast⟩ := code_of_assignments hstatic hrest
  obtain ⟨hreturn, hpool⟩ := code_of_ret hlast hend
  refine ⟨inherited, fields, ?_, fun r hr hindexable => ⟨?_, ?_⟩⟩
  · rw [hreturn, hcodes, hcode]
    simp [construction, start]
    rfl
  · exact hmember.of_grows hgrows r (hpool ▸ hr) hindexable
  · exact hfields r (hpool ▸ hr) hindexable

/-- **The code of a constructor** calls the inherited constructor with the parameters that are passed
on and assigns to each field the parameter at the place of its member. -/
theorem constructs_of_emitMethod (plan : ConstructorPlan) {owner superclass : TypeName}
    {pool : ConstantPool} {code : EmittedCode}
    (h : (emitMethod (plan.context owner) (plan.body owner superclass) pool).1 = .ok code) :
    ∃ is, Instruction.encode is = .ok code.code ∧ ∀ r,
      (emitMethod (plan.context owner) (plan.body owner superclass) pool).2.Grows r →
        r.Indexable → plan.Constructs r owner superclass is := by
  obtain ⟨e, hrun, hfinish, hpool⟩ := of_runWith h
  obtain ⟨inherited, fields, hcode, hprovides⟩ := code_of_body hrun
  have hresolved : resolvedCode e = plan.construction inherited fields := by
    rw [resolvedCode, hcode]
    exact Instruction.map_mapLabels_of_free labels_construction
  obtain ⟨-, -, bytes, hbytes, rfl⟩ := of_finish hfinish
  rw [hresolved] at hbytes
  refine ⟨_, hbytes, fun r hr hindexable => ?_⟩
  obtain ⟨hmember, hfields⟩ := hprovides r (hpool ▸ hr) hindexable
  exact ⟨inherited, fields, rfl, hmember, hfields⟩

end ConstructorPlan

/-! ## Room for slots

Each parameter of a constructor is loaded at least once, and a load from a slot above 255 takes four
bytes. Since a parameter has at most two slots, code that is short enough names all of them in two
bytes.
-/

namespace Instruction

/-- The instruction takes no fewer bytes, wherever it stands. -/
def leastSize (i : Instruction) : Nat :=
  match i.operand with
  | .slot _ true => 4
  | _ => 1

theorem leastSize_le (pc : Nat) (i : Instruction) : i.leastSize ≤ i.sizeAt pc := by
  unfold leastSize
  split
  · next index hoperand => simp [sizeAt, hoperand]
  · exact sizeAt_pos pc i

theorem one_le_leastSize (i : Instruction) : 1 ≤ i.leastSize := by
  unfold leastSize
  split <;> decide

theorem sum_leastSize_le (pc : Nat) (is : List Instruction) :
    pc + (is.map leastSize).sum ≤ endFrom pc is := by
  induction is generalizing pc with
  | nil => exact Nat.le_refl _
  | cons i is ih =>
    have hrest := ih (pc + i.sizeAt pc)
    have hfirst := i.leastSize_le pc
    rw [List.map_cons, List.sum_cons]
    change _ ≤ endFrom (pc + i.sizeAt pc) is
    omega

/-- Code that can be written has at most 65535 bytes. -/
theorem sum_leastSize_le_of_encode {is : List Instruction} {bytes : Bytes}
    (h : encode is = .ok bytes) : (is.map leastSize).sum ≤ 65535 := by
  have hle := offsetIn_le_of_encode h is.length
  have hsum := sum_leastSize_le 0 is
  rw [offsetIn_length] at hle
  omega

theorem leastSize_loadForm {kind : ValueKind} {slot : Nat} (h : 255 < slot) :
    (loadForm kind slot).leastSize = 4 := by
  have hslot : ¬ slot ≤ 3 := by omega
  simp [loadForm, slotForm, hslot, leastSize, h]

/-- All slots from one on are paid for by loads, up to those that a byte can name. -/
theorem totalSlots_le_loads (slot : Nat) (params : List TypeName) :
    2 * totalSlots params ≤ ((argumentLoads slot params).map leastSize).sum + 2 * (257 - slot) := by
  induction params generalizing slot with
  | nil => exact Nat.zero_le _
  | cons t params ih =>
    have hrest := ih (slot + t.slotSize)
    have hsize := t.slotSize_le
    have hone := one_le_leastSize (loadForm (ValueKind.ofType t) slot)
    rw [argumentLoads, List.map_cons, List.sum_cons]
    rw [totalSlots, List.map_cons, List.foldr_cons, ← totalSlots]
    by_cases hslot : 255 < slot
    · rw [leastSize_loadForm hslot]
      omega
    · omega

end Instruction

@[simp] theorem length_argumentLoads (slot : Nat) (params : List TypeName) :
    (argumentLoads slot params).length = params.length := by
  induction params generalizing slot with
  | nil => rfl
  | cons t params ih => rw [argumentLoads, List.length_cons, ih, List.length_cons]

theorem map_paramLoad_range' (done params : List TypeName) :
    (List.range' (done.length + 1) params.length).map (paramLoad (done ++ params))
      = argumentLoads (1 + totalSlots done) params := by
  induction params generalizing done with
  | nil => rfl
  | cons t params ih =>
    have hrest := ih (done ++ [t])
    rw [List.length_append, List.length_singleton, List.append_assoc, List.singleton_append,
      totalSlots_append_singleton, ← Nat.add_assoc] at hrest
    rw [List.length_cons, List.range'_succ, List.map_cons, hrest, argumentLoads]
    simp [paramLoad]

namespace ConstructorPlan

variable {plan : ConstructorPlan}

theorem sublist_assignments (params : List TypeName) (fields : List UInt16) (k : Nat) :
    ((List.range' (k + 1) fields.length).map (paramLoad params)).Sublist
      ((fields.zipIdx k).flatMap fun x => assignment params x.1 (x.2 + 1)) := by
  induction fields generalizing k with
  | nil => exact List.Sublist.slnil
  | cons field fields ih =>
    rw [List.length_cons, List.range'_succ, List.map_cons, List.zipIdx_cons, List.flatMap_cons]
    have hfirst : [paramLoad params (k + 1)].Sublist (assignment params field (k + 1)) := by
      simp [assignment]
    exact hfirst.append (ih (k + 1))

/-- The parameters behind the members are passed on. -/
theorem sublist_forwarded (plan : ConstructorPlan) :
    (List.range' (plan.members.length + 1)
      (plan.signature.params.length - plan.members.length)).Sublist plan.signature.forwarded := by
  rw [← plan.forwards_signature.added]
  exact List.filter_sublist

/-- Each parameter is loaded. -/
theorem sum_loads_le {inherited : UInt16} {fields : List UInt16}
    (hfields : fields.length = plan.members.length) :
    ((argumentLoads 1 plan.signature.params).map Instruction.leastSize).sum
      ≤ ((plan.construction inherited fields).map Instruction.leastSize).sum := by
  have hle := plan.forwards_signature.length_le
  have hloads : argumentLoads 1 plan.signature.params
      = (List.range' 1 plan.signature.params.length).map (paramLoad plan.signature.params) :=
    (map_paramLoad_range' [] plan.signature.params).symm
  have hsplit : List.range' 1 plan.signature.params.length
      = List.range' 1 plan.members.length ++ List.range' (plan.members.length + 1)
        (plan.signature.params.length - plan.members.length) := by
    rw [Nat.add_comm _ 1, List.range'_append_1, Nat.add_sub_cancel' hle]
  have hassigned := ((sublist_assignments plan.signature.params fields 0).map
    Instruction.leastSize).sum_le_sum fun _ _ => Nat.zero_le _
  have hforwarded := ((plan.sublist_forwarded.map (paramLoad plan.signature.params)).map
    Instruction.leastSize).sum_le_sum fun _ _ => Nat.zero_le _
  rw [hfields, Nat.zero_add] at hassigned
  rw [hloads, hsplit]
  simp only [construction, List.map_append, List.map_cons, List.sum_append, List.sum_cons]
  omega

/-- **Positions and slots of a constructor fit in two bytes.** -/
theorem room_of_encode {inherited : UInt16} {fields : List UInt16} {bytes : Bytes}
    (hfields : fields.length = plan.members.length)
    (h : Instruction.encode (plan.construction inherited fields) = .ok bytes) :
    plan.signature.params.length ≤ 65535 ∧ 1 + totalSlots plan.signature.params ≤ 65535 := by
  have hsum := (sum_loads_le hfields).trans (Instruction.sum_leastSize_le_of_encode h)
  have hslots := Instruction.totalSlots_le_loads 1 plan.signature.params
  have hlength := List.length_le_sum_of_one_le
    ((argumentLoads 1 plan.signature.params).map Instruction.leastSize)
    (List.forall_mem_map.mpr fun i _ => Instruction.one_le_leastSize i)
  rw [List.length_map, length_argumentLoads] at hlength
  omega

end ConstructorPlan

end ClassSynth

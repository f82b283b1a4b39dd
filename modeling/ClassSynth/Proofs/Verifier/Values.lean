import ClassSynth.Proofs.Emit.Run
import ClassSynth.Proofs.Execution.Operations
import ClassSynth.Proofs.Verifier.Moves

/-!
# Values and the instructions for them

What represents a value in the verifier, and the effects of the instructions that lowering chooses.
-/

/-!
## Values of types

A value of a type is represented by a verification type of its kind, and by the same one in
every later pool (`Represents.grows`): a constant that was added once is found again, so two values
of one type are never told apart where control flow joins.
-/

namespace ClassSynth

/-! ### Constants that are found again -/

namespace ConstantPool

theorem Grows.index? {p q : ConstantPool} (h : p.Grows q) {c : Constant} {index : UInt16}
    (hindex : p.index? c = some index) : q.index? c = some index := by
  obtain ⟨position, hposition, rfl⟩ := Option.map_eq_some_iff.mp hindex
  obtain ⟨more, hmore⟩ := h.slots
  rw [p.positions_eq] at hposition
  rw [ConstantPool.index?, q.positions_eq, ← hmore, List.findIdx?_append, hposition]
  rfl

theorem index?_add (p : ConstantPool) (c : Constant) :
    (p.add c).2.index? c = some (p.add c).1 := by
  unfold add
  cases hindex : p.index? c with
  | some index => exact hindex
  | none =>
    have hnone : p.slots.toList.findIdx? (· == some c) = none := by
      rw [← p.positions_eq]
      exact Option.map_eq_none_iff.mp hindex
    have hfound : (p.slots ++ slotsOf c).toList.findIdx? (· == some c) = some p.slots.size := by
      rw [Array.toList_appendList, List.findIdx?_append, hnone, findIdx?_slotsOf, if_pos rfl]
      simp
    change ((p.push c).2.positions[c]?).map indexAt = some (indexAt p.slots.size)
    rw [(p.push c).2.positions_eq]
    exact congrArg (Option.map indexAt) hfound

/-- The step keeps all constants, and gives the same result again in every later pool. -/
def Settles {α : Type} (step : Adding α) : Prop :=
  ∀ p, p.Grows (step.run p).2 ∧
    ∀ r, (step.run p).2.Grows r → step.run r = ((step.run p).1, r)

namespace Settles

variable {α β : Type} {step : Adding α}

theorem pure {a : α} : Settles (Pure.pure a : Adding α) :=
  fun p => ⟨Grows.refl p, fun _ _ => rfl⟩

theorem bind {f : α → Adding β} (hstep : Settles step) (hf : ∀ a, Settles (f a)) :
    Settles (step >>= f) := by
  intro p
  obtain ⟨hgrows, hagain⟩ := hstep p
  obtain ⟨hgrows', hagain'⟩ := hf (step.run p).1 (step.run p).2
  refine ⟨hgrows.trans hgrows', fun r hr => ?_⟩
  change (f (step.run r).1).run (step.run r).2 = _
  rw [hagain r (hgrows'.trans hr)]
  exact hagain' r hr

end Settles

theorem settles_constant (c : Constant) : Settles (add' c) := by
  refine fun p => ⟨p.grows_add c, fun r hr => ?_⟩
  change r.add c = ((p.add c).1, r)
  rw [add, hr.index? (p.index?_add c)]

theorem settles_class (name : String) : Settles (addClass name) :=
  (settles_constant _).bind fun _ => settles_constant _

end ConstantPool

/-! ### Representations -/

theorem settles_verificationType (t : TypeName) : ConstantPool.Settles (verificationType t) := by
  unfold verificationType
  split_ifs
  · exact .pure
  · split
    all_goals first
      | exact .pure
      | exact (ConstantPool.settles_class _).bind fun _ => .pure

/-- In the pool, values of the type are represented so. -/
def Represents (pool : ConstantPool) (t : TypeName) (vt : VerificationType) : Prop :=
  (verificationType t).run pool = (vt, pool)

namespace Represents

variable {pool pool' : ConstantPool} {t : TypeName} {vt vt' : VerificationType}

theorem run (t : TypeName) (pool : ConstantPool) :
    Represents ((verificationType t).run pool).2 t ((verificationType t).run pool).1 :=
  (settles_verificationType t pool).2 _ (ConstantPool.Grows.refl _)

theorem grows (h : Represents pool t vt) (hpool : pool.Grows pool') : Represents pool' t vt := by
  have hagain := (settles_verificationType t pool).2 pool'
  rw [show (verificationType t).run pool = (vt, pool) from h] at hagain
  exact hagain hpool

theorem eq (h : Represents pool t vt) (h' : Represents pool t vt') : vt = vt' :=
  congrArg Prod.fst (Eq.trans (Eq.symm h) h')

end Represents

theorem primitive?_null : TypeName.null.primitive? = none := by decide

theorem kind?_verificationType (t : TypeName) (pool : ConstantPool) :
    ((verificationType t).run pool).1.kind? = some (.ofType t) := by
  unfold verificationType
  by_cases hnull : t.isNull = true
  · rw [if_pos hnull, TypeName.isNull_iff.mp hnull, ValueKind.ofType, primitive?_null]
    rfl
  · rw [if_neg hnull, ValueKind.ofType]
    cases t.primitive? with
    | none => rfl
    | some p => cases p <;> rfl

theorem Represents.kind? {pool : ConstantPool} {t : TypeName} {vt : VerificationType}
    (h : Represents pool t vt) : vt.kind? = some (.ofType t) := by
  have hkind := kind?_verificationType t pool
  rwa [show (verificationType t).run pool = (vt, pool) from h] at hkind

theorem Represents.ne_null {pool : ConstantPool} {t : TypeName} {vt : VerificationType}
    (h : Represents pool t vt) (ht : t.isNull = false) : vt ≠ .null := by
  rintro rfl
  have hnull : ((verificationType t).run pool).1 = .null := congrArg Prod.fst h
  unfold verificationType at hnull
  rw [if_neg (by simp [ht])] at hnull
  revert hnull
  cases t.primitive? with
  | none => exact nofun
  | some p => cases p <;> exact nofun

namespace Precision

variable {p : Precision} {t : TypeName}

theorem isVoid_of_inhabits (h : p.inhabits t = true) : t.isVoid = false := by
  simp only [inhabits, Bool.and_eq_true, Bool.not_eq_true'] at h
  exact h.1

theorem isNull_of_inhabits (h : kind.inhabits t = true) : t.isNull = false := by
  simp only [inhabits, Bool.and_eq_true, Bool.or_eq_true, Bool.not_eq_true'] at h
  exact h.2.resolve_left (by decide)

theorem declares_iff : p.declares t = true ↔ p.inhabits t = true ∧ t.isDescribable = true := by
  rw [declares, Bool.and_eq_true]

theorem admits_iff {k : ValueKind} :
    p.admits k t = true ↔ t.isVoid = false ∧ p.same (.ofType t) k = true := by
  rw [admits, Bool.and_eq_true, Bool.not_eq_true']

theorem Holds.of_kind? {vt : VerificationType} {k : ValueKind} (h : vt.kind? = some k) :
    p.Holds vt k := by
  cases p with
  | width => exact VerificationType.isWide_of_kind? h
  | kind => exact h

theorem holds_of_represents {pool : ConstantPool} {vt : VerificationType}
    (h : Represents pool t vt) : p.Holds vt (.ofType t) :=
  .of_kind? h.kind?

theorem yields_of_represents {pool : ConstantPool} {vt : VerificationType}
    (h : Represents pool t vt) (ht : p.inhabits t = true) : p.Yields vt (.ofType t) :=
  ⟨holds_of_represents h, fun hp => h.ne_null (isNull_of_inhabits (hp ▸ ht))⟩

end Precision

/-! ### Slots of types -/

theorem ValueKind.slots_ofType {t : TypeName} (h : t.isVoid = false) :
    (ValueKind.ofType t).slots = t.slotSize := by
  have hkind := kind?_verificationType t .empty
  have hwide := VerificationType.isWide_of_kind? hkind
  rw [ValueKind.slots, ← hwide, ← length_slots_verificationType h .empty,
    VerificationType.length_slots]

theorem ValueKind.slotsOf_ofType {ts : List TypeName} (h : ∀ t ∈ ts, t.isVoid = false) :
    ValueKind.slotsOf (ts.map .ofType) = totalSlots ts := by
  induction ts with
  | nil => rfl
  | cons t ts ih =>
    have hrest := ih fun u hu => h u (List.mem_cons_of_mem _ hu)
    have hfirst := ValueKind.slots_ofType (h t List.mem_cons_self)
    simp only [slotsOf, totalSlots, List.map_cons, List.sum_cons, List.foldr_cons] at hrest ⊢
    rw [hfirst, hrest]

end ClassSynth

/-!
## Effects of emitted instructions

Each form of an instruction that lowering chooses has the effect it was chosen for, read back from
its opcode and from the constants it refers to.
-/

namespace ClassSynth

open Emit

/-! ### Numbers and constants -/

theorem effect?_numberForm {value : Int32} {i : Instruction} (h : numberForm? value = some i)
    (pool : ConstantPool) : i.effect? pool = some (.takes [] [.int]) := by
  unfold numberForm? at h
  split_ifs at h with hsmall
  · obtain rfl := Option.some.inj h
    rcases small_cases hsmall.1 hsmall.2 with rfl | rfl | rfl | rfl | rfl | rfl | rfl <;> rfl
  · obtain rfl := Option.some.inj h
    rfl
  · obtain rfl := Option.some.inj h
    rfl

theorem effect?_constantForm {pool : ConstantPool} {index : UInt16} {c : Constant}
    (h : pool.get? index = some c) :
    (constantForm index).effect? pool = Effect.ofConstant? c := by
  unfold constantForm
  split_ifs with hindex
  · have hbyte : index.toUInt8.toUInt16 = index := by
      have hle : index.toNat ≤ 255 := UInt16.le_iff_toNat_le.mp hindex
      rw [← UInt16.toNat_inj, UInt8.toNat_toUInt16, UInt16.toNat_toUInt8]
      omega
    have hne : Opcode.ldc ≠ Opcode.bipush := by decide
    simp only [Instruction.effect?, if_neg hne, if_true, hbyte, h, Option.bind_some]
  · have hne : Opcode.ldcWide ≠ Opcode.sipush := by decide
    simp only [Instruction.effect?, Effect.ofIndexOpcode?, if_neg hne, if_true, h, Option.bind_some]

/-! ### Local variables -/

theorem effect?_loadForm (k : ValueKind) {slot : Nat} (hslot : slot ≤ 65535) (pool : ConstantPool) :
    (loadForm k slot).effect? pool = some (.load k slot) := by
  unfold loadForm slotForm
  split_ifs with hshort
  · have hcases : slot = 0 ∨ slot = 1 ∨ slot = 2 ∨ slot = 3 := by omega
    cases k <;> rcases hcases with rfl | rfl | rfl | rfl <;> rfl
  · have hnat := Machine.toNat_toUInt16 hslot
    cases k <;> (simp only [Instruction.effect?, hnat]; rfl)

theorem effect?_storeForm (k : ValueKind) {slot : Nat} (hslot : slot ≤ 65535)
    (pool : ConstantPool) : (storeForm k slot).effect? pool = some (.store k slot) := by
  unfold storeForm slotForm
  split_ifs with hshort
  · have hcases : slot = 0 ∨ slot = 1 ∨ slot = 2 ∨ slot = 3 := by omega
    cases k <;> rcases hcases with rfl | rfl | rfl | rfl <;> rfl
  · have hnat := Machine.toNat_toUInt16 hslot
    cases k <;> (simp only [Instruction.effect?, hnat]; rfl)

/-! ### Instructions of kinds -/

theorem effect?_ret (k : ValueKind) (pool : ConstantPool) :
    Instruction.effect? pool ⟨k.ret, .empty⟩ = some (.takes [k] []) := by
  cases k <;> rfl

theorem effect?_arrayStore (t : TypeName) (pool : ConstantPool) :
    Instruction.effect? pool ⟨t.arrayStore, .empty⟩
      = some (.takes [.reference, .int, .ofType t] []) := by
  unfold TypeName.arrayStore ValueKind.ofType
  cases t.primitive? with
  | none => rfl
  | some p => cases p <;> rfl

/-- The jumps that lowering chooses. -/
theorem shape_of_branch {opcode : UInt8} {effect : Effect}
    (h : Effect.ofBranchOpcode? opcode = some effect) (l : Label) :
    Opcode.shape? opcode = some .branch ∧
      Instruction.isUnconditionalExit ⟨opcode, .branch l⟩ = (opcode == Opcode.goto) := by
  unfold Effect.ofBranchOpcode? at h
  simp only [Bool.or_eq_true, decide_eq_true_eq] at h
  split_ifs at h with hgoto hzero hnull hint href
  · rw [hgoto]
    exact ⟨rfl, rfl⟩
  · rcases hzero with rfl | rfl <;> exact ⟨rfl, rfl⟩
  · rcases hnull with rfl | rfl <;> exact ⟨rfl, rfl⟩
  · rcases hint with rfl | rfl <;> exact ⟨rfl, rfl⟩
  · rcases href with rfl | rfl <;> exact ⟨rfl, rfl⟩

/-! ### Members -/

theorem effect?_field {pool : ConstantPool} {index : UInt16} {m : ConstantPool.MemberRef}
    {t : TypeName} (h : pool.memberRef index = .ok m) (hm : m.descriptor = t.descriptor)
    (ht : t.isDescribable = true) {opcode : UInt8}
    (hopcode : Opcode.inRange Opcode.getstatic Opcode.putfield opcode = true) :
    Instruction.effect? pool ⟨opcode, .short index⟩ = Effect.ofField? opcode (.ofType t) := by
  have hsipush : opcode ≠ Opcode.sipush := by rintro rfl; revert hopcode; decide
  have hldc : opcode ≠ Opcode.ldcWide := by rintro rfl; revert hopcode; decide
  change Effect.ofIndexOpcode? pool opcode index = _
  rw [Effect.ofIndexOpcode?, if_neg hsipush, if_neg hldc, if_pos hopcode, h]
  simp only [Except.toOption, hm, Option.bind_eq_bind, Option.bind_some,
    Descriptor.fieldKind?_descriptor ht]

/-- The descriptor of the method that is called is read back. -/
theorem ofCall?_eq {pool : ConstantPool} {index : UInt16} {m : ConstantPool.MemberRef}
    {params : List TypeName} {ret : TypeName} (h : pool.memberRef index = .ok m)
    (hm : m.descriptor = methodDescriptor params ret)
    (hparams : ∀ t ∈ params, t.isDescribable = true)
    (hret : ret.isVoid = true ∨ ret.isDescribable = true) (opcode : UInt8) :
    Effect.ofCall? pool opcode index = some
      (if opcode = Opcode.invokestatic then .takes (params.map .ofType) ret.valueKinds
      else if opcode = Opcode.invokespecial ∧ m.name = "<init>" ∧ ret.valueKinds = [] then
        .init (params.map .ofType)
      else .takes (.reference :: params.map .ofType) ret.valueKinds) := by
  rw [Effect.ofCall?, h]
  simp only [Except.toOption, hm, Option.bind_eq_bind, Option.bind_some,
    Descriptor.methodKinds?_methodDescriptor hparams hret]
  split_ifs <;> rfl

/-- The instruction of a call. -/
def callForm (kind : CallKind) (index : UInt16) (slots : Nat) : Instruction :=
  match kind with
  | .static => ⟨Opcode.invokestatic, .short index⟩
  | .virtual => ⟨Opcode.invokevirtual, .short index⟩
  | .special => ⟨Opcode.invokespecial, .short index⟩
  | .interface => ⟨Opcode.invokeinterface, .invokeInterface index (slots + 1).toUInt8⟩

theorem effect?_callForm (kind : CallKind) (pool : ConstantPool) (index : UInt16) (slots : Nat) :
    (callForm kind index slots).effect? pool
      = Effect.ofCall? pool (callForm kind index slots).opcode index := by
  cases kind <;> rfl

theorem plain_callForm (kind : CallKind) (index : UInt16) (slots : Nat) :
    (callForm kind index slots).Plain := by
  cases kind with
  | interface => exact ⟨⟨rfl, trivial⟩, rfl⟩
  | _ => exact plain_short rfl

theorem isUnconditionalExit_callForm (kind : CallKind) (index : UInt16) (slots : Nat) :
    (callForm kind index slots).isUnconditionalExit = false := by
  cases kind <;> rfl

end ClassSynth

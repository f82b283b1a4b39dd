import ClassSynth.Proofs.Emit.Run
import ClassSynth.Proofs.Instruction.Labels

/-!
# The forms of emitted instructions

Which instruction a small piece of lowering appends, as a function, with the fact that it can be
written and read again.
-/

namespace ClassSynth

/-- An instruction without labels that can be written. -/
structure Instruction.Plain (i : Instruction) : Prop extends i.Fits where
  labels : i.labels = []

namespace Emit

theorem plain_simple {opcode : UInt8} (h : Opcode.shape? opcode = some .empty) :
    Instruction.Plain ⟨opcode, .empty⟩ :=
  ⟨⟨h, trivial⟩, rfl⟩

theorem plain_short {opcode : UInt8} {index : UInt16} (h : Opcode.shape? opcode = some .short) :
    Instruction.Plain ⟨opcode, .short index⟩ :=
  ⟨⟨h, trivial⟩, rfl⟩

theorem plain_byte {opcode value : UInt8} (h : Opcode.shape? opcode = some .byte) :
    Instruction.Plain ⟨opcode, .byte value⟩ :=
  ⟨⟨h, trivial⟩, rfl⟩

/-! ## Slots -/

/-- The instruction for a slot, in one of three lengths. -/
def slotForm (opcode0 opcode : UInt8) (slot : Nat) : Instruction :=
  if slot ≤ 3 then ⟨opcode0 + slot.toUInt8, .empty⟩
  else ⟨opcode, .slot slot.toUInt16 (255 < slot)⟩

theorem runs_slotInstruction {opcode0 opcode : UInt8} {slot : Nat} {ctx : MethodContext}
    {e e' : Emitter} {u : Unit} :
    Runs (slotInstruction opcode0 opcode slot) ctx e u e' ↔
      e' = e.append (slotForm opcode0 opcode slot) := by
  unfold slotInstruction slotForm
  split_ifs <;> exact runs_instruction

theorem plain_slotForm {opcode0 opcode : UInt8} {slot : Nat}
    (h0 : ∀ k, k ≤ 3 → Opcode.shape? (opcode0 + k.toUInt8) = some .empty)
    (h : Opcode.shape? opcode = some .slot) : (slotForm opcode0 opcode slot).Plain := by
  unfold slotForm
  split_ifs with hslot
  · exact plain_simple (h0 slot hslot)
  · refine ⟨⟨h, fun hwide => ?_⟩, rfl⟩
    have hle : slot ≤ 255 := Nat.le_of_not_lt (of_decide_eq_false hwide)
    rw [Nat.toUInt16_eq, UInt16.toNat_ofNat']
    omega

/-- The instruction that loads the variable in a slot. -/
def loadForm (kind : ValueKind) (slot : Nat) : Instruction :=
  slotForm kind.load0 kind.load slot

/-- The instruction that stores into the variable in a slot. -/
def storeForm (kind : ValueKind) (slot : Nat) : Instruction :=
  slotForm kind.store0 kind.store slot

theorem shape_short_form (kind : ValueKind) {k : Nat} (hk : k ≤ 3) :
    Opcode.shape? (kind.load0 + k.toUInt8) = some .empty ∧
      Opcode.shape? (kind.store0 + k.toUInt8) = some .empty := by
  have hcases : k = 0 ∨ k = 1 ∨ k = 2 ∨ k = 3 := by omega
  rcases hcases with rfl | rfl | rfl | rfl <;> cases kind <;> decide

theorem plain_loadForm (kind : ValueKind) (slot : Nat) : (loadForm kind slot).Plain :=
  plain_slotForm (fun _ hk => (shape_short_form kind hk).1) (by cases kind <;> decide)

theorem plain_storeForm (kind : ValueKind) (slot : Nat) : (storeForm kind slot).Plain :=
  plain_slotForm (fun _ hk => (shape_short_form kind hk).2) (by cases kind <;> decide)

theorem plain_ret (kind : ValueKind) : Instruction.Plain ⟨kind.ret, .empty⟩ :=
  plain_simple (by cases kind <;> decide)

theorem plain_arrayStore (t : TypeName) : Instruction.Plain ⟨t.arrayStore, .empty⟩ := by
  refine plain_simple ?_
  unfold TypeName.arrayStore
  cases t.primitive? with
  | none => decide
  | some p => cases p <;> decide

/-! ## Numbers -/

/-- The instruction that loads the constant at an index. -/
def constantForm (index : UInt16) : Instruction :=
  if index ≤ 255 then ⟨Opcode.ldc, .byte index.toUInt8⟩ else ⟨Opcode.ldcWide, .short index⟩

theorem runs_loadConstant {index : UInt16} {ctx : MethodContext} {e e' : Emitter} {u : Unit} :
    Runs (loadConstant index) ctx e u e' ↔ e' = e.append (constantForm index) := by
  unfold loadConstant constantForm
  split_ifs <;> exact runs_instruction

theorem plain_constantForm (index : UInt16) : (constantForm index).Plain := by
  unfold constantForm
  split_ifs
  · exact plain_byte rfl
  · exact plain_short rfl

/-- The instruction that pushes a number with an opcode or an operand of its own. -/
def numberForm? (value : Int32) : Option Instruction :=
  if -1 ≤ value ∧ value ≤ 5 then
    some ⟨(Opcode.iconst0.toInt8.toInt32 + value).toInt8.toUInt8, .empty⟩
  else if -128 ≤ value ∧ value ≤ 127 then some ⟨Opcode.bipush, .byte value.toInt8.toUInt8⟩
  else if -32768 ≤ value ∧ value ≤ 32767 then
    some ⟨Opcode.sipush, .short value.toInt16.toUInt16⟩
  else none

/-- A number is pushed by an instruction of its own, or as a constant of the pool. -/
theorem runs_pushInt {value : Int32} {ctx : MethodContext} {e e' : Emitter} {u : Unit} :
    Runs (pushInt value) ctx e u e' ↔
      (∃ i, numberForm? value = some i ∧ e' = (e.append i).pushed .integer) ∨
      numberForm? value = none ∧
        e' = (Emitter.append { e with pool := (e.pool.add (.integer value)).2 }
          (constantForm (e.pool.add (.integer value)).1)).pushed .integer := by
  unfold pushInt numberForm?
  split_ifs
  · simp
  · simp
  · simp
  · rw [runs_addConstants_bind, runs_bind]
    simp only [runs_loadConstant, runs_push]
    constructor
    · rintro ⟨_, _, rfl, rfl⟩
      exact .inr ⟨trivial, rfl⟩
    · rintro (⟨_, h, _⟩ | ⟨_, rfl⟩)
      · cases h
      · exact ⟨(), _, rfl, rfl⟩

/-- The numbers with an opcode of their own. -/
theorem small_cases {value : Int32} (hlow : -1 ≤ value) (hhigh : value ≤ 5) :
    value = -1 ∨ value = 0 ∨ value = 1 ∨ value = 2 ∨ value = 3 ∨ value = 4 ∨ value = 5 := by
  have hlow' := Int32.le_iff_toInt_le.mp hlow
  have hhigh' := Int32.le_iff_toInt_le.mp hhigh
  simp only [← Int32.toInt_inj]
  have hm : (-1 : Int32).toInt = -1 := rfl
  have h0 : (0 : Int32).toInt = 0 := rfl
  have h1 : (1 : Int32).toInt = 1 := rfl
  have h2 : (2 : Int32).toInt = 2 := rfl
  have h3 : (3 : Int32).toInt = 3 := rfl
  have h4 : (4 : Int32).toInt = 4 := rfl
  have h5 : (5 : Int32).toInt = 5 := rfl
  omega

theorem shape_iconst {value : Int32} (hlow : -1 ≤ value) (hhigh : value ≤ 5) :
    Opcode.shape? (Opcode.iconst0.toInt8.toInt32 + value).toInt8.toUInt8 = some .empty := by
  rcases small_cases hlow hhigh with rfl | rfl | rfl | rfl | rfl | rfl | rfl <;> rfl

theorem plain_numberForm {value : Int32} {i : Instruction} (h : numberForm? value = some i) :
    i.Plain := by
  unfold numberForm? at h
  split_ifs at h with hsmall
  · obtain rfl := Option.some.inj h
    exact plain_simple (shape_iconst hsmall.1 hsmall.2)
  · obtain rfl := Option.some.inj h
    exact plain_byte rfl
  · obtain rfl := Option.some.inj h
    exact plain_short rfl

end Emit

end ClassSynth

import ClassSynth.Proofs.Emit.Forms
import ClassSynth.Proofs.Emit.Run
import ClassSynth.Proofs.Execution.Machine
import ClassSynth.Proofs.Execution.Progress

/-!
# Instructions and values

What emitted instructions do, and which values they do it to.
-/

/-!
## What emitted instructions do

Each form of an instruction that lowering chooses has the operation it was chosen for: a number is
pushed, a slot is loaded or stored into, whatever the length of the instruction.
-/

namespace ClassSynth

theorem Instruction.Plain.mapLabels {i : Instruction} (h : i.Plain) (f : Label → Label) :
    i.mapLabels f = i := by
  obtain ⟨opcode, operand⟩ := i
  have hlabels : operand.labels = [] := h.labels
  cases operand with
  | branch l => cases hlabels
  | wideBranch l => cases hlabels
  | tableSwitch d low targets => cases hlabels
  | lookupSwitch d cases => cases hlabels
  | _ => rfl

namespace Machine

open Emit

/-! ### Numbers -/

theorem toInt8_toInt32 {value : Int32} (hlow : -128 ≤ value) (hhigh : value ≤ 127) :
    value.toInt8.toInt32 = value := by
  have hlow' := Int32.le_iff_toInt_le.mp hlow
  have hhigh' := Int32.le_iff_toInt_le.mp hhigh
  have hl : (-128 : Int32).toInt = -128 := rfl
  have hh : (127 : Int32).toInt = 127 := rfl
  rw [← Int32.toInt_inj, Int8.toInt_toInt32, Int32.toInt_toInt8, Int.bmod_eq_of_le]
  · omega
  · omega

theorem toInt16_toInt32 {value : Int32} (hlow : -32768 ≤ value) (hhigh : value ≤ 32767) :
    value.toInt16.toInt32 = value := by
  have hlow' := Int32.le_iff_toInt_le.mp hlow
  have hhigh' := Int32.le_iff_toInt_le.mp hhigh
  have hl : (-32768 : Int32).toInt = -32768 := rfl
  have hh : (32767 : Int32).toInt = 32767 := rfl
  rw [← Int32.toInt_inj, Int16.toInt_toInt32, Int32.toInt_toInt16, Int.bmod_eq_of_le]
  · omega
  · omega

theorem operation?_numberForm {value : Int32} {i : Instruction} (h : numberForm? value = some i) :
    operation? i = some (.push (.int value)) := by
  unfold numberForm? at h
  split_ifs at h with hsmall hbyte hshort
  · obtain rfl := Option.some.inj h
    rcases small_cases hsmall.1 hsmall.2 with rfl | rfl | rfl | rfl | rfl | rfl | rfl <;> rfl
  · obtain rfl := Option.some.inj h
    have hvalue := toInt8_toInt32 hbyte.1 hbyte.2
    simp only [operation?, if_true, Int8.toInt8_toUInt8, hvalue]
  · obtain rfl := Option.some.inj h
    have hvalue := toInt16_toInt32 hshort.1 hshort.2
    simp only [operation?, if_true, Int16.toInt16_toUInt16, hvalue]

theorem operation?_constantForm (index : UInt16) :
    operation? (constantForm index) = some (.constant index) := by
  unfold constantForm
  split_ifs with hindex
  · have hbyte : index.toUInt8.toUInt16 = index := by
      have hle : index.toNat ≤ 255 := UInt16.le_iff_toNat_le.mp hindex
      rw [← UInt16.toNat_inj, UInt8.toNat_toUInt16, UInt16.toNat_toUInt8]
      omega
    have hne : Opcode.ldc ≠ Opcode.bipush := by decide
    simp only [operation?, if_neg hne, if_true, hbyte]
  · have hne : Opcode.ldcWide ≠ Opcode.sipush := by decide
    simp only [operation?, if_neg hne, if_true]

/-! ### Slots -/

/-- The kinds of values that the machine knows. -/
def Known (kind : ValueKind) : Prop :=
  kind = .int ∨ kind = .reference

theorem toNat_toUInt16 {slot : Nat} (h : slot ≤ 65535) : slot.toUInt16.toNat = slot := by
  rw [Nat.toUInt16_eq, UInt16.toNat_ofNat']
  omega

theorem operation?_loadForm {kind : ValueKind} (hkind : Known kind) {slot : Nat}
    (hslot : slot ≤ 65535) : operation? (loadForm kind slot) = some (.load kind slot) := by
  unfold loadForm slotForm
  split_ifs with hshort
  · have hcases : slot = 0 ∨ slot = 1 ∨ slot = 2 ∨ slot = 3 := by omega
    rcases hkind with rfl | rfl <;> rcases hcases with rfl | rfl | rfl | rfl <;> rfl
  · have hnat := toNat_toUInt16 hslot
    rcases hkind with rfl | rfl
    · simp only [operation?, hnat]
      rfl
    · simp only [operation?, hnat]
      rfl

theorem operation?_storeForm {kind : ValueKind} (hkind : Known kind) {slot : Nat}
    (hslot : slot ≤ 65535) : operation? (storeForm kind slot) = some (.store kind slot) := by
  unfold storeForm slotForm
  split_ifs with hshort
  · have hcases : slot = 0 ∨ slot = 1 ∨ slot = 2 ∨ slot = 3 := by omega
    rcases hkind with rfl | rfl <;> rcases hcases with rfl | rfl | rfl | rfl <;> rfl
  · have hnat := toNat_toUInt16 hslot
    rcases hkind with rfl | rfl
    · simp only [operation?, hnat]
      rfl
    · simp only [operation?, hnat]
      rfl

theorem operation?_ret {kind : ValueKind} (hkind : Known kind) :
    operation? ⟨kind.ret, .empty⟩ = some (.ret (some kind)) := by
  rcases hkind with rfl | rfl <;> rfl

end Machine

end ClassSynth

/-!
## Kinds of values on the machine

A value of a scalar type fills one slot, and the instructions that lowering chooses for the type are
those for the kind of the encoded value. Encoding keeps values of one kind apart.
-/

namespace ClassSynth

namespace Scalar

open Machine

theorem known_valueKind (k : Kind) : Known k.valueKind := by
  cases k <;> simp [Known, Kind.valueKind]

theorem kind_encode (v : Scalar) : v.encode.kind = v.kind.valueKind := by
  cases v <;> rfl

/-- What a type of a kind is to the emitter. -/
structure OfKind (t : TypeName) (k : Kind) : Prop where
  valueKind : ValueKind.ofType t = k.valueKind
  isVoid : t.isVoid = false
  slotSize : t.slotSize = 1
  isReference : t.isReference = decide (k = .ref)
  isIntLike : t.isIntLike = decide (k ≠ .ref)

theorem ofKind_of_kindOf? {t : TypeName} {k : Kind} (h : kindOf? t = some k) : OfKind t k := by
  unfold kindOf? at h
  cases hprimitive : t.primitive? with
  | none =>
    rw [hprimitive] at h
    simp only at h
    split_ifs at h with hvoid
    obtain rfl := Option.some.inj h
    have hvoid : t.isVoid = false := Bool.eq_false_iff.mpr hvoid
    have hwide : t.isWide = false := by simp [TypeName.isWide, hprimitive]
    exact ⟨by simp [ValueKind.ofType, hprimitive, Kind.valueKind], hvoid,
      by simp [TypeName.slotSize, hvoid, hwide],
      by simp [TypeName.isReference, TypeName.isPrimitive, hprimitive, hvoid],
      by simp [TypeName.isIntLike, hprimitive]⟩
  | some p =>
    have hvoid : t.isVoid = false := by
      by_contra hvoid
      have htext : t.text = "void" := by simpa [TypeName.isVoid] using hvoid
      have hnone : Primitive.ofKeyword? "void" = none := by decide
      rw [TypeName.primitive?, htext, hnone] at hprimitive
      cases hprimitive
    have hprimitives : p = .boolean ∧ k = .bool ∨ p.isIntLike = true ∧ p.isWide = false ∧
        ValueKind.ofPrimitive p = .int ∧ k = .int := by
      rw [hprimitive] at h
      cases p <;> simp_all [Primitive.isIntLike, Primitive.isWide, ValueKind.ofPrimitive]
    have hint : p.isIntLike = true ∧ p.isWide = false ∧ ValueKind.ofPrimitive p = .int := by
      rcases hprimitives with ⟨rfl, _⟩ | ⟨hint, hwide, hkind, _⟩
      · exact ⟨rfl, rfl, rfl⟩
      · exact ⟨hint, hwide, hkind⟩
    have hk : k ≠ .ref ∧ k.valueKind = .int := by
      rcases hprimitives with ⟨_, rfl⟩ | ⟨_, _, _, rfl⟩ <;> exact ⟨by decide, rfl⟩
    have hwide : t.isWide = false := by simp [TypeName.isWide, hprimitive, hint.2.1]
    exact ⟨by simp [ValueKind.ofType, hprimitive, hint.2.2, hk.2], hvoid,
      by simp [TypeName.slotSize, hvoid, hwide],
      by simp [TypeName.isReference, TypeName.isPrimitive, hprimitive, hk.1],
      by simp [TypeName.isIntLike, hprimitive, hint.1, hk.1]⟩

/-- The verifier's type of a scalar value fills one slot. -/
theorem length_slots {t : TypeName} {k : Kind} (h : kindOf? t = some k) (pool : ConstantPool) :
    ((verificationType t).run pool).1.slots.length = 1 := by
  have hof := ofKind_of_kindOf? h
  rw [length_slots_verificationType hof.isVoid, hof.slotSize]

/-- The type of the value of an expression is of the kind of the expression. -/
theorem kindOf?_valueType {params : List TypeName} {scope : KindScope} {thisClass : TypeName}
    {x : Expr} {k : Kind} {t : TypeName} (h : x.kind? params scope = some k)
    (ht : x.valueType? thisClass params = some t) : kindOf? t = some k := by
  cases x with
  | param index =>
    rw [Expr.kind?] at h
    rw [Expr.valueType?] at ht
    simpa [ht] using h
  | localVar name type =>
    rw [Expr.kind?] at h
    obtain ⟨_, hkind⟩ := Option.filter_eq_some_iff.mp h
    rw [Expr.valueType?] at ht
    obtain rfl := Option.some.inj ht
    simpa using hkind
  | null | bool _ | int _ =>
    rw [Expr.kind?] at h
    rw [Expr.valueType?] at ht
    rw [← Option.some.inj ht, ← Option.some.inj h]
    decide
  | arith _ _ _ | and _ | compare _ _ _ =>
    rw [Expr.kind?] at h
    split_ifs at h
    rw [Expr.valueType?] at ht
    rw [← Option.some.inj ht, ← Option.some.inj h]
    decide
  | _ => simp [Expr.kind?] at h

/-- Values of one kind are the same if their encodings are. -/
theorem encode_beq {v w : Scalar} (h : v.kind = w.kind) : (v.encode == w.encode) = (v == w) := by
  have hiff : v.encode = w.encode ↔ v = w := by
    cases v with
    | int a => cases w <;> simp_all [encode, kind]
    | bool a => cases w with
      | bool b => cases a <;> cases b <;> decide
      | _ => cases h
    | ref a => cases w <;> simp_all [encode, kind]
  rw [Bool.eq_iff_iff, beq_iff_eq, beq_iff_eq]
  exact hiff

theorem isZero_encode_ref {v : Scalar} (h : v.kind = .ref) :
    v.encode.isZero = (v == .ref none) := by
  cases v with
  | ref object? => cases object? <;> rfl
  | _ => cases h

theorem totalSlots_scalar {types : List TypeName}
    (h : ∀ t ∈ types, (kindOf? t).isSome) : totalSlots types = types.length := by
  induction types with
  | nil => rfl
  | cons t types ih =>
    obtain ⟨k, hk⟩ := Option.isSome_iff_exists.mp (h t List.mem_cons_self)
    have hrest := ih fun t ht => h t (List.mem_cons_of_mem _ ht)
    simp only [totalSlots, List.map_cons, List.foldr_cons, List.length_cons] at hrest ⊢
    rw [hrest, (ofKind_of_kindOf? hk).slotSize, Nat.add_comm]

end Scalar

end ClassSynth

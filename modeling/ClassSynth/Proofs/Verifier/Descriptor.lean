import ClassSynth.Proofs.Descriptor
import ClassSynth.Proofs.Verifier.Effect
import Mathlib.Tactic.SplitIfs

/-!
# Kinds of described types

A type without dimensions over `void` and without a semicolon in its name has a descriptor that is
read back as one value of the kind of the type (`kindAt?_descriptorChars`), so the kinds of
arguments and results are found again in the descriptor of a method
(`methodKinds?_methodDescriptor`).
-/

namespace ClassSynth

namespace TypeName

/-- What stands before the brackets of an array type. -/
def base (t : TypeName) : List Char :=
  (stripDimensions t.text.toList.reverse).2.reverse

/-- Can the type stand in the descriptor of a field or as a parameter? A semicolon ends the name of
a class. -/
def isDescribable (t : TypeName) : Bool :=
  t.base != "void".toList && !t.base.contains ';'

/-- The kinds of values that a result type stands for; `void` has none. -/
def valueKinds (t : TypeName) : List ValueKind :=
  if t.isVoid then [] else [.ofType t]

theorem isVoid_iff {t : TypeName} : t.isVoid = true ↔ t = .void := by
  obtain ⟨text⟩ := t
  simp [isVoid, void]

theorem isNull_iff {t : TypeName} : t.isNull = true ↔ t = .null := by
  obtain ⟨text⟩ := t
  simp [isNull, null]

/-- The keywords of primitive types end with a letter. -/
theorem keyword_ne_of_bracket (p : Primitive) {text : String} {rest : List Char}
    (h : text.toList.reverse = ']' :: rest) : p.keyword ≠ text := by
  rintro rfl
  have hlast : p.keyword.toList.reverse.head? = some ']' := congrArg List.head? h
  cases p <;> revert hlast <;> decide

theorem primitive?_of_bracket {t : TypeName} {rest : List Char}
    (h : t.text.toList.reverse = ']' :: rest) : t.primitive? = none := by
  rw [primitive?, Primitive.ofKeyword?, List.find?_eq_none]
  intro p _
  simpa using keyword_ne_of_bracket p h

theorem primitive?_arrayOf (t : TypeName) : t.arrayOf.primitive? = none := by
  have hbrackets : t.arrayOf.text.toList.reverse = ']' :: '[' :: t.text.toList.reverse := by
    simp [arrayOf]
  exact primitive?_of_bracket hbrackets

/-- The values of an array type are references. -/
theorem ofType_arrayOf (t : TypeName) : ValueKind.ofType t.arrayOf = .reference := by
  rw [ValueKind.ofType, primitive?_arrayOf]
  rfl

theorem isVoid_arrayOf (t : TypeName) : t.arrayOf.isVoid = false := by
  rw [Bool.eq_false_iff, Ne, isVoid_iff]
  intro h
  have hlast := congrArg (fun t => t.text.toList.reverse.head?) h
  simp [arrayOf, void] at hlast

theorem slotSize_arrayOf (t : TypeName) : t.arrayOf.slotSize = 1 := by
  rw [slotSize, isVoid_arrayOf, isWide, primitive?_arrayOf]
  rfl

theorem isNull_arrayOf (t : TypeName) : t.arrayOf.isNull = false := by
  rw [Bool.eq_false_iff, Ne, isNull_iff]
  intro h
  have hlast := congrArg (fun t => t.text.toList.reverse.head?) h
  simp [arrayOf, null] at hlast

end TypeName

namespace Descriptor

theorem kindAt?_primitive (p : Primitive) (rest : List Char) :
    kindAt? (p.descriptorChar :: rest) = some (.ofPrimitive p, rest) := by
  cases p <;> rfl

theorem kindAt?_class {name : List Char} (h : ';' ∉ name) (rest : List Char) :
    kindAt? ('L' :: (name ++ ';' :: rest)) = some (.reference, rest) := by
  rw [kindAt?, className?_append h]
  rfl

theorem kindAt?_brackets {n : Nat} {cs rest : List Char} {k : ValueKind}
    (h : kindAt? cs = some (k, rest)) :
    kindAt? (List.replicate n '[' ++ cs) = some (if n = 0 then k else .reference, rest) := by
  induction n with
  | zero => exact h
  | succ n ih =>
    rw [List.replicate_succ, List.cons_append, kindAt?, ih]
    rfl

theorem kindAt?_baseDescriptor (base : String) (hvoid : base ≠ "void") (h : ';' ∉ base.toList)
    (rest : List Char) :
    kindAt? (TypeName.baseDescriptor base ++ rest)
      = some (((Primitive.ofKeyword? base).map .ofPrimitive).getD .reference, rest) := by
  have hne : ¬ (base == "void") = true := by simpa using hvoid
  rw [TypeName.baseDescriptor, if_neg hne]
  cases Primitive.ofKeyword? base with
  | some p => exact kindAt?_primitive p rest
  | none =>
    have hsemicolon : ';' ∉ (replaceChar '.' '/' base).toList := not_mem_replaceChar h (by decide)
    have hclass := kindAt?_class hsemicolon rest
    simpa using hclass

/-- The descriptor of a type is read back as one value of its kind. -/
theorem kindAt?_descriptorChars {t : TypeName} (h : t.isDescribable = true) (rest : List Char) :
    kindAt? (t.descriptorChars ++ rest) = some (.ofType t, rest) := by
  rw [TypeName.isDescribable, Bool.and_eq_true, bne_iff_ne, Bool.not_eq_true',
    ← Bool.not_eq_true, List.contains_iff_mem] at h
  obtain ⟨hvoid, hname⟩ := h
  rw [TypeName.base] at hvoid hname
  rw [TypeName.descriptorChars]
  simp only [List.append_assoc]
  have hbase := kindAt?_baseDescriptor
    (String.ofList (TypeName.stripDimensions t.text.toList.reverse).2.reverse)
    (fun hbase => hvoid (by rw [← hbase, String.toList_ofList]))
    (by rwa [String.toList_ofList]) rest
  rw [kindAt?_brackets hbase]
  congr 2
  by_cases hdims : (TypeName.stripDimensions t.text.toList.reverse).1 = 0
  · rw [if_pos hdims, TypeName.stripDimensions_zero hdims, List.reverse_reverse,
      String.ofList_toList]
    rfl
  · rw [if_neg hdims]
    obtain ⟨inner, htext⟩ := TypeName.stripDimensions_pos hdims
    rw [ValueKind.ofType, TypeName.primitive?_of_bracket htext]
    rfl

theorem fieldKind?_descriptor {t : TypeName} (h : t.isDescribable = true) :
    fieldKind? t.descriptor = some (.ofType t) := by
  have hkind := kindAt?_descriptorChars h []
  rw [List.append_nil] at hkind
  rw [fieldKind?, TypeName.descriptor, String.toList_ofList, hkind]
  rfl

theorem kindsAux_params {params : List TypeName} (h : ∀ t ∈ params, t.isDescribable = true)
    (fuel : Nat) (hfuel : params.length ≤ fuel) (rest : List Char) :
    kindsAux fuel (params.flatMap TypeName.descriptorChars ++ ')' :: rest)
      = some (params.map .ofType, rest) := by
  induction params generalizing fuel with
  | nil => cases fuel <;> rfl
  | cons t params ih =>
    obtain ⟨fuel, rfl⟩ : ∃ n, fuel = n + 1 := ⟨fuel - 1, by simp at hfuel; omega⟩
    have hfirst := kindAt?_descriptorChars (h t List.mem_cons_self)
      (params.flatMap TypeName.descriptorChars ++ ')' :: rest)
    have hrest := ih (fun t ht => h t (List.mem_cons_of_mem _ ht)) fuel
      (Nat.le_of_succ_le_succ hfuel)
    rw [List.flatMap_cons, List.append_assoc, kindsAux, hfirst]
    · simp only [Option.bind_eq_bind, Option.bind_some, hrest]
      rfl
    · -- a parenthesis is no type
      intro more hmore
      rw [hmore] at hfirst
      cases hfirst

/-- The kinds of arguments and results are found again in the descriptor of a method. -/
theorem methodKinds?_methodDescriptor {params : List TypeName} {ret : TypeName}
    (hparams : ∀ t ∈ params, t.isDescribable = true)
    (hret : ret.isVoid = true ∨ ret.isDescribable = true) :
    methodKinds? (methodDescriptor params ret) = some (params.map .ofType, ret.valueKinds) := by
  have hchars : (methodDescriptor params ret).toList
      = '(' :: (params.flatMap TypeName.descriptorChars ++ ')' :: ret.descriptorChars) := by
    rw [methodDescriptor, String.toList_ofList, methodDescriptorChars, List.cons_append]
  have hlength := TypeName.length_le_flatMap_descriptorChars params
  have haux := kindsAux_params hparams (params.flatMap TypeName.descriptorChars
    ++ ')' :: ret.descriptorChars).length (by rw [List.length_append]; omega) ret.descriptorChars
  rw [methodKinds?, hchars]
  simp only [Option.bind_eq_bind, haux, Option.bind_some]
  by_cases hvoid : ret.isVoid = true
  · have hV : ret.descriptorChars = ['V'] := by
      rw [TypeName.isVoid_iff.mp hvoid]
      decide
    rw [if_pos hV, TypeName.valueKinds, if_pos hvoid]
    rfl
  · have hkind := kindAt?_descriptorChars (hret.resolve_left hvoid) []
    rw [List.append_nil] at hkind
    have hV : ret.descriptorChars ≠ ['V'] := by
      intro hV
      rw [hV] at hkind
      cases hkind
    rw [if_neg hV, hkind, TypeName.valueKinds, if_neg hvoid]
    rfl

end Descriptor

end ClassSynth

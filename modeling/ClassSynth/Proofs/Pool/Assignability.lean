import ClassSynth.Proofs.Pool.Hierarchy

/-!
# Assignability

What it takes that a value of one type can stand where another type is expected
(`ClassPool.Assignable`): `null` is assignable to all reference types, all of them are to the root
class, arrays are if their elements are, and a class is to those classes above it that are there,
provided that its hierarchy can be found at all. A pool answers by these rules
(`ClassPool.decides_isSubtype`).

Main result: `ClassPool.isSubtype_preorder`. As long as the root class has no supertypes and no class
has the name of the `null` type, the rules do not depend on how they are chained.
-/

namespace ClassSynth

namespace TypeName

variable {t e : TypeName}

theorem isReference_of_element? (h : t.element? = some e) : t.isReference = true := by
  have hprimitive : t.primitive? = none := by
    rw [primitive?, Primitive.ofKeyword?, List.find?_eq_none]
    intro q _ hq
    obtain rfl : t = ⟨q.keyword⟩ := congrArg mk (beq_iff_eq.mp hq).symm
    cases q <;> cases h
  have hvoid : t.isVoid = false := by
    refine beq_eq_false_iff_ne.mpr fun hvoid => ?_
    obtain rfl : t = .void := congrArg mk hvoid
    cases h
  rw [isReference, isPrimitive, hprimitive, hvoid]
  rfl

/-- A class with a name of its own: neither a primitive type nor an array, and neither `null` nor the
root class. -/
structure IsNamedClass (t : TypeName) : Prop where
  isReference : t.isReference = true
  element? : t.element? = none
  ne_null : t ≠ .null
  ne_object : t ≠ .object

end TypeName

namespace ClassPool

variable {p : ClassPool} {s t u : TypeName}

/-- The second class is there, above the first one, whose whole hierarchy can be visited. -/
structure Reaches (p : ClassPool) (s t : TypeName) : Prop where
  visitable : ∀ u, p.Above [s] u → p.Visitable u
  hasClass : p.hasClass t = true
  above : p.Above [s] t

/-- A value of the first type can stand where the second type is expected. -/
inductive Assignable (p : ClassPool) : TypeName → TypeName → Prop
  | refl (t : TypeName) : Assignable p t t
  | null {t : TypeName} (ht : t.isReference = true) : Assignable p .null t
  | object {s : TypeName} (hs : s.isReference = true) : Assignable p s .object
  | array {s t a b : TypeName} (ha : s.element? = some a) (hb : t.element? = some b)
      (h : Assignable p a b) : Assignable p s t
  | above {s t : TypeName} (hs : s.isReference = true) (ht : t.isReference = true)
      (ha : s.element? = none) (hb : t.element? = none) (h : p.Reaches s t) : Assignable p s t

theorem above_singleton_iff : p.Above [s] t ↔ Relation.ReflTransGen p.Extends s t :=
  ⟨fun ⟨_, hroot, habove⟩ => List.mem_singleton.mp hroot ▸ habove,
    fun habove => ⟨s, List.mem_cons_self, habove⟩⟩

theorem Reaches.trans (h : p.Reaches s t) (h' : p.Reaches t u) : p.Reaches s u where
  visitable := h.visitable
  hasClass := h'.hasClass
  above := above_singleton_iff.mpr
    ((above_singleton_iff.mp h.above).trans (above_singleton_iff.mp h'.above))

namespace Assignable

theorem isReference (h : p.Assignable s t) (hne : s ≠ t) :
    s.isReference = true ∧ t.isReference = true := by
  cases h with
  | refl => exact absurd rfl hne
  | null ht => exact ⟨by decide, ht⟩
  | object hs => exact ⟨hs, by decide⟩
  | array ha hb =>
    exact ⟨TypeName.isReference_of_element? ha, TypeName.isReference_of_element? hb⟩
  | above hs ht => exact ⟨hs, ht⟩

/-- Where no type is special, arrays go by their elements and classes by their hierarchies. -/
theorem elements_or_reaches (h : p.Assignable s t) (hne : s ≠ t) (hnull : s ≠ .null)
    (hobject : t ≠ .object) :
    (∃ a b, s.element? = some a ∧ t.element? = some b ∧ p.Assignable a b) ∨
      s.element? = none ∧ t.element? = none ∧ p.Reaches s t := by
  cases h with
  | refl => exact absurd rfl hne
  | null => exact absurd rfl hnull
  | object => exact absurd rfl hobject
  | array ha hb h => exact .inl ⟨_, _, ha, hb, h⟩
  | above _ _ ha hb h => exact .inr ⟨ha, hb, h⟩

/-- Assignability can be chained. In the middle, the root class has nothing but itself above it, and
`null` is reached from itself only. -/
theorem trans (hobject : ∀ t, ¬ p.Extends .object t) (hnull : p.hasClass .null = false)
    (h : p.Assignable s t) (h' : p.Assignable t u) : p.Assignable s u := by
  induction h generalizing u with
  | refl => exact h'
  | @null t ht =>
    by_cases hne : t = u
    · exact hne ▸ .null ht
    · exact .null (h'.isReference hne).2
  | @object s hs =>
    by_cases hne : u = .object
    · exact hne ▸ .object hs
    obtain ⟨a, -, ha, -⟩ | ⟨-, -, h'⟩ :=
      h'.elements_or_reaches (Ne.symm hne) (by decide) hne
    · cases ha
    · obtain hsame | ⟨t, hextends, -⟩ := (above_singleton_iff.mp h'.above).cases_head
      · exact absurd hsame.symm hne
      · exact absurd hextends (hobject t)
  | array ha hb h ih =>
    cases h' with
    | refl => exact .array ha hb h
    | null => cases hb
    | object => exact .object (TypeName.isReference_of_element? ha)
    | array hb' hc h' =>
      obtain rfl := Option.some.inj (hb.symm.trans hb')
      exact .array ha hc (ih h')
    | above _ _ hb' => cases hb.symm.trans hb'
  | above hs ht ha hb h =>
    cases h' with
    | refl => exact .above hs ht ha hb h
    | null => exact absurd h.hasClass (by simp [hnull])
    | object => exact .object hs
    | array hb' => cases hb.symm.trans hb'
    | above _ hu _ hc h' => exact .above hs hu ha hc (h.trans h')

/-- Between classes with names of their own only the hierarchy counts. -/
theorem iff_reaches (hs : s.IsNamedClass) (ht : t.IsNamedClass) :
    p.Assignable s t ↔ s = t ∨ p.Reaches s t := by
  constructor
  · intro h
    by_cases hne : s = t
    · exact .inl hne
    obtain ⟨a, -, ha, -⟩ | ⟨-, -, h⟩ := h.elements_or_reaches hne hs.ne_null ht.ne_object
    · cases ha.symm.trans hs.element?
    · exact .inr h
  · rintro (rfl | h)
    · exact .refl s
    · exact .above hs.isReference ht.isReference hs.element? ht.element? h

end Assignable

/-! ## Answers -/

/-- Looking for a class among those above another one. -/
theorem decides_contains (s t : TypeName) (hne : s ≠ t) :
    Decides p.Loads (do return (← supertypes s).contains t : Step Bool)
      (fun holds => holds = true ↔ p.Reaches s t) (∃ u, p.Above [s] u ∧ ¬ p.Visitable u) := by
  refine Decides.bind (P := fun types => ∀ u, u ∈ types ↔ u ≠ s ∧ p.Reaches s u) ?_
    fun types htypes => .pure ?_
  · refine (decides_hierarchyOf [s]).bind fun order ⟨horder, hvisitable⟩ => .pure fun u => ?_
    rw [List.mem_filter, horder.mem_iff, bne_iff_ne, and_comm]
    exact and_congr_right fun _ =>
      ⟨fun h => ⟨hvisitable, h.1, h.2⟩, fun h => ⟨h.hasClass, h.above⟩⟩
  · rw [List.contains_iff_mem, htypes]
    exact and_iff_right hne.symm

/-- A pool answers whether a type is assignable, or fails because a class cannot be visited; then it
is not assignable. -/
theorem decides_isSubtype (sub sup : TypeName) :
    Decides p.Loads (isSubtype sub sup) (fun holds => holds = true ↔ p.Assignable sub sup)
      (¬ p.Assignable sub sup ∧ ∃ t, ¬ p.Visitable t) := by
  rw [isSubtype]
  refine .ite (fun h => .pure (iff_of_true rfl ?_)) fun hdiffer => ?_
  · rw [Bool.or_eq_true, beq_iff_eq, Bool.and_eq_true] at h
    obtain rfl | ⟨hnull, ht⟩ := h
    · exact .refl _
    · obtain rfl : sub = .null := congrArg TypeName.mk (beq_iff_eq.mp hnull)
      exact .null ht
  rw [Bool.or_eq_true, not_or, beq_iff_eq, Bool.and_eq_true, not_and] at hdiffer
  obtain ⟨hne, hnull⟩ := hdiffer
  refine .ite (fun h => .pure (iff_of_false Bool.false_ne_true fun hassignable => ?_)) fun href => ?_
  · obtain ⟨hs, ht⟩ := hassignable.isReference hne
    simp [hs, ht] at h
  rw [Bool.or_eq_true, not_or, Bool.not_eq_true', Bool.not_eq_true', Bool.not_eq_false,
    Bool.not_eq_false] at href
  obtain ⟨hs, ht⟩ := href
  have hnull : sub ≠ .null := fun h => hnull (by rw [h]; rfl) ht
  refine .ite (fun h => .pure (iff_of_true rfl (beq_iff_eq.mp h ▸ .object hs))) fun hobject => ?_
  have hobject : sup ≠ .object := fun h => hobject (beq_iff_eq.mpr h)
  have hcases (h : p.Assignable sub sup) := h.elements_or_reaches hne hnull hobject
  split
  · next a b ha hb =>
    have hiff : p.Assignable a b ↔ p.Assignable sub sup := by
      refine ⟨.array ha hb, fun h => ?_⟩
      obtain ⟨a', b', ha', hb', h⟩ | ⟨hnone, -⟩ := hcases h
      · obtain rfl := Option.some.inj (ha.symm.trans ha')
        obtain rfl := Option.some.inj (hb.symm.trans hb')
        exact h
      · cases ha.symm.trans hnone
    rw [← hiff]
    exact decides_isSubtype a b
  · next ha hb =>
    have hiff : p.Reaches sub sup ↔ p.Assignable sub sup := by
      refine ⟨.above hs ht ha hb, fun h => ?_⟩
      obtain ⟨a, -, hsome, -⟩ | ⟨-, -, h⟩ := hcases h
      · cases ha.symm.trans hsome
      · exact h
    rw [← hiff]
    refine (decides_contains sub sup hne).mono (fun _ => id) ?_
    rintro ⟨u, habove, hnot⟩
    exact ⟨fun h => hnot (h.visitable u habove), u, hnot⟩
  · next harrays hclasses =>
    refine .pure (iff_of_false Bool.false_ne_true fun h => ?_)
    obtain ⟨a, b, ha, hb, -⟩ | ⟨ha, hb, -⟩ := hcases h
    · exact harrays a b ha hb
    · exact hclasses ha hb
termination_by sub.text.length
decreasing_by exact TypeName.length_lt_of_element? ‹_›

/-- The pool answers that the first type is a subtype of the second one. -/
def Admits (p : ClassPool) (sub sup : TypeName) : Prop :=
  (p.run (isSubtype sub sup)).1 = .ok true

theorem admits_iff {sub sup : TypeName} : p.Admits sub sup ↔ p.Assignable sub sup := by
  have hdecides := decides_isSubtype (p := p) sub sup
  rw [Admits, run]
  rcases hrun : (isSubtype sub sup).run.run p with ⟨result, p'⟩
  cases result with
  | error e =>
    have hnot : ¬ p.Assignable sub sup := (hdecides.of_error (refl_of Loads p) hrun).1
    exact iff_of_false (fun h => by cases h) hnot
  | ok holds =>
    rw [← (hdecides.of_ok (refl_of Loads p) hrun).2]
    exact ⟨Except.ok.inj, congrArg _⟩

/-- **Subtypes form a preorder.** In a pool whose root class has no supertypes and that has no class
of the name of the `null` type, every type is a subtype of itself, and subtypes of subtypes are
subtypes, with `null`, the root class, arrays and primitive types among them. If the pool may do
without classes that are missing, loads the others and reads their supertypes, it answers for any two
types, and a class is a subtype of another one if that class is there and above it. -/
theorem isSubtype_preorder (hobject : ∀ t, ¬ p.Extends .object t)
    (hnull : p.hasClass .null = false) :
    IsPreorder TypeName p.Admits ∧
    (p.validate = false → (∀ name, ∃ found, p.lookup name = .ok found) →
      (∀ name unit, p.lookup name = .ok (some unit) →
        ∃ supertypes, unit.directSupertypes = .ok supertypes) →
      (∀ sub sup, ∃ holds, (p.run (isSubtype sub sup)).1 = .ok holds) ∧
      ∀ sub sup : TypeName, sub.IsNamedClass → sup.IsNamedClass → (p.Admits sub sup ↔
        sub = sup ∨ p.hasClass sup = true ∧ Relation.ReflTransGen p.Extends sub sup)) := by
  refine ⟨{ refl := fun t => admits_iff.mpr (.refl t), trans := fun s t u h h' => ?_ },
    fun hlenient hlookup hreadable => ?_⟩
  · exact admits_iff.mpr ((admits_iff.mp h).trans hobject hnull (admits_iff.mp h'))
  have hvisitable (t : TypeName) : p.Visitable t := by
    obtain ⟨found, hfound⟩ := hlookup t.text
    rw [Visitable, hfound]
    cases found with
    | none => exact hlenient
    | some unit => exact hreadable _ unit hfound
  refine ⟨fun sub sup => ?_, fun sub sup hsub hsup => ?_⟩
  · have hanswers : ¬ (¬ p.Assignable sub sup ∧ ∃ t, ¬ p.Visitable t) :=
      not_and.mpr fun _ => not_exists_not.mpr hvisitable
    obtain ⟨holds, p', hrun, -⟩ := (decides_isSubtype sub sup).exists_ok (refl_of Loads p) hanswers
    exact ⟨holds, congrArg Prod.fst hrun⟩
  · rw [admits_iff, Assignable.iff_reaches hsub hsup, ← above_singleton_iff]
    exact or_congr_right ⟨fun h => ⟨h.hasClass, h.above⟩,
      fun h => ⟨fun u _ => hvisitable u, h.1, h.2⟩⟩

namespace CyclicNames

theorem isNamedClass_a : a.name.IsNamedClass := ⟨by decide, by decide, by decide, by decide⟩

theorem isNamedClass_b : b.name.IsNamedClass := ⟨by decide, by decide, by decide, by decide⟩

theorem not_extends_object (t : TypeName) : ¬ pool.Extends .object t := by
  rintro ⟨unit, -, hunit, -⟩
  cases (lookup_of_ne (by decide) (by decide) (by decide)).symm.trans hunit

theorem hasClass_null : pool.hasClass .null = false := by
  rw [hasClass, lookup_of_ne (by decide) (by decide) (by decide)]

end CyclicNames

theorem isSubtype_preorder_cyclic :
    (∀ t, ¬ CyclicNames.pool.Extends .object t) ∧ CyclicNames.pool.hasClass .null = false ∧
    CyclicNames.pool.validate = false ∧ IsPreorder TypeName CyclicNames.pool.Admits ∧
    CyclicNames.pool.Admits CyclicNames.a.name CyclicNames.b.name ∧
    CyclicNames.pool.Admits CyclicNames.b.name CyclicNames.a.name ∧
    ∃ holds, (CyclicNames.pool.run (isSubtype CyclicNames.c.name CyclicNames.a.name)).1 =
      .ok holds := by
  obtain ⟨hpreorder, hanswers⟩ :=
    isSubtype_preorder CyclicNames.not_extends_object CyclicNames.hasClass_null
  obtain ⟨hanswers, hreaches⟩ := hanswers rfl CyclicNames.exists_lookup
    fun name unit hunit => (CyclicNames.readable_pool name unit hunit).supertypes
  have hab : CyclicNames.pool.Extends CyclicNames.a.name CyclicNames.b.name :=
    ⟨_, _, CyclicNames.lookup_a, rfl, List.mem_cons_self⟩
  have hba : CyclicNames.pool.Extends CyclicNames.b.name CyclicNames.a.name :=
    ⟨_, _, CyclicNames.lookup_b, rfl, List.mem_cons_self⟩
  refine ⟨CyclicNames.not_extends_object, CyclicNames.hasClass_null, rfl, hpreorder, ?_, ?_,
    hanswers _ _⟩
  · exact (hreaches _ _ CyclicNames.isNamedClass_a CyclicNames.isNamedClass_b).mpr
      (.inr ⟨hasClass_iff.mpr ⟨_, CyclicNames.lookup_b⟩, .single hab⟩)
  · exact (hreaches _ _ CyclicNames.isNamedClass_b CyclicNames.isNamedClass_a).mpr
      (.inr ⟨hasClass_iff.mpr ⟨_, CyclicNames.lookup_a⟩, .single hba⟩)

/-! ### A class with supertypes that cannot be read -/

/-- `C`, whose superclass is no constant. -/
def unreadC : ClassUnit :=
  { CyclicNames.c with file := { CyclicNames.c.file with superClass := 40 } }

/-- `A` extends `B` and implements `C`. -/
def unreadPool : ClassPool := CyclicNames.pool.withUnit unreadC

/-- A hierarchy is not found in part: `B` is above `A`, but so is `C`. -/
theorem not_admits_unreadPool :
    unreadPool.validate = false ∧ (∀ name, ∃ found, unreadPool.lookup name = .ok found) ∧
    (∀ t, ¬ unreadPool.Extends .object t) ∧ unreadPool.hasClass .null = false ∧
    CyclicNames.a.name.IsNamedClass ∧ CyclicNames.b.name.IsNamedClass ∧
    unreadPool.hasClass CyclicNames.b.name = true ∧
    unreadPool.Extends CyclicNames.a.name CyclicNames.b.name ∧
    ¬ unreadPool.Admits CyclicNames.a.name CyclicNames.b.name := by
  have hother {name : String} (h : name ≠ "demo.C") :
      unreadPool.lookup name = CyclicNames.pool.lookup name := lookup_withUnit_of_ne h
  have ha : unreadPool.lookup "demo.A" = .ok (some CyclicNames.a) :=
    (hother (by decide)).trans CyclicNames.lookup_a
  have hc : unreadPool.lookup "demo.C" = .ok (some unreadC) := lookup_withUnit_self
  have hsupertypes : CyclicNames.a.directSupertypes =
      .ok [⟨"demo.B"⟩, ⟨"demo.C"⟩, ⟨"demo.Missing"⟩] := rfl
  have hb : unreadPool.Extends CyclicNames.a.name ⟨"demo.B"⟩ := ⟨_, _, ha, hsupertypes, by simp⟩
  refine ⟨rfl, fun name => ?_, ?_, ?_, CyclicNames.isNamedClass_a, CyclicNames.isNamedClass_b,
    hasClass_iff.mpr ⟨_, (hother (by decide)).trans CyclicNames.lookup_b⟩,
    hb, fun hadmits => ?_⟩
  · by_cases hname : name = "demo.C"
    · exact ⟨_, hname ▸ hc⟩
    · exact hother hname ▸ CyclicNames.exists_lookup name
  · rintro t ⟨unit, supertypes, hunit, hsupertypes, ht⟩
    exact CyclicNames.not_extends_object t
      ⟨unit, supertypes, (hother (by decide)).symm.trans hunit, hsupertypes, ht⟩
  · rw [hasClass, hother (by decide)]
    exact CyclicNames.hasClass_null
  · obtain h | h := (Assignable.iff_reaches CyclicNames.isNamedClass_a
      CyclicNames.isNamedClass_b).mp (admits_iff.mp hadmits)
    · exact absurd h (by decide)
    · have hvisitable := h.visitable ⟨"demo.C"⟩
        ⟨_, List.mem_cons_self, .single ⟨_, _, ha, hsupertypes, by simp⟩⟩
      rw [Visitable, hc] at hvisitable
      obtain ⟨supertypes, hread⟩ := hvisitable
      cases hread

end ClassPool

end ClassSynth

import ClassSynth.Proofs.Pool.Assignability

/-!
# What hierarchies hold

A walk over a hierarchy finds classes above its roots only, whatever classes the pool has loaded
before (`within_hierarchyOf`). So a type that passes for a subtype is one: by the supertypes that
classes name, as an array of subtypes, as `null` or below the root class (`within_isSubtype`). The
methods that are collected are methods of classes in the pool (`within_collectMethods`).
-/

namespace ClassSynth.ClassPool

variable {p : ClassPool} {roots : List TypeName}

/-! ## Hierarchies -/

/-- A walk finds classes above its roots. -/
theorem within_hierarchyOf (roots : List TypeName) :
    Within p.Loads (hierarchyOf roots) fun types => ∀ t ∈ types, p.Above roots t :=
  (decides_hierarchyOf roots).within.mono fun _ h t ht => ((h.1.mem_iff t).mp ht).2

/-! ## Subtypes -/

/-- A value of the first type can stand where the second type is expected. -/
inductive Subtype (p : ClassPool) : TypeName → TypeName → Prop
  | refl (t : TypeName) : Subtype p t t
  | null {t : TypeName} (ht : t.isReference = true) : Subtype p .null t
  | object {s : TypeName} (hs : s.isReference = true) : Subtype p s .object
  | above {s t : TypeName} (hs : s.isReference = true) (ht : t.isReference = true)
      (h : Relation.ReflTransGen p.Extends s t) : Subtype p s t
  | array {s t a b : TypeName} (hs : s.isReference = true) (ht : t.isReference = true)
      (ha : s.element? = some a) (hb : t.element? = some b) (h : Subtype p a b) : Subtype p s t

theorem Assignable.subtype {s t : TypeName} (h : p.Assignable s t) : p.Subtype s t := by
  induction h with
  | refl => exact .refl _
  | null ht => exact .null ht
  | object hs => exact .object hs
  | array ha hb _ ih =>
    exact .array (TypeName.isReference_of_element? ha) (TypeName.isReference_of_element? hb) ha hb ih
  | above hs ht _ _ h => exact .above hs ht (above_singleton_iff.mp h.above)

/-- A type that passes for a subtype is one. -/
theorem within_isSubtype (sub sup : TypeName) :
    Within p.Loads (isSubtype sub sup) fun passes => passes = true → p.Subtype sub sup :=
  (decides_isSubtype sub sup).within.mono fun _ h hpasses => (h.mp hpasses).subtype

/-! ## Methods -/

/-- A class of the pool has the method. -/
def HasMethod (p : ClassPool) (m : MethodSig) : Prop :=
  ∃ name unit methods, p.lookup name = .ok (some unit) ∧ unit.methods = .ok methods ∧ m ∈ methods

theorem mem_of_mem_addSignature {methods : List MethodSig} {m m' : MethodSig}
    (h : m' ∈ addSignature methods m) : m' ∈ methods ∨ m' = m := by
  unfold addSignature at h
  split_ifs at h
  · exact .inl h
  · simpa using h

theorem mem_of_mem_foldl_addSignature {more : List MethodSig} {m : MethodSig}
    {methods : List MethodSig} (h : m ∈ more.foldl addSignature methods) :
    m ∈ methods ∨ m ∈ more := by
  induction more generalizing methods with
  | nil => exact .inl h
  | cons first more ih =>
    rcases ih h with h | h
    · rcases mem_of_mem_addSignature h with h | rfl
      · exact .inl h
      · exact .inr List.mem_cons_self
    · exact .inr (List.mem_cons_of_mem _ h)

theorem within_collectMethods (roots : List TypeName) (name : String) :
    Within p.Loads (collectMethods roots name) fun methods => ∀ m ∈ methods, p.HasMethod m := by
  refine (within_hierarchyOf roots).bind fun types _ => ?_
  refine Within.foldlM (R := fun _ methods => ∀ m ∈ methods, p.HasMethod m)
    (fun _ found t _ hfound => ?_) [] fun _ h => absurd h List.not_mem_nil
  refine (within_getUnit t.text).bind fun unit hunit => ?_
  refine (Within.lift fun _ => id).bind fun methods hmethods => .pure fun m hm => ?_
  rcases mem_of_mem_foldl_addSignature hm with hm | hm
  · exact hfound m hm
  · exact ⟨_, unit, methods, hunit, hmethods, List.mem_of_mem_filter hm⟩

theorem within_methodsNamed (owner : TypeName) (name : String) :
    Within p.Loads (methodsNamed owner name) fun methods => ∀ m ∈ methods, p.HasMethod m :=
  within_collectMethods _ _

end ClassSynth.ClassPool

import ClassSynth.Proofs.Body.Occurrences
import ClassSynth.Proofs.Kept
import ClassSynth.Synthesis.Member
import ClassSynth.Synthesis.Display
import ClassSynth.Synthesis.Guard
import ClassSynth.Synthesis.Equality

/-!
# Fields of synthesized bodies

A constructor sets the fields of its members (`ConstructorPlan.mem_fieldRefs_body`). The other
bodies read members by their accessors, so they touch no field.
-/

namespace ClassSynth

/-! ## Calls -/

namespace Expr

theorem fieldRefsList_eq_nil {es : List Expr} (h : ∀ e ∈ es, e.fieldRefs = []) :
    fieldRefsList es = [] := by
  refine List.eq_nil_iff_forall_not_mem.mpr fun f hf => ?_
  obtain ⟨e, he, hf⟩ := mem_fieldRefsList.mp hf
  exact List.not_mem_nil (h e he ▸ hf)

@[simp] theorem fieldRefs_invokeStatic (method : MethodRef) (args : List Expr) :
    (invokeStatic method args).fieldRefs = fieldRefsList args := by
  simp [invokeStatic, fieldRefs, fieldRefsOption]

@[simp] theorem fieldRefs_invokeVirtual (target : Expr) (method : MethodRef) (args : List Expr) :
    (target.invokeVirtual method args).fieldRefs = target.fieldRefs ++ fieldRefsList args := by
  simp [invokeVirtual, fieldRefs, fieldRefsOption]

@[simp] theorem fieldRefs_invokeSuper (method : MethodRef) (args : List Expr) :
    (invokeSuper method args).fieldRefs = fieldRefsList args := by
  simp [invokeSuper, fieldRefs, fieldRefsOption]

end Expr

@[simp] theorem Member.fieldRefs_read (m : Member) (owner : TypeName) (target : Expr) :
    (m.read owner target).fieldRefs = target.fieldRefs := by
  simp [read, Expr.fieldRefsList]

/-! ## Constructors -/

/-- A constructor touches the fields of its members, and no others. -/
theorem ConstructorPlan.mem_fieldRefs_body {plan : ConstructorPlan} {owner superclass : TypeName}
    {f : FieldRef} (h : f ∈ Stmt.fieldRefsList (plan.body owner superclass)) :
    ∃ m ∈ plan.members, f = m.fieldRef owner := by
  obtain ⟨stmt, hstmt, hf⟩ := Stmt.mem_fieldRefsList.mp h
  simp only [body, List.mem_append, List.mem_cons, List.mem_map, List.not_mem_nil, or_false]
    at hstmt
  obtain (rfl | ⟨⟨m, i⟩, hm, rfl⟩) | rfl := hstmt
  · rw [Stmt.fieldRefs, Expr.mem_fieldRefsList] at hf
    obtain ⟨e, he, hf⟩ := hf
    obtain ⟨i, -, rfl⟩ := List.mem_map.mp he
    cases hf
  · exact ⟨m, List.fst_mem_of_mem_zipIdx hm, by simpa [Stmt.fieldRefs, Expr.fieldRefs] using hf⟩
  · cases hf

namespace Synthesis

/-! ## Methods of every object -/

theorem fieldRefs_valuesEqual {nullSafe : Bool} {t : TypeName} {a b : Expr}
    (ha : a.fieldRefs = []) (hb : b.fieldRefs = []) :
    (valuesEqual nullSafe t a b).fieldRefs = [] := by
  unfold valuesEqual
  split <;> simp [floatsEqual, referencesEqual, Expr.fieldRefs, Expr.fieldRefsList, ha, hb]
  split_ifs <;> simp [Expr.fieldRefsList, ha, hb]

theorem fieldRefs_equalsBody (d : EqualsDirective) (owner superclass : TypeName)
    (members : List Member) : Stmt.fieldRefsList (equalsBody d owner superclass members) = [] := by
  have htests : Expr.fieldRefsList
      (equalsTests d owner superclass (comparedMembers members)) = [] := by
    refine Expr.fieldRefsList_eq_nil fun e he => ?_
    obtain he | he := List.mem_append.mp he
    · obtain ⟨m, -, rfl⟩ := List.mem_map.mp he
      exact fieldRefs_valuesEqual (m.fieldRefs_read _ _) (m.fieldRefs_read _ _)
    · split_ifs at he
      · obtain rfl := List.mem_singleton.mp he
        simp [Expr.fieldRefsList, Expr.fieldRefs]
      · cases he
  have hprelude : Stmt.fieldRefsList equalsPrelude = [] := rfl
  unfold equalsBody
  rw [Stmt.fieldRefsList_append, hprelude, List.nil_append]
  split_ifs
  · rfl
  · simp [Stmt.fieldRefsList, Stmt.fieldRefs, Expr.fieldRefs, Expr.fieldRefsOption, htests]

theorem fieldRefs_hashCodeBody (d : HashCodeDirective) (owner superclass : TypeName)
    (members : List Member) :
    Stmt.fieldRefsList (hashCodeBody d owner superclass members) = [] := by
  have hobjects : Expr.fieldRefsList ((hashedMembers members).map (memberObject owner)) = [] := by
    refine Expr.fieldRefsList_eq_nil fun e he => ?_
    obtain ⟨m, -, rfl⟩ := List.mem_map.mp he
    unfold memberObject
    split_ifs <;> simp [Expr.fieldRefs]
  have htakeIn : ∀ value : Expr, value.fieldRefs = [] → (takeIn value).fieldRefs = [] := by
    intro value hvalue
    simp [takeIn, resultVar, Stmt.fieldRefs, Expr.fieldRefs, hvalue]
  have hinherited : (inheritedHash superclass).fieldRefs = [] := by
    simp [inheritedHash, Expr.fieldRefsList]
  have hmembers : (membersHash owner (hashedMembers members)).fieldRefs = [] := by
    simp [membersHash, Expr.fieldRefsList, Expr.fieldRefs, hobjects]
  unfold hashCodeBody
  simp only [Stmt.fieldRefsList_append]
  split_ifs <;> simp [Stmt.fieldRefsList, Stmt.fieldRefs, Expr.fieldRefs, Expr.fieldRefsOption,
    resultVar, htakeIn _ hinherited, htakeIn _ hmembers]

theorem fieldRefs_append {builder value : Expr} {t : TypeName} (hbuilder : builder.fieldRefs = [])
    (hvalue : value.fieldRefs = []) : (append builder value t).fieldRefs = [] := by
  simp [append, Expr.fieldRefsList, hbuilder, hvalue]

theorem fieldRefs_appendMember {owner : TypeName} {builder : Expr} {m : Member}
    (h : builder.fieldRefs = []) : (appendMember owner builder m).fieldRefs = [] :=
  fieldRefs_append (fieldRefs_append h rfl) (m.fieldRefs_read _ _)

theorem fieldRefs_appendMembers (owner : TypeName) {builder : Expr} (members : List Member)
    (h : builder.fieldRefs = []) : (appendMembers owner builder members).fieldRefs = [] := by
  cases members with
  | nil => exact h
  | cons m rest =>
    refine List.foldlRecOn (motive := fun b : Expr => b.fieldRefs = []) rest _
      (fieldRefs_appendMember h) fun b hb m _ => ?_
    exact fieldRefs_appendMember (fieldRefs_append hb rfl)

theorem fieldRefs_toStringBody (d : ToStringDirective) (owner superclass : TypeName)
    (members : List Member) :
    Stmt.fieldRefsList (toStringBody d owner superclass members) = [] := by
  have htext : ∀ {owner : TypeName} {e : Expr}, e.fieldRefs = [] →
      (textOf owner e).fieldRefs = [] := fun h => by simp [textOf, Expr.fieldRefsList, h]
  have hbody : ∀ e : Expr, e.fieldRefs = [] → Stmt.fieldRefsList [.ret (some e)] = [] := by
    intro e he
    simp [Stmt.fieldRefsList, Stmt.fieldRefs, Expr.fieldRefsOption, he]
  refine hbody _ ?_
  split_ifs
  · refine htext (List.foldlRecOn (motive := fun e : Expr => e.fieldRefs = []) _ _ ?_ ?_)
    · simp [Expr.fieldRefsList, Expr.fieldRefs]
    · intro e he m _
      simp [addMember, Expr.fieldRefsList, Expr.fieldRefs, he]
  · have hstart : (Expr.new builderClass [.string]
        [.str (owner.simpleName ++ "\x7b")]).fieldRefs = [] := rfl
    have hclosing : (Expr.str "\x7d").fieldRefs = [] := rfl
    have hshown := fieldRefs_append (t := .string)
      (fieldRefs_appendMembers owner (shownMembers members) hstart) hclosing
    refine htext ?_
    split_ifs
    · exact fieldRefs_append hshown (by simp [Expr.fieldRefsList])
    · exact hshown

/-! ## Guards -/

theorem ensures_guard (index : Nat) (d : NonNullDirective) :
    Ensures (guard index d) fun s => s.fieldRefs = [] := by
  unfold guard
  dsimp only
  split
  · exact Ensures.trivial.bind fun _ _ => .ite (fun _ => .pure rfl) fun _ => .throw
  · exact Ensures.trivial.bind fun _ _ => .pure rfl
  · exact Ensures.trivial.bind fun _ _ => .pure rfl

theorem ensures_guards (m : MethodDeclaration) :
    Ensures (guards m) fun ss => Stmt.fieldRefsList ss = [] := by
  refine (Ensures.mapM (fun p => ensures_guard p.1 p.2) (guardedParams m)).mono fun ss hss => ?_
  refine List.eq_nil_iff_forall_not_mem.mpr fun f hf => ?_
  obtain ⟨stmt, hstmt, hf⟩ := Stmt.mem_fieldRefsList.mp hf
  exact List.not_mem_nil (hss stmt hstmt ▸ hf)

end Synthesis

end ClassSynth

import ClassSynth.ClassUnit.Edit
import ClassSynth.Proofs.Acceptance.Typed
import ClassSynth.Synthesis.Member
import ClassSynth.Synthesis.Display
import ClassSynth.Synthesis.Equality

/-!
# Synthesized bodies that are lowered

Values of members are compared, shown and taken into hashes by operations for their types. Whatever
the types are, the operands have the slots that the operations ask for, so the synthesized bodies
lead to their ends (`leads_equalsBody` and the lemmas for the other bodies). A constructor passes
each parameter of the inherited constructor from a position with its type (`serves_signature`).
-/

namespace ClassSynth

open ClassSynth.Expr Stmt

/-! ## Types -/

namespace TypeName

variable {described : Prop} {t : TypeName}

theorem isReference_of_primitive? (h : t.primitive? = none) (ht : t.isVoid = false) :
    t.isReference = true := by
  rw [isReference, isPrimitive, h, ht]
  rfl

theorem hasValues_ofPrimitive (p : Primitive) : (ofPrimitive p).HasValues described :=
  .of_isDescribable (by cases p <;> decide)

theorem hasValues_int : int.HasValues described := .of_isDescribable (by decide)

theorem hasValues_boolean : boolean.HasValues described := .of_isDescribable (by decide)

theorem hasValues_object : object.HasValues described := .of_isDescribable (by decide)

theorem hasValues_string : string.HasValues described := .of_isDescribable (by decide)

end TypeName

variable {described : Prop} {declares : Bool} {ctx : MethodContext} {scope : TypeScope}
  {owner superclass s t : TypeName} {x y : Expr} {m : Member} {members : List Member}

/-- The value of a member of an object. -/
theorem Member.has_read (hm : m.exposedType.HasValues described)
    (hx : x.Has described ctx scope s) (hs : s.isReference = true) (owner : TypeName) :
    (m.read owner x).Has described ctx scope m.exposedType :=
  Calls.invokeVirtual ⟨by simp, .nil, hm⟩ hx hs

namespace Synthesis

/-! ## `equals` -/

theorem tests_referencesEqual (nullSafe : Bool) (hx : x.Has described ctx scope s)
    (hs : s.isReference = true) (hy : y.Has described ctx scope t) (ht : t.isReference = true) :
    (referencesEqual nullSafe x y).Tests described ctx scope := by
  have hx' : x.Fits described ctx scope .object := hx.fits_of_isReference hs (by decide)
  have hy' : y.Fits described ctx scope .object := hy.fits_of_isReference ht (by decide)
  unfold referencesEqual
  split_ifs
  · exact .of_has (Calls.invokeStatic ⟨by simp [TypeName.hasValues_object],
      .cons hx' (.cons hy' .nil), TypeName.hasValues_boolean⟩)
      fun _ h => by cases h
  · exact .of_has (Calls.invokeVirtual ⟨by simp [equalsMethod, TypeName.hasValues_object],
      .cons hy' .nil, TypeName.hasValues_boolean⟩ hx hs) fun _ h => by cases h

theorem tests_floatsEqual (p : Primitive) (hx : x.Has described ctx scope (.ofPrimitive p))
    (hy : y.Has described ctx scope (.ofPrimitive p)) :
    (floatsEqual p x y).Tests described ctx scope := by
  have hp : (TypeName.ofPrimitive p).HasValues described := TypeName.hasValues_ofPrimitive p
  refine .compare (Calls.invokeStatic ⟨by simp [hp], ?_, TypeName.hasValues_int⟩)
    (TypeName.isVoid_of_isDescribable (t := .int) (by decide)) (Has.int.fits (by decide))
  exact .cons (hx.fits hp.nonVoid) (.cons (hy.fits hp.nonVoid) .nil)

/-- Two values of a type can be compared. -/
theorem tests_valuesEqual (nullSafe : Bool) (ht : t.isVoid = false)
    (hx : x.Has described ctx scope t) (hy : y.Has described ctx scope t) :
    (valuesEqual nullSafe t x y).Tests described ctx scope := by
  unfold valuesEqual
  split
  · next hfloat =>
    obtain rfl := TypeName.eq_ofPrimitive hfloat
    exact tests_floatsEqual .float hx hy
  · next hdouble =>
    obtain rfl := TypeName.eq_ofPrimitive hdouble
    exact tests_floatsEqual .double hx hy
  · exact .compare hx ht (hy.fits ht)
  · next hnone =>
    have href := TypeName.isReference_of_primitive? hnone ht
    exact tests_referencesEqual nullSafe hx href hy href

theorem leads_answerIf (hret : ctx.ret = .boolean) (hx : x.Tests described ctx scope)
    (answer : Bool) : (answerIf x answer).Leads described declares ctx scope scope :=
  .ifThen hx (.last (.ret_fits ⟨.boolean, .bool, by decide, by rw [hret]⟩ (by rw [hret]; decide)))

section

variable (hstatic : ctx.isStatic = false) (hclass : ctx.className.isReference = true)

include hstatic hclass

theorem leads_equalsPrelude (hparams : paramType? ctx.params 1 = some .object)
    (hret : ctx.ret = .boolean) :
    ∀ s ∈ equalsPrelude, s.Leads described declares ctx scope scope := by
  have hthis : Expr.this.Has described ctx scope ctx.className := .this hstatic hclass
  have hparam : (Expr.param 1).Has described ctx scope .object := .param hparams
  have hclassOf : ∀ {x : Expr} {t : TypeName}, x.Has described ctx scope t →
      t.isReference = true → (classOf x).Has described ctx scope ⟨"java.lang.Class"⟩ :=
    fun hx ht => Calls.invokeVirtual ⟨by simp, .nil, .of_isDescribable (by decide)⟩ hx ht
  have hclasses := (hclassOf hthis hclass).fits (by decide)
  intro s hs
  simp only [equalsPrelude, List.mem_cons, List.not_mem_nil, or_false] at hs
  rcases hs with rfl | rfl | rfl
  · exact leads_answerIf hret
      (.compare hparam (by decide) (hthis.fits_of_isReference hclass (by decide))) true
  · exact leads_answerIf hret (.compare hparam (by decide) (Has.null.fits_of_size (by decide) rfl))
      false
  · exact leads_answerIf hret (.compare (hclassOf hparam (by decide)) (by decide) hclasses) false

theorem tests_equalsTests (d : EqualsDirective) (hparams : paramType? ctx.params 1 = some .object)
    (hother : scope.type? otherName = some ctx.className)
    (hmembers : ∀ m ∈ members, m.exposedType.HasValues described) :
    ∀ x ∈ equalsTests d ctx.className superclass members, x.Tests described ctx scope := by
  have hother : (Expr.localVar otherName ctx.className).Has described ctx scope ctx.className :=
    .localVar hother (TypeName.isVoid_of_isReference hclass)
  have hparam : (Expr.param 1).Has described ctx scope .object := .param hparams
  intro x hx
  rcases List.mem_append.mp hx with hx | hx
  · obtain ⟨m, hm, rfl⟩ := List.mem_map.mp hx
    have hread := hmembers m hm
    exact tests_valuesEqual d.nullSafe hread.nonVoid
      (Member.has_read hread (.this hstatic hclass) hclass _)
      (Member.has_read hread hother hclass _)
  · split_ifs at hx
    · obtain rfl := List.mem_singleton.mp hx
      exact .of_has (Calls.invokeSuper ⟨by simp [equalsMethod, TypeName.hasValues_object],
        .cons (hparam.fits (by decide)) .nil, TypeName.hasValues_boolean⟩ hstatic hclass)
        fun _ h => by cases h
    · cases hx

/-- The body of `equals` leads to its end. -/
theorem leads_equalsBody (d : EqualsDirective) (hparams : ctx.params = [.object])
    (hret : ctx.ret = .boolean)
    (hmembers : ∀ m ∈ members, m.exposedType.HasValues described) :
    ∃ scope', LeadsAll described true ctx [] (equalsBody d ctx.className superclass members)
      scope' := by
  have hparam : paramType? ctx.params 1 = some .object := by rw [hparams]; rfl
  have hvoid := TypeName.isVoid_of_isReference hclass
  have hobject : (Expr.param 1).Has described ctx [] .object := .param hparam
  have hretVoid : ctx.ret.isVoid = false := by rw [hret]; decide
  have hcompared : ∀ m ∈ comparedMembers members, m.exposedType.HasValues described :=
    fun m hm => hmembers m (List.mem_of_mem_filter hm)
  unfold equalsBody
  dsimp only
  suffices hrest : ∃ scope', LeadsAll described true ctx [] (if (comparedMembers members).isEmpty
      then [.ret (some (.bool true))]
      else [.declareLocal otherName ctx.className (.cast ctx.className (.param 1)),
        .ret (some (.and (equalsTests d ctx.className superclass (comparedMembers members))))])
      scope' by
    obtain ⟨scope', hrest⟩ := hrest
    exact ⟨scope', .append (leads_equalsPrelude hstatic hclass hparam hret)
      (by simp [equalsPrelude, answerIf, exits]) hrest⟩
  split_ifs with hempty
  · exact ⟨_, .last (.ret_fits ⟨.boolean, .bool, by decide, by rw [hret]⟩ hretVoid)⟩
  · have htests : (Expr.and (equalsTests d ctx.className superclass
        (comparedMembers members))).Tests described ctx
          [(otherName, some ctx.className)] := by
      refine .and (fun h => hempty ?_) (tests_equalsTests hstatic hclass d hparam rfl hcompared)
      have hmap := List.map_eq_nil_iff.mp (List.append_eq_nil_iff.mp h).1
      rw [hmap]
      rfl
    refine ⟨_, .cons (.declareLocal hvoid ((hobject.cast (by decide) hclass).fits hvoid)) rfl
      (.last (.ret ?_ (fun hd => ?_) hretVoid))⟩
    · rw [htests.yields_and, hret]
      rfl
    · rw [hret]
      exact htests.type hd

/-! ## `hashCode` -/

omit hstatic hclass in
theorem leads_takeIn (hx : x.Has described ctx [(resultName, some .int)] .int) :
    (takeIn x).Leads described declares ctx [(resultName, some .int)]
      [(resultName, some .int)] := by
  have hresult : resultVar.Has described ctx [(resultName, some .int)] .int :=
    .localVar rfl (by decide)
  exact .setLocal rfl (by decide) (((hresult.arith .int).arith hx).fits (by decide))

theorem fits_memberObject (hm : m.exposedType.HasValues described) :
    (memberObject ctx.className m).Fits described ctx scope .object := by
  have hthis : Expr.this.Has described ctx scope ctx.className := .this hstatic hclass
  have hread := Member.has_read hm hthis hclass ctx.className
  unfold memberObject
  dsimp only
  split_ifs with hprimitive
  · obtain ⟨wrapper, hwrapper⟩ := TypeName.exists_boxed? hprimitive
    exact (Has.boxed (hread.fits hm.nonVoid) hwrapper hm.nonVoid).fits_of_isReference
      (TypeName.isReference_of_boxed? hwrapper) (by decide)
  · refine hread.fits_of_isReference ?_ (by decide)
    simp [TypeName.isReference, hprimitive, hm.nonVoid]

theorem has_membersHash (hmembers : ∀ m ∈ members, m.exposedType.HasValues described) :
    (membersHash ctx.className members).Has described ctx scope .int := by
  have hobjects : (Expr.newArray .object (members.map (memberObject ctx.className))).Has described
      ctx scope TypeName.object.arrayOf := by
    refine .newArray TypeName.hasValues_object fun x hx => ?_
    obtain ⟨m, hm, rfl⟩ := List.mem_map.mp hx
    exact fits_memberObject hstatic hclass (hmembers m hm)
  have harray : TypeName.object.arrayOf.HasValues described := .of_isDescribable (by decide)
  exact Calls.invokeStatic ⟨by simp [harray], .cons (hobjects.fits harray.nonVoid) .nil,
    TypeName.hasValues_int⟩

/-- The body of `hashCode` leads to its end. -/
theorem leads_hashCodeBody (d : HashCodeDirective) (hret : ctx.ret = .int)
    (hmembers : ∀ m ∈ members, m.exposedType.HasValues described) :
    ∃ scope', LeadsAll described true ctx [] (hashCodeBody d ctx.className superclass members)
      scope' := by
  have hhashed : (membersHash ctx.className (hashedMembers members)).Has described ctx
      [(resultName, some .int)] .int :=
    has_membersHash hstatic hclass fun m hm => hmembers m (List.mem_of_mem_filter hm)
  have hinherited : (inheritedHash superclass).Has described ctx [(resultName, some .int)] .int :=
    Calls.invokeSuper ⟨by simp, .nil, TypeName.hasValues_int⟩ hstatic hclass
  have hresult : resultVar.Has described ctx [(resultName, some .int)] .int :=
    .localVar rfl (by decide)
  unfold hashCodeBody
  dsimp only
  simp only [List.append_assoc, List.singleton_append]
  refine ⟨_, .cons (.declareLocal (by decide) (Has.int.fits (by decide))) rfl
    (.append ?_ ?_ (.append ?_ ?_
      (.last (.ret_fits ⟨.int, hresult, by decide, by rw [hret]⟩ (by rw [hret]; decide)))))⟩
  all_goals
    intro s hs
    split_ifs at hs <;> first | obtain rfl := List.mem_singleton.mp hs | cases hs
  · exact leads_takeIn hinherited
  · rfl
  · exact leads_takeIn hhashed
  · rfl

/-! ## `toString` -/

omit hstatic hclass in
theorem hasValues_builderClass : builderClass.HasValues described :=
  .of_isDescribable (by decide)

omit hstatic hclass in
theorem hasValues_displayParam (ht : t.HasValues described) :
    (displayParam t).HasValues described := by
  unfold displayParam
  split
  · exact TypeName.hasValues_int
  · exact TypeName.hasValues_int
  · exact ht
  · exact TypeName.hasValues_object

omit hstatic hclass in
theorem fits_displayParam (hx : x.Has described ctx scope t) (ht : t.isVoid = false) :
    x.Fits described ctx scope (displayParam t) := by
  unfold displayParam
  split
  · next hbyte => exact hx.fits_of_size ht (by rw [TypeName.eq_ofPrimitive hbyte]; decide)
  · next hshort => exact hx.fits_of_size ht (by rw [TypeName.eq_ofPrimitive hshort]; decide)
  · exact hx.fits ht
  · next hnone =>
    exact hx.fits_of_isReference (TypeName.isReference_of_primitive? hnone ht) (by decide)

omit hstatic hclass in
theorem has_append (hx : x.Has described ctx scope builderClass) (hy : y.Has described ctx scope t)
    (ht : t.HasValues described) : (append x y t).Has described ctx scope builderClass := by
  have hparam : (appendParam t).HasValues described ∧
      y.Fits described ctx scope (appendParam t) := by
    unfold appendParam
    split_ifs with hstring
    · obtain rfl := beq_iff_eq.mp hstring
      exact ⟨ht, hy.fits ht.nonVoid⟩
    · exact ⟨hasValues_displayParam ht, fits_displayParam hy ht.nonVoid⟩
  exact Calls.invokeVirtual ⟨by simp [hparam.1], .cons hparam.2 .nil, hasValues_builderClass⟩ hx
    (by decide)

omit hstatic hclass in
theorem has_appendText (hx : x.Has described ctx scope builderClass) (text : String) :
    (appendText x text).Has described ctx scope builderClass :=
  has_append hx .str TypeName.hasValues_string

theorem has_appendMember (hx : x.Has described ctx scope builderClass)
    (hm : m.exposedType.HasValues described) :
    (appendMember ctx.className x m).Has described ctx scope builderClass :=
  has_append (has_appendText hx _) (Member.has_read hm (.this hstatic hclass) hclass _) hm

theorem has_appendMembers (hx : x.Has described ctx scope builderClass)
    (hmembers : ∀ m ∈ members, m.exposedType.HasValues described) :
    (appendMembers ctx.className x members).Has described ctx scope builderClass := by
  cases members with
  | nil => exact hx
  | cons m rest =>
    refine List.foldlRecOn (motive := fun x : Expr => x.Has described ctx scope builderClass) rest _
      (has_appendMember hstatic hclass hx
      (hmembers m List.mem_cons_self)) fun b hb m hm => ?_
    exact has_appendMember hstatic hclass (has_appendText hb _)
      (hmembers m (List.mem_cons_of_mem _ hm))

omit hstatic hclass in
theorem has_textOf (hx : x.Has described ctx scope t) (ht : t.isReference = true)
    (owner : TypeName) : (textOf owner x).Has described ctx scope .string :=
  Calls.invokeVirtual ⟨by simp, .nil, TypeName.hasValues_string⟩ hx ht

theorem has_builderDisplay (callSuper : Bool)
    (hmembers : ∀ m ∈ members, m.exposedType.HasValues described) :
    (builderDisplay callSuper ctx.className superclass members).Has described ctx scope
      .string := by
  have hstart : (Expr.new builderClass [.string]
      [.str (ctx.className.simpleName ++ "\x7b")]).Has described ctx scope builderClass :=
    .new (by decide) (by simp [TypeName.hasValues_string]) (.cons (Has.str.fits (by decide)) .nil)
  have hinherited : (Expr.invokeSuper
      { owner := superclass, name := "toString", params := [], ret := .string } []).Has described
      ctx scope .string :=
    Calls.invokeSuper ⟨by simp, .nil, TypeName.hasValues_string⟩ hstatic hclass
  have hshown := has_appendText (has_appendMembers hstatic hclass hstart hmembers) "\x7d"
  unfold builderDisplay
  dsimp only
  refine has_textOf (t := builderClass) ?_ (by decide) builderClass
  split_ifs
  · exact has_append hshown hinherited TypeName.hasValues_string
  · exact hshown

theorem has_helperDisplay (hmembers : ∀ m ∈ members, m.exposedType.HasValues described) :
    (helperDisplay ctx.className members).Has described ctx scope .string := by
  have hhelper : helperClass.HasValues described := .of_isDescribable (by decide)
  have hthis : Expr.this.Has described ctx scope ctx.className := .this hstatic hclass
  unfold helperDisplay
  dsimp only
  refine has_textOf (t := helperClass) (List.foldlRecOn
    (motive := fun x : Expr => x.Has described ctx scope helperClass) members _ ?_
    fun x hx m hm => ?_) (by decide) helperClass
  · exact Calls.invokeStatic ⟨by simp [TypeName.hasValues_object],
      .cons (hthis.fits_of_isReference hclass (by decide)) .nil, hhelper⟩
  · have hread := Member.has_read (hmembers m hm) hthis hclass ctx.className
    have hexposed := (hmembers m hm).nonVoid
    refine Calls.invokeVirtual ⟨?_, .cons (Has.str.fits (by decide))
      (.cons (fits_displayParam hread hexposed) .nil), hhelper⟩ hx (by decide)
    simp [TypeName.hasValues_string, hasValues_displayParam (hmembers m hm)]

/-- The body of `toString` leads to its end. -/
theorem leads_toStringBody (d : ToStringDirective) (hret : ctx.ret = .string)
    (hmembers : ∀ m ∈ members, m.exposedType.HasValues described) :
    LeadsAll described declares ctx [] (toStringBody d ctx.className superclass members) [] := by
  have hshown : ∀ m ∈ shownMembers members, m.exposedType.HasValues described :=
    fun m hm => hmembers m (List.mem_of_mem_filter hm)
  refine .last (.ret_fits (Has.fits ?_ (by rw [hret]; decide)) (by rw [hret]; decide))
  rw [hret]
  split_ifs
  · exact has_helperDisplay hstatic hclass hshown
  · exact has_builderDisplay hstatic hclass d.callSuper hshown

end

end Synthesis

/-! ## Constructors -/

namespace ConstructorPlan

/-- Parameters of which the first belong to members, and which serve inherited parameters. -/
structure Serves (members : List Member) (inherited : List Parameter) (s : Signature) : Prop where
  params : ∃ more, s.params = members.map Member.storedType ++ more ∧
    more.length ≤ inherited.length ∧ ∀ t ∈ more, ∃ p ∈ inherited, p.type = t
  forwarded : List.Forall₂ (fun i p => paramType? s.params i = some (Parameter.type p)) s.forwarded
    inherited

theorem paramType?_append {params more : List TypeName} {i : Nat}
    (h : paramType? params i = some t) : paramType? (params ++ more) i = some t := by
  cases i with
  | zero => cases h
  | succ i =>
    obtain ⟨hi, hget⟩ := List.getElem?_eq_some_iff.mp h
    rw [paramType?, List.getElem?_append_left hi, List.getElem?_eq_getElem hi, hget]

theorem serves_forward {inherited : List Parameter} {s : Signature}
    (h : Serves members inherited s) (p : Parameter) :
    Serves members (inherited ++ [p]) (forward members s p) := by
  obtain ⟨more, hparams, hlength, hmore⟩ := h.params
  have hmore' : ∀ t ∈ more, ∃ q ∈ inherited ++ [p], q.type = t := fun t ht => by
    obtain ⟨q, hq, hqt⟩ := hmore t ht
    exact ⟨q, List.mem_append_left _ hq, hqt⟩
  unfold forward
  split
  · next i hfind =>
    obtain ⟨hi, hshares, -⟩ := List.findIdx?_eq_some_iff_getElem.mp hfind
    rw [shares, Bool.and_eq_true, beq_iff_eq] at hshares
    refine ⟨⟨more, hparams, by rw [List.length_append]; omega, hmore'⟩,
      List.rel_append h.forwarded (.cons ?_ .nil)⟩
    rw [paramType?, hparams, List.getElem?_append_left (by simpa using hi), List.getElem?_map,
      List.getElem?_eq_getElem hi, Option.map_some, hshares.1]
  · refine ⟨⟨more ++ [p.type], by rw [hparams, List.append_assoc], by simpa using hlength, ?_⟩, ?_⟩
    · intro t ht
      rcases List.mem_append.mp ht with ht | ht
      · exact hmore' t ht
      · exact ⟨p, by simp, (List.mem_singleton.mp ht).symm⟩
    · refine List.rel_append (h.forwarded.imp fun _ _ hi => paramType?_append hi)
        (.cons ?_ .nil)
      rw [paramType?, List.getElem?_concat_length]

/-- The signature of a constructor serves the inherited constructor. -/
theorem serves_signature (plan : ConstructorPlan) :
    Serves plan.members plan.superParams plan.signature := by
  have hfold : ∀ (ps inherited : List Parameter) (s : Signature), Serves plan.members inherited s →
      Serves plan.members (inherited ++ ps) (ps.foldl (forward plan.members) s) := by
    intro ps
    induction ps with
    | nil => exact fun inherited s h => by rwa [List.append_nil]
    | cons p ps ih =>
      intro inherited s h
      rw [List.foldl_cons, ← List.singleton_append, ← List.append_assoc]
      exact ih _ _ (serves_forward h p)
  exact hfold plan.superParams [] _ ⟨⟨[], by simp, Nat.le_refl _, nofun⟩, .nil⟩

/-- The types of members and of inherited parameters have values. -/
structure HasValues (described : Prop) (plan : ConstructorPlan) : Prop where
  members : ∀ m ∈ plan.members, m.storedType.HasValues described
  superParams : ∀ p ∈ plan.superParams, p.type.HasValues described

variable {plan : ConstructorPlan}

theorem HasValues.params (h : plan.HasValues described) :
    ∀ t ∈ plan.signature.params, t.HasValues described := by
  obtain ⟨more, hparams, -, hmore⟩ := plan.serves_signature.params
  intro t ht
  rw [hparams, List.mem_append] at ht
  rcases ht with ht | ht
  · obtain ⟨m, hm, rfl⟩ := List.mem_map.mp ht
    exact h.members m hm
  · obtain ⟨p, hp, rfl⟩ := hmore t ht
    exact h.superParams p hp

/-- The body of a constructor leads to its end. -/
theorem leads_body (h : plan.HasValues described) (hstatic : ctx.isStatic = false)
    (hclass : ctx.className.isReference = true) (hparams : ctx.params = plan.signature.params)
    (hret : ctx.ret = .void) :
    LeadsAll described declares ctx [] (plan.body ctx.className superclass) [] := by
  obtain ⟨more, hmembers, -⟩ := plan.serves_signature.params
  refine .cons (.superInit hstatic ?_ ?_) rfl (.append ?_ ?_ (.last (.retNone (by rw [hret]; rfl))))
  · intro t ht
    obtain ⟨p, hp, rfl⟩ := List.mem_map.mp ht
    exact h.superParams p hp
  · rw [List.forall₂_map_left_iff, List.forall₂_map_right_iff]
    have hforwarded := plan.serves_signature.forwarded
    rw [← hparams] at hforwarded
    exact Emitter.forall₂_imp_mem hforwarded fun i p hp hi =>
      (Has.param hi).fits (h.superParams p hp).nonVoid
  · intro s hs
    obtain ⟨⟨m, i⟩, hm, rfl⟩ := List.mem_map.mp hs
    have hget : plan.members[i]? = some m := List.mk_mem_zipIdx_iff_getElem?.mp hm
    have hstored := h.members m (List.fst_mem_of_mem_zipIdx hm)
    have hparam : paramType? ctx.params (i + 1) = some m.storedType := by
      rw [hparams, hmembers]
      exact paramType?_append (by rw [paramType?, List.getElem?_map, hget, Option.map_some])
    exact .setField (.this hstatic hclass) hclass hstored ((Has.param hparam).fits hstored.nonVoid)
  · intro s hs
    obtain ⟨⟨m, i⟩, -, rfl⟩ := List.mem_map.mp hs
    rfl

end ConstructorPlan

end ClassSynth

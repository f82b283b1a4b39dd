import ClassSynth.Action.Apply
import ClassSynth.Proofs.Binding.Fields
import ClassSynth.Proofs.ClassUnit.Fields
import ClassSynth.Proofs.Generation.Building
import ClassSynth.Proofs.Generation.Queue
import ClassSynth.Proofs.Synthesis.Fields
import Mathlib.Logic.Relation

/-!
# Fields that actions read and set

An action works on the class under construction with operations whose bodies read and set only
fields that the class provides (`makes_apply`). Accessors and constructors give a field the type of
the accessor, so the class has to agree with that; a method that sets a field looks its type up.
-/

namespace ClassSynth

namespace Action

/-- The field of a member, with the type that its accessor gives it. -/
def memberDemand (m : Member) : String × TypeName := (m.field, m.storedType)

/-- The fields that an action declares, or reads and sets without looking at their types. -/
def demands : Action → List (String × TypeName)
  | field name t => [(name, t)]
  | accessor m => [memberDemand m]
  | constructor plan _ => plan.members.map memberDemand
  | _ => []

/-- One class can meet the demands: no type has arguments, and the types for a name have the same
descriptor. -/
structure Consistent (demands : List (String × TypeName)) : Prop where
  erased : ∀ p ∈ demands, p.2.isErased = true
  same : ∀ name t u, (name, t) ∈ demands → (name, u) ∈ demands → t.descriptor = u.descriptor

end Action

namespace ClassUnit

/-- If the field is one of the class itself, the class declares it or inherits it. -/
def Resolves (c : ClassUnit) (f : FieldRef) : Prop :=
  f.owner = c.name → c.file.Declares f.name f.type.descriptor ∨ c.Inherits f

/-- The class resolves the field. In a pool that is too large to be written, names may not be
found. -/
def Provides (c : ClassUnit) (f : FieldRef) : Prop :=
  c.file.pool.Indexable → c.Resolves f

/-- One operation makes the later class, and the earlier one provides the fields in its body. -/
structure Grounded (c c' : ClassUnit) : Prop where
  operation : ∃ op : ClassOp, c.runEdit op.step = (.ok (), c') ∧ ∀ f ∈ op.fieldRefs, c.Provides f
  supertypes : SameSupertypes c c'

/-- Grounded operations make the later class. -/
abbrev Grounds : ClassUnit → ClassUnit → Prop := Relation.ReflTransGen Grounded

theorem Inherits.keep {c c' : ClassUnit} {f : FieldRef} (h : c.Inherits f)
    (hto : SameSupertypes c c') : c'.Inherits f := by
  obtain ⟨roots, pool, sig, hroots, hfound, htype⟩ := h
  exact ⟨roots, pool, sig, hto.directSupertypes hroots, hfound, htype⟩

/-- A field that is provided once stays so. -/
theorem Provides.keep {c c' : ClassUnit} {f : FieldRef} (h : c.Provides f)
    (hto : c.Grounds c') : c'.Provides f := by
  induction hto with
  | refl => exact h
  | tail _ hlast ih =>
    obtain ⟨⟨op, hrun, -⟩, hsupertypes⟩ := hlast
    have hkeeps := KeepsMembers.of_step hrun
    intro hindexable howner
    obtain hdeclares | hinherits :=
      ih (hkeeps.pool.indexable hindexable) (howner.trans hkeeps.name)
    · exact .inl (declares_of_step hrun hdeclares)
    · exact .inr (hinherits.keep hsupertypes)

/-- Grounded operations that leave the fields alone make the later class. -/
structure Extends (c c' : ClassUnit) : Prop where
  built : c.Grounds c'
  fields : SameFields c c'

instance : IsPreorder ClassUnit Extends where
  refl c := ⟨.refl, refl_of SameFields c⟩
  trans _ _ _ hab hbc := ⟨hab.built.trans hbc.built, trans_of SameFields hab.fields hbc.fields⟩

/-- The class agrees with the demands and has the fields. -/
def Ready (c : ClassUnit) (demands : List (String × TypeName)) (names : List String) : Prop :=
  c.file.pool.Indexable → c.Agrees demands ∧ ∀ name ∈ names, c.hasField name = true

namespace Ready

variable {c : ClassUnit} {demands : List (String × TypeName)} {names : List String}

theorem provides (h : c.Ready demands names) {name : String} {t : TypeName}
    (hname : name ∈ names) (ht : (name, t) ∈ demands) (owner : TypeName) :
    c.Provides { owner, name, type := t } := by
  intro hindexable _
  obtain ⟨hagrees, hfields⟩ := h hindexable
  exact .inl (hagrees.declares (hfields name hname) ht)

theorem provides_of_offers (h : c.Ready demands names) {f : FieldRef} (hoffers : c.Offers f) :
    c.Provides f := by
  intro hindexable howner
  refine (hoffers howner).imp_left ?_
  rintro ⟨sig, hfield, htype⟩
  exact htype ▸ (h hindexable).1.declares_of_field? hfield

theorem sameFields {c' : ClassUnit} (h : c.Ready demands names) (hto : SameFields c c') :
    c'.Ready demands names := by
  intro hindexable
  obtain ⟨hagrees, hfields⟩ := h (hto.pool.indexable hindexable)
  exact ⟨hagrees.sameFields hto, fun name hname => hto.hasField (hfields name hname)⟩

theorem subset {names' : List String} (h : c.Ready demands names) (hsub : names' ⊆ names) :
    c.Ready demands names' :=
  fun hindexable => (h hindexable).imp_right fun hfields name hname => hfields name (hsub hname)

end Ready

end ClassUnit

namespace Action

open Session ClassUnit

variable {c : ClassUnit} {demands : List (String × TypeName)} {names : List String}

/-! ## Operations -/

theorem extends_of_step (op : ClassOp) {c' : ClassUnit} (hkeeps : Keeps SameFields op.step)
    (hprovides : ∀ f ∈ op.fieldRefs, c.Provides f) (hrun : c.runEdit op.step = (.ok (), c')) :
    c.Extends c' :=
  have hsame := hkeeps.of_run hrun
  ⟨.single ⟨⟨op, hrun, hprovides⟩, hsame.toSameSupertypes⟩, hsame⟩

/-- An operation whose body touches no field. -/
theorem extends_of_fieldless (op : ClassOp) {c' : ClassUnit} (hkeeps : Keeps SameFields op.step)
    (hnone : op.fieldRefs = []) (hrun : c.runEdit op.step = (.ok (), c')) : c.Extends c' :=
  extends_of_step op hkeeps (fun f hf => absurd hf (by simp [hnone])) hrun

theorem makes_addBody {flags : UInt16} {name : String} {params : List TypeName} {ret : TypeName}
    {body : List Stmt} (h : ∀ f ∈ Stmt.fieldRefsList body, c.Provides f) :
    Makes c (editClass (ClassUnit.addMethod flags name params ret body)) fun _ c' =>
      c.Extends c' :=
  (makes_editClass _).mono fun _ _ =>
    extends_of_step (.addMethod flags name params ret body)
      (keepsFields_addMethod flags name params ret body) h

/-! ## Fields, accessors and mutators -/

theorem makes_wrapField (h : c.Ready demands names) (m : Member) {stored : Expr}
    (hstored : stored.ReadsOnly c.Provides) (template : String) :
    Makes c (wrapField m stored template) fun e c' => c' = c ∧ e.ReadsOnly c.Provides := by
  refine .after makes_lift fun t _ => .after (makes_scope []) fun scope hscope => ?_
  subst hscope
  have hwithin : Scope.Within
      { thisClass := c.name, current := some c, params := [],
        placeholder := some ⟨stored, m.storedType⟩ } c c.Provides :=
    ⟨rfl, rfl, fun _ => h.provides_of_offers, fun _ hv => Option.some.inj hv ▸ hstored⟩
  refine .after (makes_onPool (Scope.ensures_bind hwithin t)) fun wrapped hwrapped => ?_
  refine makes_onPool ((Binding.ensures_adapt wrapped m.exposedType).mono fun e he f hf => ?_)
  exact hwrapped f (he ▸ hf)

theorem makes_addAccessor {m : Member} (h : c.Ready demands [m.field])
    (hm : memberDemand m ∈ demands) : Makes c (addAccessor m) fun _ c' => c.Extends c' := by
  have hstored : Expr.ReadsOnly c.Provides (.getField .this (m.fieldRef c.name)) := by
    intro f hf
    obtain rfl : f = m.fieldRef c.name := by simpa [Expr.fieldRefs] using hf
    exact h.provides List.mem_cons_self hm c.name
  have hadd : ∀ e : Expr, e.ReadsOnly c.Provides →
      Makes c (addMethod m.accessor [.ret (some e)]) fun _ c' => c.Extends c' := by
    refine fun e he => makes_addBody fun f hf => he f ?_
    simpa [Stmt.fieldRefsList, Stmt.fieldRefs, Expr.fieldRefsOption] using hf
  refine .after (makes_isDeclared _) fun declared _ => .ite (fun _ => ?_) fun _ =>
    .pure (refl_of Extends c)
  refine .currentClass_bind ?_
  dsimp only
  split
  · next wrap hwrap => exact .after (makes_wrapField h m hstored wrap.template) hadd
  · exact hadd _ hstored

/-- The field that a mutator sets has the type that is looked up. -/
theorem makes_fieldType {field : String} (h : c.Ready demands [field]) (param : TypeName) :
    Makes c (fieldType field param) fun t c' =>
      c' = c ∧ c.Provides { owner := c.name, name := field, type := t } := by
  refine .currentClass_bind (.after makes_lift fun found hfound => .pure ⟨rfl, ?_⟩)
  intro hindexable _
  obtain ⟨hagrees, hfields⟩ := h hindexable
  obtain ⟨sig, rfl⟩ := exists_field?_of_hasField (hfields field List.mem_cons_self) hfound
  exact .inl (hagrees.declares_of_field? hfound)

theorem makes_returnReceiver (t : TypeName) (mismatch : Error) :
    Makes c (returnReceiver t mismatch) fun s c' => c' = c ∧ s = .ret (some .this) :=
  .after (R := fun _ => True) (.of_keeps (keeps_currentIsSubtype t) .trivial) fun _ _ =>
    .ite (fun _ => .pure ⟨rfl, rfl⟩) fun _ => .throw

theorem makes_addMutator {field : String} (h : c.Ready demands [field]) (m : MethodDeclaration) :
    Makes c (addMutator field m) fun _ c' => c.Extends c' := by
  have hadd : ∀ (type : TypeName) (value : Expr) (last : Stmt),
      c.Provides { owner := c.name, name := field, type } → value.fieldRefs = [] →
      last.fieldRefs = [] →
      Makes c (addMethod m [.setField .this { owner := c.name, name := field, type } value, last])
        fun _ c' => c.Extends c' := by
    refine fun type value last htype hvalue hlast => makes_addBody fun f hf => ?_
    obtain rfl : f = { owner := c.name, name := field, type } := by
      simpa [Stmt.fieldRefsList, Stmt.fieldRefs, Expr.fieldRefs, hvalue, hlast] using hf
    exact htype
  refine .after (makes_isDeclared _) fun declared _ => .ite (fun _ => ?_) fun _ =>
    .pure (refl_of Extends c)
  split
  · exact .throw
  refine .currentClass_bind (.after (makes_fieldType h _) fun type htype => ?_)
  refine .after (makes_onPool (Binding.ensures_adapt _ type)) fun value hvalue => ?_
  refine .ite (fun _ => hadd type value _ htype hvalue rfl) fun _ => ?_
  exact .after (makes_returnReceiver _ _) fun last hlast =>
    hadd type value last htype hvalue (hlast ▸ rfl)

/-! ## Invocations -/

theorem makes_invocations (h : c.Ready demands names) (m : MethodDeclaration)
    (d : InvokeDirective) : (sources : List String) →
    Makes c (invocations m d sources) fun ss c' =>
      c' = c ∧ ∀ f ∈ Stmt.fieldRefsList ss, c.Provides f
  | [] => .pure ⟨rfl, fun f hf => absurd hf List.not_mem_nil⟩
  | source :: rest => by
    have hrest : ∀ stmt : Stmt, (∀ f ∈ stmt.fieldRefs, c.Provides f) →
        Makes c (do return stmt :: (← invocations m d rest)) fun ss c' =>
          c' = c ∧ ∀ f ∈ Stmt.fieldRefsList ss, c.Provides f := by
      refine fun stmt hstmt => .after (makes_invocations h m d rest) fun ss hss => ?_
      exact .pure ⟨rfl, fun f hf => (List.mem_append.mp hf).elim (hstmt f) (hss f)⟩
    refine .after makes_lift fun t _ => .after (makes_scope _) fun scope hscope => ?_
    have hwithin : scope.Within c c.Provides := by
      subst hscope
      exact ⟨rfl, rfl, fun _ => h.provides_of_offers, fun _ hv => absurd hv (by simp)⟩
    refine .after (makes_onPool (Scope.ensures_bind hwithin t)) fun call hcall => ?_
    refine .ite (fun _ => ?_) fun _ => hrest _ hcall
    refine .after (makes_onPool (Binding.ensures_adapt call m.returnType)) fun e he => ?_
    exact hrest _ fun f hf => hcall f (he ▸ hf)

theorem makes_afterInvocations (m : MethodDeclaration) (d : InvokeDirective) :
    Makes c (afterInvocations m d) fun ss c' => c' = c ∧ Stmt.fieldRefsList ss = [] := by
  unfold afterInvocations
  dsimp only
  split
  · exact .after (makes_returnReceiver _ _) fun last hlast => .pure ⟨rfl, hlast ▸ rfl⟩
  · refine .ite (fun _ => .throw) fun _ => .pure ⟨rfl, ?_⟩
    split_ifs <;> rfl
  · exact .ite (fun _ => .pure ⟨rfl, rfl⟩) fun _ => .throw

theorem makes_addInvocations (h : c.Ready demands names) (m : MethodDeclaration)
    (d : InvokeDirective) : Makes c (addInvocations m d) fun _ c' => c.Extends c' := by
  refine .after (makes_isDeclared _) fun declared _ => .ite (fun _ => ?_) fun _ =>
    .pure (refl_of Extends c)
  refine .after (makes_invocations h m d _) fun calls hcalls => ?_
  refine .after (makes_afterInvocations m d) fun last hlast => makes_addBody fun f hf => ?_
  rw [Stmt.fieldRefsList_append, hlast, List.append_nil] at hf
  exact hcalls f hf

/-! ## Factories -/

theorem fieldRefs_makeInstance (implementation : TypeName) (params : List TypeName) :
    Stmt.fieldRefsList (makeInstance implementation params) = [] := by
  refine List.eq_nil_iff_forall_not_mem.mpr fun f hf => ?_
  rw [makeInstance, Stmt.fieldRefsList, Stmt.fieldRefs, Expr.fieldRefsOption, Expr.fieldRefs,
    Stmt.fieldRefsList, List.append_nil, Expr.mem_fieldRefsList] at hf
  obtain ⟨e, he, hf⟩ := hf
  obtain ⟨i, _, rfl⟩ := List.mem_map.mp he
  exact List.not_mem_nil hf

/-- A factory reads no fields, so it is grounded in every class. -/
theorem extends_of_bindFactory {p : FactoryPlan} {location implementation : TypeName}
    {changed : Bool} {c c' : ClassUnit}
    (h : c.runEdit (bindFactory p location implementation) = (.ok changed, c')) :
    c.Extends c' := by
  obtain ⟨-, rfl⟩ | ⟨-, op, hrun, hop⟩ := of_bindFactory h
  · exact refl_of Extends c'
  · have hnone : op.fieldRefs = [] := by
      obtain rfl | rfl := hop <;> exact fieldRefs_makeInstance implementation p.params
    have hkeeps : Keeps SameFields op.step := by
      obtain rfl | rfl := hop
      · exact keepsFields_addMethod _ _ _ _ _
      · exact keepsFields_replaceReturns _ _ _
    exact extends_of_fieldless op hkeeps hnone hrun

theorem makes_addFactory (p : FactoryPlan) : Makes c (addFactory p) fun _ c' => c.Extends c' :=
  makes_addFactory_of (refl_of Extends c) fun _ _ _ _ => extends_of_bindFactory

/-! ## Constructors and methods of all members -/

theorem makes_addConstructor {plan : ConstructorPlan} {factory : Option FactoryBinding}
    (h : c.Ready demands names) (hfields : ∀ m ∈ plan.members, m.field ∈ names)
    (hdemands : ∀ m ∈ plan.members, memberDemand m ∈ demands) :
    Makes c (addConstructor plan factory) fun _ c' => c.Extends c' := by
  refine .currentClass_bind (.ite (fun _ => .after makes_lift fun superclass _ => ?_) fun _ =>
    .pure (refl_of Extends c))
  refine (makes_addBody fun f hf => ?_).bind fun _ c₁ hextends => ?_
  · obtain ⟨m, hm, rfl⟩ := ConstructorPlan.mem_fieldRefs_body hf
    exact h.provides (hfields m hm) (hdemands m hm) c.name
  · cases factory with
    | none => exact .pure hextends
    | some f => exact (makes_addFactory _).mono fun _ _ => trans_of Extends hextends

theorem makes_addObjectMethod (name : String) (params : List TypeName) (ret : TypeName)
    {body : TypeName → TypeName → List Stmt}
    (hbody : ∀ owner superclass, Stmt.fieldRefsList (body owner superclass) = []) :
    Makes c (addObjectMethod name params ret body) fun _ c' => c.Extends c' := by
  refine .currentClass_bind (.ite (fun _ => .after makes_lift fun superclass _ => ?_) fun _ =>
    .pure (refl_of Extends c))
  exact makes_addBody fun f hf => absurd hf (by simp [hbody])

/-! ## All actions -/

/-- After a field was added, the class has it. -/
theorem makes_addField {name : String} {t : TypeName} (h : c.Ready demands names)
    (herased : t.isErased = true) (hsame : ∀ u, (name, u) ∈ demands → t.descriptor = u.descriptor) :
    Makes c (addField name t) fun _ c' => c.Grounds c' ∧ c'.Ready demands (name :: names) := by
  refine .currentClass_bind (.ite (fun _ => (makes_editClass _).mono fun _ c' hrun => ?_)
    fun hfield => .pure ⟨.refl, ?_⟩)
  · have hstep : c.runEdit (ClassOp.addField AccessFlags.isPrivate name t).step = (.ok (), c') :=
      hrun
    obtain ⟨c₁, m, hc, rfl, -, -⟩ := of_addField hrun
    have hkeeps := KeepsMembers.of_step hstep
    refine ⟨.single ⟨⟨_, hstep, fun f hf => absurd hf List.not_mem_nil⟩, ?_⟩, fun hindexable => ?_⟩
    · have hsame := hc.sameFields
      exact ⟨hsame.superClass, hsame.interfaces, hsame.pool⟩
    · obtain ⟨hagrees, hfields⟩ := h (hkeeps.pool.indexable hindexable)
      obtain ⟨hagrees', hnew⟩ := hagrees.addField hrun herased hsame hindexable
      exact ⟨hagrees', List.forall_mem_cons.mpr ⟨hnew, fun n hn => hkeeps.hasField (hfields n hn)⟩⟩
  · intro hindexable
    obtain ⟨hagrees, hfields⟩ := h hindexable
    exact ⟨hagrees, List.forall_mem_cons.mpr ⟨by simpa using hfield, hfields⟩⟩

/-- **Grounded actions.** If the class agrees with the demands and has the fields that the action
uses, the operations of the action touch only fields that the class provides. -/
theorem makes_apply {x : Action} (h : c.Ready demands names)
    (hstorage : ∀ name ∈ x.storage, name ∈ names) (hdemands : x.demands ⊆ demands)
    (hconsistent : Consistent demands) :
    Makes c x.apply fun _ c' =>
      c.Grounds c' ∧ c'.Ready demands (x.fieldName?.toList ++ names) := by
  have hextends : ∀ {step : Step Unit}, Makes c step (fun _ c' => c.Extends c') →
      Makes c step fun _ c' => c.Grounds c' ∧ c'.Ready demands names :=
    fun hstep => hstep.mono fun _ _ hto => ⟨hto.built, h.sameFields hto.fields⟩
  cases x with
  | field name t =>
    have hdemand : (name, t) ∈ demands := hdemands List.mem_cons_self
    exact makes_addField h (hconsistent.erased _ hdemand) fun u => hconsistent.same name t u hdemand
  | accessor m =>
    exact hextends (makes_addAccessor (h.subset hstorage) (hdemands List.mem_cons_self))
  | mutator field m => exact hextends (makes_addMutator (h.subset hstorage) m)
  | invoke m d => exact hextends (makes_addInvocations h m d)
  | constructor plan factory =>
    refine hextends (makes_addConstructor h (fun m hm => ?_) fun m hm => ?_)
    · exact hstorage m.field (List.mem_map_of_mem hm)
    · exact hdemands (List.mem_map_of_mem hm)
  | factory plan => exact hextends (makes_addFactory plan)
  | equals members d =>
    rw [apply]
    exact hextends (makes_addObjectMethod _ _ _ fun _ _ => Synthesis.fieldRefs_equalsBody d _ _ _)
  | hashCode members d =>
    rw [apply]
    exact hextends (makes_addObjectMethod _ _ _ fun _ _ => Synthesis.fieldRefs_hashCodeBody d _ _ _)
  | display members d =>
    rw [apply]
    exact hextends (makes_addObjectMethod _ _ _ fun _ _ => Synthesis.fieldRefs_toStringBody d _ _ _)
  | nonNull m =>
    refine hextends ((makes_addGuards m).mono fun _ c' hguards => ?_)
    obtain rfl | ⟨guards, hnone, hrun⟩ := hguards
    · exact refl_of Extends c'
    · exact extends_of_fieldless (.insertBefore _ _ guards) (keepsFields_insertBefore _ _ _) hnone
        hrun

end Action

end ClassSynth

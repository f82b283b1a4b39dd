import ClassSynth.Action.Apply
import ClassSynth.Proofs.Binding.Lookups
import ClassSynth.Proofs.ClassUnit.Fields
import ClassSynth.Proofs.Generation.Session
import ClassSynth.Proofs.Pool.Lookup
import ClassSynth.Proofs.Synthesis.Fields

/-!
# Actions on one class

An action works on the class under construction and looks other classes up. Whether it fails or not,
the class keeps its name, the pool only loads classes, and the results stay as they are
(`Session.Builds`). Factories are the exception: one in another class changes that class and
publishes it.
-/

namespace ClassSynth

/-! ## Classes -/

namespace ClassUnit

/-- The later class has the name of the earlier one. -/
def SameName (c c' : ClassUnit) : Prop := c'.name = c.name

instance : IsPreorder ClassUnit SameName where
  refl _ := rfl
  trans _ _ _ hab hbc := Eq.trans hbc hab

theorem keepsName_of_fields {α : Type} {step : Edit α} (h : Keeps SameFields step) :
    Keeps SameName step :=
  h.mono fun _ _ => SameFields.name

theorem keepsName {α : Type} {step : Edit α} (h : Keeps Enlarged step) : Keeps SameName step :=
  keepsName_of_fields (keepsFields h)

theorem keepsName_modifyFile (f : ClassFile → ClassFile) : Keeps SameName (modifyFile f) :=
  .modified fun _ => rfl

theorem keepsName_addField (flags : UInt16) (name : String) (t : TypeName) :
    Keeps SameName (addField flags name t) := by
  have hadd : Keeps SameName (do
      let field ← memberInfo flags name t.descriptor
      modifyFile fun f => { f with fields := f.fields ++ [field] }) :=
    (keepsName (keeps_memberInfo _ _ _)).bind fun _ => keepsName_modifyFile _
  exact Keeps.get.bind fun _ =>
    .ite ((keepsName (keeps_duplicate _ _)).bind fun _ => hadd) hadd

theorem keepsName_addInterface (t : TypeName) : Keeps SameName (addInterface t) :=
  (keepsName (keeps_addConstants (ConstantPool.adds_class _))).bind fun _ => keepsName_modifyFile _

theorem keepsName_setSuperclass (t : TypeName) : Keeps SameName (setSuperclass t) :=
  (keepsName (keeps_addConstants (ConstantPool.adds_class _))).bind fun _ => keepsName_modifyFile _

end ClassUnit

namespace Session

variable {α : Type} {s s' : Session}

/-! ## Steps -/

/-- The class under construction keeps its name and the pool loads; all else stays, the label of the
action excepted. -/
structure Builds (s s' : Session) : Prop where
  pool : s.pool.Loads s'.pool
  name : s'.currentClass?.map ClassUnit.name = s.currentClass?.map ClassUnit.name
  model : s'.model = s.model
  results : s'.results = s.results

instance : IsPreorder Session Builds where
  refl s := ⟨refl_of ClassPool.Loads s.pool, rfl, rfl, rfl⟩
  trans _ _ _ hab hbc :=
    ⟨trans_of ClassPool.Loads hab.pool hbc.pool, hbc.name.trans hab.name,
      hbc.model.trans hab.model, hbc.results.trans hab.results⟩

theorem Loads.builds (h : Loads s s') : Builds s s' :=
  ⟨h.1, by rw [h.2], h.model, h.results⟩

theorem makes_of_loads {c : ClassUnit} {step : Step α} (h : Keeps Loads step) :
    Makes c step fun _ c' => c' = c ∧ True :=
  .of_keeps (h.mono fun _ _ hs => by rw [SameClass, hs.2]) .trivial

theorem builds_of_loads {step : Step α} (h : Keeps Loads step) : Keeps Builds step :=
  h.mono fun _ _ => Loads.builds

theorem loads_slot (name : String) (a : Option α) : Keeps Loads (slot name a) := by
  cases a with
  | none => exact .throw
  | some a => exact .pure

theorem loads_currentClass : Keeps Loads currentClass :=
  Keeps.get.bind fun _ => loads_slot _ _

theorem loads_scope (params : List TypeName) : Keeps Loads (scope params) :=
  loads_currentClass.bind fun _ => .pure

theorem loads_currentIsSubtype (t : TypeName) : Keeps Loads (currentIsSubtype t) :=
  loads_currentClass.bind fun _ => .ite .pure (Keeps.lift.bind fun _ => Keeps.lift.bind fun _ =>
    .anyM (fun _ => loads_onPool (ClassPool.keeps_isSubtype _ _)) _)

theorem builds_setAction (label : String) : Keeps Builds (setAction label) :=
  .modified fun s => ⟨refl_of ClassPool.Loads s.pool, rfl, rfl, rfl⟩

theorem builds_editClass {step : ClassUnit.Edit α} (h : Keeps ClassUnit.SameName step) :
    Keeps Builds (editClass step) := by
  intro s
  cases hclass : s.currentClass? with
  | none =>
    obtain ⟨e, hrun⟩ := run_currentClass_none hclass
    unfold editClass
    rw [run_bind_of_error hrun]
    exact refl_of Builds s
  | some c =>
    rw [run_editClass hclass]
    exact ⟨refl_of ClassPool.Loads s.pool,
      (congrArg some (h c)).trans (congrArg (·.map ClassUnit.name) hclass).symm, rfl, rfl⟩

end Session

/-! ## Actions -/

namespace Action

open Session ClassUnit

/-! ### What is looked up -/

theorem loads_isDeclared (m : MethodDeclaration) : Keeps Loads (isDeclared m) :=
  loads_currentClass.bind fun _ => .pure

theorem run_isDeclared {c : ClassUnit} {s : Session} (h : s.currentClass? = some c)
    (m : MethodDeclaration) :
    (isDeclared m).run.run s = (.ok (c.hasMethod m.name m.descriptor), s) :=
  run_bind_of_ok (run_currentClass h)

theorem makes_isDeclared {c : ClassUnit} (m : MethodDeclaration) :
    Makes c (isDeclared m) fun declared c' =>
      c' = c ∧ declared = c.hasMethod m.name m.descriptor :=
  .currentClass_bind (.pure ⟨rfl, rfl⟩)

theorem loads_adapt (v : Typed) (target : TypeName) :
    Keeps Loads (onPool (Binding.adapt v target)) :=
  loads_onPool (Binding.keeps_adapt v target)

theorem loads_wrapField (m : Member) (stored : Expr) (template : String) :
    Keeps Loads (wrapField m stored template) :=
  Keeps.lift.bind fun _ => (loads_scope _).bind fun _ =>
    (loads_onPool (Scope.keeps_bind _ _)).bind fun _ => loads_adapt _ _

theorem loads_fieldType (field : String) (param : TypeName) :
    Keeps Loads (fieldType field param) :=
  loads_currentClass.bind fun _ => Keeps.lift.bind fun _ => .pure

theorem loads_returnReceiver (t : TypeName) (mismatch : Error) :
    Keeps Loads (returnReceiver t mismatch) :=
  (loads_currentIsSubtype t).bind fun _ => .ite .pure .throw

theorem loads_invocations (m : MethodDeclaration) (d : InvokeDirective) (sources : List String) :
    Keeps Loads (invocations m d sources) := by
  induction sources with
  | nil => exact .pure
  | cons source rest ih =>
    refine Keeps.lift.bind fun _ => (loads_scope _).bind fun _ =>
      (loads_onPool (Scope.keeps_bind _ _)).bind fun _ => ?_
    exact .ite ((loads_adapt _ _).bind fun _ => ih.bind fun _ => .pure) (ih.bind fun _ => .pure)

theorem loads_afterInvocations (m : MethodDeclaration) (d : InvokeDirective) :
    Keeps Loads (afterInvocations m d) := by
  unfold afterInvocations
  dsimp only
  split
  · exact (loads_returnReceiver _ _).bind fun _ => .pure
  · exact .ite .throw .pure
  · exact .ite .pure .throw

/-! ### Members -/

theorem builds_addMethod (m : MethodDeclaration) (body : List Stmt) :
    Keeps Builds (addMethod m body) :=
  builds_editClass (keepsName_of_fields (keepsFields_addMethod _ _ _ _ _))

theorem builds_addField (name : String) (t : TypeName) : Keeps Builds (addField name t) :=
  (builds_of_loads loads_currentClass).bind fun _ =>
    .ite (builds_editClass (keepsName_addField _ _ _)) .pure

theorem builds_addAccessor (m : Member) : Keeps Builds (addAccessor m) := by
  refine (builds_of_loads (loads_isDeclared _)).bind fun _ =>
    .ite ((builds_of_loads loads_currentClass).bind fun _ => ?_) .pure
  dsimp only
  split
  · exact (builds_of_loads (loads_wrapField _ _ _)).bind fun _ => builds_addMethod _ _
  · exact builds_addMethod _ _

theorem builds_addMutator (field : String) (m : MethodDeclaration) :
    Keeps Builds (addMutator field m) := by
  refine (builds_of_loads (loads_isDeclared _)).bind fun _ => .ite ?_ .pure
  split
  · exact .throw
  · refine (builds_of_loads loads_currentClass).bind fun _ =>
      (builds_of_loads (loads_fieldType _ _)).bind fun _ =>
      (builds_of_loads (loads_adapt _ _)).bind fun _ => .ite (builds_addMethod _ _) ?_
    exact (builds_of_loads (loads_returnReceiver _ _)).bind fun _ => builds_addMethod _ _

theorem builds_addInvocations (m : MethodDeclaration) (d : InvokeDirective) :
    Keeps Builds (addInvocations m d) :=
  (builds_of_loads (loads_isDeclared _)).bind fun _ => .ite
    ((builds_of_loads (loads_invocations _ _ _)).bind fun _ =>
      (builds_of_loads (loads_afterInvocations _ _)).bind fun _ => builds_addMethod _ _) .pure

theorem builds_addObjectMethod (name : String) (params : List TypeName) (ret : TypeName)
    (body : TypeName → TypeName → List Stmt) :
    Keeps Builds (addObjectMethod name params ret body) :=
  (builds_of_loads loads_currentClass).bind fun _ => .ite (Keeps.lift.bind fun _ =>
    builds_editClass (keepsName_of_fields (keepsFields_addMethod _ _ _ _ _))) .pure

theorem builds_addGuards (m : MethodDeclaration) : Keeps Builds (addGuards m) :=
  (builds_of_loads (loads_onPool (Synthesis.keeps_guards m))).bind fun _ => .ite
    (builds_editClass (keepsName_of_fields (keepsFields_insertBefore _ _ _))) .pure

/-- Guards are put into the method, unless there are none. They touch no field. -/
theorem makes_addGuards {c : ClassUnit} (m : MethodDeclaration) :
    Makes c (addGuards m) fun _ c' => c' = c ∨ ∃ guards, Stmt.fieldRefsList guards = [] ∧
      c.runEdit (ClassUnit.insertBefore m.name m.descriptor guards) = (.ok (), c') :=
  .after (makes_onPool (Synthesis.ensures_guards m)) fun guards hguards =>
    .ite (fun _ => (makes_editClass _).mono fun _ _ hrun => .inr ⟨guards, hguards, hrun⟩) fun _ =>
      .pure (.inl rfl)

/-! ### Factories -/

theorem keepsName_bindFactory (p : FactoryPlan) (location implementation : TypeName) :
    Keeps SameName (bindFactory p location implementation) := by
  refine Keeps.get.bind fun _ => Keeps.lift.bind fun _ => Keeps.lift.bind fun found => ?_
  cases found with
  | none => exact (keepsName_of_fields (keepsFields_addMethod _ _ _ _ _)).bind fun _ => .pure
  | some m =>
    exact .ite .throw (.ite
      ((keepsName_of_fields (keepsFields_replaceReturns _ _ _)).bind fun _ => .pure) .pure)

/-- A factory is added, or what it returns is replaced; otherwise the class stays as it is. -/
theorem of_bindFactory {p : FactoryPlan} {location implementation : TypeName} {changed : Bool}
    {c c' : ClassUnit} (h : c.runEdit (bindFactory p location implementation) = (.ok changed, c')) :
    changed = false ∧ c' = c ∨
      changed = true ∧ ∃ op : ClassOp, c.runEdit op.step = (.ok (), c') ∧
        (op = .addMethod (AccessFlags.isPublic ||| AccessFlags.isStatic) p.directive.method p.params
            p.sourceType (makeInstance implementation p.params) ∨
          op = .replaceReturns p.directive.method (methodDescriptor p.params p.sourceType)
            (makeInstance implementation p.params)) := by
  obtain ⟨_, _, hget, hcompiled⟩ := of_run_bind_ok h
  obtain ⟨rfl, rfl⟩ := of_run_get_ok hget
  obtain ⟨_, _, hlift, hfind⟩ := of_run_bind_ok hcompiled
  obtain ⟨-, rfl⟩ := of_run_lift_ok hlift
  obtain ⟨found, _, hlift, hrest⟩ := of_run_bind_ok hfind
  obtain ⟨-, rfl⟩ := of_run_lift_ok hlift
  cases found with
  | none =>
    obtain ⟨_, _, hadd, hreturn⟩ := of_run_bind_ok hrest
    obtain ⟨hchanged, rfl⟩ := Prod.mk.inj hreturn
    exact .inr ⟨(Except.ok.inj hchanged).symm, .addMethod _ _ _ _ _, hadd, .inl rfl⟩
  | some m =>
    dsimp only at hrest
    split_ifs at hrest
    · exact absurd hrest not_run_throw_ok
    · obtain ⟨_, _, hreplace, hreturn⟩ := of_run_bind_ok hrest
      obtain ⟨hchanged, rfl⟩ := Prod.mk.inj hreturn
      exact .inr ⟨(Except.ok.inj hchanged).symm, .replaceReturns _ _ _, hreplace, .inr rfl⟩
    · obtain ⟨hchanged, rfl⟩ := Prod.mk.inj hrest
      exact .inl ⟨(Except.ok.inj hchanged).symm, rfl⟩

/-- What holds of a class, and of whatever a factory makes of it, holds after the factory was added:
in another class, it leaves the class under construction alone. -/
theorem makes_addFactory_of {p : FactoryPlan} {c : ClassUnit} {P : ClassUnit → Prop} (hsame : P c)
    (hbind : ∀ location implementation changed c',
      c.runEdit (bindFactory p location implementation) = (.ok changed, c') → P c') :
    Makes c (addFactory p) fun _ c' => P c' := by
  unfold addFactory
  refine .ite (fun _ => Makes.throw.bind (P := fun _ _ => False) fun _ _ hfalse => hfalse.elim)
    fun _ => .currentClass_bind (.ite (fun _ => ?_) fun _ => ?_)
  · rw [discard_eq]
    exact (makes_editClass _).bind fun _ c' hrun => .pure (hbind _ _ _ _ hrun)
  · rw [discard_eq, bind_assoc]
    refine .after (makes_onPool .trivial) fun _ _ => ?_
    rw [pure_bind]
    refine .after (makes_onPool .trivial) fun changed _ => .ite (fun _ => ?_) fun _ => ?_
    · refine .after (makes_onPool .trivial) fun unit _ => ?_
      exact (Makes.of_keeps (keeps_publish unit) .trivial).mono fun _ c' h => h.1 ▸ hsame
    · exact .pure hsame

end Action

/-! ## Work on a class -/

/-- Carries out actions one after the other. -/
def ActionQueue.applyAll (queue : ActionQueue) : Session.Step Unit :=
  queue.forM fun action => do
    Session.setAction action.label
    action.apply

/-- What an action makes of the class is followed by what the rest of the queue makes of that. -/
theorem ActionQueue.makes_cons {c : ClassUnit} {x : Action} {rest : ActionQueue}
    {P Q : ClassUnit → Prop} (hfirst : Session.Makes c x.apply fun _ c' => P c')
    (hrest : ∀ c', P c' → Session.Makes c' rest.applyAll fun _ c'' => Q c'') :
    Session.Makes c (ActionQueue.applyAll (x :: rest)) fun _ c' => Q c' := by
  have hlabel : Keeps Session.SameClass (Session.setAction x.label) := .modified fun _ => rfl
  exact ((Session.Makes.of_keeps hlabel .trivial).after fun _ _ => hfirst).bind fun _ => hrest

/-- The session in which the actions for a type begin. -/
def Session.start (s : Session) (d : TypeDeclaration) (unit : ClassUnit) : Session :=
  { s with currentType? := some d, currentClass? := some unit }

/-- The session after a class was published and put into the pool. -/
def Session.finish (s : Session) (built : ClassUnit) (r : ClassResult) : Session :=
  { s with
    currentType? := none, currentClass? := none, currentAction? := none
    results := s.results.put r, pool := s.pool.withUnit built }

section Realize

variable {d : TypeDeclaration} {unit built : ClassUnit} {queue : ActionQueue} {s s₁ s' : Session}
  {r : ClassResult}

/-- Work on a class succeeds if its actions do, and the class that they make can be written. -/
theorem run_realize (hactions : queue.applyAll.run.run (s.start d unit) = (.ok (), s₁))
    (hclass : s₁.currentClass? = some built) (hcompiled : built.ensureCompiled = .ok ())
    (hresult : ClassResult.ofClass built.name.text built.toBytes = .ok r) :
    (realize d unit queue).run.run s = (.ok (), s₁.finish built r) := by
  have hrest : (do
      let unit ← Session.takeClass
      Session.clear
      Session.lift unit.ensureCompiled
      Session.publish unit
      Session.onPool (ClassPool.insert unit) : Session.Step Unit).run.run s₁ =
        (.ok (), s₁.finish built r) := by
    have htake : Session.takeClass.run.run s₁ = (.ok built, { s₁ with currentClass? := none }) :=
      run_bind_of_ok (Session.run_currentClass hclass)
    rw [run_bind_of_ok htake, hcompiled]
    unfold Session.publish
    rw [hresult]
    rfl
  exact (run_bind_of_ok hactions).trans hrest

theorem of_run_realize {u : Unit} (h : (realize d unit queue).run.run s = (.ok u, s')) :
    ∃ s₁ built r, queue.applyAll.run.run (s.start d unit) = (.ok (), s₁) ∧
      s₁.currentClass? = some built ∧ built.ensureCompiled = .ok () ∧
      ClassResult.ofClass built.name.text built.toBytes = .ok r ∧ s' = s₁.finish built r := by
  obtain ⟨_, _, htype, hafter⟩ := of_run_bind_ok h
  obtain rfl := of_run_modify_ok htype
  obtain ⟨_, _, hunit, hqueue⟩ := of_run_bind_ok hafter
  obtain rfl := of_run_modify_ok hunit
  obtain ⟨_, s₁, hactions, hrest⟩ := of_run_bind_ok hqueue
  obtain ⟨built, s₂, htake, hend⟩ := of_run_bind_ok hrest
  obtain ⟨current, s₃, hcurrent, hunset⟩ := of_run_bind_ok htake
  obtain ⟨hclass, hs₃⟩ := Session.of_run_currentClass hcurrent
  obtain ⟨_, s₄, hmodify, hreturn⟩ := of_run_bind_ok hunset
  obtain rfl := hs₃
  obtain rfl := of_run_modify_ok hmodify
  obtain ⟨hbuilt, rfl⟩ := Prod.mk.inj hreturn
  obtain rfl := Except.ok.inj hbuilt
  obtain ⟨_, _, hclear, hcheck⟩ := of_run_bind_ok hend
  obtain rfl := of_run_modify_ok hclear
  obtain ⟨_, _, hlift, hoffer⟩ := of_run_bind_ok hcheck
  obtain ⟨hcompiled, rfl⟩ := of_run_lift_ok hlift
  obtain ⟨_, _, hpublish, hinsert⟩ := of_run_bind_ok hoffer
  obtain ⟨r, _, hoffered, hput⟩ := of_run_bind_ok hpublish
  obtain ⟨hresult, rfl⟩ := of_run_lift_ok hoffered
  obtain rfl := of_run_modify_ok hput
  obtain ⟨-, rfl⟩ := Prod.mk.inj hinsert
  exact ⟨_, _, r, hactions, hclass, hcompiled, hresult, rfl⟩

end Realize

end ClassSynth

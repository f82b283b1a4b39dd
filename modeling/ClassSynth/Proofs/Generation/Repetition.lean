import ClassSynth.Proofs.ClassUnit.Fields
import ClassSynth.Proofs.Generation.Building
import ClassSynth.Proofs.Generation.Queue
import ClassSynth.Proofs.Output.Results
import Mathlib.Logic.Relation

/-!
# Repeated runs

An action looks whether its member is there and adds it otherwise. So once a queue was carried out
on a class, the class has the members of all actions, and the same queue adds nothing more. Guards
are different: nothing tells whether a method has its guards already.

Main result: `realize_again`. After work on a class has succeeded, the same work on the resulting
class puts the guards in again and does nothing else. If there are no guards, it succeeds and leaves
the class as it is.
-/

namespace ClassSynth

namespace Action

open Session ClassUnit

variable {c c' : ClassUnit} {x : Action}

/-- The class has the member that the action adds. -/
def Provided (c : ClassUnit) : Action → Prop
  | field name _ => c.hasField name = true
  | accessor m => c.hasMethod m.accessor.name m.accessor.descriptor = true
  | mutator _ m => c.hasMethod m.name m.descriptor = true
  | invoke m _ => c.hasMethod m.name m.descriptor = true
  | constructor plan _ => c.hasConstructor plan.signature.params = true
  | factory _ => False
  | equals .. => c.hasMethod "equals" (methodDescriptor [.object] .boolean) = true
  | hashCode .. => c.hasMethod "hashCode" (methodDescriptor [] .int) = true
  | display .. => c.hasMethod "toString" (methodDescriptor [] .string) = true
  | nonNull _ => True

theorem Provided.keep (h : x.Provided c) (hkeeps : c.KeepsMembers c') : x.Provided c' := by
  cases x with
  | field => exact hkeeps.hasField h
  | factory => exact h
  | nonNull => trivial
  | _ => exact hkeeps.hasMethod h

/-! ## The second run -/

/-- An action whose member is there does nothing. -/
theorem run_apply_of_provided {s : Session} (hs : s.currentClass? = some c) (h : x.Provided c)
    (hguards : ∀ m, x = .nonNull m → Synthesis.guardedParams m = []) :
    x.apply.run.run s = (.ok (), s) := by
  have hdeclared : ∀ {m : MethodDeclaration} {step : Step Unit},
      c.hasMethod m.name m.descriptor = true →
      (do if !(← isDeclared m) then step : Step Unit).run.run s = (.ok (), s) := by
    intro m step hm
    rw [run_bind_of_ok (run_isDeclared hs m), hm]
    rfl
  have hobject : ∀ {name : String} {params : List TypeName} {ret : TypeName}
      {body : TypeName → TypeName → List Stmt},
      c.hasMethod name (methodDescriptor params ret) = true →
      (addObjectMethod name params ret body).run.run s = (.ok (), s) := by
    intro name params ret body hm
    refine (run_bind_of_ok (run_currentClass hs)).trans ?_
    rw [hm]
    rfl
  cases x with
  | field name t =>
    refine (run_bind_of_ok (run_currentClass hs)).trans ?_
    rw [show c.hasField name = true from h]
    rfl
  | accessor m => exact hdeclared h
  | mutator field m => exact hdeclared h
  | invoke m d => exact hdeclared h
  | constructor plan factory =>
    refine (run_bind_of_ok (run_currentClass hs)).trans ?_
    dsimp only
    rw [show c.hasConstructor plan.signature.params = true from h]
    rfl
  | factory plan => exact h.elim
  | equals =>
    rw [apply]
    exact hobject h
  | hashCode =>
    rw [apply]
    exact hobject h
  | display =>
    rw [apply]
    exact hobject h
  | nonNull m =>
    have hnone : (Synthesis.guards m).run.run s.pool = (.ok [], s.pool) := by
      rw [Synthesis.guards, hguards m rfl]
      rfl
    have hpool : (onPool (Synthesis.guards m)).run.run s = (.ok [], s) := by
      rw [run_onPool, ClassPool.run, hnone]
    exact run_bind_of_ok hpool

/-! ## The first run -/

/-- If the step succeeds, the class keeps its members and has a method of the key. -/
def AddsMethod (c : ClassUnit) (name descriptor : String) (step : Step Unit) : Prop :=
  Makes c step fun _ c' =>
    c.KeepsMembers c' ∧ (c'.file.pool.Indexable → c'.hasMethod name descriptor = true)

namespace AddsMethod

variable {α : Type} {name descriptor : String}

/-- Classes are looked up before the method is added. -/
theorem after {step : Step α} {f : α → Step Unit} (hstep : Keeps Loads step)
    (hf : ∀ a, AddsMethod c name descriptor (f a)) : AddsMethod c name descriptor (step >>= f) :=
  Makes.after (makes_of_loads hstep) fun a _ => hf a

theorem addMethod (m : MethodDeclaration) (body : List Stmt) :
    AddsMethod c m.name m.descriptor (Action.addMethod m body) :=
  (makes_editClass _).mono fun _ _ => keepsMembers_addMethod

/-- A method that is there is not added. -/
theorem unlessDeclared {m : MethodDeclaration} {step : Step Unit}
    (hstep : AddsMethod c m.name m.descriptor step) :
    AddsMethod c m.name m.descriptor (do if !(← isDeclared m) then step) := by
  refine Makes.after (makes_isDeclared m) fun declared hdeclared =>
    .ite (fun _ => hstep) fun h => ?_
  refine .pure ⟨refl_of KeepsMembers c, fun _ => ?_⟩
  simpa [hdeclared] using h

end AddsMethod

theorem adds_addAccessor (m : Member) :
    AddsMethod c m.accessor.name m.accessor.descriptor (addAccessor m) := by
  refine .unlessDeclared (.after loads_currentClass fun owner => ?_)
  dsimp only
  split
  · exact .after (loads_wrapField _ _ _) fun _ => .addMethod _ _
  · exact .addMethod _ _

theorem adds_addMutator (field : String) (m : MethodDeclaration) :
    AddsMethod c m.name m.descriptor (addMutator field m) := by
  refine .unlessDeclared ?_
  split
  · exact Makes.throw
  · refine .after loads_currentClass fun _ => .after (loads_fieldType _ _) fun _ =>
      .after (loads_adapt _ _) fun _ => Makes.ite (fun _ => AddsMethod.addMethod _ _) fun _ => ?_
    exact AddsMethod.after (loads_returnReceiver _ _) fun _ => .addMethod _ _

theorem adds_addInvocations (m : MethodDeclaration) (d : InvokeDirective) :
    AddsMethod c m.name m.descriptor (addInvocations m d) :=
  .unlessDeclared <| .after (loads_invocations _ _ _) fun _ =>
    .after (loads_afterInvocations _ _) fun _ => .addMethod _ _

theorem adds_addObjectMethod (name : String) (params : List TypeName) (ret : TypeName)
    (body : TypeName → TypeName → List Stmt) :
    AddsMethod c name (methodDescriptor params ret) (addObjectMethod name params ret body) := by
  refine Makes.currentClass_bind <|
    .ite (fun _ => .after makes_lift fun superclass _ => ?_) fun h => ?_
  · exact (makes_editClass _).mono fun _ _ => keepsMembers_addMethod
  · exact .pure ⟨refl_of KeepsMembers c, fun _ => by simpa using h⟩

theorem keeps_addFactory (p : FactoryPlan) :
    Makes c (addFactory p) fun _ c' => c.KeepsMembers c' := by
  refine makes_addFactory_of (refl_of KeepsMembers c) fun location implementation changed c' h => ?_
  obtain ⟨-, rfl⟩ | ⟨-, op, hrun, -⟩ := of_bindFactory h
  · exact refl_of KeepsMembers c'
  · exact .of_step hrun

theorem adds_addConstructor (plan : ConstructorPlan) (factory : Option FactoryBinding) :
    AddsMethod c constructorName (methodDescriptor plan.signature.params .void)
      (addConstructor plan factory) := by
  refine Makes.currentClass_bind <|
    .ite (fun _ => .after makes_lift fun superclass _ => ?_) fun h => ?_
  · refine (makes_editClass _).bind fun _ c₁ hrun => ?_
    obtain ⟨hkeeps, hadded⟩ := keepsMembers_addMethod hrun
    cases factory with
    | none => exact .pure ⟨hkeeps, hadded⟩
    | some f =>
      refine (keeps_addFactory _).mono fun _ c' hfactory => ?_
      refine ⟨trans_of KeepsMembers hkeeps hfactory, fun hindexable => hfactory.hasMethod ?_⟩
      exact hadded (hfactory.pool.indexable hindexable)
  · exact .pure ⟨refl_of KeepsMembers c, fun _ => by simpa [hasConstructor] using h⟩

theorem keepsMembers_insertBefore {name descriptor : String} {guards : List Stmt}
    (h : c.runEdit (ClassUnit.insertBefore name descriptor guards) = (.ok (), c')) :
    c.KeepsMembers c' := by
  have hstep : c.runEdit (ClassOp.insertBefore name descriptor guards).step = (.ok (), c') := h
  exact .of_step hstep

/-- A planned action that succeeds leaves a class that has its member. -/
theorem makes_apply_provided {d : TypeDeclaration} (hx : x.PlannedIn d) :
    Makes c x.apply fun _ c' =>
      c.KeepsMembers c' ∧ (c'.file.pool.Indexable → x.Provided c') := by
  cases hx with
  | method h =>
    cases h with
    | field name t =>
      refine Makes.currentClass_bind (.ite (fun _ => ?_) fun h => ?_)
      · exact (makes_editClass _).mono fun _ _ => keepsMembers_addField
      · exact .pure ⟨refl_of KeepsMembers c, fun _ => by simpa [Provided] using h⟩
    | accessor => exact adds_addAccessor _
    | mutator => exact adds_addMutator _ _
    | invoke => exact adds_addInvocations _ _
    | nonNull =>
      refine (makes_addGuards _).mono fun _ c' h => ⟨?_, fun _ => trivial⟩
      obtain rfl | ⟨guards, -, hrun⟩ := h
      · exact refl_of KeepsMembers c'
      · exact keepsMembers_insertBefore hrun
  | constructor plan => exact adds_addConstructor _ _
  | equals =>
    rw [apply]
    exact adds_addObjectMethod _ _ _ _
  | hashCode =>
    rw [apply]
    exact adds_addObjectMethod _ _ _ _
  | display =>
    rw [apply]
    exact adds_addObjectMethod _ _ _ _

/-- If the member of an action is there, at most guards are added. -/
theorem makes_apply_again (h : x.Provided c) :
    Makes c x.apply fun _ c' => c' = c ∨ ∃ m guards, x = .nonNull m ∧
      c.runEdit (ClassUnit.insertBefore m.name m.descriptor guards) = (.ok (), c') := by
  by_cases hguard : ∃ m, x = .nonNull m
  · obtain ⟨m, rfl⟩ := hguard
    exact (makes_addGuards m).mono fun _ _ h => h.imp_right fun ⟨guards, _, hrun⟩ =>
      ⟨m, guards, rfl, hrun⟩
  · intro s a s' hs hrun
    rw [run_apply_of_provided hs h fun m hm => absurd ⟨m, hm⟩ hguard] at hrun
    obtain ⟨-, rfl⟩ := Prod.mk.inj hrun
    exact ⟨c, hs, .inl rfl⟩

end Action

/-! ## Queues -/

namespace ActionQueue

open Session ClassUnit

variable {c c' : ClassUnit} {q : ActionQueue}

/-- Guards of the queue are put into a method. -/
def InsertsGuards (q : ActionQueue) (c c' : ClassUnit) : Prop :=
  ∃ m guards, Action.nonNull m ∈ q ∧
    c.runEdit (ClassUnit.insertBefore m.name m.descriptor guards) = (.ok (), c')

theorem keepsMembers_of_inserts (h : Relation.ReflTransGen q.InsertsGuards c c') :
    c.KeepsMembers c' := by
  induction h with
  | refl => exact refl_of KeepsMembers c
  | tail _ hlast ih =>
    obtain ⟨m, guards, -, hrun⟩ := hlast
    exact trans_of KeepsMembers ih (Action.keepsMembers_insertBefore hrun)

/-- After a planned queue was carried out, the class has all members that the queue adds. -/
theorem makes_applyAll_provided {d : TypeDeclaration} (hq : ∀ x ∈ q, x.PlannedIn d) :
    Makes c (applyAll q) fun _ c' =>
      c.KeepsMembers c' ∧ (c'.file.pool.Indexable → ∀ x ∈ q, x.Provided c') := by
  induction q generalizing c with
  | nil => exact .pure ⟨refl_of KeepsMembers c, fun _ x hx => nomatch hx⟩
  | cons x q ih =>
    refine makes_cons (Action.makes_apply_provided (hq x List.mem_cons_self))
      fun c₁ ⟨hkeeps, hprovided⟩ => ?_
    refine (ih fun y hy => hq y (List.mem_cons_of_mem _ hy)).mono fun _ c' h => ?_
    refine ⟨trans_of KeepsMembers hkeeps h.1, fun hindexable => List.forall_mem_cons.mpr ⟨?_, ?_⟩⟩
    · exact (hprovided (h.1.pool.indexable hindexable)).keep h.1
    · exact h.2 hindexable

/-- On a class with all members, a queue puts guards in and does nothing else. -/
theorem makes_applyAll_again {again : ActionQueue} (hq : ∀ x ∈ again, x.Provided c)
    (hagain : again ⊆ q) :
    Makes c (applyAll again) fun _ c' => Relation.ReflTransGen q.InsertsGuards c c' := by
  induction again generalizing c with
  | nil => exact .pure .refl
  | cons x rest ih =>
    refine makes_cons (Action.makes_apply_again (hq x List.mem_cons_self)) fun c₁ hc₁ => ?_
    have hto : Relation.ReflTransGen q.InsertsGuards c c₁ := by
      obtain rfl | ⟨m, guards, rfl, hrun⟩ := hc₁
      · exact .refl
      · exact .single ⟨m, guards, hagain List.mem_cons_self, hrun⟩
    refine (ih (fun y hy => ?_) fun y hy => hagain (List.mem_cons_of_mem _ hy)).mono
      fun _ _ h => hto.trans h
    exact (hq y (List.mem_cons_of_mem _ hy)).keep (keepsMembers_of_inserts hto)

/-- Without guards, the queue succeeds on such a class and leaves it alone. -/
theorem run_applyAll_of_provided {s : Session} (hs : s.currentClass? = some c)
    (hq : ∀ x ∈ q, x.Provided c) (hguards : ∀ m, .nonNull m ∈ q → Synthesis.guardedParams m = []) :
    ∃ label, (applyAll q).run.run s = (.ok (), { s with currentAction? := label }) := by
  induction q generalizing s with
  | nil => exact ⟨s.currentAction?, rfl⟩
  | cons x q ih =>
    let s₁ : Session := { s with currentAction? := some x.label }
    have hfirst : (do setAction x.label; x.apply : Step Unit).run.run s = (.ok (), s₁) :=
      Action.run_apply_of_provided (s := s₁) hs (hq x List.mem_cons_self)
        fun m hm => hguards m (hm ▸ List.mem_cons_self)
    obtain ⟨label, hrest⟩ := ih (s := s₁) hs (fun y hy => hq y (List.mem_cons_of_mem _ hy))
      fun m hm => hguards m (List.mem_cons_of_mem _ hm)
    exact ⟨label, (run_bind_of_ok hfirst).trans hrest⟩

end ActionQueue

/-- **Repeated runs.** The class that a planned queue makes is kept in the pool. The same queue puts
its guards into that class again, if it succeeds, and does nothing else. If it has no guards, it
succeeds, and the same class is kept. -/
theorem realize_again {d : TypeDeclaration} {c : ClassUnit} {q : ActionQueue} {s s' : Session}
    {u : Unit} (hq : ∀ x ∈ q, x.PlannedIn d) (hrun : s.run (realize d c q) = (.ok u, s')) :
    ∃ built, s'.pool.cached? c.name.text = some built ∧
      (∀ s₁ s₂ : Session, s₁.run (realize d built q) = (.ok (), s₂) →
        ∃ again, s₂.pool.cached? c.name.text = some again ∧
          Relation.ReflTransGen q.InsertsGuards built again) ∧
      ((∀ m, .nonNull m ∈ q → Synthesis.guardedParams m = []) →
        ∀ s₁ : Session, ∃ s₂, s₁.run (realize d built q) = (.ok (), s₂) ∧
          s₂.pool.cached? c.name.text = some built) := by
  obtain ⟨s₀, built, r, hactions, hclass, hcompiled, hresult, rfl⟩ := of_run_realize hrun
  obtain ⟨_, hbuilt, hkeeps, hprovided⟩ :=
    ActionQueue.makes_applyAll_provided hq _ _ s₀ rfl hactions
  obtain rfl := Option.some.inj (hclass.symm.trans hbuilt)
  have hbytes := (ClassResult.splitName_of_ofClass hresult).2
  have hprovided := hprovided (ClassUnit.indexable_of_toBytes hbytes)
  refine ⟨built, ?_, fun s₁ s₂ hagain => ?_, fun hguards s₁ => ?_⟩
  · exact hkeeps.name ▸ ClassPool.cached_withUnit_self
  · obtain ⟨s₃, again, r', hactions', hclass', -, -, rfl⟩ := of_run_realize hagain
    obtain ⟨_, hagain', hinserts⟩ :=
      ActionQueue.makes_applyAll_again hprovided (List.Subset.refl q) _ _ s₃ rfl hactions'
    obtain rfl := Option.some.inj (hclass'.symm.trans hagain')
    have hname : again.name = c.name :=
      (ActionQueue.keepsMembers_of_inserts hinserts).name.trans hkeeps.name
    exact ⟨again, hname ▸ ClassPool.cached_withUnit_self, hinserts⟩
  · obtain ⟨label, hactions'⟩ :=
      ActionQueue.run_applyAll_of_provided (s := s₁.start d built) rfl hprovided hguards
    exact ⟨_, run_realize hactions' rfl hcompiled hresult,
      hkeeps.name ▸ ClassPool.cached_withUnit_self⟩

/-! ### A field for an accessor that is there -/

/-- A class with the native method `java.lang.String getName()`. -/
def namedImpl : ClassUnit where
  name := ⟨"demo.PersonImpl"⟩
  file := {
    major := 52, flags := 0x21, thisClass := 2, superClass := 4
    pool := .pushAll .empty [.utf8 "demo/PersonImpl", .classRef 1, .utf8 "java/lang/Object",
      .classRef 3, .utf8 "getName", .utf8 "()Ljava/lang/String;"]
    methods := [{ flags := 0x101, name := 5, descriptor := 6 }] }

def nameField : Action := .field "name" .string

def nameGetter : Action := .accessor (.ofAccessor "name" TypeDeclaration.nameAccessor)

/-- The class with the field that it lacks. -/
def namedBuilt : ClassUnit :=
  (namedImpl.runEdit (ClassUnit.addField AccessFlags.isPrivate "name" .string)).2

/-- For any type, the two actions add the field to the class with the accessor. -/
theorem run_realize_namedImpl (d : TypeDeclaration) (s : Session) :
    ∃ s', s.run (realize d namedImpl [nameField, nameGetter]) = (.ok (), s') ∧
      s'.pool.cached? "demo.PersonImpl" = some namedBuilt := by
  have hadd : namedImpl.runEdit (ClassUnit.addField AccessFlags.isPrivate "name" .string) =
      (.ok (), namedBuilt) := rfl
  let done (x : Action) : Session :=
    { s with
      currentType? := some d, currentClass? := some namedBuilt, currentAction? := some x.label }
  have hactions : (ActionQueue.applyAll [nameField, nameGetter]).run.run
      (s.start d namedImpl) = (.ok (), done nameGetter) := by
    have hfield : (do Session.setAction nameField.label
                      nameField.apply : Session.Step Unit).run.run
        (s.start d namedImpl) = (.ok (), done nameField) := rfl
    have haccessor : namedImpl.hasMethod "getName" "()Ljava/lang/String;" = true := by decide
    have hprovided : nameGetter.Provided namedBuilt :=
      (ClassUnit.keepsMembers_addField hadd).1.hasMethod haccessor
    have hgetter : (do Session.setAction nameGetter.label
                       nameGetter.apply : Session.Step Unit).run.run (done nameField) =
        (.ok (), done nameGetter) :=
      Action.run_apply_of_provided (s := done nameGetter) rfl hprovided fun m hm => by
        simp [nameGetter] at hm
    exact (run_bind_of_ok hfield).trans (run_bind_of_ok hgetter)
  have hcount : namedBuilt.file.pool.count ≤ 65535 := by
    have hfirst := namedImpl.file.pool.size_add_le (.utf8 "name")
    have hsecond := (namedImpl.file.pool.add (.utf8 "name")).2.size_add_le
      (.utf8 "Ljava/lang/String;")
    have hpool : namedBuilt.file.pool = ((namedImpl.file.pool.add (.utf8 "name")).2.add
      (.utf8 "Ljava/lang/String;")).2 := rfl
    have hsize : namedImpl.file.pool.slots.size = 6 := rfl
    rw [hpool, ConstantPool.count]
    omega
  obtain ⟨bytes, hbytes⟩ := ClassUnit.exists_toBytes hcount (by decide)
  have hresult : ClassResult.ofClass namedBuilt.name.text namedBuilt.toBytes =
      .ok ⟨"demo", "PersonImpl", bytes⟩ := by
    have hname : namedBuilt.name = ⟨"demo.PersonImpl"⟩ := rfl
    rw [hname, hbytes]
    rfl
  exact ⟨_, run_realize hactions rfl rfl hresult, ClassPool.cached_withUnit_self⟩

/-- The first run adds the field to the class with the accessor, and the second one nothing. -/
theorem realize_again_namedImpl :
    ∃ s : Session, ∃ s' built,
      s.run (realize TypeDeclaration.trimmedPerson namedImpl [nameField, nameGetter]) =
          (.ok (), s') ∧
        s'.pool.cached? "demo.PersonImpl" = some built ∧ built.file.fields.length = 1 ∧
        ∀ s₁ : Session, ∃ s₂,
          s₁.run (realize TypeDeclaration.trimmedPerson built [nameField, nameGetter]) =
              (.ok (), s₂) ∧
            s₂.pool.cached? "demo.PersonImpl" = some built := by
  let s : Session := { model := {}, pool := { major := 52 } }
  obtain ⟨s', hrun, hbuilt⟩ := run_realize_namedImpl TypeDeclaration.trimmedPerson s
  have hplanned : ∀ x ∈ [nameField, nameGetter], x.PlannedIn TypeDeclaration.trimmedPerson := by
    intro x hx
    obtain rfl | hx := List.mem_cons.mp hx
    · exact .method (m := TypeDeclaration.nameAccessor) (.field "name" .string)
    · obtain rfl := List.mem_singleton.mp hx
      exact .method (.accessor "name")
  obtain ⟨kept, hkept, -, hagain⟩ := realize_again hplanned hrun
  obtain rfl := Option.some.inj (hkept.symm.trans hbuilt)
  exact ⟨s, s', namedBuilt, hrun, hbuilt, rfl,
    hagain fun m hm => by simp [nameField, nameGetter] at hm⟩

end ClassSynth

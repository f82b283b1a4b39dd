import ClassSynth.Proofs.BreadthFirst
import ClassSynth.Proofs.Generation.Session
import ClassSynth.Proofs.Generation.Queue

/-!
# Methods that a type inherits

A type and the types above it are visited level by level, and a method with a body hides the open
methods that are met after it. Among the types of one level, the class on the path of superclasses
comes first. So it hides the open methods of all types that are as far away as it is or farther.

Main result: `TypeDeclaration.plan_inherited`. If a method is planned although a class on the path
of superclasses implements it, then a type nearer than that class leaves it open again.
-/

namespace ClassSynth

/-! ## Declared methods -/

namespace TypeDeclaration

/-- The type has a method of this name and descriptor with a body, for objects. -/
def Implements (d : TypeDeclaration) (key : String) : Prop :=
  ∃ m ∈ d.methods, m.isAbstract = false ∧ m.isStatic = false ∧ m.key = key

/-- The type has the method without a body, for objects. -/
def LeavesOpen (d : TypeDeclaration) (m : MethodDeclaration) : Prop :=
  m ∈ d.methods ∧ m.isAbstract = true ∧ m.isStatic = false

end TypeDeclaration

/-- The accessor, mutator or method of invocations that an action adds. -/
def Action.method? : Action → Option MethodDeclaration
  | accessor member => some member.accessor
  | mutator _ m => some m
  | invoke m _ => some m
  | _ => none

namespace Session

/-- The declarations of the direct supertypes, the superclass first. -/
def parents (s : Session) (d : TypeDeclaration) : List TypeDeclaration :=
  d.supertypes.filterMap s.declaration?

/-- The declaration of the superclass, if there is one. -/
def superclass (s : Session) (d : TypeDeclaration) : List TypeDeclaration :=
  (d.superclass.bind s.declaration?).toList

theorem firstStepsTo_parents {s : Session} {d c : TypeDeclaration} {n : Nat}
    (h : StepsTo s.superclass d n c) : FirstStepsTo s.parents d n c := by
  induction h with
  | refl => exact .refl
  | @step n b c _ hc ih =>
    refine ih.step ?_
    obtain ⟨t, hsuper, ht⟩ := Option.bind_eq_some_iff.mp (Option.mem_toList.mp hc)
    rw [parents, TypeDeclaration.supertypes, hsuper, Option.toList_some, List.singleton_append,
      List.filterMap_cons_some ht, List.head?_cons]

end Session

/-! ## Planned methods -/

namespace Analysis

variable {a : Analysis} {R : MethodDeclaration → Prop} {m : MethodDeclaration}

/-- All planned methods have the property. -/
def Plans (a : Analysis) (R : MethodDeclaration → Prop) : Prop :=
  ∀ x ∈ a.queue, ∀ m, x.method? = some m → R m

theorem Plans.mono {R' : MethodDeclaration → Prop} (h : a.Plans R) (hR : ∀ m, R m → R' m) :
    a.Plans R' :=
  fun x hx m hm => hR m (h x hx m hm)

/-- A method is classified as what it is itself. -/
theorem Plans.classify (h : a.Plans R) (fluent : Bool) (hm : R m) :
    (a.classify fluent m).Plans R := by
  intro x hx m' hm'
  obtain hx | hx := of_mem_classify hx
  · have hself : ∀ m', some m = some m' → R m' := fun m' h => Option.some.inj h ▸ hm
    cases hx with
    | field => cases hm'
    | nonNull => cases hm'
    | accessor => exact hself m' hm'
    | mutator => exact hself m' hm'
    | invoke => exact hself m' hm'
  · exact h x hx m' hm'

end Analysis

/-! ## The visit -/

/-- One of the visited types leaves the method open, and neither it nor one that was visited before
it implements the method. -/
def MetFirst (visited : List TypeDeclaration) (m : MethodDeclaration) : Prop :=
  ∃ pre d, pre ++ [d] <+: visited ∧ d.LeavesOpen m ∧ ∀ t ∈ pre ++ [d], ¬ t.Implements m.key

namespace Survey

variable {s : Session} {d e : TypeDeclaration} {visited rest : List TypeDeclaration} {w : Survey}

/-- The methods with a body are noted, and those planned were met first. -/
structure Records (w : Survey) (visited : List TypeDeclaration) : Prop where
  bodies : ∀ t ∈ visited, ∀ key, t.Implements key → key ∈ w.seenMethods
  plans : w.analysis.Plans (MetFirst visited)

theorem Records.noteBodies (h : w.Records visited) (e : TypeDeclaration) :
    (w.noteBodies e).Records (visited ++ [e]) := by
  refine ⟨fun t ht key hkey => ?_, h.plans.mono ?_⟩
  · obtain ht | ht := List.mem_append.mp ht
    · exact List.mem_append_left _ (h.bodies t ht key hkey)
    · obtain rfl := List.mem_singleton.mp ht
      obtain ⟨m, hm, habstract, hstatic, rfl⟩ := hkey
      refine List.mem_append_right _ (List.mem_map_of_mem (List.mem_filter.mpr ⟨hm, ?_⟩))
      simp [habstract, hstatic]
  · rintro m ⟨pre, d, hpre, hm⟩
    exact ⟨pre, d, hpre.trans (List.prefix_append _ _), hm⟩

/-- An open method is planned only if nothing hides it. -/
theorem Records.visitMethod (fluent : Bool) (h : w.Records (visited ++ [e]))
    {m : MethodDeclaration} (hm : e.LeavesOpen m) :
    (w.visitMethod fluent m).Records (visited ++ [e]) := by
  unfold Survey.visitMethod
  split_ifs with hseen hexclude
  · exact h
  · exact ⟨fun t ht key hkey => List.mem_append_left _ (h.bodies t ht key hkey), h.plans⟩
  · refine ⟨fun t ht key hkey => List.mem_append_left _ (h.bodies t ht key hkey), ?_⟩
    refine h.plans.classify fluent ⟨visited, e, List.prefix_rfl, hm, fun t ht himpl => ?_⟩
    exact hseen (List.contains_iff_mem.mpr (h.bodies t ht m.key himpl))

theorem Records.visitMethods (fluent : Bool) (h : w.Records visited) (e : TypeDeclaration) :
    (w.visitMethods fluent e).Records (visited ++ [e]) := by
  refine List.foldlRecOn (motive := fun w : Survey => w.Records (visited ++ [e])) _ _
    (h.noteBodies e) fun w hw m hm => hw.visitMethod fluent ?_
  simp only [TypeDeclaration.abstractMethods, List.mem_filter, Bool.not_eq_true'] at hm
  exact ⟨hm.1.1, hm.1.2, hm.2⟩

/-- The state of the visit of a type: `visited` are the types so far, each the one of its name. -/
structure Visiting (s : Session) (d : TypeDeclaration) (visited : List TypeDeclaration)
    (w : Survey) : Prop where
  order : Visits s.parents [d] w.worklist visited
  known : ∀ e, e ∈ visited ∨ e ∈ w.worklist → s.declaration? ⟨e.qualifiedName⟩ = some e
  names : w.seenTypes = visited.map (·.qualifiedName)
  records : w.Records visited

theorem Visiting.initial (hd : s.declaration? ⟨d.qualifiedName⟩ = some d) :
    Visiting s d [] { worklist := [d] } where
  order := .initial
  known e he := by
    obtain he | he := he
    · cases he
    · exact List.mem_singleton.mp he ▸ hd
  names := rfl
  records := ⟨fun _ ht => (nomatch ht), fun _ hx => (nomatch hx)⟩

/-- A type is visited before if and only if its name was seen. -/
theorem Visiting.mem_iff (h : Visiting s d visited w) (he : e ∈ w.worklist) :
    e.qualifiedName ∈ w.seenTypes ↔ e ∈ visited := by
  rw [h.names]
  refine ⟨fun hname => ?_, List.mem_map_of_mem⟩
  obtain ⟨t, ht, hname⟩ := List.mem_map.mp hname
  have hknown := h.known t (.inl ht)
  rw [hname, h.known e (.inr he)] at hknown
  exact Option.some.inj hknown ▸ ht

theorem Visiting.skip (h : Visiting s d visited w) (hw : w.worklist = e :: rest)
    (he : e ∈ visited) : Visiting s d visited { w with worklist := rest } where
  order := (hw ▸ h.order).skip he
  known t ht := h.known t (ht.imp_right fun hrest => hw ▸ List.mem_cons_of_mem _ hrest)
  names := h.names
  records := .mk h.records.bodies h.records.plans

/-- A visit of methods leaves the types alone. -/
theorem visitMethods_types (fluent : Bool) (w : Survey) (e : TypeDeclaration) :
    (w.visitMethods fluent e).worklist = w.worklist ∧
      (w.visitMethods fluent e).seenTypes = w.seenTypes := by
  refine List.foldlRecOn (motive := fun w' : Survey =>
    w'.worklist = w.worklist ∧ w'.seenTypes = w.seenTypes) _ _ ⟨rfl, rfl⟩ fun w' hw' m _ => ?_
  unfold visitMethod
  split_ifs <;> exact hw'

theorem Visiting.visit (fluent : Bool) (hfiles : s.pool.NamesFiles) (h : Visiting s d visited w)
    (hw : w.worklist = e :: rest) (he : e ∉ visited) {w' : Survey}
    (hw' : w' = visitMethods fluent
      { w with worklist := rest, seenTypes := w.seenTypes ++ [e.qualifiedName] } e) :
    Visiting s d (visited ++ [e]) { w' with worklist := w'.worklist ++ s.parents e } := by
  obtain ⟨hworklist, hseen⟩ := visitMethods_types fluent
    { w with worklist := rest, seenTypes := w.seenTypes ++ [e.qualifiedName] } e
  rw [← hw'] at hworklist hseen
  have hnoted : Records
      { w with worklist := rest, seenTypes := w.seenTypes ++ [e.qualifiedName] } visited :=
    ⟨h.records.bodies, h.records.plans⟩
  have hrecords : w'.Records (visited ++ [e]) := hw' ▸ hnoted.visitMethods fluent e
  refine ⟨?_, fun t ht => ?_, ?_, hrecords.bodies, hrecords.plans⟩
  · exact hworklist ▸ (hw ▸ h.order).visit he
  · have hqueue : ∀ t, t ∈ e :: rest → s.declaration? ⟨t.qualifiedName⟩ = some t :=
      fun t ht => h.known t (.inr (hw ▸ ht))
    simp only [hworklist, List.mem_append, List.mem_singleton] at ht
    obtain (ht | rfl) | ht | ht := ht
    · exact h.known t (.inl ht)
    · exact hqueue t List.mem_cons_self
    · exact hqueue t (List.mem_cons_of_mem _ ht)
    · obtain ⟨name, -, hname⟩ := List.mem_filterMap.mp ht
      rw [Session.qualifiedName_of_declaration? hfiles hname]
      exact hname
  · rw [hseen, List.map_append, h.names, List.map_singleton]

/-! ### Steps of the visit -/

theorem within_queueSupertype (s : Session) (w : Survey) (t : TypeName) :
    Within (Session.Loads s) (queueSupertype w t) fun w' =>
      w' = { w with worklist := w.worklist ++ (s.declaration? t).toList } := by
  refine (Session.within_declarationOf s t).bind fun found hfound => ?_
  cases found with
  | some parent => exact .pure (by simp [hfound])
  | none =>
    refine Within.get.bind fun _ _ => .ite (fun _ => .throw) fun _ => .pure ?_
    simp [hfound]

theorem within_queueSupertypes (s : Session) (w : Survey) (e : TypeDeclaration) :
    Within (Session.Loads s) (e.supertypes.foldlM queueSupertype w) fun w' =>
      w' = { w with worklist := w.worklist ++ s.parents e } := by
  have hstart : w = { w with worklist := w.worklist ++ [].filterMap s.declaration? } := by simp
  refine Within.foldlM (R := fun done b =>
    b = { w with worklist := w.worklist ++ done.filterMap s.declaration? })
    (fun done b t _ hb => ?_) [] hstart
  refine (within_queueSupertype s b t).mono fun b' hb' => ?_
  subst hb hb'
  simp only [List.filterMap_append, List.append_assoc, List.filterMap_cons, List.filterMap_nil]
  cases s.declaration? t <;> rfl

theorem within_visitType (fluent : Bool) (hfiles : s.pool.NamesFiles)
    (h : Visiting s d visited w) (hw : w.worklist = e :: rest) :
    Within (Session.Loads s) (visitType fluent { w with worklist := rest } e) fun w' =>
      ∃ visited', Visiting s d visited' w' := by
  have hmem : e ∈ w.worklist := hw ▸ List.mem_cons_self
  refine .ite (fun hseen => .pure ⟨visited, h.skip hw ?_⟩) fun hseen => ?_
  · exact (h.mem_iff hmem).mp (List.contains_iff_mem.mp hseen)
  have hnew : e ∉ visited := fun he =>
    hseen (List.contains_iff_mem.mpr ((h.mem_iff hmem).mpr he))
  exact (within_queueSupertypes s _ e).mono fun b hb =>
    ⟨visited ++ [e], hb ▸ h.visit fluent hfiles hw hnew rfl⟩

/-- What a visit of the first type of the worklist keeps, a walk keeps. -/
theorem within_walk_of {fluent : Bool} {P : Survey → Prop}
    (hP : ∀ w e rest, P w → w.worklist = e :: rest →
      Within (Session.Loads s) (visitType fluent { w with worklist := rest } e) P)
    (fuel : Nat) {w : Survey} (h : P w) : Within (Session.Loads s) (walk fluent fuel w) P := by
  induction fuel generalizing w with
  | zero => exact .pure h
  | succ fuel ih =>
    unfold walk
    split
    · exact .pure h
    · next e rest hw => exact (hP w e rest h hw).bind fun w' h' => ih h'

theorem within_walk (fluent : Bool) (hfiles : s.pool.NamesFiles) (fuel : Nat)
    (h : Visiting s d visited w) :
    Within (Session.Loads s) (walk fluent fuel w) fun w' =>
      ∃ visited', Visiting s d visited' w' :=
  within_walk_of (fun _ _ _ ⟨_, h⟩ hw => within_visitType fluent hfiles h hw) fuel ⟨visited, h⟩

end Survey

/-! ## Plans -/

namespace TypeDeclaration

/-- Only the visit of a type plans accessors, mutators and methods of invocations. -/
theorem method?_of_later {d : TypeDeclaration} {members : List Member} {x : Action}
    (hx : x ∈ d.constructorActions members ++ d.objectActions members) : x.method? = none := by
  obtain hx | hx := List.mem_append.mp hx
  · obtain ⟨plan, rfl, -⟩ := mem_constructorActions hx
    rfl
  · obtain ⟨_, rfl⟩ | ⟨_, rfl⟩ | ⟨_, rfl⟩ := mem_objectActions hx <;> rfl

/-- **Methods that a type inherits.** If a planned method is implemented by the class that is `n`
superclasses up, then a type that is fewer than `n` steps away leaves it open. -/
theorem plan_inherited {e : Environment} {c : Config} {model : TypeModel} {s₀ s s' : Session}
    {d : TypeDeclaration} {fluent : Bool} {q : ActionQueue}
    (hsession : e.session c model = .ok s₀) (hloads : s₀.Loads s)
    (hd : model.get? d.qualifiedName = some d) (hplan : s.run (d.plan fluent) = (.ok q, s'))
    {x : Action} (hx : x ∈ q) {m : MethodDeclaration} (hm : x.method? = some m)
    {n : Nat} {a : TypeDeclaration} (ha : StepsTo s₀.superclass d n a)
    (himpl : a.Implements m.key) :
    ∃ k < n, ∃ t, StepsTo s₀.parents d k t ∧ t.LeavesOpen m := by
  obtain ⟨hmodel, hcache, -⟩ := Environment.of_session hsession
  have hknown : s₀.declaration? ⟨d.qualifiedName⟩ = some d := by
    rw [Session.declaration?_eq, Session.declared, hmodel, hd]
    rfl
  obtain ⟨analysis, s₁, hanalysis, hrest⟩ := of_run_bind_ok hplan
  obtain ⟨start, s₂, hstart, hwalk⟩ := of_run_bind_ok hanalysis
  obtain ⟨rfl, rfl⟩ := of_run_get_ok hstart
  obtain ⟨w, s₃, hw, hresult⟩ := of_run_bind_ok hwalk
  obtain ⟨-, visited, hvisiting⟩ := Survey.within_walk fluent
    (ClassPool.namesFiles_of_empty hcache) _ (.initial hknown) _ w s₃ hloads hw
  obtain ⟨hanalysis, -⟩ := Prod.mk.inj hresult
  obtain rfl := Except.ok.inj hanalysis
  obtain ⟨hq, -⟩ := Prod.mk.inj hrest
  obtain rfl := Except.ok.inj hq
  rw [List.append_assoc] at hx
  obtain hx | hx := List.mem_append.mp hx
  · obtain ⟨pre, t, hpre, hopen, hnone⟩ := hvisiting.records.plans x hx m hm
    obtain ⟨k, hk, hsteps⟩ := hvisiting.order.near (Session.firstStepsTo_parents ha) hpre
      fun hmem => hnone a hmem himpl
    exact ⟨k, hk, t, hsteps, hopen⟩
  · rw [method?_of_later hx] at hm
    cases hm

/-! ### Implemented methods that are planned again -/

/-- A class that implements `getName`. -/
def namedBase : TypeDeclaration where
  qualifiedName := "demo.Base"
  kind := .classKind
  methods := [{ nameAccessor with isAbstract := false }]

/-- A class that leaves the method open that its superclass implements. -/
def reopeningPerson : TypeDeclaration where
  qualifiedName := "demo.Person"
  kind := .classKind
  isAbstract := true
  superclass := some ⟨"demo.Base"⟩
  methods := [nameAccessor]
  directives := { generate := some {} }

/-- An interface that leaves `getName` open. -/
def named : TypeDeclaration where
  qualifiedName := "demo.Named"
  methods := [nameAccessor]

def emptyMiddle : TypeDeclaration where
  qualifiedName := "demo.Middle"
  kind := .classKind
  superclass := some ⟨"demo.Base"⟩

/-- A class whose interface is nearer than the class that implements the method. -/
def namedPerson : TypeDeclaration where
  qualifiedName := "demo.Person"
  kind := .classKind
  isAbstract := true
  superclass := some ⟨"demo.Middle"⟩
  interfaces := [⟨"demo.Named"⟩]
  directives := { generate := some {} }

/-- The start of a run without a class path. -/
def startOf (types : List TypeDeclaration) : Session where
  model := { types }
  pool := { layers := [.builtin, .model { types } 52], major := 52 }

/-- The field `name` and its accessor. -/
def nameQueue : ActionQueue := [.field "name" .string, .accessor (.ofAccessor "name" nameAccessor)]

theorem implements_namedBase : namedBase.Implements nameAccessor.key :=
  ⟨{ nameAccessor with isAbstract := false }, List.mem_cons_self, rfl, rfl, rfl⟩

/-- The interface is one step away, the implementing class two. -/
theorem plan_inherited_namedPerson :
    ∃ s, Environment.session {} {} { types := [named, namedBase, emptyMiddle, namedPerson] } =
        .ok s ∧ s.run (namedPerson.plan false) = (.ok nameQueue, s) ∧
      StepsTo s.superclass namedPerson 2 namedBase ∧
      ∃ k < 2, ∃ t, StepsTo s.parents namedPerson k t ∧ t.LeavesOpen nameAccessor := by
  let s := startOf [named, namedBase, emptyMiddle, namedPerson]
  have hsteps : StepsTo s.superclass namedPerson 2 namedBase :=
    .step (b := emptyMiddle) (.step (b := namedPerson) .refl (by decide)) (by decide)
  refine ⟨s, rfl, rfl, hsteps, ?_⟩
  have hplan : s.run (namedPerson.plan false) = (.ok nameQueue, s) := rfl
  exact plan_inherited (e := {}) (c := {}) rfl (refl_of Session.Loads s) rfl hplan
    (List.mem_cons_of_mem _ List.mem_cons_self) rfl hsteps implements_namedBase

/-- An accessor is planned though a superclass implements it, if the type leaves the method open
again, and if an interface nearer than the class does. -/
theorem plan_not_always_inherited :
    (∃ q s', (startOf [namedBase, reopeningPerson]).run (reopeningPerson.plan false) = (.ok q, s') ∧
      StepsTo (startOf [namedBase, reopeningPerson]).superclass reopeningPerson 1 namedBase ∧
      ∃ x ∈ q, ∃ m, x.method? = some m ∧ namedBase.Implements m.key) ∧
    ∃ q s', (startOf [named, namedBase, emptyMiddle, namedPerson]).run (namedPerson.plan false) =
        (.ok q, s') ∧
      StepsTo (startOf [named, namedBase, emptyMiddle, namedPerson]).superclass namedPerson 2
        namedBase ∧
      ∃ x ∈ q, ∃ m, x.method? = some m ∧ namedBase.Implements m.key := by
  refine ⟨⟨nameQueue, _, rfl, .step (b := reopeningPerson) .refl (by decide), ?_⟩,
    nameQueue, _, rfl, ?_, ?_⟩
  · exact ⟨_, List.mem_cons_of_mem _ List.mem_cons_self, _, rfl, implements_namedBase⟩
  · exact .step (b := emptyMiddle) (.step (b := namedPerson) .refl (by decide)) (by decide)
  · exact ⟨_, List.mem_cons_of_mem _ List.mem_cons_self, _, rfl, implements_namedBase⟩

end TypeDeclaration

end ClassSynth

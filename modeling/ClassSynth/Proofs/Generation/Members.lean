import ClassSynth.Proofs.Generation.Survey
import ClassSynth.Proofs.Synthesis.Reads

/-!
# Members that a visit finds

A visit of a type finds an accessor where its name and descriptor come first, so no two members have
accessors of one key. Two accessors of different keys can have the same field, though: `getName` and
`name` do. The field is planned once then, but both members are kept, and the constructor has a
parameter for each.

Main result: `TypeDeclaration.plan_stores_once`. If the accessors that a type and the types above it
leave open have fields of their own, then so have the members: a constructor assigns each field once,
from a parameter of its own, and the methods of every object read each field once.
-/

namespace ClassSynth

/-! ## Accessors -/

/-- The field that a method returns, if it is an accessor. -/
def MethodDeclaration.accessorField? (fluent : Bool) (m : MethodDeclaration) : Option String :=
  match m.directives.invoke, m.paramTypes with
  | none, [] => if m.returnType.isVoid then none else Analysis.fieldOf? fluent .accessor m
  | _, _ => none

namespace Session

variable {s : Session} {d t : TypeDeclaration}

/-- The type is the first one or above it. -/
def IsAbove (s : Session) (d t : TypeDeclaration) : Prop :=
  Relation.ReflTransGen (fun a b => b ∈ s.parents a) d t

/-- The type or one above it leaves the accessor of the field open, and does not exclude it. -/
structure HasAccessor (s : Session) (fluent : Bool) (d : TypeDeclaration) (m : MethodDeclaration)
    (field : String) : Prop where
  isOpen : ∃ t, s.IsAbove d t ∧ t.LeavesOpen m
  included : m.directives.exclude = false
  field : m.accessorField? fluent = some field

/-- Accessors of one field have one name and descriptor. -/
def OwnFields (s : Session) (fluent : Bool) (d : TypeDeclaration) : Prop :=
  ∀ m m' field, s.HasAccessor fluent d m field → s.HasAccessor fluent d m' field → m.key = m'.key

end Session

/-! ## Planned members -/

/-- The member whose accessor an action adds. -/
def Action.member? : Action → Option Member
  | accessor member => some member
  | _ => none

/-- The members whose accessors are planned. -/
def ActionQueue.members (q : ActionQueue) : List Member := q.filterMap Action.member?

/-- Planned accessors of one field have one name and descriptor. -/
def ActionQueue.OwnFields (q : ActionQueue) : Prop :=
  ∀ m ∈ q.members, ∀ m' ∈ q.members, m.field = m'.field → m.accessor.key = m'.accessor.key

namespace Analysis

variable {a : Analysis}

/-- The member that a method adds. -/
def memberOf? (fluent : Bool) (m : MethodDeclaration) : Option Member :=
  (m.accessorField? fluent).map (Member.ofAccessor · m)

/-- What is planned has the members of before and more. -/
structure Adds (a : Analysis) (more : List Member) (a' : Analysis) : Prop where
  members : a'.members = a.members ++ more
  queue : a'.queue.members = a.queue.members ++ more

namespace Adds

variable {a' : Analysis} {more : List Member}

theorem of_eq (hmembers : a'.members = a.members) (hqueue : a'.queue.members = a.queue.members) :
    Adds a [] a' :=
  ⟨by rw [hmembers, List.append_nil], by rw [hqueue, List.append_nil]⟩

theorem addField (name : String) (t : TypeName) : Adds a [] (a.addField name t) := by
  unfold Analysis.addField
  split_ifs
  · exact .of_eq rfl rfl
  · exact .of_eq rfl rfl

theorem addLast {x : Action} (h : Adds a more a') (hx : x.member? = none) :
    Adds a more (a'.addLast x) := by
  refine ⟨h.members, ?_⟩
  rw [← h.queue]
  simp [Analysis.addLast, ActionQueue.pushBack, ActionQueue.members, hx]

theorem addChecks (h : Adds a more a') (m : MethodDeclaration) : Adds a more (a'.addChecks m) := by
  unfold Analysis.addChecks
  split_ifs
  · exact h
  · exact h.addLast rfl

theorem addAccessor (member : Member) : Adds a [member] (a.addAccessor member) := by
  obtain ⟨hmembers, hqueue⟩ := addField (a := a) member.field member.storedType
  rw [List.append_nil] at hmembers hqueue
  have hplanned : Adds a [member]
      { (a.addField member.field member.storedType).addLast (.accessor member) with
        members := (a.addField member.field member.storedType).members ++ [member] } := by
    refine ⟨congrArg (· ++ [member]) hmembers, ?_⟩
    rw [← hqueue]
    simp [Analysis.addLast, ActionQueue.pushBack, ActionQueue.members, Action.member?]
  exact hplanned.addChecks member.accessor

end Adds

theorem adds_addMutator (field : String) (t : TypeName) (m : MethodDeclaration) :
    Adds a [] (a.addMutator field t m) :=
  ((Adds.addField field t).addLast rfl).addChecks m

theorem adds_addInvocations (m : MethodDeclaration) (d : InvokeDirective) :
    Adds a [] (a.addInvocations m d) := by
  have hplanned : Adds a [] { a with queue := a.queue.pushFront (.invoke m d) } := .of_eq rfl rfl
  exact hplanned.addChecks m

/-- A method that is classified adds the member that it is an accessor of. -/
theorem adds_classify (fluent : Bool) (m : MethodDeclaration) :
    Adds a (memberOf? fluent m).toList (a.classify fluent m) := by
  have hnone : Adds a [] a := .of_eq rfl rfl
  unfold classify memberOf? MethodDeclaration.accessorField?
  cases m.directives.invoke with
  | some d => exact adds_addInvocations m d
  | none =>
    rcases m.paramTypes with _ | ⟨t, _ | ⟨u, rest⟩⟩
    · dsimp only
      split_ifs
      · exact hnone
      · cases fieldOf? fluent .accessor m with
        | some field => exact .addAccessor _
        | none => exact hnone
    · dsimp only
      cases fieldOf? fluent .mutator m with
      | some field => exact adds_addMutator field t m
      | none => exact hnone
    · exact hnone

end Analysis

/-! ## The visit -/

namespace Survey

variable {s : Session} {fluent : Bool} {d e : TypeDeclaration} {w : Survey}

/-- What a visit keeps: the members are accessors that were met first. -/
structure Collects (s : Session) (fluent : Bool) (d : TypeDeclaration) (w : Survey) : Prop where
  above : ∀ t ∈ w.worklist, s.IsAbove d t
  queued : w.analysis.queue.members = w.analysis.members
  accessors : ∀ m ∈ w.analysis.members, s.HasAccessor fluent d m.accessor m.field
  seen : ∀ m ∈ w.analysis.members, m.accessor.key ∈ w.seenMethods
  keys : (w.analysis.members.map (·.accessor.key)).Nodup

namespace Collects

theorem initial (s : Session) (fluent : Bool) (d : TypeDeclaration) :
    Collects s fluent d { worklist := [d] } where
  above _ ht := List.mem_singleton.mp ht ▸ .refl
  queued := rfl
  accessors _ hm := absurd hm List.not_mem_nil
  seen _ hm := absurd hm List.not_mem_nil
  keys := List.nodup_nil

/-- More methods may be seen, and other types be visited. -/
theorem mono (h : w.Collects s fluent d) {w' : Survey} (habove : ∀ t ∈ w'.worklist, s.IsAbove d t)
    (hseen : w.seenMethods ⊆ w'.seenMethods) (hanalysis : w'.analysis = w.analysis) :
    w'.Collects s fluent d where
  above := habove
  queued := hanalysis ▸ h.queued
  accessors := hanalysis ▸ h.accessors
  seen m hm := hseen (h.seen m (hanalysis ▸ hm))
  keys := hanalysis ▸ h.keys

theorem visitMethod (h : w.Collects s fluent d) (he : s.IsAbove d e) {m : MethodDeclaration}
    (hm : e.LeavesOpen m) : (w.visitMethod fluent m).Collects s fluent d := by
  unfold Survey.visitMethod
  split_ifs with hseen hexclude
  · exact h
  · exact h.mono h.above (List.subset_append_left _ _) rfl
  have hnew : m.key ∉ w.seenMethods := by simpa using hseen
  have hmember : ∀ member ∈ (Analysis.memberOf? fluent m).toList,
      member.accessor = m ∧ s.HasAccessor fluent d m member.field := by
    intro member hmember
    obtain ⟨field, hfield, rfl⟩ := Option.map_eq_some_iff.mp (Option.mem_toList.mp hmember)
    exact ⟨rfl, ⟨e, he, hm⟩, by simpa using hexclude, hfield⟩
  obtain ⟨hmembers, hqueue⟩ := Analysis.adds_classify (a := w.analysis) fluent m
  refine ⟨h.above, ?_, fun x hx => ?_, fun x hx => ?_, ?_⟩
  · rw [hqueue, hmembers, h.queued]
  · rw [hmembers] at hx
    obtain hx | hx := List.mem_append.mp hx
    · exact h.accessors x hx
    · obtain ⟨haccessor, hfield⟩ := hmember x hx
      exact haccessor.symm ▸ hfield
  · rw [hmembers] at hx
    obtain hx | hx := List.mem_append.mp hx
    · exact List.mem_append_left _ (h.seen x hx)
    · rw [(hmember x hx).1]
      exact List.mem_append_right _ (List.mem_singleton_self _)
  · rw [hmembers, List.map_append]
    refine List.nodup_append'.mpr ⟨h.keys, ?_, ?_⟩
    · cases Analysis.memberOf? fluent m with
      | none => exact List.nodup_nil
      | some => exact List.nodup_singleton _
    · intro key hkey hkey'
      obtain ⟨x, hx, rfl⟩ := List.mem_map.mp hkey
      obtain ⟨y, hy, hsame⟩ := List.mem_map.mp hkey'
      rw [(hmember y hy).1] at hsame
      exact hnew (hsame ▸ h.seen x hx)

theorem visitMethods (h : w.Collects s fluent d) (he : s.IsAbove d e) :
    (w.visitMethods fluent e).Collects s fluent d := by
  refine List.foldlRecOn (motive := fun w : Survey => w.Collects s fluent d) _ _
    (h.mono h.above (List.subset_append_left _ _) rfl) fun w hw m hm => hw.visitMethod he ?_
  simp only [TypeDeclaration.abstractMethods, List.mem_filter, Bool.not_eq_true'] at hm
  exact ⟨hm.1.1, hm.1.2, hm.2⟩

/-- The types that come next to a visited one are above it. -/
theorem visitType (h : w.Collects s fluent d) {rest : List TypeDeclaration}
    (hw : w.worklist = e :: rest) :
    Within (Session.Loads s) (Survey.visitType fluent { w with worklist := rest } e)
      (Collects s fluent d) := by
  have he : s.IsAbove d e := h.above e (hw ▸ List.mem_cons_self)
  have hrest : ∀ t ∈ rest, s.IsAbove d t := fun t ht => h.above t (hw ▸ List.mem_cons_of_mem e ht)
  refine .ite (fun _ => .pure (h.mono hrest (List.Subset.refl _) rfl)) fun _ => ?_
  have hstart : Collects s fluent d
      { w with worklist := rest, seenTypes := w.seenTypes ++ [e.qualifiedName] } :=
    h.mono hrest (List.Subset.refl _) rfl
  have hvisited := hstart.visitMethods he
  refine (within_queueSupertypes s _ e).mono fun w' hw' => ?_
  refine hw' ▸ hvisited.mono (fun t ht => ?_) (List.Subset.refl _) rfl
  obtain ht | ht := List.mem_append.mp ht
  · exact hvisited.above t ht
  · exact he.tail ht

end Collects

end Survey

/-- The members of a type are those whose accessors are planned, and they were met first. -/
theorem Analysis.within_ofType (s : Session) (fluent : Bool) (d : TypeDeclaration) :
    Within (Session.Loads s) (Analysis.ofType fluent d) fun a =>
      a.queue.members = a.members ∧ (a.members.map (·.accessor.key)).Nodup ∧
        ∀ m ∈ a.members, s.HasAccessor fluent d m.accessor m.field := by
  refine Within.get.bind fun start _ => ?_
  refine (Survey.within_walk_of (fun w e rest h hw => h.visitType hw) _
    (Survey.Collects.initial s fluent d)).bind fun w hw => ?_
  exact .pure ⟨hw.queued, hw.keys, hw.accessors⟩

/-! ## What is done with members -/

namespace Action

/-- The members of an action are those that its kind selects. Each of their fields is there once, and
is assigned from a parameter of its own or read by its accessor, once on each object. -/
def StoresOnce (members : List Member) : Action → Prop
  | constructor plan _ =>
    (∃ k : ConstructorKind, plan.members = k.select members) ∧
    (plan.members.map Member.field).Nodup ∧
    plan.members.map Member.storedType <+: plan.signature.params ∧
    ∀ owner superclass, (plan.body owner superclass).filterMap Stmt.assignment? =
      plan.members.zipIdx.map fun (m, i) => (m.fieldRef owner, .param (i + 1))
  | display shown t =>
    ((Synthesis.shownMembers members).map Member.field).Nodup ∧ ∀ owner superclass,
      Stmt.callsOnList Expr.isThis (Synthesis.toStringBody t owner superclass shown) =
        (Synthesis.shownMembers members).map (Member.reader · owner)
  | equals compared e =>
    ((Synthesis.comparedMembers members).map Member.field).Nodup ∧ ∀ owner superclass,
      Stmt.callsOnList Expr.isThis (Synthesis.equalsBody e owner superclass compared) =
        Synthesis.classGetter ::
          (Synthesis.comparedMembers members).map (Member.reader · owner) ∧
      Stmt.callsOnList (Expr.isLocal Synthesis.otherName)
          (Synthesis.equalsBody e owner superclass compared) =
        (Synthesis.comparedMembers members).map (Member.reader · owner)
  | hashCode hashed h =>
    ((Synthesis.hashedMembers members).map Member.field).Nodup ∧ ∀ owner superclass,
      Stmt.callsOnList Expr.isThis (Synthesis.hashCodeBody h owner superclass hashed) =
        (Synthesis.hashedMembers members).map (Member.reader · owner)
  | _ => True

variable {members : List Member}

theorem StoresOnce.of_plannedFor {x : Action} {m : MethodDeclaration} (h : x.PlannedFor m) :
    x.StoresOnce members := by
  cases h <;> exact trivial

end Action

namespace TypeDeclaration

/-- Only the visit of a type plans accessors. -/
theorem member?_of_later {d : TypeDeclaration} {members : List Member} {x : Action}
    (hx : x ∈ d.constructorActions members ++ d.objectActions members) : x.member? = none := by
  obtain hx | hx := List.mem_append.mp hx
  · obtain ⟨plan, rfl, -⟩ := mem_constructorActions hx
    rfl
  · obtain ⟨_, rfl⟩ | ⟨_, rfl⟩ | ⟨_, rfl⟩ := mem_objectActions hx <;> rfl

theorem storesOnce_constructor {d : TypeDeclaration} {members : List Member} {x : Action}
    (hx : x ∈ d.constructorActions members) (hfields : (members.map Member.field).Nodup) :
    x.StoresOnce members := by
  obtain ⟨k, superParams, rfl⟩ := kind_of_mem_constructorActions hx
  have hselected := sublist_select k members
  refine ⟨⟨k, rfl⟩, (hselected.map Member.field).nodup hfields, ?_, fun owner superclass => ?_⟩
  · obtain ⟨more, hparams, -⟩ :=
      (ConstructorPlan.serves_signature { members := k.select members, superParams }).params
    exact ⟨more, hparams.symm⟩
  · exact ConstructorPlan.assignments_body _ owner superclass

theorem storesOnce_object {d : TypeDeclaration} {members : List Member} {x : Action}
    (hx : x ∈ d.objectActions members) (hfields : (members.map Member.field).Nodup) :
    x.StoresOnce members := by
  have hfilter (p : Member → Bool) : ((members.filter p).map Member.field).Nodup :=
    (List.filter_sublist.map Member.field).nodup hfields
  obtain ⟨t, rfl⟩ | ⟨e, rfl⟩ | ⟨h, rfl⟩ := mem_objectActions hx
  · exact ⟨hfilter _, fun _ _ => Synthesis.callsOn_toStringBody t members⟩
  · exact ⟨hfilter _, fun _ _ => ⟨Synthesis.callsOn_this_equalsBody e members,
      Synthesis.callsOn_other_equalsBody e members⟩⟩
  · exact ⟨hfilter _, fun _ _ => Synthesis.callsOn_hashCodeBody h members⟩

/-- **Each value is stored once.** No two members have accessors of one name and descriptor. As long
as planned accessors have fields of their own, which they have if those do that the type and the
types above it leave open, no two members have one field: every constructor assigns each field once,
from a parameter of its own, and the methods of every object read each field once. -/
theorem plan_stores_once {d : TypeDeclaration} {fluent : Bool} {s s' : Session} {q : ActionQueue}
    (hplan : s.run (d.plan fluent) = (.ok q, s')) :
    (q.members.map (·.accessor.key)).Nodup ∧ (s.OwnFields fluent d → q.OwnFields) ∧
    (q.OwnFields → (q.members.map Member.field).Nodup ∧ ∀ x ∈ q, x.StoresOnce q.members) := by
  obtain ⟨a, s₁, hanalysis, hrest⟩ := of_run_bind_ok hplan
  obtain ⟨hq, -⟩ := Prod.mk.inj hrest
  obtain rfl := Except.ok.inj hq
  obtain ⟨hqueue, hkeys, haccessors⟩ :=
    (Analysis.within_ofType s fluent d s a s₁ (refl_of Session.Loads s) hanalysis).2
  have hplanned := Analysis.ensures_plannedFor fluent d s a s₁ hanalysis
  rw [List.append_assoc, ← actionsFor]
  have hmembers : ActionQueue.members (d.actionsFor a) = a.members := by
    have hlater : (d.constructorActions a.members ++ d.objectActions a.members).filterMap
        Action.member? = [] := List.filterMap_eq_nil_iff.mpr fun x hx => member?_of_later hx
    rw [ActionQueue.members, actionsFor, List.filterMap_append, hlater, List.append_nil]
    exact hqueue
  rw [ActionQueue.OwnFields, hmembers]
  refine ⟨hkeys, fun hown m hm m' hm' hfield => ?_, fun hown => ?_⟩
  · exact hown _ _ _ (haccessors m hm) (hfield ▸ haccessors m' hm')
  have hfields : (a.members.map Member.field).Nodup := by
    refine List.pairwise_map.mpr ((List.pairwise_map.mp hkeys).imp_of_mem ?_)
    exact fun hm hm' hkey hfield => hkey (hown _ hm _ hm' hfield)
  refine ⟨hfields, fun x hx => ?_⟩
  obtain hx | hx := List.mem_append.mp hx
  · obtain ⟨m, hm⟩ := hplanned x hx
    exact .of_plannedFor hm
  · obtain hx | hx := List.mem_append.mp hx
    · exact storesOnce_constructor hx hfields
    · exact storesOnce_object hx hfields

/-! ### An accessor of a type above -/

/-- A method that returns the field `age`. -/
def ageAccessor : MethodDeclaration where
  name := "age"
  returnType := .int
  isAbstract := true

/-- An interface with a field of its own and an inherited one. -/
def agedPerson : TypeDeclaration where
  qualifiedName := "demo.Person"
  interfaces := [⟨"demo.Named"⟩]
  methods := [ageAccessor]
  directives := {
    generate := some {}, constructor := some { kinds := [.allArgs] }, toString := some {},
    equals := some {}, hashCode := some {} }

theorem ownFields_agedPerson : (startOf [named, agedPerson]).OwnFields true agedPerson := by
  have habove (t : TypeDeclaration) (h : (startOf [named, agedPerson]).IsAbove agedPerson t) :
      t = agedPerson ∨ t = named := by
    induction h with
    | refl => exact .inl rfl
    | tail _ ht ih =>
      obtain rfl | rfl := ih
      · exact .inr (List.mem_singleton.mp ht)
      · cases ht
  have haccessor (m : MethodDeclaration) (field : String)
      (h : (startOf [named, agedPerson]).HasAccessor true agedPerson m field) :
      m = ageAccessor ∧ field = "age" ∨ m = nameAccessor ∧ field = "name" := by
    obtain ⟨t, ht, hm, -⟩ := h.isOpen
    have hfield := h.field
    obtain rfl | rfl := habove t ht
    · obtain rfl := List.mem_singleton.mp hm
      exact .inl ⟨rfl, (Option.some.inj hfield).symm⟩
    · obtain rfl := List.mem_singleton.mp hm
      exact .inr ⟨rfl, (Option.some.inj hfield).symm⟩
  intro m m' field h h'
  obtain ⟨rfl, rfl⟩ | ⟨rfl, rfl⟩ := haccessor m field h
  · obtain ⟨rfl, -⟩ | ⟨-, hne⟩ := haccessor m' _ h'
    · rfl
    · exact absurd hne (by decide)
  · obtain ⟨-, hne⟩ | ⟨rfl, -⟩ := haccessor m' _ h'
    · exact absurd hne (by decide)
    · rfl

theorem plan_stores_once_agedPerson :
    ∃ q s', (startOf [named, agedPerson]).run (agedPerson.plan true) = (.ok q, s') ∧
      (startOf [named, agedPerson]).OwnFields true agedPerson ∧
      q.members.map Member.field = ["age", "name"] ∧
      (q.members.map Member.field).Nodup ∧ ∀ x ∈ q, x.StoresOnce q.members := by
  obtain ⟨-, hplanned, honce⟩ :=
    @plan_stores_once agedPerson true (startOf [named, agedPerson]) _ _ rfl
  exact ⟨_, _, rfl, ownFields_agedPerson, rfl, honce (hplanned ownFields_agedPerson)⟩

end TypeDeclaration

end ClassSynth

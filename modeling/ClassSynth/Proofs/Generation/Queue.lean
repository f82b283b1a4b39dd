import ClassSynth.Generation.Analysis
import ClassSynth.Proofs.Kept
import Mathlib.Data.List.Nodup

/-!
# The order of planned actions

Fields and methods of invocations are planned in front of what is planned already, all other actions
behind it. `Analysis.Ordered` is what one method keeps, and a visit goes from method to method.

Main result: `TypeDeclaration.plan_ordered`. A planned queue has one field for each name that its
accessors, mutators and constructors use, and nothing but fields and methods of invocations stands
in front of a field. Methods of invocations do: one that is met after a field comes before it, also
if it refers to the field.
-/

namespace ClassSynth

namespace Action

/-- The name of the field that an action makes. -/
def fieldName? : Action → Option String
  | field name _ => some name
  | _ => none

/-- The names of the fields that an action reads or sets for itself. -/
def storage : Action → List String
  | accessor m => [m.field]
  | mutator name _ => [name]
  | constructor plan _ => plan.members.map (·.field)
  | _ => []

def isField : Action → Bool
  | field .. => true
  | _ => false

def isInvocation : Action → Bool
  | invoke .. => true
  | _ => false

/-- Is the action planned in front of the others? -/
def isUpfront (x : Action) : Bool := x.isField || x.isInvocation

theorem fieldName?_of_not_upfront {x : Action} (h : x.isUpfront = false) : x.fieldName? = none := by
  cases x with
  | field => cases h
  | _ => rfl

theorem isUpfront_of_isField {x : Action} (h : x.isField = true) : x.isUpfront = true := by
  simp [isUpfront, h]

theorem not_upfront_of_mem_storage {x : Action} {name : String} (h : name ∈ x.storage) :
    x.isUpfront = false := by
  cases x with
  | accessor | mutator | constructor => rfl
  | _ => cases h

/-- What can be planned for a method. -/
inductive PlannedFor (m : MethodDeclaration) : Action → Prop
  | field (name : String) (t : TypeName) : PlannedFor m (.field name t)
  | accessor (field : String) : PlannedFor m (.accessor (.ofAccessor field m))
  | mutator (field : String) : PlannedFor m (.mutator field m)
  | invoke (d : InvokeDirective) : PlannedFor m (.invoke m d)
  | nonNull : PlannedFor m (.nonNull m)

/-- What can be planned for a type. -/
inductive PlannedIn (d : TypeDeclaration) : Action → Prop
  | method {m : MethodDeclaration} {x : Action} (h : x.PlannedFor m) : PlannedIn d x
  | constructor (plan : ConstructorPlan) : PlannedIn d (.constructor plan d.factoryBinding?)
  | equals (members : List Member) (e : EqualsDirective) : PlannedIn d (.equals members e)
  | hashCode (members : List Member) (h : HashCodeDirective) : PlannedIn d (.hashCode members h)
  | display (members : List Member) (t : ToStringDirective) : PlannedIn d (.display members t)

end Action

/-! ## One method -/

/-- Fields and methods of invocations come first, there is one field for each planned name, and what
is planned uses no other fields. -/
structure Analysis.Ordered (a : Analysis) : Prop where
  upfront : a.queue.Pairwise fun x y => y.isUpfront → x.isUpfront
  fields : a.queue.filterMap Action.fieldName? = a.fields.reverse
  nodup : a.fields.Nodup
  stored : ∀ x ∈ a.queue, ∀ name ∈ x.storage, name ∈ a.fields
  members : ∀ m ∈ a.members, m.field ∈ a.fields

/-- Every planned field is used. -/
def Analysis.UsesFields (a : Analysis) : Prop := ∀ name ∈ a.fields, ∃ x ∈ a.queue, name ∈ x.storage

namespace Analysis

variable {a : Analysis} {x : Action}

theorem mem_fields_addField (a : Analysis) (name : String) (t : TypeName) {n : String} :
    n ∈ (a.addField name t).fields ↔ n ∈ a.fields ∨ n = name := by
  unfold addField
  split_ifs with hcontains
  · have hname : name ∈ a.fields := by simpa using hcontains
    exact ⟨.inl, fun h => h.elim id fun h => h ▸ hname⟩
  · simp

theorem mem_queue_addField {name : String} {t : TypeName} (h : x ∈ a.queue) :
    x ∈ (a.addField name t).queue := by
  unfold addField
  split_ifs
  · exact h
  · exact List.mem_cons_of_mem _ h

theorem of_mem_addField {name : String} {t : TypeName} (h : x ∈ (a.addField name t).queue) :
    x = .field name t ∨ x ∈ a.queue := by
  unfold addField at h
  split_ifs at h
  · exact .inr h
  · exact List.mem_cons.mp h

theorem mem_queue_addLast {y : Action} : y ∈ (a.addLast x).queue ↔ y ∈ a.queue ∨ y = x := by
  simp [addLast, ActionQueue.pushBack]

theorem of_mem_addChecks {m : MethodDeclaration} (h : x ∈ (a.addChecks m).queue) :
    x = .nonNull m ∨ x ∈ a.queue := by
  unfold addChecks at h
  split_ifs at h
  · exact .inr h
  · exact (mem_queue_addLast.mp h).symm

/-- A method that is classified is planned as itself. -/
theorem of_mem_classify {fluent : Bool} {m : MethodDeclaration}
    (h : x ∈ (a.classify fluent m).queue) : x.PlannedFor m ∨ x ∈ a.queue := by
  have hadd : ∀ {name : String} {t : TypeName} {y : Action}, y.PlannedFor m →
      x ∈ ((a.addField name t).addLast y).queue → x.PlannedFor m ∨ x ∈ a.queue := by
    intro name t y hy h
    obtain h | rfl := mem_queue_addLast.mp h
    · obtain rfl | h := of_mem_addField h
      · exact .inl (.field name t)
      · exact .inr h
    · exact .inl hy
  unfold classify at h
  split at h
  · next d _ =>
    obtain rfl | h := of_mem_addChecks h
    · exact .inl .nonNull
    · obtain rfl | h := List.mem_cons.mp h
      · exact .inl (.invoke d)
      · exact .inr h
  split at h
  · split at h
    · next field _ =>
      obtain rfl | h := of_mem_addChecks h
      · exact .inl .nonNull
      · exact hadd (.mutator field) h
    · exact .inr h
  · split_ifs at h
    · exact .inr h
    · split at h
      · next field _ =>
        obtain rfl | h := of_mem_addChecks h
        · exact .inl .nonNull
        · exact hadd (.accessor field) h
      · exact .inr h
  · exact .inr h

namespace Ordered

theorem initial : ({} : Analysis).Ordered := by
  constructor <;> simp

theorem addField (h : a.Ordered) (name : String) (t : TypeName) : (a.addField name t).Ordered := by
  unfold Analysis.addField
  split_ifs with hcontains
  · exact h
  have hname : name ∉ a.fields := by simpa using hcontains
  refine ⟨?_, ?_, ?_, ?_, ?_⟩
  · exact List.pairwise_cons.mpr ⟨fun _ _ _ => rfl, h.upfront⟩
  · have hcons := congrArg (name :: ·) h.fields
    simpa [ActionQueue.pushFront, Action.fieldName?] using hcons
  · simpa [List.nodup_append, h.nodup] using fun n hn => ne_of_mem_of_not_mem hn hname
  · intro y hy n hn
    obtain rfl | hy := List.mem_cons.mp hy
    · cases hn
    · exact List.mem_append_left _ (h.stored y hy n hn)
  · exact fun m hm => List.mem_append_left _ (h.members m hm)

theorem addLast (h : a.Ordered) (hx : x.isUpfront = false)
    (hstored : ∀ name ∈ x.storage, name ∈ a.fields) : (a.addLast x).Ordered := by
  refine ⟨?_, ?_, h.nodup, ?_, h.members⟩
  · refine List.pairwise_append.mpr ⟨h.upfront, List.pairwise_singleton _ _, ?_⟩
    intro y _ z hz hfront
    rw [List.mem_singleton.mp hz, hx] at hfront
    cases hfront
  · simp [Analysis.addLast, ActionQueue.pushBack, Action.fieldName?_of_not_upfront hx, h.fields]
  · intro y hy
    obtain hy | rfl := mem_queue_addLast.mp hy
    · exact h.stored y hy
    · exact hstored

theorem addChecks (h : a.Ordered) (m : MethodDeclaration) : (a.addChecks m).Ordered := by
  unfold Analysis.addChecks
  split_ifs
  · exact h
  · exact h.addLast rfl (by simp [Action.storage])

theorem addMutator (h : a.Ordered) (field : String) (t : TypeName) (m : MethodDeclaration) :
    (a.addMutator field t m).Ordered := by
  refine ((h.addField field t).addLast rfl ?_).addChecks m
  simp [Action.storage, mem_fields_addField]

theorem addMember (h : a.Ordered) {member : Member} (hfield : member.field ∈ a.fields) :
    Ordered { a with members := a.members ++ [member] } := by
  refine ⟨h.upfront, h.fields, h.nodup, h.stored, fun m hm => ?_⟩
  obtain hm | hm := List.mem_append.mp hm
  · exact h.members m hm
  · exact List.mem_singleton.mp hm ▸ hfield

theorem addAccessor (h : a.Ordered) (member : Member) : (a.addAccessor member).Ordered := by
  have hfield : member.field ∈ (a.addField member.field member.storedType).fields :=
    (mem_fields_addField a _ _).mpr (.inr rfl)
  have hlast := (h.addField member.field member.storedType).addLast (x := .accessor member) rfl
    (by simpa [Action.storage] using hfield)
  exact (hlast.addMember hfield).addChecks member.accessor

theorem addInvocations (h : a.Ordered) (m : MethodDeclaration) (d : InvokeDirective) :
    (a.addInvocations m d).Ordered := by
  refine addChecks (a := { a with queue := .invoke m d :: a.queue }) ?_ m
  refine ⟨?_, h.fields, h.nodup, ?_, h.members⟩
  · exact List.pairwise_cons.mpr ⟨fun _ _ _ => rfl, h.upfront⟩
  · intro y hy
    obtain rfl | hy := List.mem_cons.mp hy
    · simp [Action.storage]
    · exact h.stored y hy

theorem classify (h : a.Ordered) (fluent : Bool) (m : MethodDeclaration) :
    (a.classify fluent m).Ordered := by
  unfold Analysis.classify
  split
  · exact h.addInvocations m _
  split
  · split
    · exact h.addMutator _ _ m
    · exact h
  · split_ifs
    · exact h
    · split
      · exact h.addAccessor _
      · exact h
  · exact h

end Ordered

namespace UsesFields

theorem addChecks (h : a.UsesFields) (m : MethodDeclaration) : (a.addChecks m).UsesFields := by
  unfold Analysis.addChecks
  split_ifs
  · exact h
  · intro name hname
    obtain ⟨y, hy, hstored⟩ := h name hname
    exact ⟨y, mem_queue_addLast.mpr (.inl hy), hstored⟩

/-- A new field comes with an action that uses it. -/
theorem addUse (h : a.UsesFields) {name : String} (t : TypeName) (hx : name ∈ x.storage) :
    ((a.addField name t).addLast x).UsesFields := by
  intro n hn
  obtain hn | rfl := (mem_fields_addField a name t).mp hn
  · obtain ⟨y, hy, hstored⟩ := h n hn
    exact ⟨y, mem_queue_addLast.mpr (.inl (mem_queue_addField hy)), hstored⟩
  · exact ⟨x, mem_queue_addLast.mpr (.inr rfl), hx⟩

theorem addAccessor (h : a.UsesFields) (member : Member) : (a.addAccessor member).UsesFields := by
  refine addChecks (a := .mk _ _ _) ?_ member.accessor
  exact h.addUse (x := .accessor member) member.storedType (List.mem_singleton_self member.field)

theorem classify (h : a.UsesFields) (fluent : Bool) (m : MethodDeclaration) :
    (a.classify fluent m).UsesFields := by
  unfold Analysis.classify
  split
  · refine addChecks (fun name hname => ?_) m
    obtain ⟨y, hy, hstored⟩ := h name hname
    exact ⟨y, List.mem_cons_of_mem _ hy, hstored⟩
  split
  · split
    · exact addChecks (h.addUse _ (List.mem_singleton_self _)) m
    · exact h
  · split_ifs
    · exact h
    · split
      · next field _ =>
        exact h.addAccessor (.ofAccessor field m)
      · exact h
  · exact h

end UsesFields

end Analysis

/-! ## All methods -/

namespace Survey

variable {fluent : Bool} {P : Analysis → Prop}

theorem analysis_visitMethods (hP : ∀ a m, P a → P (a.classify fluent m)) (s : Survey)
    (d : TypeDeclaration) (h : P s.analysis) : P (s.visitMethods fluent d).analysis := by
  refine List.foldlRecOn (motive := fun s : Survey => P s.analysis) _ _ h fun s hs m _ => ?_
  unfold visitMethod
  split_ifs
  · exact hs
  · exact hs
  · exact hP _ _ hs

theorem ensures_queueSupertype (t : TypeName) (s : Survey) :
    Ensures (queueSupertype s t) fun s' => s'.analysis = s.analysis := by
  refine Ensures.trivial.bind fun parent _ => ?_
  cases parent with
  | some d => exact .pure rfl
  | none => exact Ensures.trivial.bind fun _ _ => .ite (fun _ => .throw) fun _ => .pure rfl

theorem ensures_visitType (hP : ∀ a m, P a → P (a.classify fluent m)) (s : Survey)
    (d : TypeDeclaration) (h : P s.analysis) :
    Ensures (visitType fluent s d) fun s' => P s'.analysis := by
  refine .ite (fun _ => .pure h) fun _ => ?_
  refine Ensures.foldlM (fun s t hs => ?_) _ (analysis_visitMethods hP _ d h)
  exact (ensures_queueSupertype t s).mono fun s' hs' => hs' ▸ hs

/-- **What every method keeps, a visit keeps.** -/
theorem ensures_walk (hP : ∀ a m, P a → P (a.classify fluent m)) (fuel : Nat) (s : Survey)
    (h : P s.analysis) : Ensures (walk fluent fuel s) fun s' => P s'.analysis := by
  induction fuel generalizing s with
  | zero => exact .pure h
  | succ fuel ih =>
    unfold walk
    split
    · exact .pure h
    · next d rest _ =>
      exact (ensures_visitType hP { s with worklist := rest } d h).bind fun s' hs' => ih s' hs'

end Survey

theorem Analysis.ensures_ofType {fluent : Bool} {P : Analysis → Prop}
    (hP : ∀ a m, P a → P (a.classify fluent m)) (d : TypeDeclaration) (hinitial : P {}) :
    Ensures (Analysis.ofType fluent d) P :=
  Ensures.trivial.bind fun _ _ =>
    (Survey.ensures_walk hP _ _ hinitial).bind fun _ hs => .pure hs

/-- What is planned for the methods of a type is planned for one of them. -/
theorem Analysis.ensures_plannedFor (fluent : Bool) (d : TypeDeclaration) :
    Ensures (Analysis.ofType fluent d) fun a => ∀ x ∈ a.queue, ∃ m, x.PlannedFor m :=
  ensures_ofType (fun _ m h _ hx => (of_mem_classify hx).elim (⟨m, ·⟩) (h _)) d
    fun _ hx => nomatch hx

/-! ## All actions -/

namespace TypeDeclaration

/-- A constructor takes the members that its kind selects. -/
theorem kind_of_mem_constructorActions {d : TypeDeclaration} {members : List Member} {x : Action}
    (hx : x ∈ d.constructorActions members) : ∃ (k : ConstructorKind) (superParams : List Parameter),
      x = .constructor { members := k.select members, superParams } d.factoryBinding? := by
  unfold constructorActions at hx
  split at hx
  · cases hx
  · obtain ⟨k, _, hx⟩ := List.mem_flatMap.mp hx
    obtain ⟨superParams, _, rfl⟩ := List.mem_map.mp hx
    exact ⟨k, superParams, rfl⟩

theorem sublist_select (k : ConstructorKind) (members : List Member) :
    (k.select members).Sublist members := by
  cases k with
  | noArgs => exact List.nil_sublist _
  | requiredArgs => exact List.filter_sublist
  | allArgs => exact List.filter_sublist

theorem mem_constructorActions {d : TypeDeclaration} {members : List Member} {x : Action}
    (hx : x ∈ d.constructorActions members) :
    ∃ plan, x = .constructor plan d.factoryBinding? ∧ ∀ m ∈ plan.members, m ∈ members := by
  obtain ⟨k, superParams, rfl⟩ := kind_of_mem_constructorActions hx
  exact ⟨_, rfl, fun m hm => (sublist_select k members).subset hm⟩

/-- The methods of every object are synthesized from the members. -/
theorem mem_objectActions {d : TypeDeclaration} {members : List Member} {x : Action}
    (hx : x ∈ d.objectActions members) :
    (∃ t, x = .display members t) ∨ (∃ e, x = .equals members e) ∨
      ∃ h, x = .hashCode members h := by
  simp only [objectActions, List.mem_append, Option.mem_toList, Option.map_eq_some_iff] at hx
  obtain (⟨t, _, rfl⟩ | ⟨e, _, rfl⟩) | ⟨h, _, rfl⟩ := hx
  · exact .inl ⟨t, rfl⟩
  · exact .inr (.inl ⟨e, rfl⟩)
  · exact .inr (.inr ⟨h, rfl⟩)

/-- What comes after the methods uses planned fields, and no field is among it. -/
theorem later_actions {d : TypeDeclaration} {a : Analysis} (h : a.Ordered) {x : Action}
    (hx : x ∈ d.constructorActions a.members ++ d.objectActions a.members) :
    x.isUpfront = false ∧ ∀ name ∈ x.storage, name ∈ a.fields := by
  obtain hx | hx := List.mem_append.mp hx
  · obtain ⟨plan, rfl, hmembers⟩ := mem_constructorActions hx
    refine ⟨rfl, fun name hname => ?_⟩
    obtain ⟨m, hm, rfl⟩ := List.mem_map.mp hname
    exact h.members m (hmembers m hm)
  · obtain ⟨_, rfl⟩ | ⟨_, rfl⟩ | ⟨_, rfl⟩ := mem_objectActions hx <;>
      exact ⟨rfl, fun _ hname => nomatch hname⟩

/-- What is planned for a type is planned for a method of it or of a type above it, or comes from
the directives of the type. -/
theorem ensures_plan (d : TypeDeclaration) (fluent : Bool) :
    Ensures (d.plan fluent) fun q => ∀ x ∈ q, x.PlannedIn d := by
  refine (Analysis.ensures_plannedFor fluent d).bind fun a ha => .pure fun x hx => ?_
  rw [List.append_assoc, List.mem_append, List.mem_append] at hx
  obtain hx | hx | hx := hx
  · obtain ⟨m, hm⟩ := ha x hx
    exact .method hm
  · obtain ⟨plan, rfl, -⟩ := mem_constructorActions hx
    exact .constructor plan
  · obtain ⟨t, rfl⟩ | ⟨e, rfl⟩ | ⟨h, rfl⟩ := mem_objectActions hx
    · exact .display _ t
    · exact .equals _ e
    · exact .hashCode _ h

/-- All actions for a type whose methods are planned so. -/
def actionsFor (d : TypeDeclaration) (a : Analysis) : ActionQueue :=
  a.queue ++ (d.constructorActions a.members ++ d.objectActions a.members)

theorem of_run_plan {d : TypeDeclaration} {fluent : Bool} {s s' : Session} {q : ActionQueue}
    (hplan : s.run (d.plan fluent) = (.ok q, s')) :
    ∃ a : Analysis, a.Ordered ∧ a.UsesFields ∧ q = d.actionsFor a := by
  obtain ⟨a, s₁, hanalysis, hrest⟩ := of_run_bind_ok hplan
  obtain ⟨hq, -⟩ := Prod.mk.inj hrest
  obtain rfl := Except.ok.inj hq
  refine ⟨a, ?_, ?_, List.append_assoc _ _ _⟩
  · exact Analysis.ensures_ofType (fun _ m h => h.classify fluent m) d Analysis.Ordered.initial s a
      s₁ hanalysis
  · exact Analysis.ensures_ofType (P := Analysis.UsesFields) (fun _ m h => h.classify fluent m) d
      (fun _ h => nomatch h) s a s₁ hanalysis

section ActionsFor

variable {d : TypeDeclaration} {a : Analysis} (h : a.Ordered)
include h

theorem fieldNames_actionsFor :
    (d.actionsFor a).filterMap Action.fieldName? = a.fields.reverse := by
  have hnone : (d.constructorActions a.members ++ d.objectActions a.members).filterMap
      Action.fieldName? = [] :=
    List.filterMap_eq_nil_iff.mpr fun x hx =>
      Action.fieldName?_of_not_upfront (later_actions h hx).1
  rw [actionsFor, List.filterMap_append, h.fields, hnone, List.append_nil]

theorem stored_actionsFor {x : Action} (hx : x ∈ d.actionsFor a) {name : String}
    (hname : name ∈ x.storage) : name ∈ a.fields := by
  obtain hx | hx := List.mem_append.mp hx
  · exact h.stored x hx name hname
  · exact (later_actions h hx).2 name hname

theorem upfront_actionsFor :
    (d.actionsFor a).Pairwise fun x y => y.isUpfront → x.isUpfront := by
  refine List.pairwise_append.mpr ⟨h.upfront, ?_, ?_⟩
  · refine List.pairwise_of_forall_mem_list fun x _ y hy hfront => ?_
    simp [(later_actions h hy).1] at hfront
  · intro x _ y hy hfront
    simp [(later_actions h hy).1] at hfront

/-- The fields that an action uses are planned in front of it. -/
theorem stored_before {before after : ActionQueue} {x : Action}
    (hq : d.actionsFor a = before ++ x :: after) {name : String} (hname : name ∈ x.storage) :
    name ∈ before.filterMap Action.fieldName? := by
  have hx : x.isUpfront = false := Action.not_upfront_of_mem_storage hname
  have hfields := fieldNames_actionsFor (d := d) h
  have hupfront := upfront_actionsFor (d := d) h
  rw [hq] at hfields hupfront
  have hplanned : name ∈ a.fields.reverse :=
    List.mem_reverse.mpr (stored_actionsFor h (hq ▸ List.mem_append_right _ List.mem_cons_self) hname)
  have hrest : (x :: after).filterMap Action.fieldName? = [] := by
    refine List.filterMap_eq_nil_iff.mpr fun y hy => Action.fieldName?_of_not_upfront ?_
    obtain rfl | hy := List.mem_cons.mp hy
    · exact hx
    · have hbehind := (List.pairwise_cons.mp (List.pairwise_append.mp hupfront).2.1).1 y hy
      exact Bool.eq_false_iff.mpr fun hfront => Bool.eq_false_iff.mp hx (hbehind hfront)
  rwa [← hfields, List.filterMap_append, hrest, List.append_nil] at hplanned

end ActionsFor

/-- **The order of a planned queue.** One field is planned for each name that an action uses, and no
field without a use. In front of a field there are only fields and methods of invocations. -/
theorem plan_ordered {d : TypeDeclaration} {fluent : Bool} {s s' : Session} {q : ActionQueue}
    (hplan : s.run (d.plan fluent) = (.ok q, s')) :
    (q.filterMap Action.fieldName?).Nodup ∧
      (∀ name, name ∈ q.filterMap Action.fieldName? ↔ ∃ x ∈ q, name ∈ x.storage) ∧
      q.Pairwise fun x y => y.isField → x.isField ∨ x.isInvocation := by
  obtain ⟨a, hordered, huses, rfl⟩ := of_run_plan hplan
  have hfields := fieldNames_actionsFor (d := d) hordered
  refine ⟨hfields ▸ List.nodup_reverse.mpr hordered.nodup, fun name => ?_, ?_⟩
  · rw [hfields, List.mem_reverse]
    constructor
    · intro hname
      obtain ⟨x, hx, hstored⟩ := huses name hname
      exact ⟨x, List.mem_append_left _ hx, hstored⟩
    · rintro ⟨x, hx, hstored⟩
      exact stored_actionsFor hordered hx hstored
  · refine (upfront_actionsFor hordered).imp fun {x y} h hy => ?_
    simpa [Action.isUpfront] using h (Action.isUpfront_of_isField hy)

/-! ### An invocation in front of the field that it refers to -/

/-- A method that returns the field `name`. -/
def nameAccessor : MethodDeclaration where
  name := "getName"
  returnType := .string
  isAbstract := true

/-- Refers to the field `name`. -/
def trimName : InvokeDirective where
  invocations := ["this.name.trim()"]
  returns := .lastCall

def trimmedName : MethodDeclaration where
  name := "trimmed"
  returnType := .string
  isAbstract := true
  directives := { invoke := some trimName }

/-- An interface with the field `name`, and a method that is met after it. -/
def trimmedPerson : TypeDeclaration where
  qualifiedName := "demo.Person"
  methods := [nameAccessor, trimmedName]
  directives := { generate := some {} }

/-- In this queue, the invocation that refers to the field stands in front of it. -/
theorem plan_ordered_trimmedPerson :
    ∃ q s', Session.run { model := { types := [trimmedPerson] }, pool := { major := 52 } }
        (trimmedPerson.plan false) = (.ok q, s') ∧
      q.map Action.isInvocation = [true, false, false] ∧
      q.filterMap Action.fieldName? = ["name"] ∧
      (∃ x ∈ q, "name" ∈ x.storage) ∧
      q.Pairwise fun x y => y.isField → x.isField ∨ x.isInvocation := by
  let q : ActionQueue :=
    [.invoke trimmedName trimName, .field "name" .string,
      .accessor (.ofAccessor "name" nameAccessor)]
  let s : Session := { model := { types := [trimmedPerson] }, pool := { major := 52 } }
  have hplan : s.run (trimmedPerson.plan false) = (.ok q, s) := rfl
  obtain ⟨-, hfields, hbefore⟩ := plan_ordered hplan
  exact ⟨q, s, hplan, rfl, rfl, (hfields "name").mp (by decide), hbefore⟩

end TypeDeclaration

end ClassSynth

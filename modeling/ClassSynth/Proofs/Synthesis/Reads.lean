import ClassSynth.Proofs.Synthesis.Acceptance
import ClassSynth.Synthesis.Display
import ClassSynth.Synthesis.Equality

/-!
# What synthesized bodies read and assign

A constructor assigns to the field of each member the parameter at the place of the member
(`ConstructorPlan.assignments_body`), whose type is that of the field. The methods of every object
call the accessors of the members that take part, one after the other: `toString` and `hashCode` on
the object itself, `equals` on both objects.
-/

namespace ClassSynth

/-! ## Calls on objects -/

namespace Expr

def isThis : Expr → Bool
  | this => true
  | _ => false

/-- Is it the local variable of this name? -/
def isLocal (name : String) : Expr → Bool
  | localVar other _ => other == name
  | _ => false

section

variable (isTarget : Expr → Bool)

mutual

/-- The methods that an expression calls on the targets, in the order of the calls. Inherited methods
are not among them. -/
def callsOn : Expr → List MethodRef
  | this | param _ | localVar _ _ | null | bool _ | int _ | str _ | getStatic _ => []
  | getField target _ => target.callsOn
  | invoke kind method target args =>
    callsOnOption target ++ callsOnList args ++
      if kind ≠ .special ∧ target.any isTarget then [method] else []
  | new _ _ args => callsOnList args
  | newArray _ items => callsOnList items
  | cast _ value => value.callsOn
  | boxed value _ => value.callsOn
  | unboxed value _ => value.callsOn
  | and items => callsOnList items
  | compare _ lhs rhs => lhs.callsOn ++ rhs.callsOn
  | arith _ lhs rhs => lhs.callsOn ++ rhs.callsOn

def callsOnList : List Expr → List MethodRef
  | [] => []
  | e :: rest => e.callsOn ++ callsOnList rest

def callsOnOption : Option Expr → List MethodRef
  | none => []
  | some e => e.callsOn

end

end

variable {isTarget : Expr → Bool}

@[simp] theorem callsOn_invokeVirtual (target : Expr) (method : MethodRef) (args : List Expr) :
    (target.invokeVirtual method args).callsOn isTarget =
      target.callsOn isTarget ++ callsOnList isTarget args ++
        if isTarget target then [method] else [] := by
  unfold invokeVirtual
  cases method.onInterface <;> simp [callsOn, callsOnOption]

@[simp] theorem callsOn_invokeStatic (method : MethodRef) (args : List Expr) :
    (invokeStatic method args).callsOn isTarget = callsOnList isTarget args := by
  simp [invokeStatic, callsOn, callsOnOption]

@[simp] theorem callsOn_invokeSuper (method : MethodRef) (args : List Expr) :
    (invokeSuper method args).callsOn isTarget = callsOnList isTarget args := by
  simp [invokeSuper, callsOn, callsOnOption]

/-- Expressions of which each makes one call. -/
theorem callsOnList_map {α : Type} {f : α → Expr} {method : α → MethodRef}
    (h : ∀ x, (f x).callsOn isTarget = [method x]) (xs : List α) :
    callsOnList isTarget (xs.map f) = xs.map method := by
  induction xs with
  | nil => rfl
  | cons x xs ih => rw [List.map_cons, callsOnList, h, ih, List.map_cons, List.singleton_append]

theorem callsOnList_append (es es' : List Expr) :
    callsOnList isTarget (es ++ es') = callsOnList isTarget es ++ callsOnList isTarget es' := by
  induction es with
  | nil => rfl
  | cons e es ih => rw [List.cons_append, callsOnList, callsOnList, ih, List.append_assoc]

end Expr

namespace Stmt

section

variable (isTarget : Expr → Bool)

mutual

/-- The methods that a statement calls on the targets. -/
def callsOn : Stmt → List MethodRef
  | setField target _ value => target.callsOn isTarget ++ value.callsOn isTarget
  | declareLocal _ _ value => value.callsOn isTarget
  | setLocal _ value => value.callsOn isTarget
  | expr value => value.callsOn isTarget
  | ifThen cond body => cond.callsOn isTarget ++ callsOnList body
  | ret value => Expr.callsOnOption isTarget value
  | throw value => value.callsOn isTarget
  | superInit _ _ args => Expr.callsOnList isTarget args

/-- The methods that a body calls on the targets. -/
def callsOnList : List Stmt → List MethodRef
  | [] => []
  | s :: rest => s.callsOn ++ callsOnList rest

end

end

variable {isTarget : Expr → Bool}

theorem callsOnList_append (ss ss' : List Stmt) :
    callsOnList isTarget (ss ++ ss') = callsOnList isTarget ss ++ callsOnList isTarget ss' := by
  induction ss with
  | nil => rfl
  | cons s ss ih => rw [List.cons_append, callsOnList, callsOnList, ih, List.append_assoc]

/-- The field of the receiver that a statement sets, and what it sets it to. -/
def assignment? : Stmt → Option (FieldRef × Expr)
  | setField .this field value => some (field, value)
  | _ => none

end Stmt

/-! ## Members -/

/-- The accessor of the member. -/
def Member.reader (m : Member) (owner : TypeName) : MethodRef where
  owner
  name := m.accessor.name
  params := []
  ret := m.exposedType

theorem Member.callsOn_read {isTarget : Expr → Bool} (m : Member) (owner : TypeName)
    (target : Expr) : (m.read owner target).callsOn isTarget =
      target.callsOn isTarget ++ if isTarget target then [m.reader owner] else [] := by
  rw [read, Expr.callsOn_invokeVirtual, Expr.callsOnList, List.append_nil]
  rfl

theorem Member.callsOn_read_this (m : Member) (owner : TypeName) :
    (m.read owner .this).callsOn Expr.isThis = [m.reader owner] :=
  m.callsOn_read owner .this

/-! ## Constructors -/

namespace ConstructorPlan

/-- A constructor assigns each member the parameter at its place, and nothing else. -/
theorem assignments_body (plan : ConstructorPlan) (owner superclass : TypeName) :
    (plan.body owner superclass).filterMap Stmt.assignment? =
      plan.members.zipIdx.map fun (m, i) => (m.fieldRef owner, .param (i + 1)) := by
  have hassign : (plan.members.zipIdx.map fun (m, i) =>
      Stmt.setField .this (m.fieldRef owner) (.param (i + 1))).filterMap Stmt.assignment? =
        plan.members.zipIdx.map fun (m, i) => (m.fieldRef owner, .param (i + 1)) := by
    rw [List.filterMap_map, ← List.filterMap_eq_map]
    rfl
  rw [body, List.filterMap_append, List.filterMap_cons_none rfl, hassign,
    List.filterMap_cons_none rfl, List.filterMap_nil, List.append_nil]

end ConstructorPlan

namespace Synthesis

variable {owner superclass : TypeName}

/-! ## Bodies of `toString` -/

theorem callsOn_append {builder value : Expr} {t : TypeName} (h : builder.isThis = false) :
    (append builder value t).callsOn Expr.isThis =
      builder.callsOn Expr.isThis ++ value.callsOn Expr.isThis := by
  simp [append, Expr.callsOnList, h]

theorem callsOn_appendText {builder : Expr} {text : String} (h : builder.isThis = false) :
    (appendText builder text).callsOn Expr.isThis = builder.callsOn Expr.isThis := by
  rw [appendText, callsOn_append h, Expr.callsOn, List.append_nil]

theorem callsOn_appendMember {builder : Expr} (m : Member) (h : builder.isThis = false) :
    (appendMember owner builder m).callsOn Expr.isThis =
      builder.callsOn Expr.isThis ++ [m.reader owner] := by
  rw [appendMember, callsOn_append rfl, callsOn_appendText h,
    m.callsOn_read_this]

/-- Members that are appended one after the other are read so. -/
theorem callsOn_foldl {f : Expr → Member → Expr}
    (hf : ∀ e m, e.isThis = false → (f e m).isThis = false ∧
      (f e m).callsOn Expr.isThis = e.callsOn Expr.isThis ++ [m.reader owner])
    (members : List Member) {start : Expr} (hstart : start.isThis = false) :
    (members.foldl f start).isThis = false ∧ (members.foldl f start).callsOn Expr.isThis =
      start.callsOn Expr.isThis ++ members.map (Member.reader · owner) := by
  induction members generalizing start with
  | nil => exact ⟨hstart, (List.append_nil _).symm⟩
  | cons m members ih =>
    obtain ⟨hthis, hcalls⟩ := hf start m hstart
    rw [List.foldl_cons, List.map_cons, List.append_cons, ← hcalls]
    exact ih hthis

theorem callsOn_appendMembers {builder : Expr} (members : List Member)
    (h : builder.isThis = false) :
    (appendMembers owner builder members).isThis = false ∧
      (appendMembers owner builder members).callsOn Expr.isThis =
        builder.callsOn Expr.isThis ++ members.map (Member.reader · owner) := by
  cases members with
  | nil => exact ⟨h, (List.append_nil _).symm⟩
  | cons m rest =>
    rw [List.map_cons, List.append_cons, ← callsOn_appendMember m h]
    refine callsOn_foldl (fun e m he => ⟨rfl, ?_⟩) rest rfl
    rw [callsOn_appendMember m rfl, callsOn_appendText he]

theorem callsOn_textOf {e : Expr} (h : e.isThis = false) :
    (textOf owner e).callsOn Expr.isThis = e.callsOn Expr.isThis := by
  simp [textOf, Expr.callsOnList, h]

theorem callsOn_builderDisplay (callSuper : Bool) (members : List Member) :
    (builderDisplay callSuper owner superclass members).callsOn Expr.isThis =
      members.map (Member.reader · owner) := by
  have hstart : (Expr.new builderClass [.string] [.str (owner.simpleName ++ "\x7b")]).isThis =
    false := rfl
  obtain ⟨hthis, hcalls⟩ := @callsOn_appendMembers owner _ members hstart
  have hshown := (@callsOn_appendText _ "\x7d" hthis).trans hcalls
  unfold builderDisplay
  dsimp only
  cases callSuper with
  | false =>
    rw [if_neg Bool.false_ne_true, callsOn_textOf rfl, hshown]
    rfl
  | true =>
    rw [if_pos rfl, callsOn_textOf rfl, callsOn_append rfl, hshown, Expr.callsOn_invokeSuper]
    exact List.append_nil _

theorem callsOn_helperDisplay (members : List Member) :
    (helperDisplay owner members).callsOn Expr.isThis = members.map (Member.reader · owner) := by
  have hadd (e : Expr) (m : Member) (he : e.isThis = false) :
      (addMember owner e m).isThis = false ∧ (addMember owner e m).callsOn Expr.isThis =
        e.callsOn Expr.isThis ++ [m.reader owner] :=
    ⟨rfl, by simp [addMember, Expr.callsOnList, Expr.callsOn, m.callsOn_read_this, he]⟩
  have hstart : (Expr.invokeStatic
      { owner := helperSource, name := "toStringHelper", params := [.object], ret := helperClass }
      [.this]).isThis = false := rfl
  obtain ⟨hthis, hcalls⟩ := callsOn_foldl hadd members hstart
  rw [helperDisplay, callsOn_textOf hthis, hcalls]
  rfl

/-- **What `toString` reads.** -/
theorem callsOn_toStringBody (d : ToStringDirective) (members : List Member) :
    Stmt.callsOnList Expr.isThis (toStringBody d owner superclass members) =
      (shownMembers members).map (Member.reader · owner) := by
  unfold toStringBody
  rw [Stmt.callsOnList, Stmt.callsOnList, List.append_nil, Stmt.callsOn, Expr.callsOnOption]
  split_ifs
  · exact callsOn_helperDisplay _
  · exact callsOn_builderDisplay _ _

/-! ## Bodies of `equals` -/

section

variable {isTarget : Expr → Bool} {a b : Expr}

theorem callsOn_valuesEqual (nullSafe : Bool) (t : TypeName) (ha : isTarget a = false) :
    (valuesEqual nullSafe t a b).callsOn isTarget =
      a.callsOn isTarget ++ b.callsOn isTarget := by
  unfold valuesEqual
  split
  · simp [floatsEqual, Expr.callsOn, Expr.callsOnList]
  · simp [floatsEqual, Expr.callsOn, Expr.callsOnList]
  · rfl
  · unfold referencesEqual
    split_ifs <;> simp [Expr.callsOnList, ha]

/-- The tests of the members call on the targets what the tests of each member do. -/
theorem callsOn_equalsTests (d : EqualsDirective) (members : List Member)
    (h : ∀ m : Member, (memberEqual d owner m).callsOn isTarget = [m.reader owner]) :
    Expr.callsOnList isTarget (equalsTests d owner superclass members) =
      members.map (Member.reader · owner) := by
  rw [equalsTests, Expr.callsOnList_append, Expr.callsOnList_map h]
  split_ifs <;> simp [Expr.callsOnList, Expr.callsOn]

end

/-- The members are read after the tests in front of them. -/
theorem callsOn_equalsBody {isTarget : Expr → Bool} (d : EqualsDirective) (members : List Member)
    (h : ∀ m : Member, (memberEqual d owner m).callsOn isTarget = [m.reader owner]) :
    Stmt.callsOnList isTarget (equalsBody d owner superclass members) =
      Stmt.callsOnList isTarget equalsPrelude ++
        (comparedMembers members).map (Member.reader · owner) := by
  unfold equalsBody
  dsimp only
  rw [Stmt.callsOnList_append]
  congr 1
  split_ifs with hempty
  · rw [List.isEmpty_iff.mp hempty]
    rfl
  · rw [← callsOn_equalsTests d _ h]
    exact List.append_nil _

/-- The method that gives the class of an object. -/
def classGetter : MethodRef where
  owner := .object
  name := "getClass"
  params := []
  ret := ⟨"java.lang.Class"⟩

/-- **What `equals` reads of the object itself**, after its class. -/
theorem callsOn_this_equalsBody (d : EqualsDirective) (members : List Member) :
    Stmt.callsOnList Expr.isThis (equalsBody d owner superclass members) =
      classGetter :: (comparedMembers members).map (Member.reader · owner) := by
  refine callsOn_equalsBody d members fun m => ?_
  rw [memberEqual, callsOn_valuesEqual _ _ rfl, m.callsOn_read_this, m.callsOn_read]
  rfl

/-- **What `equals` reads of the other object.** -/
theorem callsOn_other_equalsBody (d : EqualsDirective) (members : List Member) :
    Stmt.callsOnList (Expr.isLocal otherName) (equalsBody d owner superclass members) =
      (comparedMembers members).map (Member.reader · owner) := by
  refine callsOn_equalsBody d members fun m => ?_
  rw [memberEqual, callsOn_valuesEqual _ _ rfl, m.callsOn_read, m.callsOn_read]
  rfl

/-! ## Bodies of `hashCode` -/

theorem callsOn_memberObject (m : Member) :
    (memberObject owner m).callsOn Expr.isThis = [m.reader owner] := by
  unfold memberObject
  dsimp only
  split_ifs
  · exact m.callsOn_read_this owner
  · exact m.callsOn_read_this owner

/-- **What `hashCode` reads.** -/
theorem callsOn_hashCodeBody (d : HashCodeDirective) (members : List Member) :
    Stmt.callsOnList Expr.isThis (hashCodeBody d owner superclass members) =
      (hashedMembers members).map (Member.reader · owner) := by
  have hinherited : Stmt.callsOnList Expr.isThis
      (if d.callSuper then [takeIn (inheritedHash superclass)] else []) = [] := by
    split_ifs <;> rfl
  have hmembers : Stmt.callsOnList Expr.isThis
      (if (hashedMembers members).isEmpty then [] else
        [takeIn (membersHash owner (hashedMembers members))]) =
      (hashedMembers members).map (Member.reader · owner) := by
    split_ifs with hempty
    · rw [List.isEmpty_iff.mp hempty]
      rfl
    · simp [Stmt.callsOnList, takeIn, Stmt.callsOn, Expr.callsOn, resultVar, membersHash,
        Expr.callsOnList, Expr.callsOnList_map callsOn_memberObject]
  unfold hashCodeBody
  dsimp only
  rw [Stmt.callsOnList_append, Stmt.callsOnList_append, Stmt.callsOnList_append, hinherited,
    hmembers]
  exact List.append_nil _

end Synthesis

end ClassSynth

import ClassSynth.Proofs.Generation.Actions
import ClassSynth.Proofs.Generation.Repetition
import ClassSynth.Proofs.Output.Results

/-!
# Fields of generated classes

Accessors and constructors give a field the type of the accessor, while the class declares it with
the type of the first request. So the requests for a name have to agree. If they do, and if the
fields that the class has already agree with them, too, then every field of the class that the body
of an action reads or sets is declared by the finished class, or inherited (`realize_resolves`).

The order of the queue matters: an action comes behind the fields that it uses. Methods of
invocations may come before a field, but they look up what they refer to.
-/

namespace ClassSynth

namespace ClassUnit

variable {built c c' : ClassUnit}

/-- One operation makes the later class, and `built` resolves the fields in its body. -/
def ResolvedIn (built c c' : ClassUnit) : Prop :=
  ∃ op : ClassOp, c.runEdit op.step = (.ok (), c') ∧ ∀ f ∈ op.fieldRefs, built.Resolves f

/-- What is provided at first is resolved at last. -/
theorem Grounds.resolvedIn (h : c.Grounds built) (hindexable : built.file.pool.Indexable) :
    Relation.ReflTransGen built.ResolvedIn c built := by
  induction h using Relation.ReflTransGen.head_induction_on with
  | refl => exact .refl
  | head hfirst hrest ih =>
    obtain ⟨op, hrun, hprovides⟩ := hfirst.operation
    exact .head ⟨op, hrun, fun f hf =>
      (hprovides f hf).keep (.head hfirst hrest) hindexable⟩ ih

theorem Grounds.name (h : c.Grounds c') : c'.name = c.name := by
  induction h with
  | refl => rfl
  | tail _ hlast ih =>
    obtain ⟨⟨op, hrun, -⟩, -⟩ := hlast
    exact (KeepsMembers.of_step hrun).name.trans ih

end ClassUnit

namespace ActionQueue

open Session

/-- What the actions of a queue demand of the fields. -/
def demands (q : ActionQueue) : List (String × TypeName) := q.flatMap Action.demands

/-- A queue whose actions come behind the fields that they use. -/
theorem makes_applyAll_grounded {demands : List (String × TypeName)}
    (hconsistent : Action.Consistent demands) (done : ActionQueue) {rest : ActionQueue}
    {c : ClassUnit}
    (hready : c.Ready demands (done.filterMap Action.fieldName?))
    (hdemands : ActionQueue.demands rest ⊆ demands)
    (hstored : ∀ before x after, rest = before ++ x :: after → ∀ name ∈ x.storage,
      name ∈ (done ++ before).filterMap Action.fieldName?) :
    Makes c rest.applyAll fun _ c' => c.Grounds c' := by
  induction rest generalizing c done with
  | nil => exact .pure .refl
  | cons x rest ih =>
    have hstorage : ∀ name ∈ x.storage, name ∈ done.filterMap Action.fieldName? := by
      simpa using hstored [] x rest rfl
    obtain ⟨hfirst, hothers⟩ := List.append_subset.mp hdemands
    refine makes_cons (Action.makes_apply hready hstorage hfirst hconsistent)
      fun c₁ ⟨hgrounds, hready₁⟩ => ?_
    refine (ih (done ++ [x]) ?_ hothers ?_).mono fun _ _ hrest => hgrounds.trans hrest
    · refine hready₁.subset fun name hname => ?_
      rw [List.filterMap_append, List.mem_append] at hname
      rw [List.mem_append]
      exact hname.symm.imp_left fun hx => by simpa using hx
    · intro before y after hrest name hname
      rw [List.append_assoc]
      exact hstored (x :: before) y after (hrest ▸ rfl) name hname

end ActionQueue

/-- An interface with the method `java.lang.String getName()`. -/
def namedType : TypeDeclaration where
  qualifiedName := "demo.Named"
  methods := [TypeDeclaration.nameAccessor]
  directives := { generate := some {} }

end ClassSynth

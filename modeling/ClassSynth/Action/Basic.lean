import ClassSynth.Synthesis.Member
import ClassSynth.Synthesis.Display
import ClassSynth.Synthesis.Equality

/-!
# Actions

An action adds one member to the class under construction, or checks to a method of it. Actions are
planned first and carried out later, from the front of a queue to its back.
-/

namespace ClassSynth

/-- A static method that makes instances of the class under construction. -/
structure FactoryPlan where
  directive : FactoryDirective
  /-- What the method returns. -/
  sourceType : TypeName
  params : List TypeName
  deriving DecidableEq, Repr

/-- The factory that comes with a constructor. -/
structure FactoryBinding where
  directive : FactoryDirective
  sourceType : TypeName
  deriving DecidableEq, Repr

/-- What is done to a class. -/
inductive Action
  | field (name : String) (type : TypeName)
  | accessor (member : Member)
  /-- A method that sets the field of a name. -/
  | mutator (field : String) (method : MethodDeclaration)
  | invoke (method : MethodDeclaration) (directive : InvokeDirective)
  | constructor (plan : ConstructorPlan) (factory : Option FactoryBinding)
  | factory (plan : FactoryPlan)
  | equals (members : List Member) (directive : EqualsDirective)
  | hashCode (members : List Member) (directive : HashCodeDirective)
  | display (members : List Member) (directive : ToStringDirective)
  /-- Checks the parameters of a method that has a body. -/
  | nonNull (method : MethodDeclaration)
  deriving Repr

end ClassSynth

namespace ClassSynth.Action

/-! ## Labels of actions

One line for each action. The label of a method of all members counts those that take part.
-/

/-- The label of an action. -/
def label : Action → String
  | field name type => "field " ++ type.text ++ " " ++ name
  | accessor member => "accessor " ++ member.render
  | mutator stored method => "mutator " ++ method.name ++ " -> " ++ stored
  | invoke method directive =>
    "invoke " ++ method.name ++ s!" ({directive.invocations.length} calls)"
  | constructor plan _ =>
    "constructor (" ++ ", ".intercalate (plan.members.map Member.field) ++
      s!") + {plan.superParams.length} super"
  | factory plan =>
    "factory " ++ plan.directive.location ++ "." ++ plan.directive.method ++ " -> " ++
      plan.sourceType.text
  | equals members _ => s!"equals over {(Synthesis.comparedMembers members).length} members"
  | hashCode members _ => s!"hashCode over {(Synthesis.hashedMembers members).length} members"
  | display members directive =>
    "toString (" ++ (if directive.useHelper then "helper" else "builder") ++
      s!") over {(Synthesis.shownMembers members).length} members"
  | nonNull method =>
    let checked := method.nonNullParams.map fun (i, _) => s!"${i}"
    "non-null " ++ method.name ++ "(" ++ ", ".intercalate checked ++ ")"

end ClassSynth.Action

namespace ClassSynth

/-! ## Queues of actions

The actions for one class, carried out from front to back.
-/

/-- Actions in the order in which they are carried out. -/
abbrev ActionQueue := List Action

namespace ActionQueue

def pushFront (q : ActionQueue) (a : Action) : ActionQueue := a :: q

def pushBack (q : ActionQueue) (a : Action) : ActionQueue := q ++ [a]

/-- The first action and the rest. -/
def popFront? : ActionQueue → Option (Action × ActionQueue)
  | [] => none
  | a :: rest => some (a, rest)

/-- One line for each action. -/
def labels (q : ActionQueue) : List String := q.map Action.label

/-- The labels as one text. -/
def inspect (q : ActionQueue) : String := quotedList (labels q)

end ActionQueue

end ClassSynth

import ClassSynth.Action.Basic
import ClassSynth.Naming
import ClassSynth.Session

/-!
# Analysis

Plans the actions for a type. The type and the types above it are visited level by level, each
once, and every abstract method of an object is classified where its name and descriptor come
first: a method that sets a field, one that returns a field, or one that runs invocations. A
method with a body hides the abstract ones that come after it.

Fields come to the front of the queue, and a field that two methods share is planned once. Checks of
parameters follow the method that they belong to.
-/

namespace ClassSynth

/-- What is planned for a type. -/
structure Analysis where
  queue : ActionQueue := []
  /-- The names of the planned fields. -/
  fields : List String := []
  /-- The members in the order in which they were found. -/
  members : List Member := []

namespace Analysis

/-! ## Methods -/

/-- Plans a field, unless one of its name is planned. -/
def addField (a : Analysis) (name : String) (t : TypeName) : Analysis :=
  if a.fields.contains name then a
  else { a with fields := a.fields ++ [name], queue := a.queue.pushFront (.field name t) }

/-- Plans an action after all others. -/
def addLast (a : Analysis) (action : Action) : Analysis :=
  { a with queue := a.queue.pushBack action }

/-- Plans the checks of the parameters of a method. -/
def addChecks (a : Analysis) (m : MethodDeclaration) : Analysis :=
  if m.nonNullParams.isEmpty then a else a.addLast (.nonNull m)

/-- Plans a method that sets a field. -/
def addMutator (a : Analysis) (field : String) (t : TypeName) (m : MethodDeclaration) : Analysis :=
  ((a.addField field t).addLast (.mutator field m)).addChecks m

/-- Plans a method that returns a field. -/
def addAccessor (a : Analysis) (member : Member) : Analysis :=
  let a := (a.addField member.field member.storedType).addLast (.accessor member)
  { a with members := a.members ++ [member] }.addChecks member.accessor

/-- Plans a method of invocations, before everything that is planned so far. -/
def addInvocations (a : Analysis) (m : MethodDeclaration) (d : InvokeDirective) : Analysis :=
  { a with queue := a.queue.pushFront (.invoke m d) }.addChecks m

/-- The name of the field of a method: the given one, or the one that the name of the method
tells. -/
def fieldOf? (fluent : Bool) (kind : MemberKind) (m : MethodDeclaration) : Option String :=
  match m.directives.fieldName? with
  | some name => some name
  | none => Naming.field? fluent kind m.name

/-- Plans an abstract method, if it is of a known kind. -/
def classify (fluent : Bool) (a : Analysis) (m : MethodDeclaration) : Analysis :=
  match m.directives.invoke with
  | some d => a.addInvocations m d
  | none =>
    match m.paramTypes with
    | [t] =>
      match fieldOf? fluent .mutator m with
      | some field => a.addMutator field t m
      | none => a
    | [] =>
      if m.returnType.isVoid then a
      else
        match fieldOf? fluent .accessor m with
        | some field => a.addAccessor (.ofAccessor field m)
        | none => a
    | _ => a

end Analysis

/-! ## Types -/

/-- A visit of a type and the types above it. -/
structure Survey where
  /-- The types to visit, in order. -/
  worklist : List TypeDeclaration
  /-- The names of the visited types. -/
  seenTypes : List String := []
  /-- The keys of the methods that hide later ones. -/
  seenMethods : List String := []
  analysis : Analysis := {}

namespace Survey

/-- Notes the methods with a body. -/
def noteBodies (s : Survey) (d : TypeDeclaration) : Survey :=
  let bodies := d.methods.filter fun m => !m.isAbstract && !m.isStatic
  { s with seenMethods := s.seenMethods ++ bodies.map MethodDeclaration.key }

/-- Visits an abstract method. An excluded method is not planned but hides later ones. -/
def visitMethod (fluent : Bool) (s : Survey) (m : MethodDeclaration) : Survey :=
  if s.seenMethods.contains m.key then s
  else
    let s := { s with seenMethods := s.seenMethods ++ [m.key] }
    if m.directives.exclude then s
    else { s with analysis := s.analysis.classify fluent m }

/-- Visits the methods of a type. -/
def visitMethods (fluent : Bool) (s : Survey) (d : TypeDeclaration) : Survey :=
  (d.abstractMethods.filter (! ·.isStatic)).foldl (visitMethod fluent) (s.noteBodies d)

/-- Queues a supertype. One that cannot be found is skipped, unless the pool validates. -/
def queueSupertype (s : Survey) (t : TypeName) : Session.Step Survey := do
  match ← Session.declarationOf t with
  | some parent => return { s with worklist := s.worklist ++ [parent] }
  | none => if (← get).pool.validate then throw (.missingSymbol t.text) else return s

/-- Visits a type. -/
def visitType (fluent : Bool) (s : Survey) (d : TypeDeclaration) : Session.Step Survey := do
  if s.seenTypes.contains d.qualifiedName then return s
  let s := { s with seenTypes := s.seenTypes ++ [d.qualifiedName] }
  d.supertypes.foldlM queueSupertype (s.visitMethods fluent d)

/-- Visits types until none is left, for as many rounds as the fuel allows. -/
def walk (fluent : Bool) : Nat → Survey → Session.Step Survey
  | 0, s => return s
  | fuel + 1, s =>
    match s.worklist with
    | [] => return s
    | d :: rest => do walk fluent fuel (← visitType fluent { s with worklist := rest } d)

end Survey

/-- No fewer types than a visit can queue: the first one, and the supertypes of each type of the
model and of each class. -/
def Session.surveyBound (s : Session) : Nat :=
  1 + (s.model.types.map fun d => d.supertypes.length).foldr (· + ·) 0 +
    ClassPool.maxSupertypes * s.pool.classCount

/-- Plans the methods of a type. -/
def Analysis.ofType (fluent : Bool) (d : TypeDeclaration) : Session.Step Analysis := do
  let fuel := (← get).surveyBound + 1
  return (← Survey.walk fluent fuel { worklist := [d] }).analysis

/-! ## Plans

What is done for a type beyond its methods: constructors for each kind that is asked for, and the
methods that every object has. Constructors without members call the inherited constructors with the
fewest parameters, the others those with the most.
-/

/-- Adds a constructor, unless one of its descriptor is there. -/
def addOverload (l : List ConstructorDeclaration) (c : ConstructorDeclaration) :
    List ConstructorDeclaration :=
  if l.any (·.descriptor == c.descriptor) then l else l ++ [c]

/-- The number of parameters that counts: the least or the greatest one. -/
def chosenArity? (fewest : Bool) (l : List ConstructorDeclaration) : Option Nat :=
  let arities := l.map fun c => c.params.length
  if fewest then arities.min? else arities.max?

/-- The constructors of the chosen number of parameters, one for each descriptor. -/
def chosenOverloads (fewest : Bool) (l : List ConstructorDeclaration) :
    List ConstructorDeclaration :=
  (l.filter fun c => some c.params.length == chosenArity? fewest l).foldl addOverload []

namespace ConstructorKind

/-- The members that a constructor of a kind takes. -/
def select (members : List Member) : ConstructorKind → List Member
  | noArgs => []
  | requiredArgs => members.filter fun m => !m.isOptional && !m.isVoid
  | allArgs => members.filter fun m => !m.isVoid

end ConstructorKind

namespace TypeDeclaration

/-- The parameters of the inherited constructors that constructors of a kind call. -/
def superParamLists (d : TypeDeclaration) (k : ConstructorKind) : List (List Parameter) :=
  match chosenOverloads (k = .noArgs) d.effectiveConstructors with
  | [] => [[]]
  | overloads => overloads.map (·.params)

/-- The factory that comes with each constructor. -/
def factoryBinding? (d : TypeDeclaration) : Option FactoryBinding :=
  d.directives.factory.map fun directive => { directive, sourceType := d.name }

/-- The constructors that a type asks for. -/
def constructorActions (d : TypeDeclaration) (members : List Member) : List Action :=
  match d.directives.constructor with
  | none => []
  | some directive => directive.distinctKinds.flatMap fun k =>
    (d.superParamLists k).map fun superParams =>
      .constructor { members := k.select members, superParams } d.factoryBinding?

/-- The methods of every object that a type asks for. -/
def objectActions (d : TypeDeclaration) (members : List Member) : List Action :=
  (d.directives.toString.map (Action.display members)).toList ++
    (d.directives.equals.map (Action.equals members)).toList ++
    (d.directives.hashCode.map (Action.hashCode members)).toList

/-- All actions for a type. -/
def plan (d : TypeDeclaration) (fluent : Bool) : Session.Step ActionQueue := do
  let a ← Analysis.ofType fluent d
  return a.queue ++ d.constructorActions a.members ++ d.objectActions a.members

/-- The checks of the methods that have a body, the last method first. -/
def checkPlan (d : TypeDeclaration) : ActionQueue :=
  let checked := d.methods.filter fun m => !m.isAbstract && !m.nonNullParams.isEmpty
  (checked.map Action.nonNull).reverse

end TypeDeclaration

end ClassSynth

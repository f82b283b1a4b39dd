import ClassSynth.Pool.Layer
import Std.Data.ExtHashMap

/-!
# Pools

Pools of classes, and the hierarchies in them.
-/

/-!
## Class pools

A pool answers for classes by name. It asks its layers in order and keeps what it loaded, so a
class that was changed stays changed. Lookups are steps on the pool: a step that fails keeps what
was loaded before it failed.
-/

namespace ClassSynth

/-- Classes by name over layers to load them from. -/
structure ClassPool where
  layers : List Layer := []
  /-- The loaded and the published classes. -/
  cache : Std.ExtHashMap String ClassUnit := ∅
  /-- The version of new classes. -/
  major : UInt16
  /-- A supertype that cannot be found is an error. -/
  validate : Bool := false

namespace ClassPool

/-- A step on a pool. -/
abbrev Step := ExceptT Error (StateM ClassPool)

/-- Runs a step. -/
def run {α : Type} (p : ClassPool) (step : Step α) : Except Error α × ClassPool :=
  step.run.run p

/-- A result as a step. -/
def lift {α : Type} (r : Except Error α) : Step α := r

/-! ### Kept classes -/

/-- The class that is kept under a name. -/
def cached? (p : ClassPool) (name : String) : Option ClassUnit := p.cache[name]?

/-- Keeps a class under a name, in the place of the one that was kept. -/
def keep (p : ClassPool) (name : String) (unit : ClassUnit) : ClassPool :=
  { p with cache := p.cache.insert name unit }

/-- Keeps no class under a name. -/
def forget (p : ClassPool) (name : String) : ClassPool :=
  { p with cache := p.cache.erase name }

/-! ### Loading -/

/-- The class that a layer gave for a name. -/
def ofLayer (l : Layer) (name : String) (bytes : Bytes) : Except Error ClassUnit := do
  let unit ← ClassUnit.ofBytes bytes
  if unit.name.text == name then return { unit with isStub := l.providesStubs }
  else throw (.codeGen (.unexpectedClass l.describe unit.name.text name))

/-- The class of a name in a layer. -/
def findIn (l : Layer) (name : String) : Except Error (Option ClassUnit) := do
  match ← l.find name with
  | some bytes => return some (← ofLayer l name bytes)
  | none => return none

/-- The class of a name in the first layer that has it, or the first failure. -/
def search (name : String) : List Layer → Except Error (Option ClassUnit)
  | [] => .ok none
  | l :: rest => do
    match ← findIn l name with
    | some unit => return some unit
    | none => search name rest

/-- Records the search: the layers up to the one that answers are asked. -/
def visitLayers (name : String) : List Layer → List Layer
  | [] => []
  | l :: rest =>
    l.visit name ::
      match l.find name with
      | .ok none => visitLayers name rest
      | _ => rest

/-- The class of a name: the one that is kept, or the one that the layers have. -/
def find (name : String) : Step (Option ClassUnit) := do
  let p ← get
  match p.cached? name with
  | some unit => return some unit
  | none =>
    modify fun p => { p with layers := visitLayers name p.layers }
    match ← lift (search name p.layers) with
    | some unit =>
      modify fun p => p.keep name unit
      return some unit
    | none => return none

/-- The class of a name, which must exist. -/
def getUnit (name : String) : Step ClassUnit := do
  match ← find name with
  | some unit => return unit
  | none => throw (.missingSymbol name)

/-! ### Changes -/

/-- Keeps a class under a name. -/
def put (name : String) (unit : ClassUnit) : Step Unit :=
  modify fun p => p.keep name unit

/-- Publishes a class in the place of the one of its name. -/
def insert (unit : ClassUnit) : Step Unit := put unit.name.text unit

/-- The class of a name, or a new class. -/
def getOrCreate (name : TypeName) : Step ClassUnit := do
  match ← find name.text with
  | some unit => return unit
  | none =>
    let unit := ClassUnit.newClass name (← get).major
    put name.text unit
    return unit

/-- Takes a class out of the pool. -/
def take (name : String) : Step ClassUnit := do
  let unit ← getUnit name
  modify fun p => p.forget name
  return unit

/-- Changes a class in its place. -/
def edit {α : Type} (name : String) (step : ClassUnit.Edit α) : Step α := do
  let (result, unit) := (← getUnit name).runEdit step
  put name unit
  lift result

def isCached (p : ClassPool) (name : String) : Bool := p.cache.contains name

def size (p : ClassPool) : Nat := p.cache.size

/-- The runs of compilers so far. -/
def compileRuns (p : ClassPool) : List CompileRequest := p.layers.flatMap Layer.compileRuns

end ClassPool

end ClassSynth

/-!
## Hierarchies

The classes above a class, level by level: its supertypes, their supertypes, and so on, every class
once. A supertype that cannot be found is skipped, unless the pool validates.

Members are looked up in this order: the first declaration of a descriptor hides the later ones.
-/

namespace ClassSynth

/-- No fewer classes than the layer can answer with. -/
def Layer.classCount : Layer → Nat
  | builtin => BuiltinClass.all.length
  | memory _ classes => classes.length
  | directory _ files => files.files.length
  | archive _ (some (.ok a)) => a.files.length
  | archive .. => 0
  | sources s =>
    match s.compiler s.request with
    | .ok output => output.files.length
    | .error _ => 0
  | model m _ => m.types.length

namespace ClassPool

/-- No fewer classes than lookups can find. -/
def classCount (p : ClassPool) : Nat :=
  p.size + (p.layers.map Layer.classCount).foldr (· + ·) 0

/-- No fewer direct supertypes than a class can have: a superclass, and interfaces counted in two
bytes. -/
def maxSupertypes : Nat := 65536

/-! ### Walking -/

/-- A walk over a hierarchy. -/
structure Walk where
  /-- The classes of the next level, in order. -/
  queue : List TypeName
  /-- The classes that were visited. -/
  seen : List TypeName := []
  /-- The classes that were found, last first. -/
  found : List TypeName := []

/-- Visits a class: its supertypes are on the next level, after those that are there already. -/
def visit (w : Walk) (name : TypeName) : Step Walk := do
  if w.seen.contains name then return w
  let w := { w with seen := name :: w.seen }
  match ← find name.text with
  | some unit =>
    return { w with queue := w.queue ++ (← lift unit.directSupertypes), found := name :: w.found }
  | none => if (← get).validate then throw (.missingSymbol name.text) else return w

/-- Visits the classes of one level. -/
def visitLevel (w : Walk) : Step Walk :=
  w.queue.foldlM visit { w with queue := [] }

/-- Visits levels until one is empty, for as many levels as the fuel allows. -/
def walk : Nat → Walk → Step Walk
  | 0, w => return w
  | fuel + 1, w => if w.queue.isEmpty then return w else do walk fuel (← visitLevel w)

/-- The classes above the roots, the roots among them. A level after the first one is empty unless
the level before had a class that was not found before, which bounds the levels. -/
def hierarchyOf (roots : List TypeName) : Step (List TypeName) := do
  let fuel := (← get).classCount + 1
  return (← walk fuel { queue := roots }).found.reverse

/-- The classes above a class, without the class. -/
def supertypes (name : TypeName) : Step (List TypeName) := do
  return (← hierarchyOf [name]).filter (· != name)

/-! ### Subtypes -/

/-- Can a value of a reference type stand where another one is expected? -/
def isSubtype (sub sup : TypeName) : Step Bool := do
  if sub == sup || (sub.isNull && sup.isReference) then return true
  if !sub.isReference || !sup.isReference then return false
  if sup == .object then return true
  match _h : sub.element?, sup.element? with
  | some a, some b => isSubtype a b
  | none, none => return (← supertypes sub).contains sup
  | _, _ => return false
termination_by sub.text.length
decreasing_by exact TypeName.length_lt_of_element? _h

/-! ### Members -/

/-- Adds a method, unless one of its descriptor is there. -/
def addSignature (methods : List MethodSig) (m : MethodSig) : List MethodSig :=
  if methods.any (·.descriptor == m.descriptor) then methods else methods ++ [m]

/-- The methods of a name in the hierarchy of the roots, one for each descriptor. -/
def collectMethods (roots : List TypeName) (name : String) : Step (List MethodSig) := do
  (← hierarchyOf roots).foldlM (fun found t => do
    let methods ← lift (← getUnit t.text).methods
    return (methods.filter (·.name == name)).foldl addSignature found) []

/-- The methods of a name that a class has or inherits. -/
def methodsNamed (owner : TypeName) (name : String) : Step (List MethodSig) :=
  collectMethods [owner] name

/-- The first field of a name in the classes. -/
def fieldIn (name : String) : List TypeName → Step (Option FieldSig)
  | [] => return none
  | t :: rest => do
    match ← lift ((← getUnit t.text).field? name) with
    | some f => return some f
    | none => fieldIn name rest

/-- The field of a name in the hierarchy of the roots. -/
def findFieldIn (roots : List TypeName) (name : String) : Step (Option FieldSig) := do
  fieldIn name (← hierarchyOf roots)

/-- The field of a name that a class has or inherits. -/
def findField (owner : TypeName) (name : String) : Step (Option FieldSig) :=
  findFieldIn [owner] name

end ClassPool

end ClassSynth

import ClassSynth.Binding.Scope
import ClassSynth.Model.Declaration
import ClassSynth.Output.Results

/-!
# Sessions

What one run works on: the model, the pool, the results so far, and what is under construction. The
parts that are under construction are unset between two classes.
-/

namespace ClassSynth

/-- The state of a run. -/
structure Session where
  model : TypeModel
  pool : ClassPool
  results : Results := []
  /-- The declaration that a class is made for. -/
  currentType? : Option TypeDeclaration := none
  /-- The class under construction. -/
  currentClass? : Option ClassUnit := none
  /-- What is done to the class. -/
  currentAction? : Option String := none

namespace Session

/-- A step of a run. A step that fails keeps what it changed before. -/
abbrev Step := ExceptT Error (StateM Session)

/-- Runs a step. -/
def run {α : Type} (s : Session) (step : Step α) : Except Error α × Session := step.run.run s

/-- A result as a step. -/
def lift {α : Type} (r : Except Error α) : Step α := r

/-- A step on the pool. -/
def onPool {α : Type} (step : ClassPool.Step α) : Step α := do
  let result ← modifyGet fun s =>
    let (result, pool) := s.pool.run step
    (result, { s with pool })
  lift result

/-! ## What is under construction -/

/-- A part that must be set. -/
def slot {α : Type} (name : String) : Option α → Step α
  | some a => return a
  | none => throw (.internal (.unsetSlot name))

def currentType : Step TypeDeclaration := do slot "current type" (← get).currentType?

def currentClass : Step ClassUnit := do slot "current class" (← get).currentClass?

def currentAction : Step String := do slot "current action" (← get).currentAction?

def setType (d : TypeDeclaration) : Step Unit := modify ({ · with currentType? := some d })

def setClass (c : ClassUnit) : Step Unit := modify ({ · with currentClass? := some c })

def setAction (action : String) : Step Unit := modify ({ · with currentAction? := some action })

/-- Takes the class under construction out of the session. -/
def takeClass : Step ClassUnit := do
  let unit ← currentClass
  modify ({ · with currentClass? := none })
  return unit

/-- Unsets everything under construction. -/
def clear : Step Unit :=
  modify ({ · with currentType? := none, currentClass? := none, currentAction? := none })

/-- Changes the class under construction. -/
def editClass {α : Type} (step : ClassUnit.Edit α) : Step α := do
  let (result, unit) := (← currentClass).runEdit step
  setClass unit
  lift result

/-- The scope of a method of the class under construction. -/
def scope (params : List TypeName) : Step Scope := do
  let unit ← currentClass
  return { thisClass := unit.name, current := some unit, params }

/-- Can an object of the class under construction stand where a type is expected? -/
def currentIsSubtype (t : TypeName) : Step Bool := do
  let unit ← currentClass
  if unit.name == t || t == .object then return true
  let interfaces ← lift unit.interfaces
  let superclass ← lift unit.superclass?
  (interfaces ++ superclass.toList).anyM fun root => onPool (ClassPool.isSubtype root t)

/-! ## Declarations and results -/

/-- The declaration of a type: that of the model, or that of the class in the pool. -/
def declarationOf (t : TypeName) : Step (Option TypeDeclaration) := do
  match (← get).model.get? t.text with
  | some d => return some d
  | none =>
    let unit ← onPool (ClassPool.find t.text)
    unit.mapM fun unit => lift (liftFormat (TypeDeclaration.ofClassFile unit.file))

/-- Publishes a class among the results. -/
def publish (unit : ClassUnit) : Step Unit := do
  let result ← lift (ClassResult.ofClass unit.name.text unit.toBytes)
  modify fun s => { s with results := s.results.put result }

end Session

end ClassSynth

import ClassSynth.Action.Apply
import ClassSynth.Config
import ClassSynth.Generation.Analysis

/-!
# Runs

A run plans first and generates later: every handler plans for every type that it accepts, then
every handler carries out what it planned.

Classes are looked up among the built-in declarations, on the class path, among the sources, and
last among the declarations of the model.
-/

/-!
## Handlers

A handler plans actions for the types that it accepts, and later carries them out on classes. The
generation handler makes the class that implements or extends a type; the non-null handler changes
the class of the type itself.
-/

namespace ClassSynth

/-- Carries out the actions for a type on a class, publishes the class among the results and puts it
back into the pool. -/
def realize (d : TypeDeclaration) (unit : ClassUnit) (queue : ActionQueue) : Session.Step Unit := do
  Session.setType d
  Session.setClass unit
  queue.forM fun action => do
    Session.setAction action.label
    action.apply
  let unit ← Session.takeClass
  Session.clear
  Session.lift unit.ensureCompiled
  Session.publish unit
  Session.onPool (ClassPool.insert unit)

/-- One way to process types. -/
structure Handler where
  name : String
  accepts : TypeDeclaration → Bool
  /-- The actions for a type, `none` if the type is refused. -/
  plan : TypeDeclaration → Session.Step (Option ActionQueue)
  realize : TypeDeclaration → ActionQueue → Session.Step Unit

namespace Handler

/-! ### Generated classes -/

/-- The class that a type is generated into: the one that exists, or a new one. -/
def targetClass (name : TypeName) : Session.Step ClassUnit := do
  match ← Session.onPool (ClassPool.find name.text) with
  | some unit =>
    Session.lift unit.ensureCompiled
    return unit
  | none => return .newClass name (← get).pool.major

/-- Makes a type a supertype of a class. -/
def attach (d : TypeDeclaration) : ClassUnit.Edit Unit :=
  if d.isInterface then ClassUnit.addInterface d.name else ClassUnit.setSuperclass d.name

/-- Generates the class for a type, if there is anything to do. -/
def generate (d : TypeDeclaration) (queue : ActionQueue) : Session.Step Unit := do
  if !queue.isEmpty then
    let (attached, unit) := (← targetClass d.targetName).runEdit (attach d)
    Session.lift attached
    ClassSynth.realize d unit queue

/-- Generates a class for each type that asks for one. -/
def generation (fluent : Bool) : Handler where
  name := "generation"
  accepts d := d.directives.generate.isSome && !d.isLibrary
  plan d := return some (← d.plan fluent)
  realize := generate

/-! ### Checked classes -/

/-- Changes the class of a type, if there is anything to do. -/
def check (d : TypeDeclaration) (queue : ActionQueue) : Session.Step Unit := do
  if !queue.isEmpty then
    Session.lift (← Session.onPool (ClassPool.getUnit d.qualifiedName)).ensureCompiled
    ClassSynth.realize d (← Session.onPool (ClassPool.take d.qualifiedName)) queue

/-- Adds checks to the methods with a body that ask for them. -/
def nonNull : Handler where
  name := "non-null"
  accepts d := !d.isLibrary && !d.checkPlan.isEmpty
  plan d := return some d.checkPlan
  realize := check

/-- The handlers of every run. -/
def standard (fluent : Bool) : List Handler := [generation fluent, nonNull]

end Handler

end ClassSynth

/-! ## Runs -/

namespace ClassSynth

/-- What a run finds around it. -/
structure Environment where
  files : FileTree := {}
  compiler : SourceCompiler := fun _ => .error (.compile "there is no compiler")
  /-- What messages call the directory of the compiled files. -/
  outputName : String := ""

namespace Environment

/-- The layer for an entry of the class path. -/
def entryLayer (e : Environment) (entry : String) : Layer :=
  if ClassPath.isArchive entry then .archive entry ((e.files.content? entry).map Archive.parse)
  else .directory entry e.files

/-- The layer for the sources, if there are any to compile. -/
def sourceLayers (e : Environment) (c : Config) : List Layer :=
  if c.compileSources && !c.sourceRoots.isEmpty then
    [.sources {
      roots := c.sourceRoots, classPath := c.classPath, level := c.level, files := e.files,
      compiler := e.compiler, outputName := e.outputName }]
  else []

/-- The pool of a run. -/
def pool (e : Environment) (c : Config) (m : TypeModel) : Except Error ClassPool := do
  let major ← c.major
  return {
    layers := .builtin :: c.classPath.map e.entryLayer ++ e.sourceLayers c ++ [.model m major]
    major, validate := c.validate }

/-- The state at the start of a run. -/
def session (e : Environment) (c : Config) (m : TypeModel) : Except Error Session := do
  return { model := m, pool := ← e.pool c m }

end Environment

/-- A handler with what it planned. -/
structure Workload where
  handler : Handler
  /-- The planned actions by type, in the order in which the types were analyzed. -/
  pending : List (TypeDeclaration × ActionQueue) := []

namespace Workload

/-- Plans for a type, if the handler accepts it. -/
def analyze (d : TypeDeclaration) (w : Workload) : Session.Step Workload := do
  if !w.handler.accepts d then return w
  match ← w.handler.plan d with
  | some queue => return { w with pending := w.pending ++ [(d, queue)] }
  | none => throw (.processor w.handler.name d.qualifiedName)

/-- The planned actions for a type. -/
def queue? (w : Workload) (name : String) : Option ActionQueue :=
  (w.pending.find? (·.1.qualifiedName == name)).map (·.2)

/-- Carries out what was planned. -/
def realize (w : Workload) : Session.Step Unit :=
  tryCatch (w.pending.forM fun (d, queue) => w.handler.realize d queue) fun e =>
    throw (.realization w.handler.name e)

end Workload

namespace Session

/-- Plans for the types one after the other. -/
def analyzeAll (handlers : List Handler) (types : List TypeDeclaration) : Step (List Workload) :=
  types.foldlM (fun workloads d => workloads.mapM (Workload.analyze d))
    (handlers.map fun handler => { handler })

/-- Plans for all types of the input, then generates. -/
def generateAll (handlers : List Handler) : Step Unit := do
  let workloads ← analyzeAll handlers (← get).model.sourceTypes
  workloads.forM Workload.realize

/-- The runs of the compiler so far. -/
def compileRuns (s : Session) : List CompileRequest := s.pool.compileRuns

end Session

namespace Environment

/-- The results of a run with the standard handlers. -/
def generate (e : Environment) (c : Config) (m : TypeModel) : Except Error Results := do
  let (result, s) := (← e.session c m).run (Session.generateAll (Handler.standard c.fluentNaming))
  result
  return s.results

/-- Writes the results of a run below a directory; gives the paths of the files. -/
def generateBelow (e : Environment) (c : Config) (m : TypeModel) (directory : String)
    (mode : WriteMode) : ExceptT Error (StateM FileTree) (List String) := do
  let results ← ({ e with files := ← get }.generate c m : Except Error Results)
  results.writeBelow directory mode

end Environment

end ClassSynth

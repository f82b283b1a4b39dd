import ClassSynth.ClassUnit.CodeView
import ClassSynth.CommandLine.Command
import ClassSynth.Generation.Run

/-!
# Running commands

A run reads and writes files and prints as it goes. When it fails, what it wrote and printed before
stays.
-/

namespace ClassSynth.CommandLine

/-- The files, and what was printed. -/
structure Console where
  files : FileTree
  output : String := ""

/-- A step of a run. A step that fails keeps what it did before. -/
abbrev Task := ExceptT Error (StateM Console)

namespace Task

/-- A result as a step. -/
def lift {α : Type} (r : Except Error α) : Task α := r

/-- Prints a text. -/
def print (text : String) : Task Unit := modify fun c => { c with output := c.output ++ text }

/-- Writes a result below a directory; gives the path. -/
def write (r : ClassResult) (directory : String) (mode : WriteMode) : Task String := do
  let (path, files) ← lift (r.writeBelow directory mode (← get).files)
  modify ({ · with files })
  return path

end Task

namespace GenerateRequest

/-- The settings that the request asks for. The class path starts with the given entries. -/
def config (r : GenerateRequest) (classPath : String) : Config :=
  let c : Config := {
    level := r.level, validate := r.validate, sourceRoots := r.sourceRoots
    fluentNaming := r.fluentNaming, compilerCommand := r.compilerCommand }
  (c.addClassPath classPath).addClassPath (r.classPath?.getD "")

/-- What happens to files that exist. -/
def mode (r : GenerateRequest) : WriteMode := if r.replaceFiles then .overwrite else .createNew

/-- Generates the classes and writes their files. A compiler cannot be run. -/
def run (r : GenerateRequest) (classPath : String) : Task Unit := do
  let files := (← get).files
  let c := r.config classPath
  let environment : Environment := {
    files, compiler := fun _ => .error (.compile ("unable to run " ++ c.compilerCommand)) }
  let m ← Task.lift (TypeModel.readFiles files r.models)
  let results ← Task.lift (environment.generate c m)
  if results.isEmpty then Task.print "Nothing to generate\n"
  else results.forM fun result => do
    let path ← Task.write result r.output r.mode
    Task.print ("Generated " ++ path ++ "\n")

end GenerateRequest

/-- The least size of a file that is read as a class file. -/
def minClassSize : Nat := 4

/-- Prints the summary of a class file, part by part. -/
def dump (path : String) : Task Unit := do
  let bytes ← Task.lift ((← get).files.read path)
  if bytes.length < minClassSize then
    throw (.io (path ++ " is not a class file"))
  let unit ← Task.lift (ClassUnit.ofBytes bytes)
  unit.summary.forM fun part => do Task.print (← Task.lift part)

/-- Runs a command with the entries that a class path starts with. -/
def Command.run (classPath : String) : Command → Task Unit
  | generate r => r.run classPath
  | dump path => CommandLine.dump path

/-- The paths of the files and directories that a command reads. -/
def Command.reads (classPath : String) : Command → List String
  | generate r => r.models ++ (r.config classPath).classPath ++ r.sourceRoots
  | dump path => [path]

/-- How a run ends. -/
structure Outcome where
  exitCode : Nat
  output : String
  /-- Why the run did not succeed. -/
  complaint : String := ""
  deriving DecidableEq, Repr

/-- The end of a run whose arguments stop it. -/
def Stop.outcome : Stop → Outcome
  | help usage => { exitCode := 0, output := usage.helpText }
  | version => { exitCode := 0, output := programName ++ " " ++ CommandLine.version ++ "\n" }
  | misuse reason => { exitCode := 2, output := "", complaint := "error: " ++ reason ++ "\n" }

/-- Runs the program; `classPath` holds the entries that a class path starts with. -/
def run (arguments : List String) (classPath : String) (files : FileTree) : Outcome × FileTree :=
  match Command.read arguments with
  | .error stop => (stop.outcome, files)
  | .ok command =>
    let (result, console) := (command.run classPath).run.run { files }
    match result with
    | .ok () => ({ exitCode := 0, output := console.output }, console.files)
    | .error e =>
      ({ exitCode := 1, output := console.output, complaint := "Error: " ++ e.message ++ "\n" },
        console.files)

end ClassSynth.CommandLine

import ClassSynth.CommandLine.Arguments

/-!
# Commands

The commands of the program and how their arguments are read.
-/

namespace ClassSynth.CommandLine

/-- The name of the program. -/
def programName : String := "implgen"

/-- The version of the program. -/
def version : String := "0.1.0"

/-! ## The tables -/

/-- More messages about the run. The messages are no part of the output. -/
def verboseSetting : Setting :=
  { name := "verbose", letter? := some 'v', repeats := true
    help := "More log output (-v info, -vv debug, -vvv trace)" }

def helpSetting : Setting :=
  { name := Usage.helpName, letter? := some 'h', help := "Print help" }

def versionSetting : Setting :=
  { name := Usage.versionName, letter? := some 'V', help := "Print version" }

def generateName : String := "generate"

def generateUsage : Usage where
  call := programName ++ " " ++ generateName ++ " [OPTIONS] --model <JSON>"
  about := "Generate classes for every annotated type of the model"
  settings := [
    { name := "model", letter? := some 'm', argument := .path "JSON", repeats := true
      help := "Serialized type model; later files override earlier declarations" },
    verboseSetting,
    { name := "input", letter? := some 'i', argument := .path "DIR", repeats := true
      help := "Source root searched when a class must be compiled on demand" },
    { name := "classpath", argument := .text "PATH"
      help := "Binary classpath (directories and jars, platform separator)" },
    { name := "output", letter? := some 'o', argument := .path "DIR", default? := some "."
      help := "Output directory for .class files" },
    { name := "release", argument := .number "N", default? := some "8"
      help := "Java release the generated classes target" },
    { name := "validate", help := "Fail on unresolvable supertypes instead of skipping them" },
    { name := "no-fluent"
      help := "Only prefixed method names (get/set/is/has/keeps) map to fields" },
    { name := "no-clobber", help := "Refuse to replace existing class files" },
    { name := "javac", argument := .path "PATH", default? := some "javac"
      help := "javac executable used for on-demand compilation" },
    helpSetting]

def dumpName : String := "dump"

def dumpUsage : Usage where
  call := programName ++ " " ++ dumpName ++ " [OPTIONS] <FILE>"
  about := "Print a summary and disassembly of a class file"
  settings := [verboseSetting, helpSetting]
  operand? := some { written := "<FILE>" }

def helpCommand : String × String :=
  (Usage.helpName, "Print this message or the help of the given subcommand(s)")

/-- The commands with what they are for. -/
def commandTable : List (String × String) :=
  [(generateName, generateUsage.about), (dumpName, dumpUsage.about), helpCommand]

def programUsage : Usage where
  call := programName ++ " [OPTIONS] <COMMAND>"
  about := "Generate implementation classes for annotated JVM types"
  settings := [verboseSetting, helpSetting, versionSetting]
  commands := commandTable

def helpUsage : Usage where
  call := programName ++ " " ++ Usage.helpName ++ " [COMMAND]..."
  about := helpCommand.2
  settings := []
  operand? := some { written := "[COMMAND]...", help := "Print help for the subcommand(s)" }

/-! ## Reading -/

/-- What a generation is asked to do. -/
structure GenerateRequest where
  models : List String
  sourceRoots : List String
  classPath? : Option String
  output : String
  level : Nat
  validate : Bool
  fluentNaming : Bool
  /-- May files be replaced? -/
  replaceFiles : Bool
  compilerCommand : String
  deriving DecidableEq, Repr

/-- A command with its arguments. -/
inductive Command
  | generate (request : GenerateRequest)
  /-- Shows the summary of a class file. -/
  | dump (path : String)
  deriving DecidableEq, Repr

namespace Command

/-- What was given for an option with a default. -/
def givenOrDefault (g : Given) (u : Usage) (name : String) : String :=
  (g.last? name).getD (((u.named? name).bind Setting.default?).getD "")

/-- Reads the arguments of a generation. -/
def readGenerate (arguments : List String) : Except Stop Command := do
  let g ← generateUsage.read {} arguments
  let models := g.all "model"
  if models.isEmpty then throw (.misuse "--model is missing")
  return .generate {
    models
    sourceRoots := g.all "input"
    classPath? := g.last? "classpath"
    output := givenOrDefault g generateUsage "output"
    level := (number16? (givenOrDefault g generateUsage "release")).getD 0
    validate := g.has "validate"
    fluentNaming := !g.has "no-fluent"
    replaceFiles := !g.has "no-clobber"
    compilerCommand := givenOrDefault g generateUsage "javac" }

/-- Reads the arguments of a summary. -/
def readDump (arguments : List String) : Except Stop Command := do
  match (← dumpUsage.read {} arguments).operands with
  | path :: _ => return .dump path
  | [] => throw (.misuse "the file is missing")

/-- The help text that the arguments of the help command ask for. -/
def readHelp : List String → Stop
  | [] => .help programUsage
  | [name] =>
    if name == generateName then .help generateUsage
    else if name == dumpName then .help dumpUsage
    else if name == Usage.helpName then .help helpUsage
    else .misuse ("no such command: " ++ name)
  | _ => .misuse "there are no commands below commands"

/-- Reads a command and its arguments; options may precede the command. -/
def readAfter (g : Given) : List String → Except Stop Command
  | [] => .error (.misuse "a command is missing")
  | argument :: rest =>
    if argument == generateName then readGenerate rest
    else if argument == dumpName then readDump rest
    else if argument == Usage.helpName then .error (readHelp rest)
    else if isOption argument && argument != endOfOptions then do
      match ← programUsage.option g argument with
      | .complete g => readAfter g rest
      | .wants s _ => throw (.misuse ("--" ++ s.name ++ " needs a value"))
    else .error (.misuse ("no such command: " ++ argument))

/-- Reads the arguments of the program. -/
def read (arguments : List String) : Except Stop Command := readAfter {} arguments

end Command

end ClassSynth.CommandLine

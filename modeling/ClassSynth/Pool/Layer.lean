import ClassSynth.Archive.Basic
import ClassSynth.ClassUnit.Edit
import ClassSynth.Files.Path
import ClassSynth.Files.Tree
import ClassSynth.Model.Basic
import ClassSynth.Model.Declaration
import ClassSynth.Pool.Builtin

/-!
# Layers

A layer is one place where classes are looked up. What it answers for a name depends on the name
alone: `Layer.find` is a function, and `Layer.visit` records that it was asked.
-/

/-!
## Source directories

Classes that are compiled when somebody asks for them. The first lookup of a class with a source
file compiles all sources; later ones read what was produced. A compiler is a function of what it
is asked to compile, so what a lookup answers depends on the name alone; only the record of the
runs grows.
-/

namespace ClassSynth

/-- `a.b.C$D` is in the file `a/b/C$D.class`. -/
def classFilePath (name : String) : String := replaceChar '.' '/' name ++ ".class"

/-- What a compiler is asked to do. -/
structure CompileRequest where
  sources : List String
  classPath : List String
  level : Nat
  deriving DecidableEq, Repr

/-- Turns sources into class files, or says why it cannot. -/
abbrev SourceCompiler := CompileRequest → Except Error FileTree

/-- The arguments for a compiler that is run as a program. -/
def CompileRequest.arguments (r : CompileRequest) (output : String) : List String :=
  ["-d", output, "-proc:none"] ++
    (if r.classPath.isEmpty then [] else ["-cp", ClassPath.join r.classPath]) ++
    (if r.level ≥ 9 then ["--release", toString r.level]
      else ["-source", s!"1.{r.level}", "-target", s!"1.{r.level}"]) ++
    r.sources

/-- Source directories with the compiler for them. -/
structure SourceDirectories where
  roots : List String
  classPath : List String
  level : Nat
  files : FileTree
  compiler : SourceCompiler
  /-- What messages call the directory of the produced files. -/
  outputName : String
  /-- The runs of the compiler so far. -/
  runs : List CompileRequest := []

namespace SourceDirectories

/-- Where the source of a class is, below a root. A nested class is in the file of the class around
it. -/
def sourcePath (name : String) : String :=
  let outer := (splitWhere (· == '$') name).headD ""
  replaceChar '.' '/' outer ++ ".java"

/-- Is there a source file for the class? -/
def hasSource (s : SourceDirectories) (name : String) : Bool :=
  s.roots.any fun root => s.files.isFile (Path.join root (sourcePath name))

/-- All source files in the order of their paths. -/
def allSources (s : SourceDirectories) : List String :=
  let paths := s.roots.flatMap fun root => (s.files.filesBelow root).map (·.1)
  let sources := paths.filter fun path => Path.extension? path == some "java"
  sources.mergeSort fun a b => !Path.before b a

/-- What the compiler is asked to do. -/
def request (s : SourceDirectories) : CompileRequest where
  sources := s.allSources
  classPath := s.classPath
  level := s.level

/-- The bytes of a class, if there is a source for it. -/
def find (s : SourceDirectories) (name : String) : Except Error (Option Bytes) := do
  if s.hasSource name then
    let output ← s.compiler s.request
    match output.content? (classFilePath name) with
    | some bytes => return some bytes
    | none =>
      throw (.compile ("compiling sources did not produce " ++
        Path.join s.outputName (classFilePath name)))
  else return none

/-- Was the class produced by a run before? -/
def isProduced (s : SourceDirectories) (name : String) : Bool :=
  match s.runs, s.compiler s.request with
  | _ :: _, .ok output => output.isFile (classFilePath name)
  | _, _ => false

/-- Records the run that a lookup makes, if it makes one. -/
def visit (s : SourceDirectories) (name : String) : SourceDirectories :=
  if s.hasSource name && !s.isProduced name then { s with runs := s.runs ++ [s.request] } else s

end SourceDirectories

end ClassSynth

/-! ## Layers -/

namespace ClassSynth.TypeDeclaration

/-! ## Stubs

The class unit of a declaration: its members without bodies, native or abstract. A stub is good for
looking members up; it has no compiled form.
-/

/-- The flags of a declared method. -/
def methodFlags (m : MethodDeclaration) : UInt16 :=
  AccessFlags.isPublic |||
    (if m.isAbstract then AccessFlags.isAbstract else AccessFlags.isNative) |||
    if m.isStatic then AccessFlags.isStatic else 0

/-- Declares the supertypes; an interface has no superclass of its own. -/
def declareSupertypes (d : TypeDeclaration) : ClassUnit.Edit Unit := do
  if !d.isInterface then
    if d.isAbstract then ClassUnit.setFlags ((← get).file.flags ||| AccessFlags.isAbstract)
    if let some t := d.superclass then ClassUnit.setSuperclass t
  d.interfaces.forM ClassUnit.addInterface

/-- Declares a constructor. -/
def declareConstructor (c : ConstructorDeclaration) : ClassUnit.Edit Unit :=
  ClassUnit.declareMethod (AccessFlags.isPublic ||| AccessFlags.isNative) constructorName
    c.paramTypes .void

/-- Declares a method, unless there is one of its name and descriptor. -/
def declareMethod (m : MethodDeclaration) : ClassUnit.Edit Unit := do
  if !(← get).hasMethod m.name m.descriptor then
    ClassUnit.declareMethod (methodFlags m) m.name m.paramTypes m.returnType

/-- Declares everything but the name and the kind. -/
def declareAll (d : TypeDeclaration) : ClassUnit.Edit Unit := do
  d.declareSupertypes
  d.effectiveConstructors.forM declareConstructor
  d.methods.forM declareMethod

/-- The stub of a declaration. -/
def toStub (d : TypeDeclaration) (major : UInt16) : Except Error ClassUnit :=
  let new := if d.isInterface then ClassUnit.newInterface d.name major
    else ClassUnit.newClass d.name major
  let (result, unit) := new.runEdit d.declareAll
  result.map fun () => unit

end ClassSynth.TypeDeclaration

namespace ClassSynth

/-- A place where classes are looked up. -/
inductive Layer
  | builtin
  /-- Class files by class name, under the name of the layer. -/
  | memory (name : String) (classes : List (String × Bytes))
  | directory (path : String) (files : FileTree)
  /-- What is in an archive, or why it cannot be read; `none` if there is no such file. -/
  | archive (path : String) (contents : Option (Except Error Archive))
  | sources (directories : SourceDirectories)
  | model (model : TypeModel) (major : UInt16)

namespace Layer

/-- The text for the layer in messages. -/
def describe : Layer → String
  | builtin => "<system>"
  | memory name _ => name
  | directory path _ => "dir:" ++ path
  | archive path _ => "jar:" ++ path
  | sources s => "sources:" ++ ",".intercalate s.roots
  | model m _ => s!"model:{m.types.length} types"

/-- Are the classes of the layer declarations without a compiled form? -/
def providesStubs : Layer → Bool
  | model .. => true
  | _ => false

/-- The class file of a class, if the layer has one. -/
def find (l : Layer) (name : String) : Except Error (Option Bytes) :=
  match l with
  | builtin =>
    match BuiltinClass.find? name with
    | some c => do return some (← (← c.toUnit).toBytes)
    | none => .ok none
  | memory _ classes => .ok (classes.lookup name)
  | directory path files => .ok (files.content? (Path.join path (classFilePath name)))
  | archive _ contents =>
    match contents with
    | some a => do (← a).read (classFilePath name)
    | none => .ok none
  | sources s => s.find name
  | model m major =>
    match m.get? name with
    | some d => do return some (← (← d.toStub major).toBytes)
    | none => .ok none

/-- Records that the layer was asked for a class. -/
def visit (l : Layer) (name : String) : Layer :=
  match l with
  | sources s => sources (s.visit name)
  | l => l

/-- The runs of the compiler of the layer so far. -/
def compileRuns : Layer → List CompileRequest
  | sources s => s.runs
  | _ => []

end Layer

end ClassSynth

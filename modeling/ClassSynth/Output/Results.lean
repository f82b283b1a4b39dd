import ClassSynth.Files.Tree

/-!
# Results of a run

The produced classes in order. `put` keeps one version of each class; the other insertions put a
result where they are told to.
-/

namespace ClassSynth

/-! ## Class results

A class that a run produced: its name in two parts, and its bytes. Its file is named by the class
and lies in the directories that the package names.
-/

/-- A produced class. -/
structure ClassResult where
  package : String
  simpleName : String
  bytes : Bytes
  deriving DecidableEq, Repr

namespace ClassResult

def qualifiedName (r : ClassResult) : String :=
  if r.package.isEmpty then r.simpleName else r.package ++ "." ++ r.simpleName

/-- The path of the file below the directory for the output. -/
def path (r : ClassResult) : String :=
  let directories := (splitWhere (· == '.') r.package).filter (! ·.isEmpty)
  (directories ++ [r.simpleName ++ ".class"]).foldl Path.join ""

/-- Are these two versions of one class? -/
def isSameClass (r s : ClassResult) : Bool :=
  r.package == s.package && r.simpleName == s.simpleName

/-- The name with the path. -/
def render (r : ClassResult) : String := r.qualifiedName ++ " -> " ++ r.path

/-- All parts of the result, with the size of the class in place of its bytes. -/
def inspect (r : ClassResult) : String :=
  "ClassResult \x7b package: " ++ quoted r.package ++ ", simple_name: " ++ quoted r.simpleName ++
    ", output_path: " ++ quoted r.path ++ s!", bytecode: {r.bytes.length} bytes \x7d"

/-- Writes the file below a directory; gives its path. -/
def writeBelow (r : ClassResult) (directory : String) (mode : WriteMode) (files : FileTree) :
    Except Error (String × FileTree) := do
  let path := Path.join directory r.path
  return (path, ← files.write path r.bytes mode)

/-! ### Drafts -/

/-- A result some of whose parts are not known yet. -/
structure Draft where
  package? : Option String := none
  simpleName? : Option String := none
  bytes? : Option Bytes := none

namespace Draft

/-- The parts of a name, which are parted at its last dot. -/
def splitName (name : String) : Except Error (String × String) :=
  if name.isEmpty || name.toList.getLast? == some '.' then .error (.malformedName name)
  else .ok ((beforeLast? (· == '.') name).getD "", afterLast (· == '.') name)

/-- Sets package and name to the parts of a name. -/
def withName (d : Draft) (name : String) : Except Error Draft := do
  let (package, simpleName) ← splitName name
  return { d with package? := some package, simpleName? := some simpleName }

/-- A part that must be known. -/
def part {α : Type} (what : String) : Option α → Except Error α
  | some a => .ok a
  | none => .error (.internal (.incompleteResult what))

/-- The result, if all parts are known. -/
def complete (d : Draft) : Except Error ClassResult := do
  let package ← part "package" d.package?
  let simpleName ← part "name" d.simpleName?
  return { package, simpleName, bytes := ← part "bytecode" d.bytes? }

end Draft

/-- The result for a class of a name. The name is looked at first. -/
def ofClass (name : String) (bytes : Except Error Bytes) : Except Error ClassResult := do
  let draft ← Draft.withName {} name
  Draft.complete { draft with bytes? := some (← bytes) }

end ClassResult

/-- The produced classes, in order. -/
abbrev Results := List ClassResult

namespace Results

/-- The position of the class of a name. -/
def position? (l : Results) (name : String) : Option Nat :=
  l.findIdx? (·.qualifiedName == name)

/-- The position of the class of a name, which must be there. -/
def position (l : Results) (name : String) : Except Error Nat :=
  match l.position? name with
  | some i => .ok i
  | none => .error (.missingSymbol name)

def has (l : Results) (name : String) : Bool := l.any (·.qualifiedName == name)

def get? (l : Results) (name : String) : Option ClassResult :=
  l.find? (·.qualifiedName == name)

/-- Is there a version of the class? -/
def hasVersionOf (l : Results) (r : ClassResult) : Bool := l.any (·.isSameClass r)

/-- Puts a class in the place of its earlier version, or at the end. -/
def put (r : ClassResult) : Results → Results
  | [] => [r]
  | old :: rest => if old.isSameClass r then r :: rest else old :: put r rest

/-- Inserts a result at a position, no further than behind the last one. -/
def insertAt (l : Results) (i : Nat) (r : ClassResult) : Except Error Results :=
  if i > l.length then .error (.internal (.resultIndex i l.length)) else .ok (l.insertIdx i r)

/-- Inserts a result in front of the class of a name. -/
def insertBefore (l : Results) (name : String) (r : ClassResult) : Except Error Results := do
  return l.insertIdx (← l.position name) r

/-- Inserts a result behind the class of a name. -/
def insertAfter (l : Results) (name : String) (r : ClassResult) : Except Error Results := do
  return l.insertIdx ((← l.position name) + 1) r

/-- Removes the class of a name. -/
def remove (l : Results) (name : String) : Results := l.eraseP (·.qualifiedName == name)

/-- Writes all files below a directory, one after the other, up to the first failure; gives their
paths. -/
def writeBelow (l : Results) (directory : String) (mode : WriteMode) :
    ExceptT Error (StateM FileTree) (List String) :=
  l.mapM fun r => do
    let (path, files) ← r.writeBelow directory mode (← get)
    set files
    return path

end Results

end ClassSynth

import ClassSynth.Text.Basic

/-!
# Paths

A path is a text with slashes between names. Empty names and `.` stay where they are, `..` goes up.
-/

namespace ClassSynth.Path

/-- The names between the slashes of a path. -/
def names (path : String) : List String := splitWhere (· == '/') path

/-- Does a name stay in the same directory? -/
def isHere (name : String) : Bool := name.isEmpty || name == "."

/-- The longest path, in bytes. -/
def maxSize : Nat := 4095

/-- Can there be something at the path? -/
def isPossible (path : String) : Bool := path.utf8ByteSize ≤ maxSize

/-- Does the path start at the root of the file system? -/
def isAbsolute (path : String) : Bool := path.toList.head? == some '/'

/-! ## Order -/

/-- A step on the way that a path describes. -/
inductive Step
  | root | here | up
  | name (text : String)
  deriving DecidableEq, Repr

namespace Step

/-- The step that a name stands for. -/
def ofName (text : String) : Step := if text == ".." then up else name text

/-- Steps of a smaller rank come first. -/
def rank : Step → Nat
  | root => 0
  | here => 1
  | up => 2
  | name _ => 3

/-- The text that decides between steps of one rank. -/
def text : Step → String
  | root | here | up => ""
  | name text => text

/-- Comes a step before another one? -/
def before (a b : Step) : Bool := a.rank < b.rank || (a.rank == b.rank && a.text < b.text)

end Step

/-- The steps that determine a path; a dot is a step only at the front. -/
def steps (path : String) : List Step :=
  match names path with
  | [] => []
  | first :: rest =>
    let start :=
      if isAbsolute path then [.root]
      else if first.isEmpty then []
      else if isHere first then [.here]
      else [.ofName first]
    start ++ (rest.filter (! isHere ·)).map .ofName

/-- Come steps before other ones, one by one? -/
def stepsBefore : List Step → List Step → Bool
  | _, [] => false
  | [], _ :: _ => true
  | a :: p, b :: q => a.before b || (a == b && stepsBefore p q)

/-- Comes a path before another one, step by step? -/
def before (p q : String) : Bool := stepsBefore (steps p) (steps q)

/-! ## Parts -/

/-- A path below another one. An absolute path stays as it is. -/
def join (base path : String) : String :=
  if base.isEmpty || isAbsolute path then path
  else if base.toList.getLast? == some '/' then base ++ path
  else base ++ "/" ++ path

/-- The last name that is not here, unless the path goes up at its end. -/
def lastName? (path : String) : Option String :=
  match ((names path).filter (! isHere ·)).getLast? with
  | some name => if name == ".." then none else some name
  | none => none

/-- The part of the last name after its last dot; a dot in front starts no extension. -/
def extension? (path : String) : Option String := do
  let name ← lastName? path
  let front ← beforeLast? (· == '.') name
  if front.isEmpty then none else some (afterLast (· == '.') name)

end ClassSynth.Path

namespace ClassSynth.ClassPath

/-! ## Class paths

A class path is a list of directories and archives; as a text it has colons between them.
-/

/-- The entries of a class path. White space around an entry is dropped, and so are empty entries.
-/
def entries (text : String) : List String :=
  ((splitWhere (· == ':') text).map trimBlank).filter (! ·.isEmpty)

/-- The class path with these entries. -/
def join (entries : List String) : String := ":".intercalate entries

/-- The word with the capital letters of ASCII made small. -/
def lowerAscii (word : String) : List Char := word.toList.map Char.toLower

/-- Is the entry an archive, as its extension tells? -/
def isArchive (entry : String) : Bool :=
  match Path.extension? entry with
  | some e => lowerAscii e == "jar".toList || lowerAscii e == "zip".toList
  | none => false

end ClassSynth.ClassPath

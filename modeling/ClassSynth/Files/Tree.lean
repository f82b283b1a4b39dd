import ClassSynth.Bytes.Basic
import ClassSynth.Error
import ClassSynth.Files.Path

/-!
# File trees

The files and directories that a run sees, as a value. A file is known by the names on the way to it
from the working directory; a way out of that starts with two dots, and the way of an absolute path
with a slash. A directory exists because it was made, because a file lies below it, or because the
working directory lies below it.
-/

namespace ClassSynth

/-- The names on the way to a file or a directory. -/
abbrev Place := List String

/-- Files by place, and directories that were made. -/
structure FileTree where
  files : List (Place × Bytes) := []
  directories : List Place := []

/-- What happens to a file that exists when a file is written. -/
inductive WriteMode
  | overwrite | createNew
  deriving DecidableEq, Repr

namespace FileTree

/-- Where absolute paths start. -/
def top : Place := ["/"]

def contentAt? (t : FileTree) (p : Place) : Option Bytes := t.files.lookup p

/-- The name of the directory above. -/
def up : String := ".."

/-- Is the place below another one, or the same? -/
def isWithin (p q : Place) : Bool :=
  q.isPrefixOf p && (q != [] || p.head? != some up && p.head? != some "/")

/-- Is the place a directory? -/
def isDirectory (t : FileTree) (p : Place) : Bool :=
  p.all (· == up) || p == top || t.directories.any (isWithin · p) ||
    t.files.any fun (q, _) => q != p && isWithin q p

/-- One directory up. -/
def parent (p : Place) : Place :=
  if p == top then top else if p.all (· == up) then up :: p else p.dropLast

/-- Where a path that starts at a place leads, unless it goes through something that is no
directory. -/
def walk (t : FileTree) (p : Place) : List String → Option Place
  | [] => some p
  | name :: rest =>
    if !t.isDirectory p then none
    else if Path.isHere name then t.walk p rest
    else if name == up then t.walk (parent p) rest
    else t.walk (p ++ [name]) rest

/-- Where paths start. -/
def start (path : String) : Place := if Path.isAbsolute path then top else []

/-- The place that a path leads to. -/
def place? (t : FileTree) (path : String) : Option Place :=
  if path.isEmpty || !Path.isPossible path then none else t.walk (start path) (Path.names path)

/-- The bytes of the file at a path. -/
def content? (t : FileTree) (path : String) : Option Bytes := do
  t.contentAt? (← t.place? path)

def isFile (t : FileTree) (path : String) : Bool := (t.content? path).isSome

/-- The bytes of a file, which must exist. -/
def read (t : FileTree) (path : String) : Except Error Bytes :=
  match t.content? path with
  | some bytes => .ok bytes
  | none => .error (.io ("cannot read " ++ path))

/-- Comes a place before another one, name by name? -/
def placeLt : Place → Place → Bool
  | [], [] => false
  | [], _ :: _ => true
  | _ :: _, [] => false
  | a :: p, b :: q => a < b || (a == b && placeLt p q)

/-- The files in the order of their places. -/
def inOrder (files : List (Place × Bytes)) : List (Place × Bytes) :=
  files.mergeSort fun a b => !placeLt b.1 a.1

/-- The files at or below a path in the order of their places, each with its path. -/
def filesBelow (t : FileTree) (path : String) : List (String × Bytes) :=
  match t.place? path with
  | none => []
  | some p =>
    (inOrder (t.files.filter fun (q, _) => isWithin q p)).map fun (q, bytes) =>
      ((q.drop p.length).foldl Path.join path, bytes)

/-! ## Changes -/

/-- Can a file or a directory have the name? -/
def isPossibleName (name : String) : Bool :=
  name.utf8ByteSize ≤ 255 && !name.toList.contains '\x00'

/-- Makes the directories on a way that starts at a place; gives the last of them. -/
def makeWay (t : FileTree) (p : Place) : List String → Except Error (FileTree × Place)
  | [] => .ok (t, p)
  | name :: rest =>
    if Path.isHere name then t.makeWay p rest
    else if name == up then t.makeWay (parent p) rest
    else
      let q := p ++ [name]
      if !isPossibleName name then .error (.io ("impossible name: " ++ name))
      else if t.isDirectory q then t.makeWay q rest
      else if (t.contentAt? q).isSome then .error (.io ("not a directory: " ++ "/".intercalate q))
      else { t with directories := t.directories ++ [q] }.makeWay q rest

/-- Puts bytes at a place. -/
def put (t : FileTree) (p : Place) (bytes : Bytes) : FileTree :=
  if (t.contentAt? p).isSome then
    { t with files := t.files.map fun (q, old) => if q == p then (q, bytes) else (q, old) }
  else { t with files := t.files ++ [(p, bytes)] }

/-- Writes a file and makes the directories on the way to it. -/
def write (t : FileTree) (path : String) (bytes : Bytes) (mode : WriteMode) :
    Except Error FileTree := do
  if !Path.isPossible path then throw (.io ("impossible path: " ++ path))
  let names := Path.names path
  let (t, directory) ← t.makeWay (start path) names.dropLast
  let name := names.getLast?.getD ""
  let p := directory ++ [name]
  if Path.isHere name || name == up || t.isDirectory p then
    .error (.io ("is a directory: " ++ path))
  else if !isPossibleName name then .error (.io ("impossible name: " ++ name))
  else if mode = .createNew && (t.contentAt? p).isSome then
    .error (.io ("file exists: " ++ path))
  else return t.put p bytes

/-- The tree of the given files, which are written one after the other. -/
def ofList (files : List (String × Bytes)) : Except Error FileTree :=
  files.foldlM (fun t (path, bytes) => t.write path bytes .overwrite) {}

/-- The path of a place. -/
def pathOf (p : Place) : String := p.foldl Path.join ""

/-- The files below the working directory that are new since an earlier tree, in the order of their
places, each with its path. -/
def newSince (t earlier : FileTree) : List (String × Bytes) :=
  let files := t.files.filter fun (p, _) => isWithin p [] && (earlier.contentAt? p).isNone
  (inOrder files).map fun (p, bytes) => (pathOf p, bytes)

/-- The files that are new since an earlier tree, or have other bytes. -/
def writtenSince (t earlier : FileTree) : List (Place × Bytes) :=
  t.files.filter fun (p, bytes) => earlier.contentAt? p != some bytes

end FileTree

end ClassSynth

import ClassSynth.Files.Tree
import ClassSynth.Json.Parser
import ClassSynth.Json.Value
import ClassSynth.Model.Document
import ClassSynth.Text.Unicode

/-!
# Type models

Declared types in order, one for each name. A later declaration of a name takes the place of the
earlier one.
-/

namespace ClassSynth

/-- Declared types by name, in the order of their first declaration. -/
structure TypeModel where
  types : List TypeDeclaration := []
  deriving Repr

namespace TypeModel

/-- The declared type of a name. -/
def get? (m : TypeModel) (name : String) : Option TypeDeclaration :=
  m.types.find? (·.qualifiedName == name)

def contains (m : TypeModel) (name : String) : Bool :=
  m.types.any (·.qualifiedName == name)

/-- Adds a declaration, or puts it in the place of the one with its name. -/
def insert (m : TypeModel) (d : TypeDeclaration) : TypeModel where
  types :=
    if m.contains d.qualifiedName then
      m.types.map fun old => if old.qualifiedName == d.qualifiedName then d else old
    else m.types ++ [d]

/-- Adds declarations one after the other. -/
def ofList (types : List TypeDeclaration) : TypeModel := types.foldl insert {}

/-- Adds the declarations of another model. -/
def extend (m other : TypeModel) : TypeModel := other.types.foldl insert m

/-- The types that are part of the input. -/
def sourceTypes (m : TypeModel) : List TypeDeclaration := m.types.filter (! ·.isLibrary)

/-- The model that a document describes. -/
def ofDocument (v : JsonValue) : Except ModelError TypeModel := do
  let fields ← Document.readFields ["types"] v
  return ofList (← fields.optional "types" [])

/-- The model in a JSON text. -/
def parse (text : String) : Except Error TypeModel :=
  Except.mapError .model <|
    match JsonValue.parse? text with
    | some v => ofDocument v
    | none => .error .malformedText

/-- The model in a file. -/
def readFile (files : FileTree) (path : String) : Except Error TypeModel := do
  match Utf8.decode (← files.read path) with
  | some text => parse (String.ofList text)
  | none => throw (.io ("not a text: " ++ path))

/-- The model in several files. A declaration in a later file takes the place of an earlier one. -/
def readFiles (files : FileTree) (paths : List String) : Except Error TypeModel :=
  paths.foldlM (fun m path => m.extend <$> readFile files path) {}

/-- The document of a model. -/
def toDocument (m : TypeModel) : JsonValue :=
  .ofFields [Document.field "types" m.types]

/-- The JSON text of a model. -/
def toJson (m : TypeModel) : String := m.toDocument.pretty

end TypeModel

end ClassSynth

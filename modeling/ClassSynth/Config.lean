import ClassSynth.ClassFile.Basic
import ClassSynth.Error
import ClassSynth.Files.Path

/-!
# Configurations

The settings of one run.
-/

namespace ClassSynth

/-- The settings of a run. -/
structure Config where
  /-- The release that the generated classes are for. -/
  level : Nat := 8
  /-- A supertype that cannot be found is an error. -/
  validate : Bool := false
  /-- Directories with sources. -/
  sourceRoots : List String := []
  /-- Directories and archives with classes. -/
  classPath : List String := []
  /-- A method whose name has no known start is named like its field. -/
  fluentNaming : Bool := true
  /-- Sources are compiled when a class is missing. -/
  compileSources : Bool := true
  /-- The compiler for sources, as a program. -/
  compilerCommand : String := "javac"
  deriving DecidableEq, Repr

namespace Config

/-- The highest release. -/
def maxLevel : Nat := 30

/-- The version of the generated classes. -/
def major (c : Config) : Except Error UInt16 :=
  if c.level = 0 || c.level > maxLevel then .error (.invalidLanguageLevel c.level)
  else .ok (ClassVersion.ofRelease c.level)

/-- Do the generated methods have frames? -/
def emitsFrames (c : Config) : Except Error Bool := c.major.map ClassVersion.usesFrames

/-- Adds the entries of a class path. -/
def addClassPath (c : Config) (text : String) : Config :=
  { c with classPath := c.classPath ++ ClassPath.entries text }

end Config

end ClassSynth

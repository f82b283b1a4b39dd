import ClassSynth.CommandLine.Run

/-!
# The program

Brings the files that a command reads into a tree, runs the command on the tree, and puts what it
wrote onto the disk. The command is run twice: the first run tells which files it writes, so that
what is already in their places is known to the second one.
-/

namespace ClassSynth.CommandLine

/-- The variable with the entries that a class path starts with. -/
def classPathVariable : String := "IMPLGEN_CLASSPATH"

/-- The tree with one more file, unless it can have no such file. -/
def withFile (files : FileTree) (path : String) (bytes : ByteArray) : FileTree :=
  match files.write path bytes.toList .overwrite with
  | .ok files => files
  | .error _ => files

/-- The tree with the file at a path, or with the files below it. -/
def load (files : FileTree) (path : String) : IO FileTree := do
  let root := (← IO.currentDir) / path
  if ← root.isDir then
    let mut files := files
    for file in ← root.walkDir do
      unless ← file.isDir do
        let names := file.components.drop root.components.length
        files := withFile files (names.foldl Path.join path) (← IO.FS.readBinFile file)
    return files
  else if ← root.pathExists then return withFile files path (← IO.FS.readBinFile root)
  else return files

/-- The tree with what is on the disk at a place and on the way to it. -/
def survey (files : FileTree) (place : Place) : IO FileTree := do
  let mut files := files
  for n in List.range place.length do
    let p := place.take (n + 1)
    let path := (← IO.currentDir) / FileTree.pathOf p
    if ← path.isDir then files := { files with directories := files.directories ++ [p] }
    else if (← path.pathExists) && (files.contentAt? p).isNone then files := files.put p []
  return files

/-- Writes a file and makes the directories on the way to it. -/
def store (place : Place) (bytes : Bytes) : IO Unit := do
  let directory := place.dropLast
  unless directory.isEmpty do
    IO.FS.createDirAll (FileTree.pathOf directory)
  IO.FS.writeBinFile (FileTree.pathOf place) (ByteArray.mk bytes.toArray)

/-- The files that matter to the arguments. -/
def loadAll (arguments : List String) (classPath : String) : IO FileTree := do
  match Command.read arguments with
  | .error _ => return {}
  | .ok command =>
    let files ← (command.reads classPath).foldlM load {}
    let (_, draft) := run arguments classPath files
    (draft.writtenSince files).foldlM (fun files (place, _) => survey files place) files

end ClassSynth.CommandLine

/-- Runs the program. -/
def main (arguments : List String) : IO UInt32 := do
  let classPath := (← IO.getEnv ClassSynth.CommandLine.classPathVariable).getD ""
  let files ← ClassSynth.CommandLine.loadAll arguments classPath
  let (outcome, after) := ClassSynth.CommandLine.run arguments classPath files
  for (place, bytes) in after.writtenSince files do
    ClassSynth.CommandLine.store place bytes
  IO.print outcome.output
  (← IO.getStderr).putStr outcome.complaint
  return outcome.exitCode.toUInt32

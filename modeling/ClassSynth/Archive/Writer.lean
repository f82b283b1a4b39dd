import ClassSynth.Archive.Entry
import ClassSynth.Text.Unicode

/-!
# Writing archives

Archives of files that are not packed. No number is too big for its place as long as the archive
has fewer than 65535 files and takes fewer than 4294967295 bytes.
-/

namespace ClassSynth.Archive

/-- What a header and an entry have in common: version, flags, method, time, checksum, sizes, and
the lengths of the names. -/
def description (name content : Bytes) : Bytes :=
  ofNumber 2 20 ++ ofNumber 2 (1 <<< utf8Flag) ++ ofNumber 2 storedMethod ++ ofNumber 2 0 ++
    ofNumber 2 33 ++ ofNumber 4 (Checksum.ofBytes content).toNat ++ ofNumber 4 content.length ++
    ofNumber 4 content.length ++ ofNumber 2 name.length ++ ofNumber 2 0

/-- A file behind its header. -/
def headed (name content : Bytes) : Bytes :=
  ofNumber 4 headerMark ++ description name content ++ name ++ content

/-- The entry of a file. -/
def entry (name content : Bytes) (offset : Nat) : Bytes :=
  ofNumber 4 entryMark ++ ofNumber 2 20 ++ description name content ++ ofNumber 10 0 ++
    ofNumber 4 offset ++ name

/-- The record behind a directory of a number of entries and a size. -/
def endRecord (count size offset : Nat) : Bytes :=
  ofNumber 4 endMark ++ ofNumber 4 0 ++ ofNumber 2 count ++ ofNumber 2 count ++ ofNumber 4 size ++
    ofNumber 4 offset ++ ofNumber 2 0

/-- An archive of files that are not packed. -/
def pack (files : List (String × Bytes)) : Bytes :=
  let named := files.map fun (path, content) => (Utf8.encode path.toList, content)
  let (front, directory) := named.foldl (fun (front, directory) (name, content) =>
    (front ++ headed name content, directory ++ entry name content front.length)) ([], [])
  front ++ directory ++ endRecord files.length directory.length front.length

end ClassSynth.Archive

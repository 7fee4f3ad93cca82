/-
Compiled classes, wherever they lie.

A binary says how to get at the bytes of one class: they are held in memory, in a
file, or in an entry of an archive.  Nothing is read until the bytes are asked
for, and each time they are fetched anew.
-/
import ClassIndex.Files

namespace ClassIndex

inductive Location where
  | file (path : Path)
  | entry (archive : Path) (name : String)
  | memory (label : String)
  deriving DecidableEq, Inhabited

namespace Location

def display : Location → String
  | file path => "file:" ++ path.display
  | entry archive name => "jar:file:" ++ archive.display ++ "!/" ++ name
  | memory label => "memory:" ++ label

end Location

inductive Binary where
  | memory (label : String) (bytes : List UInt8)
  | file (path : Path)
  | entry (archive : Path) (name : String)
  deriving DecidableEq, Inhabited

namespace Binary

def location : Binary → Location
  | memory label _ => .memory label
  | file path => .file path
  | entry archive name => .entry archive name

/-- Opens a class.  An archive entry is read to its end here, whereas a file that
cannot be read shows it only then. -/
def openStream (files : Files) : Binary → Except ReadError FileTree.Stream
  | memory _ bytes => .ok (.content bytes)
  | file path => (files.tree.openFile path).mapError .file
  | entry archive name => do
    let opened ← files.openArchive archive
    let bytes ← (opened.read name).mapError .archive
    return .content bytes

def read (files : Files) (b : Binary) : Except ReadError (List UInt8) := do
  (← b.openStream files).read.mapError .file

end Binary
end ClassIndex

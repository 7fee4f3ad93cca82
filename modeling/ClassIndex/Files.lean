/-
The files that a run can get at.

They are a tree, and a reader for the archives in it.  A tree that stands alone is
read by `Zip.reader`.
-/
import ClassIndex.Archive.Zip

namespace ClassIndex

structure Files where
  tree : FileTree
  reader : ArchiveReader

/-- The files of a tree, with zip archives among them. -/
@[coe]
def FileTree.files (tree : FileTree) : Files where
  tree := tree
  reader := Zip.reader

instance : Coe FileTree Files := ⟨FileTree.files⟩

@[simp] theorem FileTree.tree_files (tree : FileTree) : tree.files.tree = tree := rfl

instance : Inhabited Files := ⟨(default : FileTree)⟩

inductive ReadError where
  | file (cause : FileError)
  | archive (cause : ArchiveFault)
  deriving DecidableEq, Inhabited

namespace ReadError

def message : ReadError → String
  | file cause => cause.message
  | archive cause => cause.message

end ReadError

/-- Opens the archive at a path. -/
def Files.openArchive (files : Files) (path : Path) : Except ReadError Archive := do
  let stream ← (files.tree.openFile path).mapError .file
  (files.reader stream).mapError .archive

end ClassIndex

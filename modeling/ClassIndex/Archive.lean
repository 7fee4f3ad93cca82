/-
Archives, as their readers show them.

How an archive is laid out is a reader's business.  It is handed an open file, and
either answers the names of the entries, in whatever order it has them, and a way to
the content of each, or says why it cannot.  All else in the library takes the reader
as it comes; that no name comes twice is the one thing that is ever asked of it
(`ArchiveReader.NamesOnce`), and where it matters it is said.
-/
import ClassIndex.FileTree

namespace ClassIndex

/-- Why an archive or an entry cannot be read. -/
inductive ArchiveFault where
  | malformed
  | unsupported
  | missingEntry
  | truncated
  | badChecksum
  | corruptStream
  | unreadable (cause : FileError)
  deriving DecidableEq, Inhabited

namespace ArchiveFault

def message : ArchiveFault → String
  | malformed => "malformed archive"
  | unsupported => "unsupported archive"
  | missingEntry => "no such entry in the archive"
  | truncated => "archive cut short"
  | badChecksum => "invalid checksum"
  | corruptStream => "corrupt deflate stream"
  | unreadable cause => cause.message

end ArchiveFault

/-- An open archive. -/
structure Archive where
  names : List String
  read : String → Except ArchiveFault (List UInt8)

abbrev ArchiveReader := FileTree.Stream → Except ArchiveFault Archive

/-- A reader that names every entry of an archive once. -/
def ArchiveReader.NamesOnce (reader : ArchiveReader) : Prop :=
  ∀ stream opened, reader stream = .ok opened → opened.names.Nodup

end ClassIndex

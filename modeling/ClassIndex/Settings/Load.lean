/-
Settings out of documents and files.

A key that is missing keeps its default, and a key that means nothing is refused,
so that a misspelt one does not pass unnoticed.  Settings that can be read are
then checked for what no class path can meet.
-/
import ClassIndex.FileTree
import ClassIndex.Settings
import ClassIndex.Settings.Document

namespace ClassIndex

/-- Why there are no settings. -/
inductive SettingsError where
  | unreadable (path : Path) (cause : FileError)
  | notUtf8 (path : Path)
  | malformed
  | invalid (reason : String)
  deriving DecidableEq, Inhabited

namespace SettingsError

def message : SettingsError → String
  | unreadable path cause =>
    "failed to read resolver configuration " ++ path.display ++ ": " ++ cause.message
  | notUtf8 path =>
    "failed to read resolver configuration " ++ path.display ++ ": the file is not valid UTF-8"
  | malformed => "invalid resolver configuration"
  | invalid reason => "invalid resolver configuration: " ++ reason

end SettingsError

namespace Settings

/-- Settings with one entry of a document put in. -/
def set (s : Settings) : String × Document.Value → Option Settings
  | ("function-class-prefix", .text value) => some { s with functionMarker := value }
  | ("invoke-method-name", .text value) => some { s with invokeName := value }
  | ("archive-extensions", .texts values) => some { s with archiveExtensions := values }
  | ("skip-meta-inf", .flag value) => some { s with skipMetaInf := value }
  | _ => none

/-- The settings in a document. -/
def ofText (text : String) : Except SettingsError Settings := do
  let some entries := Document.read text | throw .malformed
  let some s := entries.foldlM set {} | throw .malformed
  match s.fault? with
  | some reason => throw (.invalid reason)
  | none => return s

/-- The settings in the file at a path. -/
def load (files : FileTree) (path : Path) : Except SettingsError Settings := do
  let bytes ← (files.read path).mapError (.unreadable path)
  let some cs := Utf8.decode? bytes | throw (.notUtf8 path)
  ofText (String.ofList cs)

end Settings
end ClassIndex

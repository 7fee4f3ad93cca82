/-
Filling the index from class path entries.

Only names of files are looked at, never their contents.  A directory or archive
is first turned into a list of candidates, the class files in it, and these are
registered one after the other.  A name that the index already has is passed
over before anything else about the candidate is worked out, so an earlier entry
of the class path shadows a later one.  What was registered before a candidate
fails stays registered: every step answers with the index it leaves.
-/
import ClassIndex.Index
import ClassIndex.Layout
import ClassIndex.Settings

namespace ClassIndex

/-- Why a class path entry could not be taken in. -/
inductive DiscoveryError where
  | unreadable (path : Path) (cause : FileError)
  | archive (path : Path) (cause : ArchiveFault)
  | layout (cause : LayoutError)
  | index (cause : IndexError)
  deriving DecidableEq, Inhabited

namespace DiscoveryError

def message : DiscoveryError → String
  | unreadable path cause => "IO error while scanning " ++ path.display ++ ": " ++ cause.message
  | archive path cause => "ZIP error while scanning " ++ path.display ++ ": " ++ cause.message
  | layout cause => "unexpected classpath layout: " ++ cause.message
  | index cause => cause.message

end DiscoveryError

namespace Discovery

/-! ## Candidates -/

/-- A class file met in a directory or an archive. -/
structure Candidate where
  path : Path
  fileName : String
  binary : Binary
  deriving DecidableEq, Inhabited

/-- Class files that describe modules and packages rather than classes. -/
def descriptions : List String :=
  ["module-info.class", "package-info.class"]

def isClassFile (fileName : String) : Bool :=
  (Affix.before? Layout.suffix fileName.toList).isSome && !descriptions.contains fileName

/-- The candidate at a path, if a class file with a readable name lies there. -/
def fileCandidate? (path : Path) : Option Candidate := do
  let fileName := String.ofList (← path.fileName.bind Utf8.decode?)
  if isClassFile fileName then some ⟨path, fileName, .file path⟩ else none

def fileCandidates (paths : List Path) : List Candidate :=
  paths.filterMap fileCandidate?

/-- Whether an entry lies below `META-INF/`, itself possibly below `classes/`. -/
def isMetaInf (name : List Char) : Bool :=
  (Affix.after? "META-INF/".toList name).isSome ||
    match _h : Affix.after? "classes/".toList name with
    | some rest => isMetaInf rest
    | none => false
termination_by name.length
decreasing_by
  rw [Affix.after?_eq_some_iff.mp _h, List.length_append]
  exact Nat.lt_add_of_pos_left (by decide)

/-- The part of an entry's name after the last slash. -/
def lastPart (name : String) : String :=
  String.ofList ((name.toList.splitOn '/').getLast?.getD [])

/-- The candidate that an entry of an archive is, if it is a class file. -/
def entryCandidate? (s : Settings) (archive : Path) (name : String) : Option Candidate :=
  if s.skipMetaInf && isMetaInf name.toList then none
  else if isClassFile (lastPart name) then
    some ⟨.ofString name, lastPart name, .entry archive name⟩
  else none

/-- The candidates among the entries of an archive, by the order of their names. -/
def entryCandidates (s : Settings) (archive : Path) (names : List String) : List Candidate :=
  (names.mergeSort fun m n => m ≤ n).filterMap (entryCandidate? s archive)

/-! ## Registration -/

/-- What a step of discovery leaves behind, and what came of it. -/
abbrev Outcome (α : Type) := Index × Except DiscoveryError α

/-- Whether a class is a function's, going by its file name. -/
def Candidate.isFunction (s : Settings) (c : Candidate) : Bool :=
  (Affix.after? s.functionMarker.toList c.fileName.toList).isSome

/-- Registers a function unless its name is taken; answers whether it was not. -/
def registerFunction (s : Settings) (root : Path) (c : Candidate) (index : Index) :
    Outcome Bool :=
  match Layout.functionName s.functionMarker c.path root with
  | .error cause => (index, .error (.layout cause))
  | .ok name =>
    if index.functions.contains name then (index, .ok false)
    else
      match index.addFunction name c.binary with
      | .error cause => (index, .error (.index cause))
      | .ok index => (index, .ok true)

/-- Marks the package of a class, if it has one. -/
def registerPackage (root : Path) (c : Candidate) (index : Index) : Outcome Unit :=
  match Layout.package c.path root with
  | .error cause => (index, .error (.layout cause))
  | .ok none => (index, .ok ())
  | .ok (some package) =>
    match index.addPackage package with
    | .error cause => (index, .error (.index cause))
    | .ok index => (index, .ok ())

/-- Registers a type and its package unless the type's name is taken; answers
whether it was not. -/
def registerType (root : Path) (c : Candidate) (index : Index) : Outcome Bool :=
  match Layout.typeName c.path root with
  | .error cause => (index, .error (.layout cause))
  | .ok name =>
    if index.types.contains name then (index, .ok false)
    else
      match registerPackage root c index with
      | (index, .error e) => (index, .error e)
      | (index, .ok ()) =>
        match index.addType name c.binary with
        | .error cause => (index, .error (.index cause))
        | .ok index => (index, .ok true)

def register (s : Settings) (root : Path) (c : Candidate) (index : Index) : Outcome Bool :=
  if c.isFunction s then registerFunction s root c index else registerType root c index

/-- Registers candidates up to the first that fails; answers how many were new. -/
def registerAll (s : Settings) (root : Path) : List Candidate → Index → Outcome Nat
  | [], index => (index, .ok 0)
  | c :: rest, index =>
    match register s root c index with
    | (index, .error e) => (index, .error e)
    | (index, .ok new) =>
      match registerAll s root rest index with
      | (index, .error e) => (index, .error e)
      | (index, .ok n) => (index, .ok (new.toNat + n))

/-! ## Class path entries -/

/-- Takes in what a visit to a root comes upon, up to a directory that cannot be
listed. -/
def sights (s : Settings) (root : Path) (met : List Sight) (index : Index) : Outcome Nat :=
  match registerAll s root (fileCandidates (Sight.entries met)) index with
  | (index, .error e) => (index, .error e)
  | (index, .ok n) =>
    match Sight.closed? met with
    | some dir => (index, .error (.unreadable dir .nameTooLong))
    | none => (index, .ok n)

def directory (s : Settings) (tree : FileTree) (root : Path) (index : Index) : Outcome Nat :=
  match tree.list root with
  | .error cause => (index, .error (.unreadable root cause))
  | .ok entries => sights s root (entries.visit root) index

def entries (s : Settings) (archive : Path) (names : List String) (index : Index) : Outcome Nat :=
  registerAll s ⟨[]⟩ (entryCandidates s archive names) index

def archive (s : Settings) (files : Files) (path : Path) (index : Index) : Outcome Nat :=
  match files.openArchive path with
  | .error (.file cause) => (index, .error (.unreadable path cause))
  | .error (.archive cause) => (index, .error (.archive path cause))
  | .ok opened => entries s path opened.names index

def hasArchiveExtension (s : Settings) (path : Path) : Bool :=
  match path.extension.bind Utf8.decode? with
  | some extension => s.isArchiveExtension (String.ofList extension)
  | none => false

/-- Takes in whatever lies at a path; neither a directory nor an archive, or
nothing at all, is passed over. -/
def entry (s : Settings) (files : Files) (path : Path) (index : Index) : Outcome Nat :=
  if files.tree.isDirectory path then directory s files.tree path index
  else if files.tree.isFile path && hasArchiveExtension s path then archive s files path index
  else (index, .ok 0)

/-- Takes in the entries of a class path, up to the first that fails. -/
def entriesOf (s : Settings) (files : Files) : List Path → Index → Outcome Nat
  | [], index => (index, .ok 0)
  | path :: rest, index =>
    match entry s files path index with
    | (index, .error e) => (index, .error e)
    | (index, .ok n) =>
      match entriesOf s files rest index with
      | (index, .error e) => (index, .error e)
      | (index, .ok m) => (index, .ok (n + m))

def classPath (s : Settings) (files : Files) (paths : List Path) :
    Except DiscoveryError Index :=
  match entriesOf s files paths .empty with
  | (index, .ok _) => .ok index
  | (_, .error e) => .error e

end Discovery
end ClassIndex

/-
A tree of files, and the working directory in it.

The tree stands for what the operating system would show, from its top directory
down: each directory lists its entries in some order, and the order is part of the
value because a caller can see it.

Paths are followed as the system follows them.  Absolute ones start at the top and
relative ones in the working directory, and so do the links that they come upon: an
absolute link starts over at the top.  A step up from the top stays there.  A
component can only be taken in a directory, also when it is `.` or empty because of
a slash at the end; links are followed wherever they stand, and only so many of them.
-/
import ClassIndex.Path

namespace ClassIndex

/-- Why the system refuses a path. -/
inductive FileError where
  | notFound
  | notADirectory
  | isADirectory
  | tooManyLinks
  | nameTooLong
  | nulInPath
  deriving DecidableEq, Inhabited

namespace FileError

def message : FileError → String
  | notFound => "No such file or directory (os error 2)"
  | notADirectory => "Not a directory (os error 20)"
  | isADirectory => "Is a directory (os error 21)"
  | tooManyLinks => "Too many levels of symbolic links (os error 40)"
  | nameTooLong => "File name too long (os error 36)"
  | nulInPath => "file name contained an unexpected NUL byte"

end FileError

namespace Path

def maxLength : Nat := 4096

def isTooLong (p : Path) : Bool :=
  maxLength ≤ p.bytes.length

end Path

/-- What an entry of a directory is. -/
inductive Node where
  | file (content : List UInt8)
  | link (target : Path)
  | directory (entries : List (List UInt8 × Node))
  deriving Inhabited

/-- The entries of a directory, in the order in which they are listed. -/
abbrev Listing := List (List UInt8 × Node)

/-- What is come upon below a directory: an entry that is no directory itself, or a
directory that cannot be listed. -/
inductive Sight where
  | entry (path : Path)
  | closed (directory : Path)
  deriving DecidableEq, Inhabited

namespace Sight

/-- The entries that are come upon before any directory that cannot be listed. -/
def entries : List Sight → List Path
  | entry path :: rest => path :: entries rest
  | _ => []

/-- The first directory that cannot be listed. -/
def closed? : List Sight → Option Path
  | [] => none
  | entry _ :: rest => closed? rest
  | closed directory :: _ => some directory

theorem closed?_eq_none_iff {met : List Sight} :
    closed? met = none ↔ ∀ directory, closed directory ∉ met := by
  induction met with
  | nil => simp [closed?]
  | cons sight rest ih =>
    cases sight with
    | entry path => simp [closed?, ih]
    | closed directory =>
      constructor
      · intro h
        cases h
      · intro h
        exact absurd (List.mem_cons_self ..) (h directory)

/-- With every directory open, the entries are all there is. -/
theorem map_entry_entries {met : List Sight} (h : closed? met = none) :
    (entries met).map entry = met := by
  induction met with
  | nil => rfl
  | cons sight rest ih =>
    cases sight with
    | entry path => rw [entries, List.map_cons, ih h]
    | closed directory => cases h

end Sight

/-- A place in a tree: the names that lead to it from the top, outermost first. -/
abbrev Place := List (List UInt8)

structure FileTree where
  top : Listing
  /-- The working directory. -/
  here : Place

namespace FileTree

/-- A tree with some entries in its working directory, and nothing beside that. -/
def ofEntries (entries : Listing) : FileTree where
  top := [(Utf8.bytesOf "tmp", .directory [(Utf8.bytesOf "work", .directory entries)])]
  here := [Utf8.bytesOf "tmp", Utf8.bytesOf "work"]

instance : Inhabited FileTree := ⟨ofEntries []⟩

end FileTree

namespace Node

def isDirectory : Node → Bool
  | directory _ => true
  | _ => false

def isFile : Node → Bool
  | file _ => true
  | _ => false

end Node

namespace Listing

/-- What lies at a place below a directory. -/
def at? (l : Listing) : Place → Option Node
  | [] => some (.directory l)
  | name :: names =>
    match l.lookup name with
    | some (.directory sub) => at? sub names
    | some node => if names = [] then some node else none
    | none => none

/-- Puts an entry in the place of one of the same name, or else at the end. -/
def put (l : Listing) (name : List UInt8) (node : Node) : Listing :=
  match l with
  | [] => [(name, node)]
  | e :: rest => if e.1 = name then (name, node) :: rest else e :: put rest name node

/-- Puts an entry at a place, with directories for the names on the way. -/
def putAt (l : Listing) (node : Node) : Place → Listing
  | [] => l
  | [name] => l.put name node
  | name :: names =>
    match l.lookup name with
    | some (.directory sub) => l.put name (.directory (putAt sub node names))
    | _ => l.put name (.directory (putAt [] node names))

/-- Takes the entry at a place away. -/
def eraseAt (l : Listing) : Place → Listing
  | [] => l
  | [name] => l.filter fun e => e.1 ≠ name
  | name :: names =>
    match l.lookup name with
    | some (.directory sub) => l.put name (.directory (eraseAt sub names))
    | _ => l

/-! ## Visiting

A visit goes through a directory's own entries first and then through its
subdirectories, the last one listed first; links are not followed.  A subdirectory
is listed by its whole path, and one whose path is too long cannot be. -/

/-- The paths of a directory's own entries that are no directories. -/
def own (dir : Path) (l : Listing) : List Sight :=
  l.filterMap fun e => if e.2.isDirectory then none else some (.entry (dir.join e.1))

/-- What lies in the subdirectories of a directory. -/
def nested (dir : Path) : Listing → List Sight
  | [] => []
  | (name, .directory sub) :: rest =>
    nested dir rest ++
      if (dir.join name).isTooLong then [.closed (dir.join name)]
      else own (dir.join name) sub ++ nested (dir.join name) sub
  | _ :: rest => nested dir rest

/-- Everything below a directory, in the order of a visit. -/
def visit (dir : Path) (l : Listing) : List Sight :=
  own dir l ++ nested dir l

end Listing

/-! ## Following paths -/

namespace Path

/-- The components of a path as the system takes them. -/
def steps (p : Path) : List (List UInt8) :=
  p.bytes.splitOn slash

/-- Where a path starts, when it is met at a place. -/
def start (p : Path) (here : Place) : Place :=
  if p.bytes.head? = some slash then [] else here

end Path

namespace FileTree

/-- The most links that are followed on the way to one file. -/
def maxLinks : Nat := 40

/-- The most bytes in one component. -/
def maxName : Nat := 255

def node? (t : FileTree) (place : Place) : Option Node :=
  t.top.at? place

/-- The place that steps lead to from another one. -/
def walk (t : FileTree) (links : Nat) (here : Place) (steps : List (List UInt8)) :
    Except FileError Place :=
  match steps with
  | [] => .ok here
  | s :: rest =>
    if ((t.node? here).map Node.isDirectory).getD false then
      if Path.isTrivial s then walk t links here rest
      else if s = [Path.dot, Path.dot] then walk t links here.dropLast rest
      else if maxName < s.length then .error .nameTooLong
      else
        match t.node? (here ++ [s]) with
        | none => .error .notFound
        | some (.link target) =>
          match links with
          | 0 => .error .tooManyLinks
          | links + 1 => walk t links (target.start here) (target.steps ++ rest)
        | some _ => walk t links (here ++ [s]) rest
    else .error .notADirectory
termination_by (links, steps.length)

def follow (t : FileTree) (p : Path) : Except FileError Place :=
  if p.bytes.contains 0 then .error .nulInPath
  else if p.bytes = [] then .error .notFound
  else if p.isTooLong then .error .nameTooLong
  else t.walk maxLinks (p.start t.here) p.steps

def find (t : FileTree) (p : Path) : Except FileError Node := do
  match t.node? (← t.follow p) with
  | some node => .ok node
  | none => .error .notFound

def isDirectory (t : FileTree) (p : Path) : Bool :=
  match t.find p with
  | .ok node => node.isDirectory
  | .error _ => false

def isFile (t : FileTree) (p : Path) : Bool :=
  match t.find p with
  | .ok node => node.isFile
  | .error _ => false

def list (t : FileTree) (p : Path) : Except FileError Listing := do
  match ← t.find p with
  | .directory entries => .ok entries
  | _ => .error .notADirectory

/-! ## Contents -/

/-- An open file.  A directory can be opened, but not read. -/
inductive Stream where
  | content (bytes : List UInt8)
  | directory
  deriving DecidableEq, Inhabited

def Stream.read : Stream → Except FileError (List UInt8)
  | content bytes => .ok bytes
  | directory => .error .isADirectory

def openFile (t : FileTree) (p : Path) : Except FileError Stream := do
  match ← t.find p with
  | .file bytes => .ok (.content bytes)
  | _ => .ok .directory

def read (t : FileTree) (p : Path) : Except FileError (List UInt8) := do
  (← t.openFile p).read

/-! ## Changes -/

def putAt (t : FileTree) (node : Node) (place : Place) : FileTree :=
  { t with top := t.top.putAt node place }

/-- Makes the directories that steps miss on their way, one after the other, so that
a step back out of a new directory is possible; answers the place they lead to. -/
def makeWay (t : FileTree) (here : Place) : List (List UInt8) → FileTree × Place
  | [] => (t, here)
  | s :: rest =>
    if Path.isTrivial s then t.makeWay here rest
    else
      match t.walk maxLinks here [s] with
      | .ok there => t.makeWay there rest
      | .error _ => (t.putAt (.directory []) (here ++ [s])).makeWay (here ++ [s]) rest

/-- The place at which a file is made for a name: if a link stands there, the one
that it leads to, whether or not there is anything. -/
def target (t : FileTree) (links : Nat) (here : Place) (name : List UInt8) : Place :=
  match links, t.node? (here ++ [name]) with
  | links + 1, some (.link p) =>
    match t.walk maxLinks (p.start here) p.body.dropLast, p.body.getLast? with
    | .ok there, some name => t.target links there name
    | _, _ => here ++ [name]
  | _, _ => here ++ [name]

/-- Puts an entry at a path and makes the directories on the way.  A link that
stands there is followed, unless the entry is a link itself. -/
def write (t : FileTree) (p : Path) (node : Node) : FileTree :=
  match t.makeWay (p.start t.here) p.body.dropLast, p.body.getLast? with
  | (t, here), some name =>
    match node with
    | .link _ => t.putAt node (here ++ [name])
    | _ => t.putAt node (t.target maxLinks here name)
  | (t, _), none => t

/-- Makes a directory at a path, unless there is one, and those on the way. -/
def makeDirectory (t : FileTree) (p : Path) : FileTree :=
  (t.makeWay (p.start t.here) p.body).1

/-- Takes the entry at a path away; a link goes itself, not what it leads to. -/
def remove (t : FileTree) (p : Path) : FileTree :=
  match t.walk maxLinks (p.start t.here) p.body.dropLast, p.fileName with
  | .ok here, some name => { t with top := t.top.eraseAt (here ++ [name]) }
  | _, _ => t

end FileTree
end ClassIndex

/-
Names from places.

A class file lies below a root in directories that spell its package.  The type's
name, the function's name and the package are read off the path relative to that
root.  A path is below a root when it is longer than the root and starts with it,
byte by byte: the root's spelling counts, also where another one would reach the
same directory.
-/
import ClassIndex.Affix
import ClassIndex.Path

namespace ClassIndex

/-- Why no name can be read off a path. -/
inductive LayoutError where
  | outsideRoot (path root : String)
  | notAClassFile (path : String)
  | notAFunctionClass (path marker : String)
  | notUtf8 (path : String)
  deriving DecidableEq, Inhabited

namespace LayoutError

def message : LayoutError → String
  | outsideRoot path root => s!"{path} is not located below classpath root {root}"
  | notAClassFile path => s!"{path} is not a class file"
  | notAFunctionClass path marker =>
    path ++ " is not a function class (expected prefix '" ++ marker ++ "')"
  | notUtf8 path => s!"path is not valid UTF-8: {path}"

end LayoutError

namespace Layout

/-- The end of a class file's name. -/
def suffix : List Char := ".class".toList

/-- The text of a path, which every name needs. -/
def textOf (p : Path) : Except LayoutError String :=
  match p.text? with
  | some text => .ok text
  | none => .error (.notUtf8 p.display)

/-- What follows the root in a path. -/
def relative (path root : String) : Except LayoutError (List Char) :=
  match Affix.after? root.toList path.toList with
  | some (c :: rest) => .ok (c :: rest)
  | _ => .error (.outsideRoot path root)

/-- Directories and nested classes are both segments of a name. -/
def dots (cs : List Char) : List Char :=
  cs.map fun c => if c = '/' || c = '$' then '.' else c

/-- A name less one dot in front, which the slash after the root leaves behind. -/
def dropDot : List Char → List Char
  | '.' :: rest => rest
  | cs => cs

/-- The canonical name of the type at `path`, below `root`. -/
def typeName (path root : Path) : Except LayoutError String := do
  let path ← textOf path
  let root ← textOf root
  let below ← relative path root
  match Affix.before? suffix below with
  | some stem => .ok (String.ofList (dropDot (dots stem)))
  | none => .error (.notAClassFile path)

/-- The name of the function whose class lies at `path`: the directory gives the
namespace, and the file name without marker and ending gives the rest as it is. -/
def functionName (marker : String) (path root : Path) : Except LayoutError String := do
  let some parent := path.parent | .error (.outsideRoot path.display root.display)
  let above ← relative (← textOf parent) (← textOf root)
  let some name := path.fileName.bind Utf8.decode? | .error (.notUtf8 path.display)
  let some stem := Affix.before? suffix name | .error (.notAClassFile path.display)
  let some simple := Affix.after? marker.toList stem
    | .error (.notAFunctionClass path.display marker)
  return String.ofList (dropDot (dots above ++ '.' :: simple))

/-- A path's text without slashes at its end. -/
def bare (s : String) : List Char :=
  (s.toList.reverse.dropWhile (· = '/')).reverse

/-- The package of the class at `path`, from its directory alone, so that a nested
class does not make its outer class a package.  Nothing directly below the root. -/
def package (path root : Path) : Except LayoutError (Option String) := do
  let some parent := path.parent | .ok none
  let parent ← textOf parent
  let root ← textOf root
  if bare parent = bare root then .ok none
  else
    match dropDot (dots (← relative parent root)) with
    | [] => .ok none
    | name => .ok (some (String.ofList name))

end Layout
end ClassIndex

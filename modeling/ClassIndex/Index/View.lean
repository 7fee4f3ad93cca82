/-
Views of the index, through which classes are loaded.

Loading starts from a name, and may need the classes of other names.  The view of
types answers every name from the table of types.  The view for a function
answers that function's name from the table of functions, and every other name
as a type: the types that the function mentions can be followed.
-/
import ClassIndex.Index

namespace ClassIndex

/-- A class that is known but could not be opened. -/
structure OpenError where
  location : Location
  cause : ReadError
  deriving DecidableEq, Inhabited

def OpenError.message (e : OpenError) : String :=
  "IO error while opening " ++ e.location.display ++ ": " ++ e.cause.message

/-- What loading sees of the index: how a name is opened, nothing for an unknown
one, and where its class lies. -/
structure View where
  openClass : String → Except OpenError (Option FileTree.Stream)
  locate : String → Option Location

namespace View

/-- The view that a choice of binaries gives. -/
def ofBinaries (files : Files) (binary? : String → Option Binary) : View where
  openClass name :=
    match binary? name with
    | none => .ok none
    | some binary =>
      match binary.openStream files with
      | .ok stream => .ok (some stream)
      | .error cause => .error ⟨binary.location, cause⟩
  locate name := (binary? name).map Binary.location

/-- The same view without any locations. -/
def unlocated (v : View) : View :=
  { v with locate := fun _ => none }

end View

namespace Index

/-- The class a name stands for while types are loaded. -/
def typeBinary? (index : Index) (name : String) : Option Binary :=
  index.types.get? name

/-- The class a name stands for while a function is loaded. -/
def functionBinary? (index : Index) (function name : String) : Option Binary :=
  if name = function then index.functions.get? name else index.types.get? name

def typeView (index : Index) (files : Files) : View :=
  .ofBinaries files index.typeBinary?

def functionView (index : Index) (files : Files) (function : String) : View :=
  .ofBinaries files (index.functionBinary? function)

end Index
end ClassIndex

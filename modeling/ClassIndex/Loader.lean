/-
Loaders: how a name becomes a decoded class.

A loader is handed a name and a view, and may open any name through the view.
The one used by default decodes the class file it finds.
-/
import ClassIndex.ClassFormat.Decode
import ClassIndex.Index.View

namespace ClassIndex

inductive LoadError where
  | notFound (name : String)
  | unopened (name : String) (cause : OpenError)
  | unreadable (location : String) (cause : FileError)
  | malformed (location : String) (cause : ClassFormat.Fault)
  deriving DecidableEq, Inhabited

namespace LoadError

def message : LoadError → String
  | notFound name => "class " ++ name ++ " is not available on the classpath"
  | unopened name cause => "failed to open class " ++ name ++ ": " ++ cause.message
  | unreadable location cause =>
    "IO error while reading " ++ location ++ ": " ++ cause.message
  | malformed location cause =>
    "malformed class file " ++ location ++ ": " ++ cause.message

end LoadError

abbrev Loader := String → View → Except LoadError ClassInfo

namespace View

/-- The address of a name's class, or the name itself where that is not known. -/
def describe (v : View) (name : String) : String :=
  match v.locate name with
  | some location => location.display
  | none => name

/-- Opens a class that has to be there. -/
def demand (v : View) (name : String) : Except LoadError FileTree.Stream :=
  match v.openClass name with
  | .error cause => .error (.unopened name cause)
  | .ok none => .error (.notFound name)
  | .ok (some stream) => .ok stream

/-- What a view shows of a name: where it lies, and whether it can be opened. -/
def glance (v : View) (name : String) : Option Location × Bool :=
  (v.locate name, match v.openClass name with
    | .ok (some _) => true
    | _ => false)

end View

namespace Loader

/-- Decodes the class file that a name leads to. -/
def decoding : Loader := fun name view => do
  let stream ← view.demand name
  let bytes ← stream.read.mapError (.unreadable (view.describe name))
  (ClassFormat.decode bytes).mapError (.malformed (view.describe name))

/-- Answers from known classes, for names whose class file can be read. -/
def known (classes : String → Option ClassInfo) : Loader := fun name view => do
  let stream ← view.demand name
  let _bytes ← stream.read.mapError (.unreadable name)
  match classes name with
  | some c => return c
  | none => throw (.notFound name)

end Loader

namespace ClassInfo

/-- The classes that occur as parameters, method by method. -/
def parameterClasses (c : ClassInfo) : List String :=
  c.methods.flatMap fun m => m.signature.parameters.filterMap fun t =>
    match t with
    | .reference name => some name
    | _ => none

end ClassInfo
end ClassIndex

/-
Looking names up.

A name that the index does not have is simply absent; an error is for a name
whose class is there but cannot be turned into a definition.
-/
import ClassIndex.Definition
import ClassIndex.Loader
import ClassIndex.Settings

namespace ClassIndex

/-- Why a known name has no definition. -/
inductive LookupError where
  | unsupportedShape (name : String) (fault : ShapeFault)
  | missingNames (name : String) (gap : DebugGap)
  | unloaded (name : String) (cause : LoadError)
  deriving DecidableEq, Inhabited

namespace LookupError

def message : LookupError → String
  | unsupportedShape name fault =>
    "function class for '" ++ name ++ "' has an unsupported shape: " ++ fault.message
  | missingNames name gap =>
    "function '" ++ name ++ "' lacks parameter names: " ++ gap.message
  | unloaded name cause => "failed to decode '" ++ name ++ "': " ++ cause.message

/-- A fault in the class of a function, by that function's name. -/
def ofFunctionFault (name : String) : FunctionFault → LookupError
  | .shape fault => unsupportedShape name fault
  | .debug gap => missingNames name gap

end LookupError

/-- Everything a lookup depends on. -/
structure Lookup where
  index : Index
  files : Files
  settings : Settings
  loader : Loader

namespace Lookup

def hasPackage (l : Lookup) (name : String) : Bool :=
  l.index.hasPackage name

/-- The class of a registered type, unless the name is none. -/
def typeClass (l : Lookup) (name : String) : Except LoadError (Option ClassInfo) :=
  if l.index.types.contains name then some <$> l.loader name (l.index.typeView l.files)
  else .ok none

/-- The class of a registered function, unless the name is none. -/
def functionClass (l : Lookup) (name : String) : Except LoadError (Option ClassInfo) :=
  if l.index.functions.contains name then
    some <$> l.loader name (l.index.functionView l.files name)
  else .ok none

/-- The definition of a type. -/
def type (l : Lookup) (name : String) : Except LookupError (Option TypeDefinition) :=
  match l.typeClass name with
  | .error cause => .error (.unloaded name cause)
  | .ok c => .ok (c.map TypeDefinition.mk)

/-- The definition of a function. -/
def function (l : Lookup) (name : String) : Except LookupError (Option FunctionDefinition) :=
  match l.functionClass name with
  | .error cause => .error (.unloaded name cause)
  | .ok none => .ok none
  | .ok (some c) =>
    match FunctionDefinition.ofClass l.settings.invokeName name c with
    | .error fault => .error (.ofFunctionFault name fault)
    | .ok definition => .ok (some definition)

end Lookup
end ClassIndex

/-
The index of names.

Types and functions have tables of their own, so one name can be both.  The first
registration of a name stays, and a second one is refused.  A function brings the
packages around it into the index; a type does not, since the name of a nested
class would make its outer class a package.
-/
import ClassIndex.Binary
import ClassIndex.Name
import ClassIndex.Table

namespace ClassIndex

structure Index where
  types : Table String Binary
  functions : Table String Binary
  packages : Table String Unit
  deriving Inhabited

/-- The two kinds of names that lead to a class. -/
inductive EntryKind where
  | type
  | function
  deriving DecidableEq, Inhabited

def EntryKind.name : EntryKind → String
  | type => "type"
  | function => "function"

/-- Why a name is not taken into the index. -/
inductive IndexError where
  | invalidName (name : String)
  | duplicate (kind : EntryKind) (name : String)
  deriving DecidableEq, Inhabited

namespace IndexError

def message : IndexError → String
  | invalidName name => "'" ++ name ++ "' is not a qualified name"
  | duplicate kind name => kind.name ++ " '" ++ name ++ "' is registered twice"

end IndexError

namespace Index

def empty : Index := ⟨.empty, .empty, .empty⟩

/-- Marks names as packages. -/
def withPackages (index : Index) (names : List String) : Index :=
  { index with packages := index.packages.addAll (names.map fun name => (name, ())) }

def addType (index : Index) (name : String) (binary : Binary) : Except IndexError Index :=
  if Name.isQualified name then
    if index.types.contains name then .error (.duplicate .type name)
    else .ok { index with types := index.types.add name binary }
  else .error (.invalidName name)

def addFunction (index : Index) (name : String) (binary : Binary) : Except IndexError Index :=
  if Name.isQualified name then
    if index.functions.contains name then .error (.duplicate .function name)
    else
      .ok { index.withPackages (Name.enclosing name) with
        functions := index.functions.add name binary }
  else .error (.invalidName name)

/-- Marks a name and those that enclose it as packages, again if need be. -/
def addPackage (index : Index) (name : String) : Except IndexError Index :=
  if Name.isQualified name then .ok (index.withPackages (Name.enclosing name ++ [name]))
  else .error (.invalidName name)

def hasPackage (index : Index) (name : String) : Bool :=
  index.packages.contains name

def isEmpty (index : Index) : Bool :=
  index.types.size = 0 && index.functions.size = 0 && index.packages.size = 0

/-- The names of types by characters, which is also the order of their UTF-8 bytes. -/
def typeNames (index : Index) : List String :=
  index.types.keys

/-- The packages in the same order. -/
def packageNames (index : Index) : List String :=
  index.packages.keys

end Index
end ClassIndex

/-
The types of fields, parameters and results.

A type is a primitive, an array of a type, or a class known by its dotted binary
name.  `void` counts among the primitives, though only a result can have it.  A
value takes one slot of its frame, `long` and `double` two.
-/

namespace ClassIndex

inductive Primitive where
  | boolean | byte | char | short | int | long | float | double | void
  deriving DecidableEq, Repr, Inhabited

namespace Primitive

def all : List Primitive :=
  [boolean, byte, char, short, int, long, float, double, void]

/-- The keyword of a primitive. -/
def name : Primitive → String
  | boolean => "boolean"
  | byte => "byte"
  | char => "char"
  | short => "short"
  | int => "int"
  | long => "long"
  | float => "float"
  | double => "double"
  | void => "void"

/-- The letter of a primitive in descriptors. -/
def letter : Primitive → Char
  | boolean => 'Z'
  | byte => 'B'
  | char => 'C'
  | short => 'S'
  | int => 'I'
  | long => 'J'
  | float => 'F'
  | double => 'D'
  | void => 'V'

/-- The letter as a byte; all nine are ASCII. -/
def tag (p : Primitive) : UInt8 :=
  UInt8.ofNat p.letter.toNat

def ofName? (s : String) : Option Primitive :=
  all.find? (·.name = s)

def ofTag? (b : UInt8) : Option Primitive :=
  all.find? (·.tag = b)

/-- Slots a value takes in a frame. -/
def width : Primitive → UInt16
  | long | double => 2
  | void => 0
  | _ => 1

theorem ofTag?_tag (p : Primitive) : ofTag? p.tag = some p := by
  cases p <;> decide

theorem ofName?_name (p : Primitive) : ofName? p.name = some p := by
  cases p <;> decide

theorem tag_of_ofTag? {b : UInt8} {p : Primitive} (h : ofTag? b = some p) : p.tag = b := by
  simpa using List.find?_some h

end Primitive

inductive JvmType where
  | primitive (kind : Primitive)
  | array (element : JvmType)
  | reference (name : String)
  deriving DecidableEq, Repr, Inhabited

namespace JvmType

/-- Slots a value takes in a frame. -/
def width : JvmType → UInt16
  | primitive kind => kind.width
  | array _ => 1
  | reference _ => 1

/-- A type under a number of array levels. -/
def arrays : Nat → JvmType → JvmType
  | 0, t => t
  | n + 1, t => array (arrays n t)

/-- The number of array levels of a type, and the type below them. -/
def unarrays : JvmType → Nat × JvmType
  | array t => ((unarrays t).1 + 1, (unarrays t).2)
  | t => (0, t)

end JvmType
end ClassIndex

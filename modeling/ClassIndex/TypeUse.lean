/-
Types as source code uses them.

What a descriptor denotes and what a checker of source code works with are two
types, so that neither has to change with the other.  `TypeUse.ofJvm` and
`TypeUse.toJvm` carry each into the other and lose nothing.
-/
import ClassIndex.JvmType.Descriptor

namespace ClassIndex

inductive TypeUse where
  | primitive (kind : Primitive)
  | array (element : TypeUse)
  | reference (name : String)
  deriving DecidableEq, Repr, Inhabited

namespace TypeUse

def ofJvm : JvmType → TypeUse
  | .primitive kind => primitive kind
  | .array element => array (ofJvm element)
  | .reference name => reference name

def toJvm : TypeUse → JvmType
  | primitive kind => .primitive kind
  | array element => .array (toJvm element)
  | reference name => .reference name

@[simp] theorem toJvm_ofJvm (t : JvmType) : (ofJvm t).toJvm = t := by
  induction t <;> simp_all [ofJvm, toJvm]

@[simp] theorem ofJvm_toJvm (t : TypeUse) : ofJvm t.toJvm = t := by
  induction t <;> simp_all [ofJvm, toJvm]

/-- The source form: an array is its element and a pair of brackets. -/
def display : TypeUse → String
  | primitive kind => kind.name
  | array element => element.display ++ "[]"
  | reference name => name

def descriptor (t : TypeUse) : String :=
  t.toJvm.descriptor

/-! ## Questions -/

def primitive? : TypeUse → Option Primitive
  | primitive kind => some kind
  | _ => none

def element? : TypeUse → Option TypeUse
  | array element => some element
  | _ => none

/-- The class named.  An array is no reference here, though its values are. -/
def reference? : TypeUse → Option String
  | reference name => some name
  | _ => none

def isVoid (t : TypeUse) : Bool :=
  t.primitive? = some .void

def dimensions : TypeUse → Nat
  | array element => element.dimensions + 1
  | _ => 0

end TypeUse
end ClassIndex

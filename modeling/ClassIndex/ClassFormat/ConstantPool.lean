/-
The constant pool.

Constants are numbered from 1, and a constant of eight bytes takes two numbers.
`slots` has one place per number, so that looking a number up is indexing; place
0 and the second place of a wide constant hold nothing that a reference can mean.
-/
import ClassIndex.ClassFormat.Fault
import ClassIndex.Text.ModifiedUtf8

namespace ClassIndex
namespace ClassFormat

/-- A constant, as far as the rest of the file refers to it. -/
inductive Constant where
  | text (value : String)
  | classRef (nameIndex : UInt16)
  | other
  deriving DecidableEq, Inhabited

structure ConstantPool where
  slots : Array Constant
  deriving Inhabited

namespace ConstantPool

open ByteReader Reader

/-- One constant, as the places it takes. -/
def readConstant : Reader (List Constant) := do
  let tag ← u1
  match tag with
  | 1 =>
    match ModifiedUtf8.decode (← take (← u2).toNat) with
    | .ok value => return [.text value]
    | .error offset => throw (.badText offset)
  | 5 | 6 =>
    skip 8
    return [.other, .other]
  | 7 => return [.classRef (← u2)]
  | 3 | 4 | 9 | 10 | 11 | 12 | 17 | 18 =>
    skip 4
    return [.other]
  | 8 | 16 | 19 | 20 =>
    skip 2
    return [.other]
  | 15 =>
    skip 3
    return [.other]
  | _ => throw (.unknownTag tag)

/-- Constants until as many numbers as given are taken.  A wide constant at the
very end takes one number more than there are. -/
def readSlots : Nat → Reader (List Constant)
  | 0 => pure []
  | n + 1 => do
    let places ← readConstant
    let rest ← readSlots (n - (places.length - 1))
    return places ++ rest
termination_by n => n

/-- The pool: the count is one more than the numbers it takes. -/
def read : Reader ConstantPool := do
  let count ← u2
  let slots ← readSlots (count.toNat - 1)
  return ⟨(.other :: slots).toArray⟩

def text (pool : ConstantPool) (index : UInt16) : Except Fault String :=
  match pool.slots[index.toNat]? with
  | some (.text value) => .ok value
  | _ => .error (.badIndex index)

/-- The name of the class with a number, as the file writes it.  A class whose
name is missing is reported by the name's number. -/
def className (pool : ConstantPool) (index : UInt16) : Except Fault String :=
  match pool.slots[index.toNat]? with
  | some (.classRef nameIndex) => pool.text nameIndex
  | _ => .error (.badIndex index)

end ConstantPool
end ClassFormat
end ClassIndex

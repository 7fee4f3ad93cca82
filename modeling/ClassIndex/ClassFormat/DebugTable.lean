/-
Debug tables inside method bodies.

A method's `Code` attribute holds, after the instructions and the exception
table, attributes of its own.  Those named `LocalVariableTable` are the debug
tables; there may be several, and all their lines count together.
-/
import ClassIndex.ClassFormat.ConstantPool
import ClassIndex.ClassInfo.LocalNames

namespace ClassIndex
namespace ClassFormat
namespace DebugTable

open ByteReader Reader

def attributeName : String := "LocalVariableTable"

def readLine (pool : ConstantPool) : Reader LocalVariable := do
  let start ← u2
  let _length ← u2
  let nameIndex ← u2
  let _descriptorIndex ← u2
  let slot ← u2
  return { start, slot, name := ← pool.text nameIndex }

/-- One attribute of a method body: the lines of a debug table, nothing for any
other attribute. -/
def readAttribute (pool : ConstantPool) : Reader (Option (List LocalVariable)) := do
  let nameIndex ← u2
  let record ← take (← u4).toNat
  if (← pool.text nameIndex) = attributeName then
    some <$> within record (counted (readLine pool))
  else
    return none

/-- The debug tables of a method body, in file order. -/
def readTables (pool : ConstantPool) : Reader (List (List LocalVariable)) := do
  let _maxStack ← u2
  let _maxLocals ← u2
  skip (← u4).toNat
  skip ((← u2).toNat * 8)
  return (← counted (readAttribute pool)).filterMap id

/-- The names that a list of tables gives; no tables give no names, whereas an
empty table gives an empty set of them. -/
def names : List (List LocalVariable) → Option LocalNames
  | [] => none
  | tables => some (LocalNames.ofVariables tables.flatten)

def read (pool : ConstantPool) : Reader (Option LocalNames) :=
  names <$> readTables pool

end DebugTable
end ClassFormat
end ClassIndex

/-
Names of local variables.

The debug tables of a method list variables with the slot they take and the
address from which they live.  Slots are reused, so a slot may have several
names; the one that lives earliest counts, and among equals the one that is
listed first.  A parameter lives from address 0, so no later variable can take
its name away.
-/
import ClassIndex.Table

namespace ClassIndex

/-- A line of a debug table. -/
structure LocalVariable where
  start : UInt16
  slot : UInt16
  name : String
  deriving DecidableEq, Inhabited

abbrev LocalNames := Table UInt16 String

namespace LocalNames

/-- The lines of debug tables in the order in which they claim their slots. -/
def byStart (lines : List LocalVariable) : List LocalVariable :=
  lines.mergeSort fun a b => decide (a.start ≤ b.start)

def ofVariables (lines : List LocalVariable) : LocalNames :=
  Table.ofList ((byStart lines).map fun line => (line.slot, line.name))

end LocalNames
end ClassIndex

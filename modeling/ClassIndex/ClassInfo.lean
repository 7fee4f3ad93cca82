/-
What is known of a decoded class.

Methods and constructors are kept apart, and static initialisers are not kept.
A parameter's slot is the receiver, if there is one, and the widths of the
parameters before it; slots are 16-bit words, as in a frame.
-/
import ClassIndex.ClassInfo.Access
import ClassIndex.ClassInfo.LocalNames
import ClassIndex.JvmType.Descriptor

namespace ClassIndex

structure FieldInfo where
  name : String
  access : Access
  type : JvmType
  deriving Inhabited

structure MethodInfo where
  name : String
  access : Access
  signature : Signature
  /-- The names of debug tables, when the method has any table. -/
  locals : Option LocalNames
  deriving Inhabited

namespace MethodInfo

def isStatic (m : MethodInfo) : Bool :=
  m.access.isStatic

/-- Slots taken before the first parameter. -/
def receiverWidth (m : MethodInfo) : UInt16 :=
  if m.isStatic then 0 else 1

/-- The slots of parameters that lie one after the other from `start` on. -/
def slotsFrom (start : UInt16) : List JvmType → List UInt16
  | [] => []
  | t :: ts => start :: slotsFrom (start + t.width) ts

/-- The slots of the parameters. -/
def slots (m : MethodInfo) : List UInt16 :=
  slotsFrom m.receiverWidth m.signature.parameters

/-- The slot of the parameter at an index, of parameters that lie from `start` on. -/
def slotFrom? (start : UInt16) : List JvmType → Nat → Option UInt16
  | [], _ => none
  | _ :: _, 0 => some start
  | t :: ts, index + 1 => slotFrom? (start + t.width) ts index

/-- The slot of the parameter at an index. -/
def slot? (m : MethodInfo) (index : Nat) : Option UInt16 :=
  slotFrom? m.receiverWidth m.signature.parameters index

theorem getElem?_slotsFrom (start : UInt16) (ts : List JvmType) (index : Nat) :
    (slotsFrom start ts)[index]? = slotFrom? start ts index := by
  induction ts generalizing start index with
  | nil => rfl
  | cons t ts ih =>
    cases index with
    | zero => rfl
    | succ index => exact ih (start + t.width) index

/-- Listing all slots and asking for one agree. -/
theorem getElem?_slots (m : MethodInfo) (index : Nat) : m.slots[index]? = m.slot? index :=
  getElem?_slotsFrom m.receiverWidth m.signature.parameters index

/-- The signature of a constructor: whatever its result was said to be, it has none. -/
def constructorSignature (m : MethodInfo) : Signature :=
  { m.signature with result := .primitive .void }

end MethodInfo

structure ClassInfo where
  /-- The dotted binary name, in which nested classes keep their `$`. -/
  name : String
  access : Access
  superName : Option String
  interfaces : List String
  fields : List FieldInfo
  methods : List MethodInfo
  constructors : List MethodInfo
  deriving Inhabited

namespace ClassInfo

/-- The name a constructor has in class files. -/
def constructorName : String := "<init>"

/-- The name a static initialiser has in class files. -/
def initializerName : String := "<clinit>"

def package (c : ClassInfo) : String :=
  Name.package c.name

end ClassInfo
end ClassIndex

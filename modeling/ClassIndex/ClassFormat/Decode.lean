/-
Decoding class files.

A class file is read once from front to back, and references into the constant
pool are followed where they occur, so the fault reported is the first in file
order; only the names of the class and of its superclass are looked up at the
end.  What follows the last attribute is not looked at.
-/
import ClassIndex.ClassFormat.DebugTable
import ClassIndex.ClassInfo

namespace ClassIndex
namespace ClassFormat

open ByteReader Reader

def magic : UInt32 := 0xCAFEBABE

/-- The attribute that holds a method's body. -/
def bodyAttribute : String := "Code"

/-- A descriptor's reading as part of a file's. -/
def ofDescriptor {α : Type} (r : Except DescriptorFault α) : Except Fault α :=
  r.mapError .badDescriptor

/-- An attribute that is not needed. -/
def skipAttribute : Reader Unit := do
  let _nameIndex ← u2
  skip (← u4).toNat

/-- An attribute of a method: the names in its body, nothing for any other. -/
def readMethodAttribute (pool : ConstantPool) : Reader (Option (Option LocalNames)) := do
  let nameIndex ← u2
  let record ← take (← u4).toNat
  if (← pool.text nameIndex) = bodyAttribute then
    some <$> within record (DebugTable.read pool)
  else
    return none

/-- A dotted class name by its number. -/
def readClassName (pool : ConstantPool) : Reader String := do
  return Name.dotted (← pool.className (← u2))

def readField (pool : ConstantPool) : Reader FieldInfo := do
  let access ← u2
  let nameIndex ← u2
  let descriptorIndex ← u2
  let attributes ← u2
  let name ← pool.text nameIndex
  let type ← ofDescriptor (Descriptor.fieldType (← pool.text descriptorIndex))
  let _ ← times skipAttribute attributes.toNat
  return { name, access := ⟨access⟩, type }

/-- A method; should it have several bodies, the last counts. -/
def readMethod (pool : ConstantPool) : Reader MethodInfo := do
  let access ← u2
  let nameIndex ← u2
  let descriptorIndex ← u2
  let attributes ← u2
  let name ← pool.text nameIndex
  let signature ← ofDescriptor (Descriptor.signature (← pool.text descriptorIndex))
  let bodies ← times (readMethodAttribute pool) attributes.toNat
  return { name, access := ⟨access⟩, signature, locals := (bodies.filterMap id).getLast?.join }

def declared (methods : List MethodInfo) : List MethodInfo :=
  methods.filter fun m =>
    m.name ≠ ClassInfo.initializerName && m.name ≠ ClassInfo.constructorName

def constructors (methods : List MethodInfo) : List MethodInfo :=
  methods.filter fun m => m.name = ClassInfo.constructorName

/-- The dotted name of the superclass; number 0 stands for none. -/
def superName (pool : ConstantPool) (index : UInt16) : Except Fault (Option String) := do
  if index = 0 then return none
  return some (Name.dotted (← pool.className index))

def readClass : Reader ClassInfo := do
  if (← u4) ≠ magic then throw .badMagic
  let _minorVersion ← u2
  let _majorVersion ← u2
  let pool ← ConstantPool.read
  let access ← u2
  let thisIndex ← u2
  let superIndex ← u2
  let interfaces ← counted (readClassName pool)
  let fields ← counted (readField pool)
  let methods ← counted (readMethod pool)
  let _ ← counted skipAttribute
  let name ← pool.className thisIndex
  let superName ← superName pool superIndex
  return {
    name := Name.dotted name
    access := ⟨access⟩
    superName
    interfaces
    fields
    methods := declared methods
    constructors := constructors methods }

/-- The class in a byte string that starts with a class file. -/
def decode (bs : List UInt8) : Except Fault ClassInfo :=
  readClass.runOn bs

end ClassFormat
end ClassIndex

/-
What can be wrong with a class file.
-/
import ClassIndex.ByteReader
import ClassIndex.JvmType.Parser

namespace ClassIndex
namespace ClassFormat

inductive Fault where
  | unexpectedEnd
  | badMagic
  | unknownTag (tag : UInt8)
  | badIndex (index : UInt16)
  /-- A string constant with a misshapen unit, at an offset within the string. -/
  | badText (offset : Nat)
  | badDescriptor (fault : DescriptorFault)
  deriving DecidableEq, Inhabited

instance : HasEnd Fault := ⟨.unexpectedEnd⟩

def Fault.message : Fault → String
  | unexpectedEnd => "unexpected end of class file"
  | badMagic => "invalid class file magic header"
  | unknownTag tag => s!"unsupported constant pool tag {tag.toNat}"
  | badIndex index => s!"invalid constant pool index {index.toNat}"
  | badText offset => s!"malformed modified UTF-8 at byte {offset}"
  | badDescriptor fault => fault.message

abbrev Reader := ByteReader Fault

namespace Reader

open ByteReader

def u1 : Reader UInt8 := do
  return UInt8.ofNat (bigEndian (← take 1))

def u2 : Reader UInt16 := do
  return UInt16.ofNat (bigEndian (← take 2))

def u4 : Reader UInt32 := do
  return UInt32.ofNat (bigEndian (← take 4))

def skip (n : Nat) : Reader Unit := do
  let _ ← take n

/-- A count of two bytes, then that many records. -/
def counted {α : Type} (p : Reader α) : Reader (List α) := do
  times p (← u2).toNat

end Reader
end ClassFormat
end ClassIndex

/-
Access flags of classes, fields and methods.
-/

namespace ClassIndex

/-- The flag word as the class file holds it, bits without a meaning included. -/
structure Access where
  word : UInt16
  deriving DecidableEq, Inhabited

namespace Access

def publicFlag : UInt16 := 0x0001

def privateFlag : UInt16 := 0x0002

def staticFlag : UInt16 := 0x0008

def finalFlag : UInt16 := 0x0010

def interfaceFlag : UInt16 := 0x0200

def abstractFlag : UInt16 := 0x0400

/-- The flags with a meaning here, in the order of their bits. -/
def flags : List UInt16 :=
  [publicFlag, privateFlag, staticFlag, finalFlag, interfaceFlag, abstractFlag]

def has (a : Access) (mask : UInt16) : Bool :=
  a.word &&& mask ≠ 0

def isPublic (a : Access) : Bool := a.has publicFlag

def isPrivate (a : Access) : Bool := a.has privateFlag

def isStatic (a : Access) : Bool := a.has staticFlag

def isFinal (a : Access) : Bool := a.has finalFlag

def isInterface (a : Access) : Bool := a.has interfaceFlag

def isAbstract (a : Access) : Bool := a.has abstractFlag

/-- One digit of base sixteen, in lower case. -/
def digit (n : Nat) : Char :=
  if n < 10 then Char.ofNat (0x30 + n) else Char.ofNat (0x57 + n)

/-- Four digits of base sixteen after `0x`. -/
def display (a : Access) : String :=
  let n := a.word.toNat
  String.ofList ['0', 'x', digit (n / 4096 % 16), digit (n / 256 % 16), digit (n / 16 % 16),
    digit (n % 16)]

end Access
end ClassIndex

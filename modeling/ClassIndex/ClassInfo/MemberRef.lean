/-
References to members, as an instruction that calls one needs them.
-/
import ClassIndex.ClassInfo

namespace ClassIndex

structure MethodRef where
  /-- The slashed name of the class. -/
  owner : String
  name : String
  descriptor : String
  isStatic : Bool
  deriving DecidableEq, Inhabited

/-- A constructor needs no name: all have one and the same. -/
structure ConstructorRef where
  owner : String
  descriptor : String
  deriving DecidableEq, Inhabited

namespace ClassInfo

def methodRef (c : ClassInfo) (m : MethodInfo) : MethodRef where
  owner := Name.slashed c.name
  name := m.name
  descriptor := m.signature.descriptor
  isStatic := m.isStatic

def constructorRef (c : ClassInfo) (m : MethodInfo) : ConstructorRef where
  owner := Name.slashed c.name
  descriptor := m.constructorSignature.descriptor

def methodRefs (c : ClassInfo) : List MethodRef :=
  c.methods.map c.methodRef

def constructorRefs (c : ClassInfo) : List ConstructorRef :=
  c.constructors.map c.constructorRef

end ClassInfo
end ClassIndex

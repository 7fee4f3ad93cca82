/-
Definitions: what a name that was looked up stands for.
-/
import ClassIndex.ClassInfo.MemberRef
import ClassIndex.TypeUse

namespace ClassIndex

structure TypeDefinition where
  info : ClassInfo
  deriving Inhabited

namespace TypeDefinition

/-- The name by which source code knows the type. -/
def canonicalName (d : TypeDefinition) : String :=
  Name.canonical d.info.name

def isInterface (d : TypeDefinition) : Bool :=
  d.info.access.isInterface

def methodsNamed (d : TypeDefinition) (name : String) : List MethodInfo :=
  d.info.methods.filter fun m => m.name = name

end TypeDefinition

structure Parameter where
  name : String
  type : TypeUse
  deriving DecidableEq, Inhabited

/-- A function, with the method that a call of it runs. -/
structure FunctionDefinition where
  name : String
  result : TypeUse
  parameters : List Parameter
  invocation : MethodRef
  deriving DecidableEq, Inhabited

/-- What is missing for the parameters of a function to have names. -/
inductive DebugGap where
  | noTable (method : String)
  | noName (index : Nat)
  deriving DecidableEq, Inhabited

inductive ShapeFault where
  | methodCount (n : Nat)
  | methodName (found wanted : String)
  deriving DecidableEq, Inhabited

inductive FunctionFault where
  | shape (fault : ShapeFault)
  | debug (gap : DebugGap)
  deriving DecidableEq, Inhabited

namespace DebugGap

def message : DebugGap → String
  | noTable method => "'" ++ method ++ "' has no local variable table"
  | noName index => s!"no local variable name for parameter {index}"

end DebugGap

namespace ShapeFault

def message : ShapeFault → String
  | methodCount n => s!"expected exactly one declared method, found {n}"
  | methodName found wanted => "declared method is '" ++ found ++ "', expected '" ++ wanted ++ "'"

end ShapeFault

namespace FunctionDefinition

/-- The parameter at an index, named by the variable that has its slot. -/
def parameter (names : LocalNames) (index : Nat) (slot : UInt16) (t : JvmType) :
    Except DebugGap Parameter :=
  match names.get? slot with
  | some name => .ok ⟨name, .ofJvm t⟩
  | none => .error (.noName index)

/-- The parameters of a method, up to the first without a name. -/
def parametersOf (m : MethodInfo) : Except DebugGap (List Parameter) := do
  let some names := m.locals | throw (.noTable m.name)
  (m.slots.zip m.signature.parameters).zipIdx.mapM fun ((slot, t), index) =>
    parameter names index slot t

/-- The function that a class carries: its only declared method, under the name
agreed on, run by a call. -/
def ofClass (invokeName name : String) (c : ClassInfo) :
    Except FunctionFault FunctionDefinition := do
  match c.methods with
  | [m] =>
    if m.name ≠ invokeName then throw (.shape (.methodName m.name invokeName))
    let parameters ← (parametersOf m).mapError .debug
    return { name, result := .ofJvm m.signature.result, parameters, invocation := c.methodRef m }
  | ms => throw (.shape (.methodCount ms.length))

end FunctionDefinition
end ClassIndex

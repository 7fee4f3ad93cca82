/-
Descriptors: the written form of types and method signatures.

A primitive is its letter, an array is `[` before its element, a class is its
slashed name between `L` and `;`.  A method is the descriptors of its parameters
between parentheses, then that of its result.
-/
import ClassIndex.JvmType
import ClassIndex.Name

namespace ClassIndex
namespace JvmType

def descriptorChars : JvmType → List Char
  | primitive kind => [kind.letter]
  | array element => '[' :: descriptorChars element
  | reference name => 'L' :: (Name.slashed name).toList ++ [';']

def descriptor (t : JvmType) : String :=
  String.ofList t.descriptorChars

end JvmType

structure Signature where
  parameters : List JvmType
  result : JvmType
  deriving DecidableEq, Inhabited

namespace Signature

def descriptorChars (s : Signature) : List Char :=
  '(' :: s.parameters.flatMap JvmType.descriptorChars ++ ')' :: s.result.descriptorChars

def descriptor (s : Signature) : String :=
  String.ofList s.descriptorChars

end Signature
end ClassIndex

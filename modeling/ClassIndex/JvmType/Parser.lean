/-
Reading descriptors.

A descriptor is read byte by byte from its UTF-8 form.  Each step takes what it
reads off the front and leaves the rest; a whole descriptor leaves nothing.
`void` is read only as the result of a method.  The name of a class is cut out
between two ASCII bytes and then taken as text again: `nameNotUtf8` is there for
that last step to be total.
-/
import ClassIndex.JvmType.Descriptor
import ClassIndex.Text.Utf8

namespace ClassIndex

inductive DescriptorFault where
  | truncated
  | expected (byte : UInt8)
  | unexpectedTag (byte : UInt8)
  | unterminated
  | trailing (descriptor : String)
  | nameNotUtf8
  deriving DecidableEq, Inhabited

namespace DescriptorFault

/-- A byte shown as the character of that number. -/
def shown (b : UInt8) : String :=
  String.singleton (Char.ofNat b.toNat)

def message : DescriptorFault → String
  | truncated => "malformed descriptor: truncated descriptor"
  | expected byte => "malformed descriptor: expected '" ++ shown byte ++ "' in descriptor"
  | unexpectedTag byte =>
    "malformed descriptor: unexpected descriptor tag '" ++ shown byte ++ "'"
  | unterminated => "malformed descriptor: unterminated reference descriptor"
  | trailing descriptor => "malformed descriptor: " ++ descriptor
  | nameNotUtf8 => "invalid UTF-8 string in constant pool"

end DescriptorFault

namespace Descriptor

/-! ## Punctuation -/

def openParen : UInt8 := 0x28

def closeParen : UInt8 := 0x29

def semicolon : UInt8 := 0x3B

def referenceTag : UInt8 := 0x4C

def arrayTag : UInt8 := 0x5B

/-! ## Types -/

/-- The rest of a class type after its `L`. -/
def readReference (bs : List UInt8) : Except DescriptorFault (JvmType × List UInt8) :=
  match bs.dropWhile (· ≠ semicolon) with
  | [] => .error .unterminated
  | _ :: rest =>
    match Utf8.decode? (bs.takeWhile (· ≠ semicolon)) with
    | some cs => .ok (.reference (Name.dotted (String.ofList cs)), rest)
    | none => .error .nameNotUtf8

/-- One type other than `void`. -/
def readType : List UInt8 → Except DescriptorFault (JvmType × List UInt8)
  | [] => .error .truncated
  | b :: rest =>
    if b = referenceTag then readReference rest
    else if b = arrayTag then
      match readType rest with
      | .ok (element, rest) => .ok (.array element, rest)
      | .error fault => .error fault
    else
      match Primitive.ofTag? b with
      | some .void => .error (.unexpectedTag b)
      | some kind => .ok (.primitive kind, rest)
      | none => .error (.unexpectedTag b)

theorem length_of_readReference {bs rest : List UInt8} {t : JvmType}
    (h : readReference bs = .ok (t, rest)) : rest.length < bs.length := by
  have hle : (bs.dropWhile (· ≠ semicolon)).length ≤ bs.length :=
    (List.dropWhile_suffix _).length_le
  unfold readReference at h
  split at h
  · cases h
  · next hd =>
    rw [hd] at hle
    split at h <;> cases h
    exact hle

/-- A type takes at least one byte, so reading a list of types comes to an end. -/
theorem length_of_readType {bs rest : List UInt8} {t : JvmType}
    (h : readType bs = .ok (t, rest)) : rest.length < bs.length := by
  induction bs generalizing t with
  | nil => cases h
  | cons b bs ih =>
    unfold readType at h
    split at h
    · exact Nat.lt_succ_of_lt (length_of_readReference h)
    · split at h
      · split at h
        · next hr => cases h; exact Nat.lt_succ_of_lt (ih hr)
        · cases h
      · split at h <;> cases h
        exact Nat.lt_succ_self _

/-! ## Methods -/

/-- The types up to the closing parenthesis, which is left standing. -/
def readParameters : List UInt8 → Except DescriptorFault (List JvmType × List UInt8)
  | [] => .error .truncated
  | b :: tail =>
    if b = closeParen then .ok ([], b :: tail)
    else
      match _h : readType (b :: tail) with
      | .error fault => .error fault
      | .ok (t, rest) =>
        match readParameters rest with
        | .ok (ts, rest) => .ok (t :: ts, rest)
        | .error fault => .error fault
termination_by bs => bs.length
decreasing_by exact length_of_readType _h

/-- The type after the closing parenthesis. -/
def readResult : List UInt8 → Except DescriptorFault (JvmType × List UInt8)
  | [] => .error .truncated
  | b :: rest =>
    if b = Primitive.void.tag then .ok (.primitive .void, rest) else readType (b :: rest)

/-- One byte that has to come next. -/
def expect (byte : UInt8) : List UInt8 → Except DescriptorFault (List UInt8)
  | [] => .error .truncated
  | b :: rest => if b = byte then .ok rest else .error (.expected byte)

/-! ## Whole descriptors -/

def fieldType (descriptor : String) : Except DescriptorFault JvmType := do
  let (t, rest) ← readType (Utf8.bytesOf descriptor)
  if rest = [] then return t else throw (.trailing descriptor)

def signature (descriptor : String) : Except DescriptorFault Signature := do
  let rest ← expect openParen (Utf8.bytesOf descriptor)
  let (parameters, rest) ← readParameters rest
  let rest ← expect closeParen rest
  let (result, rest) ← readResult rest
  if rest = [] then return { parameters, result } else throw (.trailing descriptor)

end Descriptor
end ClassIndex

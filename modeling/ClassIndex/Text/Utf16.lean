/-
UTF-16 over lists of code units.

Two surrogates in the right order are one character.  Every other surrogate
stands alone and is read as U+FFFD, so reading never fails.
-/

namespace ClassIndex
namespace Utf16

def isHigh (u : UInt16) : Bool :=
  0xD800 ≤ u && u < 0xDC00

def isLow (u : UInt16) : Bool :=
  0xDC00 ≤ u && u < 0xE000

def pair (high low : UInt16) : Char :=
  Char.ofNat (0x10000 + high.toNat % 1024 * 1024 + low.toNat % 1024)

/-- The characters of a list of units, U+FFFD for each surrogate outside a pair. -/
def decode : List UInt16 → List Char
  | [] => []
  | u :: rest =>
    if isHigh u then
      match rest with
      | [] => ['\uFFFD']
      | v :: rest₂ =>
        if isLow v then pair u v :: decode rest₂
        else '\uFFFD' :: decode (v :: rest₂)
    else if isLow u then '\uFFFD' :: decode rest
    else Char.ofNat u.toNat :: decode rest

/-- The units of a character: itself, or a pair when it lies above U+FFFF. -/
def units (c : Char) : List UInt16 :=
  if c.toNat < 0x10000 then [UInt16.ofNat c.toNat]
  else [UInt16.ofNat (0xD800 + (c.toNat - 0x10000) / 1024),
    UInt16.ofNat (0xDC00 + (c.toNat - 0x10000) % 1024)]

end Utf16
end ClassIndex

/-
The text encoding of class files.

A string is stored as UTF-16 units, each in one to three bytes: NUL takes the two
bytes `C0 80`, and a character above U+FFFF is two surrogates of three bytes
each.  Many writers store plain UTF-8 instead, so a well-formed UTF-8 string is
taken as such; only what is not goes through the unit reader.
-/
import ClassIndex.Text.Utf8
import ClassIndex.Text.Utf16

namespace ClassIndex
namespace ModifiedUtf8

/-! ## Units

The reader is lenient on purpose: it takes overlong forms and lone surrogates,
and rejects a string only where a unit has the wrong shape. -/

/-- The code units of a byte string whose first byte has the given offset.  The
error is the offset at which the first misshapen unit starts. -/
def units : Nat → List UInt8 → Except Nat (List UInt16)
  | _, [] => .ok []
  | offset, a :: rest =>
    if a < 0x80 then (a.toUInt16 :: ·) <$> units (offset + 1) rest
    else if 0xC0 ≤ a && a ≤ 0xDF then
      match rest with
      | b :: rest₂ =>
        if Utf8.isTail b then
          (UInt16.ofNat (a.toNat % 32 * 64 + b.toNat % 64) :: ·) <$> units (offset + 2) rest₂
        else .error offset
      | [] => .error offset
    else if 0xE0 ≤ a && a ≤ 0xEF then
      match rest with
      | b :: c :: rest₃ =>
        if Utf8.isTail b && Utf8.isTail c then
          (UInt16.ofNat (a.toNat % 16 * 4096 + b.toNat % 64 * 64 + c.toNat % 64) :: ·) <$>
            units (offset + 3) rest₃
        else .error offset
      | _ => .error offset
    else .error offset

/-- The text of a byte string by its units alone. -/
def decodeUnits (bs : List UInt8) : Except Nat (List Char) :=
  Utf16.decode <$> units 0 bs

/-- The text of a byte string: plain UTF-8 where it is well formed, units
otherwise. -/
def decode (bs : List UInt8) : Except Nat String :=
  match Utf8.decode? bs with
  | some cs => .ok (String.ofList cs)
  | none => String.ofList <$> decodeUnits bs

/-! ## Writing -/

def encodeUnit (u : UInt16) : List UInt8 :=
  let n := u.toNat
  if n = 0 then [0xC0, 0x80]
  else if n < 0x80 then [UInt8.ofNat n]
  else if n < 0x800 then [UInt8.ofNat (0xC0 + n / 64), UInt8.ofNat (0x80 + n % 64)]
  else [UInt8.ofNat (0xE0 + n / 4096), UInt8.ofNat (0x80 + n / 64 % 64),
    UInt8.ofNat (0x80 + n % 64)]

/-- The class file form of a text. -/
def encode (cs : List Char) : List UInt8 :=
  (cs.flatMap Utf16.units).flatMap encodeUnit

end ModifiedUtf8
end ClassIndex

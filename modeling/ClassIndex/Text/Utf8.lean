/-
UTF-8 over lists of bytes.

A byte string is cut into chunks from the left: a chunk is one character in its
shortest form, or a maximal part that no character can start with.  Strict
reading (`decode?`) asks that every chunk be a character; lenient reading
(`lossy`) puts U+FFFD for each chunk that is not.  Both are views of the one
function `chunks`, so they cannot disagree on what well-formed means.
-/

namespace ClassIndex
namespace Utf8

/-! ## Writing -/

def encode (cs : List Char) : List UInt8 :=
  cs.flatMap String.utf8EncodeChar

/-- The bytes of a string, which is kept in this form. -/
def bytesOf (s : String) : List UInt8 :=
  s.toByteArray.data.toList

theorem bytesOf_eq_encode (s : String) : bytesOf s = encode s.toList := by
  unfold bytesOf
  conv => lhs; rw [← String.ofList_toList (s := s)]
  rw [String.toByteArray_ofList]
  exact congrArg Array.toList List.data_toByteArray

@[simp] theorem encode_nil : encode [] = [] := rfl

@[simp] theorem encode_cons (c : Char) (cs : List Char) :
    encode (c :: cs) = String.utf8EncodeChar c ++ encode cs := rfl

theorem encode_append (as bs : List Char) : encode (as ++ bs) = encode as ++ encode bs :=
  List.flatMap_append

/-! ## Reading

The second byte of a character has a narrower range after `E0`, `ED`, `F0` and
`F4`: these four bounds keep out overlong forms, surrogates and everything past
U+10FFFF.  With the range taken from `follow?`, each sequence that passes is the
one form of a scalar value. -/

/-- A continuation byte, `80` to `BF`. -/
def isTail (b : UInt8) : Bool :=
  0x80 ≤ b && b ≤ 0xBF

/-- After a first byte above `7F`: how many bytes follow, and the bounds on the
one that follows directly.  Nothing for a byte that starts no character. -/
def follow? (a : UInt8) : Option (Nat × UInt8 × UInt8) :=
  if a < 0xC2 then none
  else if a ≤ 0xDF then some (1, 0x80, 0xBF)
  else if a = 0xE0 then some (2, 0xA0, 0xBF)
  else if a = 0xED then some (2, 0x80, 0x9F)
  else if a ≤ 0xEF then some (2, 0x80, 0xBF)
  else if a = 0xF0 then some (3, 0x90, 0xBF)
  else if a ≤ 0xF3 then some (3, 0x80, 0xBF)
  else if a = 0xF4 then some (3, 0x80, 0x8F)
  else none

def char₂ (a b : UInt8) : Char :=
  Char.ofNat (a.toNat % 32 * 64 + b.toNat % 64)

def char₃ (a b c : UInt8) : Char :=
  Char.ofNat (a.toNat % 16 * 4096 + b.toNat % 64 * 64 + c.toNat % 64)

def char₄ (a b c d : UInt8) : Char :=
  Char.ofNat (a.toNat % 8 * 262144 + b.toNat % 64 * 4096 + c.toNat % 64 * 64 + d.toNat % 64)

/-- The chunks of a byte string: a character, or `none` for a maximal part that
starts none.  A byte that breaks a sequence off is read again as a first byte. -/
def chunks : List UInt8 → List (Option Char)
  | [] => []
  | a :: rest =>
    if a < 0x80 then some (Char.ofNat a.toNat) :: chunks rest
    else
      match follow? a with
      | none => none :: chunks rest
      | some (more, low, high) =>
        match rest with
        | [] => [none]
        | b :: rest₂ =>
          if low ≤ b && b ≤ high then
            if more = 1 then some (char₂ a b) :: chunks rest₂
            else
              match rest₂ with
              | [] => [none]
              | c :: rest₃ =>
                if isTail c then
                  if more = 2 then some (char₃ a b c) :: chunks rest₃
                  else
                    match rest₃ with
                    | [] => [none]
                    | d :: rest₄ =>
                      if isTail d then some (char₄ a b c d) :: chunks rest₄
                      else none :: chunks (d :: rest₄)
                else none :: chunks (c :: rest₃)
          else none :: chunks (b :: rest₂)

/-- A byte that is a character by itself. -/
def isAscii (b : UInt8) : Bool :=
  b < 0x80

/-- The characters of a well-formed byte string, nothing for any other.  Most texts
are ASCII and need no cutting. -/
def decode? (bs : List UInt8) : Option (List Char) :=
  if bs.all isAscii then some (bs.map fun b => Char.ofNat b.toNat)
  else (chunks bs).mapM id

/-- The characters of any byte string, U+FFFD standing for each ill-formed part. -/
def lossy (bs : List UInt8) : List Char :=
  (chunks bs).map (·.getD '\uFFFD')

/-- ASCII bytes are cut one by one. -/
theorem chunks_of_all_isAscii {bs : List UInt8} (h : bs.all isAscii = true) :
    chunks bs = bs.map fun b => some (Char.ofNat b.toNat) := by
  induction bs with
  | nil => rfl
  | cons a rest ih =>
    rw [List.all_cons, Bool.and_eq_true] at h
    unfold chunks
    rw [if_pos (of_decide_eq_true h.1), ih h.2, List.map_cons]

/-- Strict reading succeeds when every chunk is a character. -/
theorem decode?_eq_mapM_chunks (bs : List UInt8) : decode? bs = (chunks bs).mapM id := by
  unfold decode?
  split
  · next h =>
    rw [chunks_of_all_isAscii h]
    clear h
    induction bs with
    | nil => rfl
    | cons a rest ih => simp [List.mapM_cons, ← ih]
  · rfl

end Utf8
end ClassIndex

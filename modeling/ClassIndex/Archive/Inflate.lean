/-
Decompression of DEFLATE streams.

A stream is a sequence of blocks over a string of bits, low bits of a byte first.
A block is stored bytes, or symbols in a fixed or a described prefix code: a byte,
the end of the block, or a length and a distance back into what has been written.
A distance that reaches back past the beginning finds zeros there, as the window
it looks into is clear at the start.  What follows the last block is not looked
at.

A stream that cannot be read is either corrupt, in something that no continuation
of it would mend, or has ended where more would have to come.
-/

namespace ClassIndex
namespace Inflate

/-- Why a stream cannot be read. -/
inductive Fault where
  | corrupt
  | ended
  deriving DecidableEq, Inhabited

/-! ## Bits -/

/-- Bits left of the byte that is being read, and the bytes after it. -/
structure Bits where
  pending : List Bool
  bytes : List UInt8

namespace Bits

/-- The bits of a byte, lowest first. -/
def ofByte (b : UInt8) : List Bool :=
  (List.range 8).map b.toNat.testBit

end Bits

/-- A step over the bits. -/
abbrev BitReader := StateT Bits (Except Fault)

def bit : BitReader Bool := fun s =>
  match s.pending with
  | b :: rest => .ok (b, { s with pending := rest })
  | [] =>
    match s.bytes with
    | [] => .error .ended
    | byte :: bytes => .ok (byte.toNat.testBit 0, ⟨(Bits.ofByte byte).drop 1, bytes⟩)

/-- A number of `n` bits, lowest first. -/
def number : Nat → BitReader Nat
  | 0 => pure 0
  | n + 1 => do
    let b ← bit
    let high ← number n
    return b.toNat + 2 * high

/-- Whole bytes, from the next byte boundary on. -/
def wholeBytes (n : Nat) : BitReader (List UInt8) := fun s =>
  let front := s.bytes.take n
  if front.length = n then .ok (front, ⟨[], s.bytes.drop n⟩) else .error .ended

/-! ## Prefix codes

In a canonical code the codewords of each length are consecutive numbers, and
shorter ones come first, so the number of codewords per length and the symbols in
that order say everything. -/

structure Code where
  /-- How many codewords there are of each length, from 1 up to the longest. -/
  counts : List Nat
  /-- The symbols by length and then by number. -/
  symbols : Array Nat

namespace Code

/-- The code in which symbol `i` has a codeword of length `lengths[i]`, none if
that is 0.  A code without codewords counts as one of length 1, so that reading it
takes a bit. -/
def ofLengths (lengths : List Nat) : Code :=
  let numbered := lengths.zipIdx
  let classes := (List.range (lengths.foldl max 1)).map fun l =>
    (numbered.filter fun e => e.1 = l + 1).map Prod.snd
  ⟨classes.map List.length, classes.flatten.toArray⟩

/-- The length of the longest codeword. -/
def depth (c : Code) : Nat :=
  c.counts.length

/-- The part of all bit strings that a code covers, of which there are `2 ^ depth`. -/
def covered (c : Code) : Nat :=
  c.counts.foldl (fun total n => 2 * total + n) 0

/-- Every bit string starts with exactly one codeword. -/
def isComplete (c : Code) : Bool :=
  c.covered = 1 <<< c.depth

/-- Complete, or with at most one codeword, which then has length 1. -/
def isUsable (c : Code) : Bool :=
  c.isComplete || (c.depth = 1 && c.symbols.size ≤ 1)

/-- The symbol of the next codeword.  `word` is what has been read of it, `first`
the first codeword of its length and `index` that one's place among the symbols.
Bits that go past the longest codeword are none. -/
def next (symbols : Array Nat) : List Nat → Nat → Nat → Nat → BitReader Nat
  | [], _, _, _ => throw .corrupt
  | n :: counts, word, first, index => do
    let word := 2 * word + (← bit).toNat
    let first := 2 * first
    if word < first + n then
      match symbols[index + (word - first)]? with
      | some s => return s
      | none => throw .corrupt
    else next symbols counts word (first + n) (index + n)

def read (c : Code) : BitReader Nat :=
  next c.symbols c.counts 0 0 0

end Code

/-! ## Blocks -/

/-- The least length of each length symbol from 257 on. -/
def lengthBases : Array Nat :=
  #[3, 4, 5, 6, 7, 8, 9, 10, 11, 13, 15, 17, 19, 23, 27, 31, 35, 43, 51, 59, 67, 83, 99, 115, 131,
    163, 195, 227, 258]

/-- The bits that follow each length symbol. -/
def lengthExtras : Array Nat :=
  #[0, 0, 0, 0, 0, 0, 0, 0, 1, 1, 1, 1, 2, 2, 2, 2, 3, 3, 3, 3, 4, 4, 4, 4, 5, 5, 5, 5, 0]

/-- The least distance of each distance symbol. -/
def distanceBases : Array Nat :=
  #[1, 2, 3, 4, 5, 7, 9, 13, 17, 25, 33, 49, 65, 97, 129, 193, 257, 385, 513, 769, 1025, 1537, 2049,
    3073, 4097, 6145, 8193, 12289, 16385, 24577]

/-- The bits that follow each distance symbol. -/
def distanceExtras : Array Nat :=
  #[0, 0, 0, 0, 1, 1, 2, 2, 3, 3, 4, 4, 5, 5, 6, 6, 7, 7, 8, 8, 9, 9, 10, 10, 11, 11, 12, 12, 13, 13]

/-- The number that a symbol and the bits after it stand for. -/
def amount (bases extras : Array Nat) (symbol : Nat) : BitReader Nat := do
  match bases[symbol]?, extras[symbol]? with
  | some base, some extra => return base + (← number extra)
  | _, _ => throw .corrupt

/-- Writes `n` bytes again that lie `distance` back. -/
def copy (out : Array UInt8) (distance : Nat) : Nat → Array UInt8
  | 0 => out
  | n + 1 =>
    let b := if distance ≤ out.size then out.getD (out.size - distance) 0 else 0
    copy (out.push b) distance n

/-- The symbols of a block until its end.  Each takes a bit at least, so with as many
steps as there are bits the bits end no later than the steps. -/
def symbols (literals distances : Code) : Nat → Array UInt8 → BitReader (Array UInt8)
  | 0, _ => throw .ended
  | steps + 1, out => do
    let s ← literals.read
    if s < 256 then symbols literals distances steps (out.push (UInt8.ofNat s))
    else if s = 256 then return out
    else
      let length ← amount lengthBases lengthExtras (s - 257)
      let distance ← amount distanceBases distanceExtras (← distances.read)
      symbols literals distances steps (copy out distance length)

/-- The code of literals and lengths that needs no description. -/
def fixedLiterals : Code :=
  Code.ofLengths (List.replicate 144 8 ++ List.replicate 112 9 ++ List.replicate 24 7 ++
    List.replicate 8 8)

/-- The code of distances that needs no description. -/
def fixedDistances : Code :=
  Code.ofLengths (List.replicate 32 5)

/-- The order in which the lengths of the code of code lengths are listed. -/
def lengthOrder : List Nat :=
  [16, 17, 18, 0, 8, 7, 9, 6, 10, 5, 11, 4, 12, 3, 13, 2, 14, 1, 15]

/-- `wanted` code lengths, with runs spelled out; the list is kept in reverse. -/
def codeLengths (code : Code) (wanted : Nat) : Nat → List Nat → BitReader (List Nat)
  | 0, acc => if acc.length = wanted then pure acc.reverse else throw .corrupt
  | steps + 1, acc => do
    if wanted < acc.length then throw .corrupt
    else if wanted = acc.length then return acc.reverse
    else
      let s ← code.read
      if s < 16 then codeLengths code wanted steps (s :: acc)
      else if s = 16 then
        match acc with
        | [] => throw .corrupt
        | last :: _ =>
          let n := 3 + (← number 2)
          codeLengths code wanted steps (List.replicate n last ++ acc)
      else
        let n ← if s = 17 then (3 + ·) <$> number 3 else (11 + ·) <$> number 7
        codeLengths code wanted steps (List.replicate n 0 ++ acc)

/-- The codes that a block describes. -/
def describedCodes : BitReader (Code × Code) := do
  let literalCount := 257 + (← number 5)
  let distanceCount := 1 + (← number 5)
  let lengthCount := 4 + (← number 4)
  if 286 < literalCount || 30 < distanceCount then throw .corrupt
  else
    let listed ← (lengthOrder.take lengthCount).mapM fun i => do return (i, ← number 3)
    let lengthCode := Code.ofLengths ((List.range 19).map fun i => (listed.lookup i).getD 0)
    if !lengthCode.isComplete then throw .corrupt
    else
      let wanted := literalCount + distanceCount
      let lengths ← codeLengths lengthCode wanted wanted []
      let literals := Code.ofLengths (lengths.take literalCount)
      let distances := Code.ofLengths (lengths.drop literalCount)
      if literals.isUsable && distances.isUsable then return (literals, distances)
      else throw .corrupt

/-- A stored block: its length, the length's complement, and the bytes. -/
def stored (out : Array UInt8) : BitReader (Array UInt8) := do
  match ← wholeBytes 4 with
  | [a, b, c, d] =>
    let n := a.toNat + 256 * b.toNat
    if n + (c.toNat + 256 * d.toNat) = 65535 then return out ++ (← wholeBytes n).toArray
    else throw .corrupt
  | _ => throw .ended

/-- One block, and whether it is the last. -/
def block (steps : Nat) (out : Array UInt8) : BitReader (Bool × Array UInt8) := do
  let last ← bit
  let kind ← number 2
  if kind = 0 then return (last, ← stored out)
  else if kind = 1 then return (last, ← symbols fixedLiterals fixedDistances steps out)
  else if kind = 2 then
    let (literals, distances) ← describedCodes
    return (last, ← symbols literals distances steps out)
  else throw .corrupt

/-- Blocks up to the last.  They take bits too, so that what is enough for the
symbols of one of them is enough for their number. -/
def blocks (bits : Nat) : Nat → Array UInt8 → BitReader (Array UInt8)
  | 0, _ => throw .ended
  | steps + 1, out => do
    let (last, out) ← block bits out
    if last then return out else blocks bits steps out

end Inflate

/-- The bytes that a DEFLATE stream stands for. -/
def inflate (bs : List UInt8) : Except Inflate.Fault (List UInt8) :=
  let bits := 8 * bs.length
  ((Inflate.blocks bits bits #[]).run ⟨[], bs⟩).map fun r => r.1.toList

end ClassIndex

/-
Reading records from the front of a byte string.

A reader takes bytes off the front and leaves the rest to the next one.  `take`
is the only step that looks at the bytes; words, repetitions and nested records
are built from it, so what holds of `take` and is kept by sequencing holds of
every reader.
-/

namespace ClassIndex

abbrev ByteReader (ε : Type) := StateT (List UInt8) (Except ε)

/-- Faults among which there is one for a record that is cut short. -/
class HasEnd (ε : Type) where
  unexpectedEnd : ε

namespace ByteReader

variable {ε α : Type}

def bigEndian (bs : List UInt8) : Nat :=
  bs.foldl (fun n b => n * 256 + b.toNat) 0

def littleEndian (bs : List UInt8) : Nat :=
  bs.foldr (fun b n => b.toNat + n * 256) 0

def take [HasEnd ε] (n : Nat) : ByteReader ε (List UInt8) := fun bs =>
  let front := bs.take n
  if front.length = n then .ok (front, bs.drop n) else .error HasEnd.unexpectedEnd

/-- As many results of a reader as asked for, one after the other. -/
def times (p : ByteReader ε α) : Nat → ByteReader ε (List α)
  | 0 => pure []
  | n + 1 => do
    let a ← p
    let rest ← times p n
    return a :: rest

/-- The result of a reader on a record of its own; what it leaves of that record
is dropped. -/
def within (record : List UInt8) (p : ByteReader ε α) : ByteReader ε α :=
  match p record with
  | .ok (a, _) => pure a
  | .error fault => throw fault

/-- The result of a reader on a whole byte string. -/
def runOn (p : ByteReader ε α) (bs : List UInt8) : Except ε α :=
  Prod.fst <$> p bs

theorem take_append [HasEnd ε] (front rest : List UInt8) :
    (take front.length : ByteReader ε (List UInt8)) (front ++ rest) = .ok (front, rest) := by
  simp [take]

theorem take_of_length_lt [HasEnd ε] {n : Nat} {bs : List UInt8} (h : bs.length < n) :
    (take n : ByteReader ε (List UInt8)) bs = .error HasEnd.unexpectedEnd := by
  have hn : min n bs.length ≠ n := by omega
  simp [take, hn]

end ByteReader
end ClassIndex

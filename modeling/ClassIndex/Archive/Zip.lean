/-
A reader of zip archives.

An archive ends in a record that says where its directory lies, and the directory
has a record per entry.  Offsets count from where the archive should start: with
other bytes in front, everything lies later by as much as the directory does.
An entry's sizes are those of its directory record, whatever its own header
says; its checksum is compared once all of it is read.

Numbers that do not fit these records stand in wide ones: a second end record, to
which a locator before the first one leads, and an extra field of an entry.

This is the reader that runs go by.  Nothing else in the library looks at how an
archive is laid out, and its results hold for any reader.
-/
import ClassIndex.Archive
import ClassIndex.Archive.Crc32
import ClassIndex.Archive.Inflate
import ClassIndex.ByteReader
import ClassIndex.Table
import ClassIndex.Text.CodePage437

namespace ClassIndex

instance : HasEnd ArchiveFault := ⟨.truncated⟩

namespace Zip

structure Entry where
  name : String
  encrypted : Bool
  method : Nat
  checksum : UInt32
  compressedSize : Nat
  /-- Where the entry's own header starts. -/
  start : Nat
  deriving Inhabited

end Zip

structure Zip where
  bytes : List UInt8
  entries : List Zip.Entry
  deriving Inhabited

namespace Zip

open ByteReader

def le (n : Nat) : ByteReader ArchiveFault Nat := do
  return littleEndian (← take n)

/-! ## The end record -/

def endSignature : Nat := 0x06054B50

/-- The length of an end record without its comment. -/
def endLength : Nat := 22

def maxComment : Nat := 65535

/-- Whether a record with a signature starts here. -/
def startsWith (signature : Nat) (bs : List UInt8) : Bool :=
  littleEndian (bs.take 4) = signature && 4 ≤ (bs.take 4).length

/-- The last place, counted from `offset`, at which an end record can start. -/
def lastEnd (best : Option (Nat × List UInt8)) (offset : Nat) :
    List UInt8 → Option (Nat × List UInt8)
  | [] => best
  | b :: rest =>
    let here := startsWith endSignature (b :: rest) && endLength ≤ (b :: rest).length
    lastEnd (if here then some (offset, b :: rest) else best) (offset + 1) rest

structure EndRecord where
  disk : Nat
  directoryDisk : Nat
  countHere : Nat
  count : Nat
  directorySize : Nat
  directoryOffset : Nat
  commentLength : Nat

namespace EndRecord

def read : ByteReader ArchiveFault EndRecord := do
  let _signature ← le 4
  let disk ← le 2
  let directoryDisk ← le 2
  let countHere ← le 2
  let count ← le 2
  let directorySize ← le 4
  let directoryOffset ← le 4
  let commentLength ← le 2
  let _comment ← take commentLength
  return { disk, directoryDisk, countHere, count, directorySize, directoryOffset, commentLength }

/-- Some number does not fit its field. -/
def isSaturated (r : EndRecord) : Bool :=
  r.disk = 0xFFFF || r.directoryDisk = 0xFFFF || r.countHere = 0xFFFF || r.count = 0xFFFF ||
    r.directorySize = 0xFFFFFFFF || r.directoryOffset = 0xFFFFFFFF

end EndRecord

/-! ## The wide end record -/

def locatorSignature : Nat := 0x07064B50

def locatorLength : Nat := 20

structure Locator where
  directoryDisk : Nat
  /-- Where the wide end record should start. -/
  endOffset : Nat

def Locator.read : ByteReader ArchiveFault Locator := do
  let _signature ← le 4
  let directoryDisk ← le 4
  let endOffset ← le 8
  let _disks ← le 4
  return { directoryDisk, endOffset }

/-- The locator before the end record, if there is one. -/
def locator? (bytes : List UInt8) (r : EndRecord) : Option Locator :=
  let behind := locatorLength + endLength + r.commentLength
  let tail := bytes.drop (bytes.length - behind)
  if behind ≤ bytes.length && startsWith locatorSignature tail then
    (Locator.read.runOn tail).toOption
  else none

def wideSignature : Nat := 0x06064B50

def wideLength : Nat := 56

/-- The first place, counted from `offset`, at which a wide end record starts. -/
def firstWide (offset : Nat) : List UInt8 → Option (Nat × List UInt8)
  | [] => none
  | b :: rest =>
    if startsWith wideSignature (b :: rest) && wideLength ≤ (b :: rest).length then
      some (offset, b :: rest)
    else firstWide (offset + 1) rest

structure WideEnd where
  disk : Nat
  directoryDisk : Nat
  count : Nat
  directoryOffset : Nat

def WideEnd.read : ByteReader ArchiveFault WideEnd := do
  let _signature ← le 4
  let _length ← le 8
  let _madeBy ← le 2
  let _needed ← le 2
  let disk ← le 4
  let directoryDisk ← le 4
  let _countHere ← le 8
  let count ← le 8
  let _directorySize ← le 8
  let directoryOffset ← le 8
  return { disk, directoryDisk, count, directoryOffset }

/-- Where the directory lies, how many records it has, and by how much all places in
the archive are later than they are said to be. -/
structure Directory where
  start : Nat
  count : Nat
  shift : Nat

/-- What the end record says of the directory, itself at `place`. -/
def EndRecord.directory (r : EndRecord) (place : Nat) : Except ArchiveFault Directory :=
  if place < r.directorySize + r.directoryOffset then .error .malformed
  else .ok {
    start := place - r.directorySize
    count := r.countHere
    shift := place - r.directorySize - r.directoryOffset }

/-- The largest place that a file can have. -/
def lastPlace : Nat := 0x7FFFFFFFFFFFFFFF

/-- What a wide end record says of the directory.  It is sought from where it should
be up to the locator, which stands right before the end record at `place`. -/
def Locator.directory (l : Locator) (r : EndRecord) (place : Nat) (bytes : List UInt8) :
    Except ArchiveFault Directory := do
  if !r.isSaturated && r.disk ≠ l.directoryDisk then throw .unsupported
  let some (found, tail) := firstWide l.endOffset ((bytes.take (place - 4)).drop l.endOffset)
    | throw .malformed
  let wide ← WideEnd.read.runOn tail
  if wide.disk ≠ wide.directoryDisk then throw .unsupported
  let shift := found - l.endOffset
  if lastPlace < wide.directoryOffset + shift then throw .malformed
  return { start := wide.directoryOffset + shift, count := wide.count, shift }

/-! ## The directory -/

def entrySignature : Nat := 0x02014B50

/-- The method of an entry encrypted by AES.  It stands in for another one, which
the extra data of the record tell. -/
def aesMethod : Nat := 99

/-- The kind of the extra field that comes with that method. -/
def aesField : Nat := 0x9901

def aesFieldLength : Nat := 7

/-- What can stand in that field before the method it tells: version 1 or 2, the
letters `AE`, and one of three key lengths. -/
def isAesField (version : Nat) (vendor : List UInt8) (strength : UInt8) : Bool :=
  (version = 1 || version = 2) && vendor = [0x41, 0x45] && 1 ≤ strength && strength ≤ 3

/-- The kind of the extra field with the numbers that do not fit the record. -/
def wideField : Nat := 0x0001

/-- What extra data can add to a directory record. -/
structure Told where
  /-- The method that stands behind encryption. -/
  method : Option Nat
  size : Nat
  compressedSize : Nat
  start : Nat

/-- A number that may stand in the wide field, since it does not fit its own. -/
def widened (n : Nat) : ByteReader ArchiveFault Nat :=
  if n = 0xFFFFFFFF then le 8 else return n

/-- What the wide field adds, and what is left behind it.  Of a field that is cut short
the numbers before the cut count. -/
def Told.widen (known : Told) (field : List UInt8) : Told × Option (List UInt8) :=
  match widened known.size field with
  | .error _ => (known, none)
  | .ok (size, field) =>
    match widened known.compressedSize field with
    | .error _ => ({ known with size }, none)
    | .ok (compressedSize, field) =>
      match widened known.start field with
      | .error _ => ({ known with size, compressedSize }, none)
      | .ok (start, field) => ({ known with size, compressedSize, start }, some field)

/-- What extra data tell besides what is `known`.  They are a sequence of fields with a
kind and a length, of which the last one may be cut short.  After a field that tells a
method as many bytes again are passed over; the wide field is as long as the numbers
in it, if that is more than its length. -/
def Told.tell (known : Told) : List UInt8 → Except ArchiveFault Told
  | k₀ :: k₁ :: l₀ :: l₁ :: rest =>
    let length := littleEndian [l₀, l₁]
    if littleEndian [k₀, k₁] = aesField then
      if length ≠ aesFieldLength then .error .unsupported
      else
        match rest with
        | v₀ :: v₁ :: a :: e :: strength :: m₀ :: m₁ :: rest =>
          if isAesField (littleEndian [v₀, v₁]) [a, e] strength then
            tell { known with method := some (littleEndian [m₀, m₁]) } (rest.drop aesFieldLength)
          else .error .malformed
        | _ => .ok known
    else if littleEndian [k₀, k₁] = wideField then
      match known.widen rest with
      | (known, none) => .ok known
      | (known, some left) => tell known (rest.drop (max length (rest.length - left.length)))
    else tell known (rest.drop length)
  | _ => .ok known
termination_by extra => extra.length

/-- A directory record, in an archive that starts late by `shift`. -/
def readEntry (shift : Nat) : ByteReader ArchiveFault Entry := do
  if (← le 4) ≠ entrySignature then throw .malformed
  let _madeBy ← le 2
  let _needed ← le 2
  let flags ← le 2
  let method ← le 2
  let _time ← le 2
  let _date ← le 2
  let checksum ← le 4
  let compressedSize ← le 4
  let size ← le 4
  let nameLength ← le 2
  let extraLength ← le 2
  let commentLength ← le 2
  let _disk ← le 2
  let _internal ← le 2
  let _external ← le 4
  let offset ← le 4
  let name ← take nameLength
  let extra ← take extraLength
  let _comment ← take commentLength
  let told ← Told.tell { method := none, size, compressedSize, start := offset } extra
  if method = aesMethod && told.method.isNone then throw .malformed
  if 0xFFFFFFFFFFFFFFFF < told.start + shift then throw .malformed
  return {
    name := String.ofList (if flags.testBit 11 then Utf8.lossy name else CodePage437.decode name)
    encrypted := flags.testBit 0
    method := told.method.getD method
    checksum := UInt32.ofNat checksum
    compressedSize := told.compressedSize
    start := told.start + shift }

def ofBytes (bytes : List UInt8) : Except ArchiveFault Zip := do
  let size := bytes.length
  if size < endLength then throw .malformed
  let bound := size - (endLength + maxComment)
  let some (place, tail) := lastEnd none bound (bytes.drop bound) | throw .malformed
  let last ← EndRecord.read.runOn tail
  if !last.isSaturated && last.disk ≠ last.directoryDisk then throw .unsupported
  let directory ←
    match locator? bytes last with
    | none => last.directory place
    | some locator => locator.directory last place bytes
  let entries ← (times (readEntry directory.shift) directory.count).runOn
    (bytes.drop directory.start)
  return { bytes, entries }

def ofStream (s : FileTree.Stream) : Except ArchiveFault Zip :=
  match s.read with
  | .ok bytes => ofBytes bytes
  | .error cause => .error (.unreadable cause)

/-- The names of the entries, each once. -/
def names (a : Zip) : List String :=
  (Table.ofList (a.entries.map fun e => (e.name, ()))).keys

/-- The entry with a name; of several, the last one listed. -/
def entry? (a : Zip) (name : String) : Option Entry :=
  (a.entries.filter fun e => e.name = name).getLast?

/-! ## Contents -/

def headerSignature : Nat := 0x04034B50

/-- The lengths of the name and of the extra field in an entry's own header. -/
def readHeader : ByteReader ArchiveFault (Nat × Nat) := do
  if (← le 4) ≠ headerSignature then throw .malformed
  let _skipped ← take 22
  return (← le 2, ← le 2)

/-- The compressed bytes of an entry, or as many of them as there are. -/
def rawContent (a : Zip) (e : Entry) : Except ArchiveFault (List UInt8) := do
  let (nameLength, extraLength) ← readHeader.runOn (a.bytes.drop e.start)
  return (a.bytes.drop (e.start + 30 + nameLength + extraLength)).take e.compressedSize

def read (a : Zip) (name : String) : Except ArchiveFault (List UInt8) := do
  let some e := a.entry? name | throw .missingEntry
  if e.encrypted then throw .unsupported
  let raw ← a.rawContent e
  let content ←
    if e.method = 0 then pure raw
    else if e.method = 8 then
      (inflate raw).mapError fun
        | .corrupt => .corruptStream
        | .ended => .truncated
    else throw .unsupported
  if Crc32.checksum content = e.checksum then return content else throw .badChecksum

/-- Opens zip archives. -/
def reader : ArchiveReader := fun s => do
  let a ← ofStream s
  return { names := a.names, read := a.read }

end Zip
end ClassIndex

/-
Paths as bytes.

A path is a byte string cut at slashes.  Repeated slashes, a slash at the end
and a component `.` anywhere but in front say nothing, and are skipped when the
last component is sought; the spelling of what stands before it is kept.  A path
need not be text: `text?` gives its text where it has one, and `display` shows
any path.
-/
import ClassIndex.Text.Utf8

namespace ClassIndex

structure Path where
  bytes : List UInt8
  deriving DecidableEq, Inhabited

namespace Path

def slash : UInt8 := 0x2F

def dot : UInt8 := 0x2E

def ofString (s : String) : Path :=
  ⟨Utf8.bytesOf s⟩

/-- The text of a path that is well-formed UTF-8. -/
def text? (p : Path) : Option String :=
  (Utf8.decode? p.bytes).map String.ofList

def display (p : Path) : String :=
  String.ofList (Utf8.lossy p.bytes)

/-! ## Components

A path falls into a lead and a body.  The lead is the slash of an absolute path,
or a leading `.` component, which unlike a later one is kept.  The body is a list
of segments between slashes. -/

/-- The lead of a path and what follows it. -/
def split (p : Path) : List UInt8 × List UInt8 :=
  match p.bytes with
  | [] => ([], [])
  | a :: rest =>
    if a = slash then ([a], rest)
    else if a = dot && (rest = [] || rest.head? = some slash) then ([a], rest)
    else ([], a :: rest)

/-- A segment that names nothing. -/
def isTrivial (segment : List UInt8) : Bool :=
  segment = [] || segment = [dot]

/-- A list of segments less the trivial ones at its end. -/
def trim (segments : List (List UInt8)) : List (List UInt8) :=
  (segments.reverse.dropWhile isTrivial).reverse

/-- The segments of the body, up to the last component. -/
def body (p : Path) : List (List UInt8) :=
  trim (p.split.2.splitOn slash)

/-- The path without its last component.  The root and the empty path have none. -/
def parent (p : Path) : Option Path :=
  if p.body = [] then
    if p.split.1 = [dot] then some ⟨[]⟩ else none
  else
    some ⟨p.split.1 ++ List.intercalate [slash] (trim p.body.dropLast)⟩

/-- The last component, unless it goes up or is the lead. -/
def fileName (p : Path) : Option (List UInt8) :=
  p.body.getLast?.filter (· ≠ [dot, dot])

/-- What follows the last dot of the file name.  A name whose only dot comes first
has no extension. -/
def extension (p : Path) : Option (List UInt8) :=
  p.fileName.bind fun name =>
    let pieces := name.splitOn dot
    if pieces.dropLast = [] || pieces.dropLast = [[]] then none
    else pieces.getLast?

/-- An entry of the directory at a path: one slash is put between, unless the path
is empty or ends in one. -/
def join (p : Path) (name : List UInt8) : Path :=
  if p.bytes = [] || p.bytes.getLast? = some slash then ⟨p.bytes ++ name⟩
  else ⟨p.bytes ++ slash :: name⟩

end Path
end ClassIndex

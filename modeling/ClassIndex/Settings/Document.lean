/-
Settings documents, in TOML.

A document is read into keys and values.  A setting is a string, a truth value or
a list of strings, so only these values are read; tables, numbers and dates can
be no setting, and a document with any of them is refused as one with a wrong
value would be.  Strings come in the four forms of TOML.  Lines end in a line
feed, with or without a carriage return before it, and no other control character
than the tab may stand in a comment or a string.

This is how runs of the program read their settings.  No result rests on it: whatever
depends on settings is stated for all of them, wherever they come from.
-/
import ClassIndex.Table

namespace ClassIndex
namespace Document

inductive Value where
  | text (value : String)
  | flag (value : Bool)
  | texts (values : List String)
  deriving DecidableEq, Inhabited

/-- A step takes what it reads off the front, and refuses what it cannot read. -/
abbrev Step (α : Type) := List Char → Option (α × List Char)

/-! ## Characters

The quote, the tick and the backslash are written by number: 22, 27 and 5C. -/

/-- A character that may stand for itself in comments and strings. -/
def isPlain (c : Char) : Bool :=
  c = '\t' || (0x20 ≤ c.toNat && c.toNat ≠ 0x7F)

def isBlank (c : Char) : Bool :=
  c = ' ' || c = '\t'

def isBare (c : Char) : Bool :=
  c.isAlphanum || c = '-' || c = '_'

/-- The rest of the text after a line end. -/
def newline? : List Char → Option (List Char)
  | '\n' :: rest => some rest
  | '\r' :: '\n' :: rest => some rest
  | _ => none

def dropBlanks (cs : List Char) : List Char :=
  cs.dropWhile isBlank

/-- Drops a comment, if one starts here. -/
def dropComment : List Char → List Char
  | '#' :: rest => rest.dropWhile isPlain
  | cs => cs

/-- What comes after the end of a line on which nothing more is said. -/
def endLine? (cs : List Char) : Option (List Char) :=
  match dropComment (dropBlanks cs) with
  | [] => some []
  | cs => newline? cs

/-- Drops blanks, line ends and comments, as they may stand inside a list. -/
def dropLines? (inComment : Bool) : List Char → Option (List Char)
  | [] => some []
  | '\r' :: '\n' :: rest => dropLines? false rest
  | c :: rest =>
    if c = '\n' then dropLines? false rest
    else if inComment then if isPlain c then dropLines? true rest else none
    else if isBlank c then dropLines? false rest
    else if c = '#' then dropLines? true rest
    else some (c :: rest)

/-! ## Strings -/

/-- The value of a digit of base sixteen. -/
def digit? (c : Char) : Option Nat :=
  if '0' ≤ c ∧ c ≤ '9' then some (c.toNat - 0x30)
  else if 'a' ≤ c ∧ c ≤ 'f' then some (c.toNat - 0x57)
  else if 'A' ≤ c ∧ c ≤ 'F' then some (c.toNat - 0x37)
  else none

/-- The character with a number in base sixteen, if there is one. -/
def numbered? (digits : List Char) : Option Char := do
  let n ← digits.foldlM (fun n c => (16 * n + ·) <$> digit? c) 0
  if h : n.isValidChar then some (Char.ofNatAux n h) else none

/-- The character for which a letter after a backslash stands. -/
def escaped? : Char → Option Char
  | 'b' => some '\x08'
  | 't' => some '\t'
  | 'n' => some '\n'
  | 'f' => some '\x0C'
  | 'r' => some '\r'
  | '\x22' => some '\x22'
  | '\x5C' => some '\x5C'
  | _ => none

/-- Puts a character in front of a string that is read, if both are there. -/
def push (c : Option Char) (r : Option (List Char × List Char)) : Option (List Char × List Char) := do
  let (cs, rest) ← r
  return ((← c) :: cs, rest)

/-- A string up to its closing quote. -/
def basic : Step (List Char)
  | [] => none
  | '\x22' :: rest => some ([], rest)
  | '\x5C' :: 'u' :: a :: b :: c :: d :: rest => push (numbered? [a, b, c, d]) (basic rest)
  | '\x5C' :: 'U' :: a :: b :: c :: d :: e :: f :: g :: h :: rest =>
    push (numbered? [a, b, c, d, e, f, g, h]) (basic rest)
  | '\x5C' :: c :: rest => push (escaped? c) (basic rest)
  | c :: rest => if isPlain c && c ≠ '\x5C' then push (some c) (basic rest) else none

/-- A string without escapes, up to its closing tick. -/
def literal : Step (List Char)
  | [] => none
  | '\x27' :: rest => some ([], rest)
  | c :: rest => if isPlain c then push (some c) (literal rest) else none

/-- A string over several lines, up to its three closing quotes, which one or two
more may precede.  A backslash at the end of a line drops everything up to the
next character that is neither blank nor a line end: `dropping` says that this is
going on. -/
def multiBasic (dropping : Bool) : Step (List Char)
  | [] => none
  | '\x22' :: '\x22' :: '\x22' :: '\x22' :: '\x22' :: rest => some (['\x22', '\x22'], rest)
  | '\x22' :: '\x22' :: '\x22' :: '\x22' :: rest => some (['\x22'], rest)
  | '\x22' :: '\x22' :: '\x22' :: rest => some ([], rest)
  | '\x5C' :: 'u' :: a :: b :: c :: d :: rest =>
    push (numbered? [a, b, c, d]) (multiBasic false rest)
  | '\x5C' :: 'U' :: a :: b :: c :: d :: e :: f :: g :: h :: rest =>
    push (numbered? [a, b, c, d, e, f, g, h]) (multiBasic false rest)
  | '\x5C' :: c :: rest =>
    if (newline? (dropBlanks (c :: rest))).isSome then multiBasic true (c :: rest)
    else push (escaped? c) (multiBasic false rest)
  | '\r' :: '\n' :: rest =>
    if dropping then multiBasic true rest else push (some '\n') (multiBasic false rest)
  | c :: rest =>
    if dropping && (isBlank c || c = '\n') then multiBasic true rest
    else if (isPlain c && c ≠ '\x5C') || c = '\n' then push (some c) (multiBasic false rest)
    else none

/-- A string over several lines without escapes, up to its three closing ticks,
which one or two more may precede. -/
def multiLiteral : Step (List Char)
  | [] => none
  | '\x27' :: '\x27' :: '\x27' :: '\x27' :: '\x27' :: rest => some (['\x27', '\x27'], rest)
  | '\x27' :: '\x27' :: '\x27' :: '\x27' :: rest => some (['\x27'], rest)
  | '\x27' :: '\x27' :: '\x27' :: rest => some ([], rest)
  | '\r' :: '\n' :: rest => push (some '\n') (multiLiteral rest)
  | c :: rest => if isPlain c || c = '\n' then push (some c) (multiLiteral rest) else none

/-- What follows the opening of a string over several lines: a line end that
comes first is not part of it. -/
def dropFirstNewline (cs : List Char) : List Char :=
  (newline? cs).getD cs

/-- A string in any of its forms. -/
def string : Step String := fun cs => do
  let (value, rest) ←
    match cs with
    | '\x22' :: '\x22' :: '\x22' :: rest => multiBasic false (dropFirstNewline rest)
    | '\x22' :: rest => basic rest
    | '\x27' :: '\x27' :: '\x27' :: rest => multiLiteral (dropFirstNewline rest)
    | '\x27' :: rest => literal rest
    | _ => none
  return (String.ofList value, rest)

/-! ## Values -/

/-- The strings of a list up to its closing bracket.  Each takes two characters
at least, so as many steps as there are characters are enough. -/
def items : Nat → Step (List String)
  | 0, _ => none
  | steps + 1, cs => do
    match ← dropLines? false cs with
    | ']' :: rest => return ([], rest)
    | cs =>
      let (value, rest) ← string cs
      match ← dropLines? false rest with
      | ']' :: rest => return ([value], rest)
      | ',' :: rest =>
        let (values, rest) ← items steps rest
        return (value :: values, rest)
      | _ => none

def value : Step Value
  | 't' :: 'r' :: 'u' :: 'e' :: rest => some (.flag true, rest)
  | 'f' :: 'a' :: 'l' :: 's' :: 'e' :: rest => some (.flag false, rest)
  | '[' :: rest => do
    let (values, rest) ← items (rest.length + 1) rest
    return (.texts values, rest)
  | cs => do
    let (value, rest) ← string cs
    return (.text value, rest)

/-! ## Lines -/

/-- A key: bare, or a string on one line. -/
def key : Step String
  | '\x22' :: rest => do
    let (name, rest) ← basic rest
    return (String.ofList name, rest)
  | '\x27' :: rest => do
    let (name, rest) ← literal rest
    return (String.ofList name, rest)
  | cs =>
    if (cs.takeWhile isBare).isEmpty then none
    else some (String.ofList (cs.takeWhile isBare), cs.dropWhile isBare)

/-- A key, an equals sign and a value. -/
def entry : Step (String × Value) := fun cs => do
  let (name, rest) ← key cs
  match dropBlanks rest with
  | '=' :: rest =>
    let (value, rest) ← value (dropBlanks rest)
    return ((name, value), rest)
  | _ => none

/-- The entries of a text, line by line. -/
def lines : Nat → List Char → Option (List (String × Value))
  | 0, _ => none
  | steps + 1, cs =>
    match dropBlanks cs with
    | [] => some []
    | c :: cs =>
      if c = '#' || (newline? (c :: cs)).isSome then do lines steps (← endLine? (c :: cs))
      else do
        let (e, rest) ← entry (c :: cs)
        return e :: (← lines steps (← endLine? rest))

/-- The text less a byte order mark in front. -/
def dropMark : List Char → List Char
  | '\uFEFF' :: rest => rest
  | cs => cs

/-- The entries of a document, in which no key may come twice. -/
def read (text : String) : Option (List (String × Value)) := do
  let cs := dropMark text.toList
  let entries ← lines (cs.length + 1) cs
  if (Table.ofList entries).size = entries.length then some entries else none

end Document
end ClassIndex

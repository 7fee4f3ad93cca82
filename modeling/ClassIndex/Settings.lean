/-
Settings: the conventions by which classes are found and functions recognised.
-/

namespace ClassIndex

structure Settings where
  /-- How the file name of a function's class starts. -/
  functionMarker : String := "Function_"
  /-- The name of the one method that a function's class declares. -/
  invokeName : String := "invoke"
  /-- The extensions of files that are taken for archives. -/
  archiveExtensions : List String := ["jar", "zip"]
  /-- Whether entries of archives below `META-INF/` are left out. -/
  skipMetaInf : Bool := true
  deriving DecidableEq, Inhabited

namespace Settings

/-- A letter in lower case, if it is an ASCII letter. -/
def lower (c : Char) : Char :=
  if 'A' ≤ c ∧ c ≤ 'Z' then Char.ofNat (c.toNat + 32) else c

/-- Whether two texts differ at most in the case of ASCII letters. -/
def sameIgnoringCase (a b : String) : Bool :=
  a.toList.map lower = b.toList.map lower

def isArchiveExtension (s : Settings) (extension : String) : Bool :=
  s.archiveExtensions.any fun known => sameIgnoringCase known extension

/-- What is wrong with settings that can be written down all the same: an empty
marker would make every class a function's, and no method has an empty name. -/
def fault? (s : Settings) : Option String :=
  if s.functionMarker = "" then some "function-class-prefix must not be empty"
  else if s.invokeName = "" then some "invoke-method-name must not be empty"
  else none

end Settings
end ClassIndex

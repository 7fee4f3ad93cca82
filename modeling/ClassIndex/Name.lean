/-
Dotted names.

A class is known by a name whose segments are set off by dots.  Class files and
descriptors write the same name with slashes.  A name is qualified when none of
its segments is empty; the names that enclose it are its proper parts up to a
dot, and for a qualified name they are qualified too.
-/

namespace ClassIndex
namespace Name

/-- A name as class files write it: slashes for dots. -/
def slashed (name : String) : String :=
  String.ofList (name.toList.map fun c => if c = '.' then '/' else c)

/-- A name out of a class file: dots for slashes. -/
def dotted (name : String) : String :=
  String.ofList (name.toList.map fun c => if c = '/' then '.' else c)

/-- The parts between dots; a name without dots has one part, itself. -/
def segments (name : String) : List (List Char) :=
  name.toList.splitOn '.'

/-- A name without empty segments.  The empty name has one segment, an empty one,
and so is not qualified. -/
def isQualified (name : String) : Bool :=
  (segments name).all fun s => !s.isEmpty

/-- The beginnings of a text that a dot follows, shortest first: `before` has been
passed already. -/
def enclosingFrom (before : String) : List Char → List String
  | [] => []
  | c :: rest =>
    if c = '.' then before :: enclosingFrom (before.push c) rest
    else enclosingFrom (before.push c) rest

/-- The names that enclose a name, outermost first. -/
def enclosing (name : String) : List String :=
  enclosingFrom "" name.toList

/-- What stands before the last dot, or nothing at all. -/
def package (name : String) : String :=
  String.ofList ((name.toList.reverse.dropWhile (· ≠ '.')).drop 1).reverse

/-- The canonical form of a class name: a nested class is a segment of its own. -/
def canonical (name : String) : String :=
  String.ofList (name.toList.map fun c => if c = '$' then '.' else c)

/-- A beginning is what some dot cuts off. -/
theorem mem_enclosingFrom {outer before : String} {cs : List Char} :
    outer ∈ enclosingFrom before cs ↔
      ∃ b rest, cs = b ++ '.' :: rest ∧ outer.toList = before.toList ++ b := by
  induction cs generalizing before with
  | nil => simp [enclosingFrom]
  | cons c cs ih =>
    have hlater : outer ∈ enclosingFrom (before.push c) cs ↔
        ∃ b rest, cs = b ++ '.' :: rest ∧ outer.toList = before.toList ++ c :: b := by
      simp [ih, String.toList_push]
    unfold enclosingFrom
    by_cases hc : c = '.'
    · rw [if_pos hc, List.mem_cons, hlater]
      constructor
      · rintro (rfl | ⟨b, rest, h, ho⟩)
        · exact ⟨[], cs, by simp [hc], by simp⟩
        · exact ⟨c :: b, rest, by simp [h], ho⟩
      · rintro ⟨b, rest, h, ho⟩
        cases b with
        | nil => exact Or.inl (String.toList_inj.mp (by simpa using ho))
        | cons d b =>
          simp only [List.cons_append, List.cons.injEq] at h
          exact Or.inr ⟨b, rest, h.2, by rw [ho, h.1]⟩
    · rw [if_neg hc, hlater]
      constructor
      · rintro ⟨b, rest, h, ho⟩
        exact ⟨c :: b, rest, by simp [h], ho⟩
      · rintro ⟨b, rest, h, ho⟩
        cases b with
        | nil => exact absurd (List.cons.inj h).1 hc
        | cons d b =>
          simp only [List.cons_append, List.cons.injEq] at h
          exact ⟨b, rest, h.2, by rw [ho, h.1]⟩

/-- A name encloses another exactly when a dot follows it there. -/
theorem mem_enclosing {outer name : String} :
    outer ∈ enclosing name ↔ ∃ rest, name.toList = outer.toList ++ '.' :: rest := by
  unfold enclosing
  rw [mem_enclosingFrom]
  constructor
  · rintro ⟨b, rest, h, ho⟩
    exact ⟨rest, by simpa [ho] using h⟩
  · rintro ⟨rest, h⟩
    exact ⟨outer.toList, rest, h, by simp⟩

/-- The package is what stands before a dot after which there is none. -/
theorem package_eq {name outer : String} {last : List Char}
    (h : name.toList = outer.toList ++ '.' :: last) (hlast : '.' ∉ last) :
    package name = outer := by
  have hdrop : ∀ tail : List Char, (last.reverse ++ '.' :: tail).dropWhile (· ≠ '.') =
      '.' :: tail := by
    intro tail
    rw [List.dropWhile_append_of_pos, List.dropWhile_cons_of_neg (by simp)]
    intro c hc
    have : c ≠ '.' := fun he => hlast (by simpa [he] using hc)
    simpa using this
  unfold package
  rw [h, List.reverse_append, List.reverse_cons, List.append_assoc, List.singleton_append, hdrop]
  simp

/-- A name without dots has the empty package. -/
theorem package_eq_empty {name : String} (h : '.' ∉ name.toList) : package name = "" := by
  have hdots : ∀ c ∈ name.toList.reverse, decide (c ≠ '.') = true := by
    intro c hc
    have : c ≠ '.' := fun he => h (by simpa [he] using hc)
    simpa using this
  have hdrop : (name.toList.reverse ++ []).dropWhile (· ≠ '.') = [] :=
    List.dropWhile_append_of_pos hdots
  rw [List.append_nil] at hdrop
  unfold package
  rw [hdrop]
  rfl

end Name
end ClassIndex

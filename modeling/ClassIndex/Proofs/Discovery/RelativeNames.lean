/-
One relative name in a directory and in an archive.

A class file has one relative name, as a path below a directory and as an entry of an
archive.  Both sources read the same placement off it (`placement?_fileAt`), but for three
things that only a directory minds: a root that is no text, a root that ends in a
component `.` with a class directly below it, and a name that starts with a dot or a dollar
sign, where the archive loses the dot that a directory keeps.  Such a class has no place
below the root (`placement?_fileAt_eq_none`).
-/
import ClassIndex.Proofs.Discovery.Registration
import ClassIndex.Proofs.Layout.Below

namespace ClassIndex
namespace Discovery

open ClassIndex.Path Layout

/-! ## One file in either source -/

def fileAt (root : Path) (n : String) : Candidate :=
  ⟨root.below (.ofString n), lastPart n, .file (root.below (.ofString n))⟩

def entryAt (jar : Path) (n : String) : Candidate :=
  ⟨.ofString n, lastPart n, .entry jar n⟩

variable {s : Settings} {root jar : Path} {n r : String} {outer last stem : List Char}

theorem lastPart_of_nested (hn : n.toList = outer ++ '/' :: last) (hlast : '/' ∉ last) :
    lastPart n = String.ofList last := by
  rw [lastPart, hn, List.splitOn_append_cons_self, List.splitOn_eq_singleton hlast,
    List.getLast?_concat]
  rfl

theorem lastPart_of_single (hsingle : '/' ∉ n.toList) : lastPart n = n := by
  rw [lastPart, List.splitOn_eq_singleton hsingle]
  exact String.ofList_toList

theorem lastPart_eq (n : String) : lastPart n = n ∧ '/' ∉ n.toList ∨
    ∃ outer last, n.toList = outer ++ '/' :: last ∧ '/' ∉ last ∧ lastPart n = String.ofList last := by
  by_cases hmem : '/' ∈ n.toList
  · obtain ⟨outer, last, hn, hlast⟩ := exists_last_of_mem hmem
    exact Or.inr ⟨outer, last, hn, hlast, lastPart_of_nested hn hlast⟩
  · exact Or.inl ⟨lastPart_of_single hmem, hmem⟩

/-- The directory of a class file, if it lies in one, and its name without the ending. -/
inductive Shape (n : String) : Prop where
  | single (stem : List Char) (hn : n.toList = stem ++ suffix) (hsingle : '/' ∉ n.toList)
  | nested (outer stem : List Char) (hn : n.toList = outer ++ '/' :: (stem ++ suffix))
    (hlast : '/' ∉ stem ++ suffix)

theorem shape_of_isClassFile (h : isClassFile (lastPart n) = true) : Shape n := by
  rw [isClassFile, Bool.and_eq_true] at h
  obtain ⟨stem, hstem⟩ := Option.isSome_iff_exists.mp h.1
  rw [Affix.before?_eq_some_iff] at hstem
  rcases lastPart_eq n with ⟨heq, hsingle⟩ | ⟨outer, last, hn, hlast, heq⟩
  · rw [heq] at hstem
    exact .single stem hstem hsingle
  · rw [heq, String.toList_ofList] at hstem
    exact .nested outer stem (hstem ▸ hn) (hstem ▸ hlast)

theorem Shape.exists_stem (h : Shape n) : ∃ stem, n.toList = stem ++ suffix := by
  cases h with
  | single stem hn => exact ⟨stem, hn⟩
  | nested outer stem hn => exact ⟨outer ++ '/' :: stem, by rw [hn]; simp⟩

theorem Shape.exists_stem_lastPart (h : Shape n) :
    ∃ stem, (lastPart n).toList = stem ++ suffix := by
  cases h with
  | single stem hn hsingle => exact ⟨stem, by rw [lastPart_of_single hsingle, hn]⟩
  | nested outer stem hn hlast =>
    exact ⟨stem, by rw [lastPart_of_nested hn hlast, String.toList_ofList]⟩

/-- The path of a file ends in the last part of its name. -/
theorem fileName_eq_lastPart (hplain : (Path.ofString n).IsPlain) (hroot : root.bytes ≠ []) :
    (root.below (.ofString n)).fileName = some (Utf8.encode (lastPart n).toList) ∧
      (Path.ofString n).fileName = some (Utf8.encode (lastPart n).toList) := by
  rcases lastPart_eq n with ⟨heq, hsingle⟩ | ⟨outer, last, hn, hlast, heq⟩
  · have hsteps : (Path.ofString n).steps = [] ++ [Utf8.encode n.toList] := by
      rw [← bytes_ofString]
      exact steps_of_not_mem (bytes_ofString n ▸ slash_not_mem_encode hsingle)
    rw [heq]
    exact ⟨fileName_below hroot hplain hsteps, hplain.fileName_eq hsteps⟩
  · have hsteps : (Path.ofString n).steps =
        (⟨Utf8.encode outer⟩ : Path).steps ++ [Utf8.encode last] := by
      rw [ofString_of_nested hn]
      exact steps_append (slash_not_mem_encode hlast)
    rw [heq, String.toList_ofList]
    exact ⟨fileName_below hroot hplain hsteps, hplain.fileName_eq hsteps⟩

theorem fileCandidate?_below (hplain : (Path.ofString n).IsPlain) (hroot : root.bytes ≠ []) :
    fileCandidate? (root.below (.ofString n)) =
      if isClassFile (lastPart n) then some (fileAt root n) else none := by
  unfold fileCandidate? fileAt
  simp only [(fileName_eq_lastPart hplain hroot).1, Option.bind_some, Utf8.decode?_encode,
    Option.bind_eq_bind, String.ofList_toList]

theorem entryCandidate?_eq (hmeta : isMetaInf n.toList = false) : entryCandidate? s jar n =
    if isClassFile (lastPart n) then some (entryAt jar n) else none := by
  rw [entryCandidate?, hmeta, Bool.and_false, if_neg (by decide)]
  rfl

/-! ## One placement -/

/-- A class file of this relative name has the same names below a root as without one. -/
structure Nameable (root : Path) (n : String) : Prop where
  text : root.text? ≠ none
  front : n.toList.head? ≠ some '.' ∧ n.toList.head? ≠ some '$'
  parent : '/' ∉ n.toList → ¬ [slash, dot] <:+ root.bytes

theorem kind_fileAt (s : Settings) (root jar : Path) (n : String) :
    (fileAt root n).kind s = (entryAt jar n).kind s := rfl

theorem startsBare_stem (h : StartsBare n.toList) (hn : n.toList = stem ++ suffix) :
    StartsBare stem := by
  cases stem with
  | nil => exact ⟨nofun, nofun, nofun⟩
  | cons c stem =>
    have hhead : (c :: stem).head? = n.toList.head? := by rw [hn]; rfl
    rwa [StartsBare, hhead]

/-- The type's name is the stem of the file's, once the root is a text. -/
theorem name?_fileAt_type (hkind : (fileAt root n).kind s = .type) (hr : root.text? = some r)
    (hn : n.toList = stem ++ suffix) :
    (fileAt root n).name? s root = some (String.ofList (dots stem)) := by
  rw [Candidate.name?, hkind]
  show (typeName (root.below (.ofString n)) root).toOption = _
  rw [typeName_below hr hn]
  rfl

section Names

variable (hroot : root.bytes ≠ []) (hplain : (Path.ofString n).IsPlain)

include hplain

theorem toList_ne_nil_of_plain : n.toList ≠ [] := by
  apply ne_nil_of_isPlain
  rw [← bytes_ofString]
  exact hplain

theorem Nameable.startsBare (h : Nameable root n) : StartsBare n.toList := by
  refine ⟨head?_of_isPlain ?_, h.front⟩
  rw [← bytes_ofString]
  exact hplain

theorem startsBare_outer (h : StartsBare n.toList) (hn : n.toList = outer ++ '/' :: last) :
    outer ≠ [] ∧ StartsBare outer := by
  have hne := ne_nil_of_isPlain (isPlain_outer hplain hn)
  obtain ⟨c, cs, hcs⟩ := List.exists_cons_of_ne_nil hne
  have hhead : outer.head? = n.toList.head? := by rw [hn, hcs]; rfl
  refine ⟨hne, ?_⟩
  rwa [StartsBare, hhead]

include hroot

theorem name?_fileAt (jar : Path) (hshape : Shape n) (h : Nameable root n) :
    (fileAt root n).name? s root = (entryAt jar n).name? s ⟨[]⟩ := by
  obtain ⟨r, hr⟩ := Option.ne_none_iff_exists'.mp h.text
  have hbare := h.startsBare hplain
  unfold Candidate.name?
  rw [kind_fileAt s root jar n]
  cases (entryAt jar n).kind s with
  | type =>
    obtain ⟨stem, hn⟩ := hshape.exists_stem
    show (typeName (root.below (.ofString n)) root).toOption = (typeName (.ofString n) ⟨[]⟩).toOption
    rw [typeName_below hr hn, typeName_ofString (toList_ne_nil_of_plain hplain) hn,
      dropDot_dots (startsBare_stem hbare hn)]
  | function =>
    show (functionName s.functionMarker (root.below (.ofString n)) root).toOption =
      (functionName s.functionMarker (.ofString n) ⟨[]⟩).toOption
    have hfile := fileName_eq_lastPart hplain hroot
    cases hshape with
    | single stem hn hsingle =>
      rw [lastPart_of_single hsingle, hn] at hfile
      rw [toOption_functionName hfile.1, toOption_functionName hfile.2,
        above?_below_of_single hplain hsingle hroot, above?_ofString_of_single hplain hsingle]
    | nested outer stem hn hlast =>
      rw [lastPart_of_nested hn hlast, String.toList_ofList] at hfile
      rw [toOption_functionName hfile.1, toOption_functionName hfile.2,
        above?_below hplain hn hlast hroot hr, above?_ofString hplain hn hlast, Option.bind_some,
        Option.bind_some]
      obtain ⟨hne, houter⟩ := startsBare_outer hplain hbare hn
      simp only [dropDot_dots_append houter hne]
      rfl

theorem package_fileAt (hslash : root.bytes.getLast? ≠ some slash) (h : Nameable root n) :
    (package (root.below (.ofString n)) root).toOption = (package (.ofString n) ⟨[]⟩).toOption := by
  obtain ⟨r, hr⟩ := Option.ne_none_iff_exists'.mp h.text
  rcases lastPart_eq n with ⟨-, hsingle⟩ | ⟨outer, last, hn, hlast, -⟩
  · rw [package_below_of_single hplain hsingle hroot hslash (h.parent hsingle) hr,
      package_ofString_of_single hplain hsingle]
  · obtain ⟨hne, houter⟩ := startsBare_outer hplain (h.startsBare hplain) hn
    rw [package_below hplain hn hlast hroot hr, package_ofString hplain hn hlast,
      dropDot_dots houter]
    obtain ⟨c, cs, hcs⟩ := List.exists_cons_of_ne_nil hne
    rw [hcs]
    rfl

/-- Below a root that can name it, a class has the place that it has in an archive. -/
theorem placement?_fileAt (hslash : root.bytes.getLast? ≠ some slash) (hshape : Shape n)
    (h : Nameable root n) :
    (fileAt root n).placement? s root = (entryAt jar n).placement? s ⟨[]⟩ := by
  have hpackages : ∀ name, (fileAt root n).packages? s root name =
      (entryAt jar n).packages? s ⟨[]⟩ name := by
    intro name
    have hpackage : (package (fileAt root n).path root).toOption =
        (package (entryAt jar n).path ⟨[]⟩).toOption := package_fileAt hroot hplain hslash h
    rw [Candidate.packages?_eq, Candidate.packages?_eq, kind_fileAt s root jar n, hpackage]
  unfold Candidate.placement?
  rw [name?_fileAt hroot hplain jar hshape h, kind_fileAt s root jar n]
  simp only [hpackages]

/-! ## No placement -/

theorem name?_fileAt_function_single (hkind : (fileAt root n).kind s = .function)
    (hsingle : '/' ∉ n.toList) (hn : n.toList = stem ++ suffix) :
    (fileAt root n).name? s root = none := by
  have hfile := (fileName_eq_lastPart hplain hroot).1
  rw [lastPart_of_single hsingle, hn] at hfile
  rw [Candidate.name?, hkind]
  show (functionName s.functionMarker (root.below (.ofString n)) root).toOption = _
  rw [toOption_functionName hfile, above?_below_of_single hplain hsingle hroot]
  rfl

theorem name?_fileAt_function_nested (hkind : (fileAt root n).kind s = .function)
    (hr : root.text? = some r) (hn : n.toList = outer ++ '/' :: (stem ++ suffix))
    (hlast : '/' ∉ stem ++ suffix) : (fileAt root n).name? s root =
      (Affix.after? s.functionMarker.toList stem).map fun simple =>
        String.ofList (dots outer ++ '.' :: simple) := by
  have hfile := (fileName_eq_lastPart hplain hroot).1
  rw [lastPart_of_nested hn hlast, String.toList_ofList] at hfile
  rw [Candidate.name?, hkind]
  show (functionName s.functionMarker (root.below (.ofString n)) root).toOption = _
  rw [toOption_functionName hfile, above?_below hplain hn hlast hroot hr]
  rfl

theorem name?_fileAt_of_noText (hshape : Shape n) (hr : root.text? = none) :
    (fileAt root n).name? s root = none := by
  rw [Candidate.name?]
  cases (fileAt root n).kind s with
  | type =>
    show (typeName (root.below (.ofString n)) root).toOption = none
    rw [typeName, toOption_bind, toOption_textOf, text?_below, hr]
    rfl
  | function =>
    show (functionName s.functionMarker (root.below (.ofString n)) root).toOption = none
    obtain ⟨stem, hstem⟩ := hshape.exists_stem_lastPart
    have hfile := (fileName_eq_lastPart hplain hroot).1
    rw [hstem] at hfile
    rw [toOption_functionName hfile, above?_eq_none_of_text? hr]
    rfl

/-- A dot in front stays in front of a name below a root. -/
theorem placement?_fileAt_of_front (hshape : Shape n) (hr : root.text? = some r)
    (hfront : n.toList.head? = some '.' ∨ n.toList.head? = some '$') :
    (fileAt root n).placement? s root = none := by
  cases hkind : (fileAt root n).kind s with
  | type =>
    obtain ⟨stem, hn⟩ := hshape.exists_stem
    apply Candidate.placement?_of_not_isQualified (name?_fileAt_type hkind hr hn)
    cases stem with
    | nil => decide
    | cons c stem =>
      have hhead : (c :: stem).head? = n.toList.head? := by rw [hn]; rfl
      rw [← List.append_nil (dots _)]
      exact isQualified_dots_append (hhead ▸ hfront) []
  | function =>
    cases hshape with
    | single stem hn hsingle =>
      exact Candidate.placement?_of_noName
        (name?_fileAt_function_single hroot hplain hkind hsingle hn)
    | nested outer stem hn hlast =>
      have hname := name?_fileAt_function_nested hroot hplain hkind hr hn hlast
      obtain ⟨c, cs, hcs⟩ := List.exists_cons_of_ne_nil (ne_nil_of_isPlain (isPlain_outer hplain hn))
      have hhead : outer.head? = n.toList.head? := by rw [hn, hcs]; rfl
      cases hafter : Affix.after? s.functionMarker.toList stem with
      | none =>
        rw [hafter] at hname
        exact Candidate.placement?_of_noName hname
      | some simple =>
        rw [hafter] at hname
        exact Candidate.placement?_of_not_isQualified hname
          (isQualified_dots_append (hhead ▸ hfront) _)

theorem placement?_fileAt_of_dot (hshape : Shape n) (hr : root.text? = some r)
    (hsingle : '/' ∉ n.toList) (hdot : [slash, dot] <:+ root.bytes) :
    (fileAt root n).placement? s root = none := by
  obtain ⟨stem, hn⟩ := hshape.exists_stem
  cases hkind : (fileAt root n).kind s with
  | type =>
    rw [Candidate.placement?_eq_none_iff (name?_fileAt_type hkind hr hn), Candidate.packages?_eq,
      hkind]
    intro _
    show (package (root.below (.ofString n)) root).toOption.bind _ = none
    rw [package_below_of_dot hplain hsingle hroot hdot hr]
    rfl
  | function =>
    exact Candidate.placement?_of_noName
      (name?_fileAt_function_single hroot hplain hkind hsingle hn)

/-- Below a root that cannot name it, a class has no place. -/
theorem placement?_fileAt_eq_none (hshape : Shape n) (h : ¬ Nameable root n) :
    (fileAt root n).placement? s root = none := by
  cases hr : root.text? with
  | none => exact Candidate.placement?_of_noName (name?_fileAt_of_noText hroot hplain hshape hr)
  | some r =>
    by_cases hfront : n.toList.head? = some '.' ∨ n.toList.head? = some '$'
    · exact placement?_fileAt_of_front hroot hplain hshape hr hfront
    · by_cases hdot : '/' ∉ n.toList ∧ [slash, dot] <:+ root.bytes
      · exact placement?_fileAt_of_dot hroot hplain hshape hr hdot.1 hdot.2
      · refine absurd ⟨?_, not_or.mp hfront, fun hsingle h => hdot ⟨hsingle, h⟩⟩ h
        rw [hr]
        exact nofun

end Names

end Discovery
end ClassIndex

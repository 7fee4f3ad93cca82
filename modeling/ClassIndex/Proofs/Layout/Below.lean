/-
Names below a root and names without one.

The names of a class below a root are those of its relative path, character by character,
for the slash after the root becomes the dot in front that `dropDot` takes away
(`typeName_below`, `toOption_functionName`, `package_below`).  The relative path itself,
taken below no root, gives the same names unless it starts with a dot or a dollar sign:
then the dot that is taken away belongs to the name (`typeName_ofString` and its
companions).
-/
import ClassIndex.Layout
import ClassIndex.Proofs.Name.Separators
import ClassIndex.Proofs.Path.Below
import ClassIndex.Proofs.Text.Utf8

namespace ClassIndex
namespace Path

variable {root : Path} {r n : String}

theorem text?_ofString (n : String) : (ofString n).text? = some n := by
  rw [text?, ofString, Utf8.bytesOf_eq_encode, Utf8.decode?_encode, Option.map_some,
    String.ofList_toList]

theorem text?_ofList (cs : List Char) : (⟨Utf8.encode cs⟩ : Path).text? = some (String.ofList cs) := by
  rw [text?, Utf8.decode?_encode]
  rfl

theorem text?_nil : (⟨[]⟩ : Path).text? = some "" := rfl

theorem bytes_ofString (n : String) : (ofString n).bytes = Utf8.encode n.toList :=
  Utf8.bytesOf_eq_encode n

theorem encode_slash (cs : List Char) : Utf8.encode ('/' :: cs) = slash :: Utf8.encode cs :=
  Utf8.encode_ascii (by decide) cs

theorem ofString_of_nested {outer last : List Char} (h : n.toList = outer ++ '/' :: last) :
    ofString n = ⟨Utf8.encode outer ++ slash :: Utf8.encode last⟩ := by
  rw [← encode_slash, ← Utf8.encode_append, ← h, ← bytes_ofString]

theorem slash_not_mem_encode {cs : List Char} (h : '/' ∉ cs) : slash ∉ Utf8.encode cs :=
  Utf8.not_mem_encode (c := '/') (by decide) h

theorem text?_below_ofList (cs : List Char) : (root.below ⟨Utf8.encode cs⟩).text? =
    root.text?.map fun r => String.ofList (r.toList ++ '/' :: cs) := by
  have hhead : ∀ b ∈ (Utf8.encode ('/' :: cs)).head?, b < 0x80 := by
    intro b hb
    rw [encode_slash] at hb
    cases hb
    decide
  rw [text?, text?, below, ← encode_slash, Utf8.decode?_append hhead, Utf8.decode?_encode]
  cases Utf8.decode? root.bytes with
  | none => rfl
  | some rs => simp

theorem text?_below : (root.below (ofString n)).text? =
    root.text?.map fun r => String.ofList (r.toList ++ '/' :: n.toList) := by
  rw [← text?_below_ofList, ← bytes_ofString]

end Path

namespace Layout

open ClassIndex.Path

variable {root : Path} {r n : String} {outer last stem : List Char}

theorem textOf_of_text? {p : Path} {text : String} (h : p.text? = some text) :
    textOf p = .ok text := by
  rw [textOf, h]

theorem toOption_textOf (p : Path) : (textOf p).toOption = p.text? := by
  unfold textOf
  cases p.text? <;> rfl

theorem relative_of_below (r : String) (cs : List Char) :
    relative (String.ofList (r.toList ++ '/' :: cs)) r = .ok ('/' :: cs) := by
  rw [relative, String.toList_ofList, Affix.after?_append]

theorem relative_ofList {c : Char} (cs : List Char) :
    relative (String.ofList (c :: cs)) "" = .ok (c :: cs) := by
  rw [relative, String.toList_ofList, String.toList_ofList]
  rfl

theorem dots_append (as bs : List Char) : dots (as ++ bs) = dots as ++ dots bs :=
  List.map_append

theorem dropDot_dots_slash (cs : List Char) : dropDot (dots ('/' :: cs)) = dots cs := rfl

/-! ## Below a root -/

theorem typeName_below (hr : root.text? = some r) (hn : n.toList = stem ++ suffix) :
    typeName (root.below (ofString n)) root = .ok (String.ofList (dots stem)) := by
  have htext : (root.below (ofString n)).text? =
      some (String.ofList (r.toList ++ '/' :: n.toList)) := by
    rw [text?_below, hr]
    rfl
  have hstem : Affix.before? suffix ('/' :: n.toList) = some ('/' :: stem) := by
    rw [hn, ← List.cons_append, Affix.before?_append]
  rw [typeName, textOf_of_text? htext, textOf_of_text? hr]
  show (relative _ r >>= _) = _
  rw [relative_of_below]
  simp only [bind, Except.bind, hstem, dropDot_dots_slash]

theorem typeName_ofString (hne : n.toList ≠ []) (hn : n.toList = stem ++ suffix) :
    typeName (ofString n) ⟨[]⟩ = .ok (String.ofList (dropDot (dots stem))) := by
  obtain ⟨c, cs, hcs⟩ := List.exists_cons_of_ne_nil hne
  have hrelative : relative n "" = .ok n.toList := by
    rw [hcs, ← relative_ofList cs, ← hcs, String.ofList_toList]
  rw [typeName, textOf_of_text? (text?_ofString n), textOf_of_text? text?_nil]
  show (relative n "" >>= _) = _
  rw [hrelative, hn]
  simp only [bind, Except.bind, Affix.before?_append]

/-! ## Dots in front -/

theorem dropDot_eq {cs : List Char} (h : cs.head? ≠ some '.') : dropDot cs = cs := by
  cases cs with
  | nil => rfl
  | cons c cs =>
    rw [dropDot]
    intro rest hc
    cases hc
    exact h rfl

/-- The first character of some text becomes a dot in no way. -/
def StartsBare (cs : List Char) : Prop :=
  cs.head? ≠ some '/' ∧ cs.head? ≠ some '.' ∧ cs.head? ≠ some '$'

theorem head?_dots_append {cs : List Char} (h : StartsBare cs) (hne : cs ≠ []) (rest : List Char) :
    (dots cs ++ rest).head? ≠ some '.' := by
  obtain ⟨c, cs, rfl⟩ := List.exists_cons_of_ne_nil hne
  have hc : c ≠ '/' ∧ c ≠ '.' ∧ c ≠ '$' :=
    ⟨fun hc => h.1 (congrArg some hc), fun hc => h.2.1 (congrArg some hc),
      fun hc => h.2.2 (congrArg some hc)⟩
  have hdots : dots (c :: cs) = c :: dots cs := by
    simp [dots, hc.1, hc.2.2]
  rw [hdots]
  intro hhead
  exact hc.2.1 (Option.some_inj.mp hhead)

theorem dropDot_dots_append {cs : List Char} (h : StartsBare cs) (hne : cs ≠ []) (rest : List Char) :
    dropDot (dots cs ++ rest) = dots cs ++ rest :=
  dropDot_eq (head?_dots_append h hne rest)

theorem dropDot_dots {cs : List Char} (h : StartsBare cs) : dropDot (dots cs) = dots cs := by
  by_cases hne : cs = []
  · rw [hne]
    rfl
  · have hdots := dropDot_dots_append h hne []
    rwa [List.append_nil] at hdots

theorem isQualified_dots_append {cs : List Char} (h : cs.head? = some '.' ∨ cs.head? = some '$')
    (rest : List Char) : Name.isQualified (String.ofList (dots cs ++ rest)) = false := by
  have hdot : (String.ofList (dots cs ++ rest)).toList = '.' :: ((dots cs).tail ++ rest) := by
    rw [String.toList_ofList]
    rcases h with h | h <;> obtain ⟨cs, rfl⟩ := List.head?_eq_some_iff.mp h <;> rfl
  exact Name.isQualified_of_dot hdot

/-! ## What stands above a class -/

/-- The directory of a path, from its root on, as the reading of names takes it. -/
def above? (path root : Path) : Option (List Char) :=
  path.parent.bind fun parent =>
    parent.text?.bind fun p => root.text?.bind fun r => (relative p r).toOption

theorem above?_eq_none_of_text? {path : Path} (hr : root.text? = none) : above? path root = none := by
  unfold above?
  cases path.parent with
  | none => rfl
  | some parent =>
    rw [hr, Option.bind_some]
    cases parent.text? <;> rfl

theorem toOption_bind {ε α β : Type} (x : Except ε α) (f : α → Except ε β) :
    (x >>= f).toOption = x.toOption.bind fun a => (f a).toOption := by
  cases x <;> rfl

theorem toOption_functionName {marker : String} {path : Path}
    (hname : path.fileName = some (Utf8.encode (stem ++ suffix))) :
    (functionName marker path root).toOption =
      (above? path root).bind fun above => (Affix.after? marker.toList stem).map fun simple =>
        String.ofList (dropDot (dots above ++ '.' :: simple)) := by
  unfold functionName above?
  cases path.parent with
  | none => rfl
  | some parent =>
    simp only [toOption_bind, toOption_textOf, Option.bind_some, Option.bind_assoc, hname,
      Utf8.decode?_encode, Affix.before?_append]
    cases Affix.after? marker.toList stem <;> rfl

theorem bare_of_getLast? {s : String} (h : s.toList.getLast? ≠ some '/') : bare s = s.toList := by
  rw [bare]
  rw [← List.head?_reverse] at h
  cases hs : s.toList.reverse with
  | nil => exact (List.reverse_eq_nil_iff.mp hs).symm
  | cons c cs =>
    rw [hs, List.head?_cons] at h
    have hc : c ≠ '/' := fun hc => h (congrArg some hc)
    rw [List.dropWhile_cons_of_neg (by simpa using hc), ← hs, List.reverse_reverse]

theorem length_bare_le (s : String) : (bare s).length ≤ s.toList.length := by
  rw [bare, List.length_reverse, show s.toList.length = s.toList.reverse.length from
    List.length_reverse.symm]
  exact (List.dropWhile_suffix _).length_le

theorem toOption_package {path parent : Path} {p : String} (hparent : path.parent = some parent)
    (hp : parent.text? = some p) (hr : root.text? = some r) :
    (package path root).toOption =
      if bare p = bare r then some none
      else (relative p r).toOption.map fun above =>
        match dropDot (dots above) with
        | [] => none
        | name => some (String.ofList name) := by
  unfold package
  rw [hparent]
  simp only [toOption_bind, toOption_textOf, hp, hr, Option.bind_some]
  by_cases hbare : bare p = bare r
  · rw [if_pos hbare, if_pos hbare]
    rfl
  · rw [if_neg hbare, if_neg hbare, toOption_bind]
    cases (relative p r).toOption with
    | none => rfl
    | some above =>
      show Except.toOption (match dropDot (dots above) with | [] => _ | name => _) = _
      cases hname : dropDot (dots above) <;> simp [hname] <;> rfl

/-! ## Plain paths as texts -/

theorem ne_nil_of_isPlain {cs : List Char} (h : (⟨Utf8.encode cs⟩ : Path).IsPlain) : cs ≠ [] :=
  fun hnil => h.bytes_ne_nil (Utf8.encode_eq_nil_iff.mpr hnil)

theorem head?_of_isPlain {cs : List Char} (h : (⟨Utf8.encode cs⟩ : Path).IsPlain) :
    cs.head? ≠ some '/' := by
  intro hhead
  obtain ⟨rest, rfl⟩ := List.head?_eq_some_iff.mp hhead
  have hnil : [] ∈ (⟨Utf8.encode ('/' :: rest)⟩ : Path).steps := by
    rw [encode_slash, Path.steps, ← List.nil_append (slash :: _), List.splitOn_append_cons_self]
    exact List.mem_append_left _ (List.mem_singleton.mpr rfl)
  exact ne_nil_of_isTrivial (h [] hnil).1 rfl

theorem getLast?_of_isPlain {cs : List Char} (h : (⟨Utf8.encode cs⟩ : Path).IsPlain) :
    cs.getLast? ≠ some '/' := by
  intro hlast
  obtain ⟨front, rfl⟩ := List.getLast?_eq_some_iff.mp hlast
  have hnil : [] ∈ (⟨Utf8.encode (front ++ ['/'])⟩ : Path).steps := by
    rw [Utf8.encode_append, encode_slash, Path.steps, List.splitOn_append_cons_self]
    exact List.mem_append_right _ (List.mem_singleton.mpr rfl)
  exact ne_nil_of_isTrivial (h [] hnil).1 rfl

theorem isPlain_outer (h : (ofString n).IsPlain) (hn : n.toList = outer ++ '/' :: last) :
    (⟨Utf8.encode outer⟩ : Path).IsPlain := by
  rw [ofString_of_nested hn] at h
  exact h.front

/-- The name of a class file is that of an entry. -/
theorem isPlain_classFile {stem : List Char} (h : '/' ∉ stem) :
    slash ∉ Utf8.encode (stem ++ suffix) ∧ (⟨Utf8.encode (stem ++ suffix)⟩ : Path).IsPlain := by
  have hslash : slash ∉ Utf8.encode (stem ++ suffix) := by
    refine slash_not_mem_encode fun hmem => ?_
    rcases List.mem_append.mp hmem with hmem | hmem
    · exact h hmem
    · exact absurd hmem (by decide)
  have hlength : 6 ≤ (Utf8.encode (stem ++ suffix)).length := by
    rw [Utf8.encode_append, List.length_append]
    exact Nat.le_add_left 6 _
  refine ⟨hslash, isPlain_single hslash ?_ fun hup => ?_⟩
  · rw [isTrivial, Bool.or_eq_false_iff, decide_eq_false_iff_not, decide_eq_false_iff_not]
    constructor <;> intro htrivial <;> simp [htrivial] at hlength
  · simp [hup] at hlength

/-! ## Names in directories -/

section Nested

variable (hplain : (ofString n).IsPlain) (hn : n.toList = outer ++ '/' :: last)
  (hlast : '/' ∉ last)

include hplain hn hlast

theorem parent_below_of_nested (hroot : root.bytes ≠ []) :
    (root.below (ofString n)).parent = some (root.below ⟨Utf8.encode outer⟩) := by
  rw [ofString_of_nested hn] at hplain ⊢
  exact parent_below_nested hroot (slash_not_mem_encode hlast) hplain

theorem above?_below (hroot : root.bytes ≠ []) (hr : root.text? = some r) :
    above? (root.below (ofString n)) root = some ('/' :: outer) := by
  rw [above?, parent_below_of_nested hplain hn hlast hroot, Option.bind_some, text?_below_ofList,
    hr, Option.map_some, Option.bind_some, Option.bind_some, relative_of_below]
  rfl

theorem package_below (hroot : root.bytes ≠ []) (hr : root.text? = some r) :
    (package (root.below (ofString n)) root).toOption = some (some (String.ofList (dots outer))) := by
  have houter := isPlain_outer hplain hn
  have htext : (root.below ⟨Utf8.encode outer⟩).text? =
      some (String.ofList (r.toList ++ '/' :: outer)) := by
    rw [text?_below_ofList, hr]
    rfl
  have hbare : bare (String.ofList (r.toList ++ '/' :: outer)) ≠ bare r := by
    intro h
    have hlen := congrArg List.length h
    have hle := length_bare_le r
    rw [bare_of_getLast?, String.toList_ofList, List.length_append, List.length_cons] at hlen
    · omega
    · rw [String.toList_ofList, List.append_cons, List.getLast?_append,
        List.getLast?_eq_some_getLast (ne_nil_of_isPlain houter), Option.some_or,
        ← List.getLast?_eq_some_getLast]
      exact getLast?_of_isPlain houter
  rw [toOption_package (parent_below_of_nested hplain hn hlast hroot) htext hr, if_neg hbare,
    relative_of_below]
  obtain ⟨c, cs, hcs⟩ := List.exists_cons_of_ne_nil (ne_nil_of_isPlain houter)
  rw [hcs]
  rfl

theorem parent_ofString_of_nested : (ofString n).parent = some ⟨Utf8.encode outer⟩ := by
  rw [ofString_of_nested hn] at hplain ⊢
  exact hplain.parent_nested (slash_not_mem_encode hlast)

theorem above?_ofString : above? (ofString n) ⟨[]⟩ = some outer := by
  obtain ⟨c, cs, hcs⟩ := List.exists_cons_of_ne_nil (ne_nil_of_isPlain (isPlain_outer hplain hn))
  rw [above?, parent_ofString_of_nested hplain hn hlast, Option.bind_some, text?_ofList,
    Option.bind_some, text?_nil, Option.bind_some, hcs, relative_ofList]
  rfl

theorem package_ofString : (package (ofString n) ⟨[]⟩).toOption =
    some (match dropDot (dots outer) with
      | [] => none
      | name => some (String.ofList name)) := by
  have houter := isPlain_outer hplain hn
  obtain ⟨c, cs, hcs⟩ := List.exists_cons_of_ne_nil (ne_nil_of_isPlain houter)
  have hbare : bare (String.ofList outer) ≠ bare "" := by
    rw [bare_of_getLast?, String.toList_ofList]
    · exact ne_nil_of_isPlain houter
    · rw [String.toList_ofList]
      exact getLast?_of_isPlain houter
  rw [toOption_package (parent_ofString_of_nested hplain hn hlast) (text?_ofList outer) text?_nil,
    if_neg hbare, hcs, relative_ofList]
  rfl

end Nested

/-! ## Names directly below the root -/

/-- The part of a root that is kept is a beginning of it as a text, too, and less than all
of it when the root ends in a component `.`. -/
theorem exists_text?_kept (hr : root.text? = some r) :
    ∃ k rest, root.kept.text? = some k ∧ r.toList = k.toList ++ rest ∧
      ([slash, dot] <:+ root.bytes → rest ≠ []) := by
  obtain ⟨tail, htail, hlong, hhead⟩ : ∃ tail, root.bytes = root.kept.bytes ++ tail ∧
      ([slash, dot] <:+ root.bytes → tail ≠ []) ∧ ∀ b ∈ tail.head?, b < 0x80 := by
    by_cases hdot : [slash, dot] <:+ root.bytes
    · obtain ⟨tail, htail, hne, hhead⟩ := exists_kept_append_of_dot hdot
      exact ⟨tail, htail, fun _ => hne, hhead⟩
    · obtain ⟨tail, htail, hhead⟩ := root.exists_kept_append
      exact ⟨tail, htail, fun h => absurd h hdot, hhead⟩
  rw [Path.text?, Option.map_eq_some_iff] at hr
  obtain ⟨cs, hcs, rfl⟩ := hr
  rw [htail] at hcs
  obtain ⟨ks, rest, hks, hrest, rfl⟩ := Utf8.exists_of_decode?_append hhead hcs
  refine ⟨String.ofList ks, rest, ?_, ?_, fun h => Utf8.ne_nil_of_decode? (hlong h) hrest⟩
  · rw [Path.text?, hks]
    rfl
  · rw [String.toList_ofList, String.toList_ofList]

/-- Nothing is below a longer text. -/
theorem relative_eq_none {k : String} {rest : List Char} (h : r.toList = k.toList ++ rest) :
    (relative k r).toOption = none := by
  rw [relative]
  cases hafter : Affix.after? r.toList k.toList with
  | none => rfl
  | some below =>
    rw [Affix.after?_eq_some_iff, h, List.append_assoc, List.self_eq_append_right,
      List.append_eq_nil_iff] at hafter
    rw [hafter.2]
    rfl

theorem getLast?_of_dot (hdot : [slash, dot] <:+ root.bytes) (hr : root.text? = some r) :
    r.toList.getLast? = some '.' := by
  obtain ⟨front, hfront⟩ := hdot
  rw [Path.text?, ← hfront, Option.map_eq_some_iff] at hr
  obtain ⟨cs, hcs, rfl⟩ := hr
  obtain ⟨fs, rest, -, hrest, rfl⟩ :=
    Utf8.exists_of_decode?_append (lt_of_mem_head? (by decide) [dot]) hcs
  cases hrest.symm.trans (Utf8.decode?_encode ['/', '.'])
  rw [String.toList_ofList, List.getLast?_append]
  rfl

section Single

variable (hplain : (ofString n).IsPlain) (hsingle : '/' ∉ n.toList)

include hplain hsingle

theorem parent_below_of_single (hroot : root.bytes ≠ []) :
    (root.below (ofString n)).parent = some root.kept := by
  apply parent_below_single hroot _ hplain
  rw [bytes_ofString]
  exact slash_not_mem_encode hsingle

theorem parent_ofString_of_single : (ofString n).parent = some ⟨[]⟩ := by
  apply IsPlain.parent_single _ hplain
  rw [bytes_ofString]
  exact slash_not_mem_encode hsingle

theorem above?_below_of_single (hroot : root.bytes ≠ []) :
    above? (root.below (ofString n)) root = none := by
  rw [above?, parent_below_of_single hplain hsingle hroot, Option.bind_some]
  cases hr : root.text? with
  | none => cases root.kept.text? <;> rfl
  | some r =>
    obtain ⟨k, rest, hk, hrest, -⟩ := exists_text?_kept hr
    rw [hk, Option.bind_some, Option.bind_some, relative_eq_none hrest]

theorem above?_ofString_of_single : above? (ofString n) ⟨[]⟩ = none := by
  rw [above?, parent_ofString_of_single hplain hsingle]
  rfl

theorem package_below_of_single (hroot : root.bytes ≠ [])
    (hslash : root.bytes.getLast? ≠ some slash) (hdot : ¬ [slash, dot] <:+ root.bytes)
    (hr : root.text? = some r) : (package (root.below (ofString n)) root).toOption = some none := by
  have hparent := parent_below_of_single hplain hsingle hroot
  rw [kept_eq hroot hslash hdot] at hparent
  rw [toOption_package hparent hr hr, if_pos rfl]

theorem package_below_of_dot (hroot : root.bytes ≠ []) (hdot : [slash, dot] <:+ root.bytes)
    (hr : root.text? = some r) : (package (root.below (ofString n)) root).toOption = none := by
  obtain ⟨k, rest, hk, hrest, hlong⟩ := exists_text?_kept hr
  have hbare : bare k ≠ bare r := by
    intro h
    have hle := length_bare_le k
    have hlast : r.toList.getLast? ≠ some '/' := by
      rw [getLast?_of_dot hdot hr]
      decide
    have hpos := List.length_pos_iff.mpr (hlong hdot)
    rw [h, bare_of_getLast? hlast, hrest, List.length_append] at hle
    omega
  rw [toOption_package (parent_below_of_single hplain hsingle hroot) hk hr, if_neg hbare,
    relative_eq_none hrest]
  rfl

theorem package_ofString_of_single : (package (ofString n) ⟨[]⟩).toOption = some none := by
  rw [toOption_package (parent_ofString_of_single hplain hsingle) text?_nil text?_nil, if_pos rfl]

end Single

end Layout
end ClassIndex

/-
Packages of classes below a root.

The package of a class is read off its directory, as that comes out as the parent of the
class's path, while the type's name is read off the path itself.  The two agree in every
directory below the root, however the root is spelled (`package_descend`), and directly in
the root unless the root ends in a component `.`, which the parent lacks (`package_join`):
slashes at its end make no difference, for both sides are compared without them.
-/
import ClassIndex.Proofs.Layout.Conventional
import ClassIndex.Proofs.Path.Entries

namespace ClassIndex

open ClassIndex.Path

namespace Utf8

theorem encode_injective {as bs : List Char} (h : encode as = encode bs) : as = bs := by
  have hread := decode?_encode as
  rw [h, decode?_encode] at hread
  exact (Option.some.inj hread).symm

/-- Where a text starts with the bytes of another, it starts with its characters. -/
theorem exists_of_encode_eq_append {cs as : List Char} {bs : List UInt8}
    (h : encode cs = encode as ++ bs) : ∃ ds, cs = as ++ ds ∧ encode ds = bs := by
  induction as generalizing cs with
  | nil => exact ⟨cs, rfl, h⟩
  | cons a as ih =>
    rw [encode_cons, List.append_assoc] at h
    have hchunks := chunks_encode cs
    rw [h, chunks_encodeChar] at hchunks
    obtain ⟨cs, rfl, -⟩ := exists_of_cons_eq_map hchunks
    rw [encode_cons] at h
    obtain ⟨ds, rfl, hds⟩ := ih (List.append_cancel_left h)
    exact ⟨ds, rfl, hds⟩

end Utf8

namespace Layout

variable {root path parent : Path} {r p : String} {last : List UInt8} {names : List (List UInt8)}
  {above : List Char}

/-! ## Roots without slashes at their end -/

theorem exists_bare_append (s : String) : ∃ k, s.toList = bare s ++ List.replicate k '/' := by
  have hslashes : ∀ c ∈ s.toList.reverse.takeWhile (· = '/'), c = '/' := fun c hc => by
    simpa using List.mem_takeWhile_imp hc
  refine ⟨(s.toList.reverse.takeWhile (· = '/')).length, ?_⟩
  rw [bare, ← List.reverse_replicate, ← List.eq_replicate_of_mem hslashes, ← List.reverse_append,
    List.takeWhile_append_dropWhile, List.reverse_reverse]

theorem getLast?_bare (s : String) : (bare s).getLast? ≠ some '/' := by
  rw [bare, List.getLast?_reverse]
  intro h
  have hhead := List.head?_dropWhile_not (fun c : Char => decide (c = '/')) s.toList.reverse
  rw [h] at hhead
  simp at hhead

theorem bare_ofList_bare (s : String) : bare (String.ofList (bare s)) = bare s := by
  rw [bare_of_getLast?, String.toList_ofList]
  rw [String.toList_ofList]
  exact getLast?_bare s

/-- The last component of a root is `.`, whatever slashes follow it. -/
def EndsInDot (r : String) : Prop :=
  ['/', '.'] <:+ bare r

instance {r : String} : Decidable (EndsInDot r) :=
  inferInstanceAs (Decidable (_ <:+ _))

theorem encode_replicate_slash (k : Nat) :
    Utf8.encode (List.replicate k '/') = List.replicate k slash := by
  induction k with
  | zero => rfl
  | succ k ih => rw [List.replicate_succ, encode_slash, ih, List.replicate_succ]

theorem eq_of_text? (hr : root.text? = some r) : root = ⟨Utf8.encode r.toList⟩ := by
  obtain ⟨rs, hrs, rfl⟩ := Option.map_eq_some_iff.mp hr
  obtain ⟨bytes⟩ := root
  rw [String.toList_ofList, ← Utf8.decode?_eq_some_iff.mp hrs]

/-- What is kept of a root is kept of it without the slashes at its end. -/
theorem kept_eq_kept_bare (hr : root.text? = some r) (hne : bare r ≠ []) :
    root.kept = (⟨Utf8.encode (bare r)⟩ : Path).kept := by
  obtain ⟨k, hk⟩ := exists_bare_append r
  rw [eq_of_text? hr, hk, Utf8.encode_append, encode_replicate_slash]
  exact kept_append_slashes (mt Utf8.encode_eq_nil_iff.mp hne) k

/-- A text ends in some text that starts with an ASCII character if its bytes do. -/
theorem suffix_encode_iff {cs as : List Char} (h : ∀ b ∈ (Utf8.encode as).head?, b < 0x80) :
    Utf8.encode as <:+ Utf8.encode cs ↔ as <:+ cs := by
  constructor
  · intro hsuffix
    obtain ⟨front, hfront⟩ := hsuffix
    have hcs : Utf8.decode? (front ++ Utf8.encode as) = some cs := by
      rw [hfront, Utf8.decode?_encode]
    obtain ⟨fs, rest, -, hrest, rfl⟩ := Utf8.exists_of_decode?_append h hcs
    cases hrest.symm.trans (Utf8.decode?_encode as)
    exact List.suffix_append fs as
  · intro hsuffix
    obtain ⟨front, rfl⟩ := hsuffix
    exact ⟨Utf8.encode front, (Utf8.encode_append front as).symm⟩

theorem getLast?_encode_iff {cs : List Char} :
    (Utf8.encode cs).getLast? = some slash ↔ cs.getLast? = some '/' := by
  have hiff : Utf8.encode ['/'] <:+ Utf8.encode cs ↔ ['/'] <:+ cs :=
    suffix_encode_iff (lt_of_mem_head? (by decide) [])
  rw [← List.singleton_suffix_iff_getLast?_eq_some, ← List.singleton_suffix_iff_getLast?_eq_some]
  exact hiff

theorem dot_suffix_encode_iff {cs : List Char} :
    [slash, dot] <:+ Utf8.encode cs ↔ ['/', '.'] <:+ cs := by
  have hiff : Utf8.encode ['/', '.'] <:+ Utf8.encode cs ↔ ['/', '.'] <:+ cs :=
    suffix_encode_iff (lt_of_mem_head? (by decide) [dot])
  exact hiff

/-- All of a root is kept but slashes at its end, unless it ends in a component `.`. -/
theorem exists_bare_kept (hr : root.text? = some r) (h : ¬ EndsInDot r) :
    ∃ k, root.kept.text? = some k ∧ bare k = bare r := by
  by_cases hne : bare r = []
  · obtain ⟨k, hk⟩ := exists_bare_append r
    rw [hne, List.nil_append] at hk
    have hroot := eq_of_text? hr
    rw [hk, encode_replicate_slash] at hroot
    cases k with
    | zero => exact ⟨"", by rw [hroot]; rfl, by rw [hne]; rfl⟩
    | succ k =>
      have hkept : root.kept = ⟨[slash]⟩ := by
        rw [hroot, List.replicate_succ, ← List.singleton_append,
          kept_append_slashes (List.cons_ne_nil slash [])]
        rfl
      exact ⟨"/", by rw [hkept]; rfl, by rw [hne]; rfl⟩
  · have hkept : root.kept = ⟨Utf8.encode (bare r)⟩ := by
      rw [kept_eq_kept_bare hr hne]
      exact kept_eq (mt Utf8.encode_eq_nil_iff.mp hne) (mt getLast?_encode_iff.mp (getLast?_bare r))
        (mt dot_suffix_encode_iff.mp h)
    exact ⟨String.ofList (bare r), by rw [hkept, text?_ofList], bare_ofList_bare r⟩

theorem relative_eq_error {k : String} {rest : List Char} (h : r.toList = k.toList ++ rest) :
    relative k r = .error (.outsideRoot k r) := by
  have hnone := relative_eq_none h
  unfold relative at hnone ⊢
  split at hnone
  · cases hnone
  · rfl

/-- A root that ends in a component `.` is below what is kept of it. -/
theorem exists_kept_of_endsInDot (hr : root.text? = some r) (h : EndsInDot r) :
    ∃ k, root.kept.text? = some k ∧ bare k ≠ bare r ∧
      relative k r = .error (.outsideRoot k r) := by
  have hne : bare r ≠ [] := by
    intro hnil
    rw [EndsInDot, hnil] at h
    exact absurd h (by decide)
  obtain ⟨k, rest, hk, hrest, hlong⟩ := exists_text?_kept (text?_ofList (bare r))
  rw [String.toList_ofList] at hrest
  have hpos := List.length_pos_iff.mpr (hlong (dot_suffix_encode_iff.mpr h))
  obtain ⟨n, hn⟩ := exists_bare_append r
  refine ⟨k, by rw [kept_eq_kept_bare hr hne, hk], ?_, ?_⟩
  · intro hbare
    have hle := length_bare_le k
    rw [hbare, hrest, List.length_append] at hle
    omega
  · rw [hrest, List.append_assoc] at hn
    exact relative_eq_error hn

/-! ## The package, from the directory -/

theorem package_of_bare (hparent : path.parent = some parent) (hp : parent.text? = some p)
    (hr : root.text? = some r) (h : bare p = bare r) : package path root = .ok none := by
  rw [package, hparent]
  show (textOf parent >>= _) = _
  rw [textOf_of_text? hp, textOf_of_text? hr]
  simp only [bind, Except.bind, if_pos h]

theorem package_of_error {e : LayoutError} (hparent : path.parent = some parent)
    (hp : parent.text? = some p) (hr : root.text? = some r) (h : bare p ≠ bare r)
    (he : relative p r = .error e) : package path root = .error e := by
  rw [package, hparent]
  show (textOf parent >>= _) = _
  rw [textOf_of_text? hp, textOf_of_text? hr]
  simp only [bind, Except.bind, if_neg h, he]

/-- The package that the part of a directory after the root spells. -/
def packageOf (above : List Char) : Option String :=
  match dropDot (dots above) with
  | [] => none
  | name => some (String.ofList name)

theorem packageOf_eq_some (h : dropDot (dots above) ≠ []) :
    packageOf above = some (String.ofList (dropDot (dots above))) := by
  obtain ⟨c, cs, hcs⟩ := List.exists_cons_of_ne_nil h
  rw [packageOf, hcs]

theorem package_of_above (hparent : path.parent = some parent)
    (hp : parent.text? = some (String.ofList (r.toList ++ above))) (hr : root.text? = some r)
    (hne : above ≠ []) (hlast : above.getLast? ≠ some '/') :
    package path root = .ok (packageOf above) := by
  have hbare : bare (String.ofList (r.toList ++ above)) ≠ bare r := by
    intro h
    have hlength := congrArg List.length h
    have hle := length_bare_le r
    have hpos := List.length_pos_iff.mpr hne
    rw [bare_of_getLast?, String.toList_ofList, List.length_append] at hlength
    · omega
    · rw [String.toList_ofList, List.getLast?_append, List.getLast?_eq_some_getLast hne,
        Option.some_or, ← List.getLast?_eq_some_getLast]
      exact hlast
  rw [package, hparent]
  show (textOf parent >>= _) = _
  rw [textOf_of_text? hp, textOf_of_text? hr]
  simp only [bind, Except.bind, if_neg hbare, relative_append hne]
  rw [packageOf]
  cases dropDot (dots above) <;> rfl

/-! ## Classes below a root -/

/-- Directly in a root that ends in a component `.`, a class lies outside it. -/
theorem package_join (hr : root.text? = some r) (hlast : IsName last) :
    (¬ EndsInDot r → package (root.join last) root = .ok none) ∧
    (EndsInDot r → ∃ above, package (root.join last) root = .error (.outsideRoot above r)) := by
  constructor
  · intro h
    obtain ⟨k, hk, hbare⟩ := exists_bare_kept hr h
    exact package_of_bare (parent_join hlast) hk hr hbare
  · intro h
    obtain ⟨k, hk, hbare, herror⟩ := exists_kept_of_endsInDot hr h
    exact ⟨k, package_of_error (parent_join hlast) hk hr hbare herror⟩

/-- What follows a root in a path that is a text. -/
theorem exists_text?_append {rest : List UInt8} (hr : root.text? = some r)
    (hbytes : path.bytes = root.bytes ++ rest) (hp : path.text? = some p) :
    ∃ above, p = String.ofList (r.toList ++ above) ∧ Utf8.encode above = rest := by
  rw [eq_of_text? hr, eq_of_text? hp] at hbytes
  obtain ⟨above, hp', habove⟩ := Utf8.exists_of_encode_eq_append hbytes
  exact ⟨above, by rw [← hp', String.ofList_toList], habove⟩

/-- The directory of a class further down, as a text. -/
theorem exists_above (hr : root.text? = some r) (hne : names ≠ [])
    (hnames : ∀ name ∈ names, IsName name) (hp : (root.descend names).text? = some p) :
    ∃ above, p = String.ofList (r.toList ++ above) ∧ above ≠ [] ∧ above.getLast? ≠ some '/' := by
  obtain ⟨front, inner, rfl⟩ := (List.eq_nil_or_concat' names).resolve_left hne
  have hinner := hnames inner (List.mem_append_right _ List.mem_cons_self)
  obtain ⟨rest, hrest⟩ := exists_bytes_descend root front
  obtain ⟨gap, hgap⟩ := exists_bytes_join (root.descend front) inner
  rw [hrest, List.append_assoc, ← List.append_assoc rest, ← descend_concat] at hgap
  obtain ⟨above, rfl, habove⟩ := exists_text?_append hr hgap hp
  refine ⟨above, rfl, ?_, mt getLast?_encode_iff.mpr ?_⟩
  · rintro rfl
    exact List.append_ne_nil_of_right_ne_nil _ hinner.ne_nil habove.symm
  · rw [habove]
    exact getLast?_append_ne hinner

/-- Further down, a class has the package that its directory spells. -/
theorem package_descend (hr : root.text? = some r) (hne : names ≠ [])
    (hnames : ∀ name ∈ names, IsName name) (hlast : IsName last)
    (hp : (root.descend names).text? = some (String.ofList (r.toList ++ above))) :
    package (root.descend (names ++ [last])) root = .ok (packageOf above) := by
  obtain ⟨above', heq, hne', hlast'⟩ := exists_above hr hne hnames hp
  rw [String.ofList_inj, List.append_cancel_left_eq] at heq
  subst heq
  exact package_of_above (parent_descend_concat hne hnames hlast) hp hr hne' hlast'

/-- The directory of a class whose name can be read is a text. -/
theorem exists_text?_descend {name : String}
    (htype : typeName (root.descend (names ++ [last])) root = .ok name) :
    ∃ p, (root.descend names).text? = some p := by
  rw [descend_concat] at htype
  cases htext : ((root.descend names).join last).text? with
  | none =>
    rw [typeName, textOf, htext] at htype
    cases htype
  | some p => exact exists_text?_of_join htext

/-- A class whose name can be read off its path has a package, or lies directly in a root
that ends in a component `.`. -/
theorem eq_nil_of_package_eq_error (hr : root.text? = some r) (hnames : ∀ name ∈ names, IsName name)
    (hlast : IsName last) {name : String} {e : LayoutError}
    (htype : typeName (root.descend (names ++ [last])) root = .ok name)
    (hpackage : package (root.descend (names ++ [last])) root = .error e) :
    names = [] ∧ EndsInDot r ∧ ∃ above, e = .outsideRoot above r := by
  by_cases hne : names = []
  · subst hne
    obtain ⟨hnone, herror⟩ := package_join hr hlast
    have hdot : EndsInDot r := by
      by_contra h
      cases hpackage.symm.trans (hnone h)
    obtain ⟨above, h⟩ := herror hdot
    cases hpackage.symm.trans h
    exact ⟨rfl, hdot, above, rfl⟩
  · obtain ⟨p, hp⟩ := exists_text?_descend htype
    obtain ⟨above, rfl, -⟩ := exists_above hr hne hnames hp
    cases hpackage.symm.trans (package_descend hr hne hnames hlast hp)

/-! ## Directories with qualified names -/

theorem bytesOf_append (s t : String) :
    Utf8.bytesOf (s ++ t) = Utf8.bytesOf s ++ Utf8.bytesOf t := by
  rw [Utf8.bytesOf_eq_encode, Utf8.bytesOf_eq_encode, Utf8.bytesOf_eq_encode, String.toList_append,
    Utf8.encode_append]

theorem bytesOf_intercalate (ds : List String) :
    List.intercalate [slash] (ds.map Utf8.bytesOf) = Utf8.bytesOf ("/".intercalate ds) := by
  induction ds with
  | nil => rfl
  | cons d rest ih =>
    by_cases hrest : rest = []
    · subst hrest
      rw [List.map_singleton, List.intercalate_singleton, String.intercalate_singleton]
    · rw [List.map_cons, List.intercalate_cons_of_ne_nil (mt List.map_eq_nil_iff.mp hrest), ih,
        String.intercalate_cons_of_ne_nil hrest, bytesOf_append, bytesOf_append]
      rfl

theorem isName_bytesOf {d : String} (hslash : '/' ∉ d.toList)
    (hq : Name.isQualified (Name.canonical d) = true) : IsName (Utf8.bytesOf d) := by
  have hne : ∀ cs : List Char, Name.isQualified (Name.canonical (String.ofList cs)) = false →
      Utf8.encode d.toList ≠ Utf8.encode cs := by
    intro cs hcs h
    rw [← Utf8.encode_injective h, String.ofList_toList, hq] at hcs
    cases hcs
  rw [Utf8.bytesOf_eq_encode]
  refine ⟨slash_not_mem_encode hslash, ?_, hne ['.', '.'] (by decide)⟩
  rw [isTrivial, Bool.or_eq_false_iff, decide_eq_false_iff_not, decide_eq_false_iff_not]
  exact ⟨hne [] (by decide), hne ['.'] (by decide)⟩

theorem isName_classFile {stem : String} (h : '/' ∉ stem.toList) :
    IsName (Utf8.bytesOf (stem ++ ".class")) := by
  obtain ⟨hslash, hplain⟩ := isPlain_classFile h
  rw [Utf8.bytesOf_eq_encode, String.toList_append]
  exact isName_of_isPlain hslash hplain

theorem dots_toList {d : String} (h : '/' ∉ d.toList) :
    dots d.toList = (Name.canonical d).toList := by
  rw [Name.canonical, String.toList_ofList]
  refine List.map_congr_left fun c hc => ?_
  have hne : c ≠ '/' := fun heq => h (heq ▸ hc)
  simp [hne]

/-- Directories become the parts of a package. -/
theorem dots_intercalate {ds : List String} (h : ∀ d ∈ ds, '/' ∉ d.toList) :
    dots ("/".intercalate ds).toList = (".".intercalate (ds.map Name.canonical)).toList := by
  induction ds with
  | nil => rfl
  | cons d rest ih =>
    obtain ⟨hd, hrest⟩ := List.forall_mem_cons.mp h
    by_cases hnil : rest = []
    · subst hnil
      rw [List.map_singleton, String.intercalate_singleton, String.intercalate_singleton,
        dots_toList hd]
    · rw [List.map_cons, String.intercalate_cons_of_ne_nil hnil,
        String.intercalate_cons_of_ne_nil (mt List.map_eq_nil_iff.mp hnil), String.toList_append,
        String.toList_append, dots_append, dots_append, dots_toList hd, ih hrest,
        String.toList_append, String.toList_append]
      rfl

/-- Directories, from the outermost, whose names are parts of a package. -/
def Spell (ds : List String) : Prop :=
  ∀ d ∈ ds, '/' ∉ d.toList ∧ Name.isQualified (Name.canonical d) = true

theorem Spell.isName {ds : List String} (h : Spell ds) :
    ∀ name ∈ ds.map Utf8.bytesOf, IsName name := by
  rw [List.forall_mem_map]
  exact fun d hd => isName_bytesOf (h d hd).1 (h d hd).2

/-- What directories spell starts with a qualified name. -/
theorem Spell.exists_front {ds : List String} (h : Spell ds) (hne : ds ≠ []) :
    ∃ front tail : List Char, ("/".intercalate ds).toList = front ++ tail ∧
      Name.isQualified (String.ofList (dots front)) = true := by
  obtain ⟨d, ds, rfl⟩ := List.exists_cons_of_ne_nil hne
  obtain ⟨hslash, hq⟩ := h d List.mem_cons_self
  have hfront : Name.isQualified (String.ofList (dots d.toList)) = true := by
    rw [dots_toList hslash, String.ofList_toList]
    exact hq
  by_cases hnil : ds = []
  · subst hnil
    exact ⟨d.toList, [], by rw [String.intercalate_singleton, List.append_nil], hfront⟩
  · refine ⟨d.toList, '/' :: ("/".intercalate ds).toList, ?_, hfront⟩
    rw [String.intercalate_cons_of_ne_nil hnil, String.toList_append, String.toList_append,
      List.append_assoc]
    rfl

theorem Spell.head? {ds : List String} (h : Spell ds) (hne : ds ≠ []) (rest : List Char) :
    (dots (("/".intercalate ds).toList ++ rest)).head? ≠ some '.' := by
  obtain ⟨front, tail, hfront, hq⟩ := h.exists_front hne
  have hdots : dots front ≠ [] := mt List.map_eq_nil_iff.mp (ne_nil_of_isQualified hq)
  rw [hfront, List.append_assoc, dots_append, List.head?_append_of_ne_nil _ hdots]
  exact head?_dots_of_isQualified hq

theorem Spell.dots_ne_nil {ds : List String} (h : Spell ds) (hne : ds ≠ []) :
    dots ("/".intercalate ds).toList ≠ [] := by
  obtain ⟨front, tail, hfront, hq⟩ := h.exists_front hne
  rw [hfront]
  exact mt List.map_eq_nil_iff.mp (List.append_ne_nil_of_left_ne_nil (ne_nil_of_isQualified hq) _)

/-- In directories that spell a package, a class has this package, and a type its name in
it. -/
theorem names_of_spell {ds : List String} {stem : String} (hr : root.text? = some r)
    (h : Spell ds) (hne : ds ≠ []) (hstem : '/' ∉ stem.toList) :
    package (root.descend (ds.map Utf8.bytesOf ++ [Utf8.bytesOf (stem ++ ".class")])) root =
      .ok (some (".".intercalate (ds.map Name.canonical))) ∧
    typeName (root.descend (ds.map Utf8.bytesOf ++ [Utf8.bytesOf (stem ++ ".class")])) root =
      .ok (".".intercalate (ds.map Name.canonical) ++ "." ++ Name.canonical stem) := by
  have hds : ∀ d ∈ ds, '/' ∉ d.toList := fun d hd => (h d hd).1
  have hmap : ds.map Utf8.bytesOf ≠ [] := mt List.map_eq_nil_iff.mp hne
  constructor
  · obtain ⟨gap, hgap, hjoin⟩ := root.exists_gap
    have hdir : root.descend (ds.map Utf8.bytesOf) =
        root.join (Utf8.encode ("/".intercalate ds).toList) := by
      rw [descend_eq_join hmap h.isName, bytesOf_intercalate, Utf8.bytesOf_eq_encode]
    have htext := text?_join hr (hjoin ("/".intercalate ds).toList)
    rw [← hdir] at htext
    have hhead := h.head? hne []
    rw [List.append_nil] at hhead
    have hdots : dropDot (dots (gap ++ ("/".intercalate ds).toList)) =
        dots ("/".intercalate ds).toList := by
      rw [dots_append, dropDot_dots_gap hgap hhead]
    rw [package_descend hr hmap h.isName (isName_classFile hstem) htext, packageOf_eq_some, hdots,
      dots_intercalate hds, String.ofList_toList]
    rw [hdots]
    exact h.dots_ne_nil hne
  · have hplain : ∀ name ∈ (ds ++ [stem ++ ".class"]).map Utf8.bytesOf, IsName name := by
      rw [List.map_append, List.forall_mem_append, List.map_singleton, List.forall_mem_singleton]
      exact ⟨h.isName, isName_classFile hstem⟩
    have hpath : root.descend (ds.map Utf8.bytesOf ++ [Utf8.bytesOf (stem ++ ".class")]) =
        root.join (Utf8.encode (("/".intercalate ds).toList ++ '/' :: stem.toList ++ suffix)) := by
      rw [← List.map_singleton, ← List.map_append, descend_eq_join (by simp) hplain,
        bytesOf_intercalate, String.intercalate_append_of_ne_nil hne (List.cons_ne_nil _ _),
        String.intercalate_singleton, Utf8.bytesOf_eq_encode]
      simp [String.toList_append, suffix]
    rw [hpath, typeName_join hr (h.head? hne _)]
    congr 1
    rw [← String.toList_inj, String.toList_ofList, dots_append, dots_intercalate hds,
      String.toList_append, String.toList_append, ← dots_toList hstem, List.append_assoc]
    rfl

/-! ## Classes below no root -/

section NoRoot

variable {n : String} {outer stem : List Char}

theorem hasEmptyPart_dropDot (front tail : List Char) :
    Name.HasEmptyPart (String.ofList (dropDot (front ++ '.' :: '.' :: tail))) := by
  rw [Name.HasEmptyPart, String.toList_ofList]
  cases front with
  | nil => exact .inr (.inl ⟨tail, rfl⟩)
  | cons c front =>
    by_cases hc : c = '.'
    · subst hc
      exact .inr (.inr (.inr ⟨front, tail, by simp [dropDot]⟩))
    · rw [dropDot_eq (by simpa using hc)]
      exact .inr (.inr (.inr ⟨c :: front, tail, by simp⟩))

/-- The directory of a class with a qualified name ends in something that becomes no dot. -/
theorem exists_last_of_directory (hne : outer ≠ [])
    (hq : Name.isQualified (String.ofList (dropDot (dots (outer ++ '/' :: stem)))) = true) :
    ∃ front c, outer = front ++ [c] ∧ c ≠ '/' ∧ c ≠ '.' := by
  obtain ⟨front, c, rfl⟩ := (List.eq_nil_or_concat' outer).resolve_left hne
  have hlast : ¬ (c = '/' ∨ c = '.' ∨ c = '$') := by
    intro hc
    rw [dots_append, dots_append, dots_of_separator hc, List.append_assoc,
      Name.isQualified_iff_not_hasEmptyPart] at hq
    exact hq (hasEmptyPart_dropDot (dots front) (dots stem))
  exact ⟨front, c, rfl, fun hc => hlast (.inl hc), fun hc => hlast (.inr (.inl hc))⟩

/-- A class with a qualified name has the package that its directory spells. -/
theorem package_ofString_of_directory (hstem : '/' ∉ stem)
    (hn : n.toList = outer ++ '/' :: (stem ++ suffix))
    (hq : Name.isQualified (String.ofList (dropDot (dots (outer ++ '/' :: stem)))) = true) :
    package (.ofString n) ⟨[]⟩ = .ok (packageOf outer) := by
  obtain ⟨hslash, hplain⟩ := isPlain_classFile hstem
  rw [ofString_of_nested hn]
  by_cases hne : outer = []
  · subst hne
    exact package_of_bare (parent_slash_cons (isName_of_isPlain hslash hplain))
      (text?_ofList ['/']) text?_nil rfl
  · obtain ⟨front, c, hlast, hcslash, hcdot⟩ := exists_last_of_directory hne hq
    have hend : outer.getLast? ≠ some '/' := by
      rw [hlast, List.getLast?_concat]
      exact fun h => hcslash (Option.some.inj h)
    have hdot : ¬ ['/', '.'] <:+ outer := by
      intro hdot
      obtain ⟨before, hbefore⟩ := hdot
      have hends := congrArg List.getLast? hbefore
      rw [hlast, List.getLast?_concat, List.getLast?_append] at hends
      exact hcdot (Option.some.inj hends).symm
    have hroot : Utf8.encode outer ≠ [] := mt Utf8.encode_eq_nil_iff.mp hne
    have hkept : (⟨Utf8.encode outer⟩ : Path).kept = ⟨Utf8.encode outer⟩ :=
      kept_eq hroot (mt getLast?_encode_iff.mp hend) (mt dot_suffix_encode_iff.mp hdot)
    have hparent : (below ⟨Utf8.encode outer⟩ ⟨Utf8.encode (stem ++ suffix)⟩).parent =
        some ⟨Utf8.encode outer⟩ :=
      (parent_below_single hroot hslash hplain).trans (congrArg some hkept)
    exact package_of_above (r := "") hparent (text?_ofList outer) text?_nil hne hend

theorem package_ofString_of_file (hstem : '/' ∉ stem) (hn : n.toList = stem ++ suffix) :
    package (.ofString n) ⟨[]⟩ = .ok none := by
  obtain ⟨hslash, hplain⟩ := isPlain_classFile hstem
  have hpath : ofString n = ⟨Utf8.encode (stem ++ suffix)⟩ := by
    rw [← hn, ← bytes_ofString]
  rw [hpath]
  exact package_of_bare (hplain.parent_single hslash) text?_nil text?_nil rfl

end NoRoot

end Layout
end ClassIndex

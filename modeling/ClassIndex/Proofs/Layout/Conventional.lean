/-
The conventional place of a class.

A class file lies where its name says: below the root, in the directories of its package.
The name read off that place is the one that the class gives itself, however the root is
spelled.  It may be empty, end in a slash or end in a component `.`: entries are joined to
it with or without a slash in between, and what is left in front of the name is that slash
or nothing (`exists_gap`).

The name of a function comes from the parent of its path.  Below a directory with a
qualified name, the parent is that directory as it was spelled, since such a directory
ends neither in a slash nor in a component `.` (`parent_join_nested`).
-/
import ClassIndex.Definition
import ClassIndex.Proofs.ClassFormat.RoundTrip
import ClassIndex.Proofs.Layout.Below

namespace ClassIndex

open ClassIndex.Path

/-! ## Qualified names in directories -/

namespace Layout

variable {cs : List Char}

theorem dots_of_separator {c : Char} (h : c = '/' ∨ c = '.' ∨ c = '$') : dots [c] = ['.'] := by
  rcases h with rfl | rfl | rfl <;> rfl

/-- No dot stands in front of a qualified name. -/
theorem head?_dots_of_isQualified (h : Name.isQualified (String.ofList (dots cs)) = true) :
    (dots cs).head? ≠ some '.' := by
  intro hhead
  obtain ⟨rest, hrest⟩ := List.head?_eq_some_iff.mp hhead
  rw [hrest, Name.isQualified_of_dot (String.toList_ofList)] at h
  cases h

theorem ne_nil_of_isQualified (h : Name.isQualified (String.ofList (dots cs)) = true) :
    cs ≠ [] := by
  intro hnil
  rw [hnil] at h
  cases h

/-- A text whose dotted form is qualified ends in something that becomes no dot. -/
theorem exists_last_of_isQualified (h : Name.isQualified (String.ofList (dots cs)) = true) :
    ∃ front c, cs = front ++ [c] ∧ c ≠ '/' ∧ c ≠ '.' ∧ c ≠ '$' := by
  have hne := ne_nil_of_isQualified h
  rw [Name.isQualified_iff_not_hasEmptyPart, Name.HasEmptyPart, String.toList_ofList] at h
  obtain ⟨front, c, rfl⟩ : ∃ front c, cs = front ++ [c] :=
    ⟨cs.dropLast, cs.getLast hne, (List.dropLast_concat_getLast hne).symm⟩
  have hlast : ¬ (c = '/' ∨ c = '.' ∨ c = '$') := by
    intro hc
    refine h (.inr (.inr (.inl ⟨dots front, ?_⟩)))
    rw [dots_append, dots_of_separator hc]
  refine ⟨front, c, rfl, fun hc => hlast (.inl hc), fun hc => hlast (.inr (.inl hc)),
    fun hc => hlast (.inr (.inr hc))⟩

end Layout

/-! ## Entries of any root -/

namespace Path

variable {root : Path} {r : String}

/-- Between a root and an entry stands a slash or nothing. -/
theorem exists_gap (root : Path) : ∃ gap : List Char, (gap = [] ∨ gap = ['/']) ∧
    ∀ cs, root.join (Utf8.encode cs) = ⟨root.bytes ++ Utf8.encode (gap ++ cs)⟩ := by
  by_cases h : (decide (root.bytes = []) || decide (root.bytes.getLast? = some slash)) = true
  · refine ⟨[], .inl rfl, fun cs => ?_⟩
    rw [join, if_pos h]
    rfl
  · refine ⟨['/'], .inr rfl, fun cs => ?_⟩
    rw [join, if_neg h, List.singleton_append, encode_slash]

theorem text?_join {gap cs : List Char} (hr : root.text? = some r)
    (hgap : root.join (Utf8.encode cs) = ⟨root.bytes ++ Utf8.encode (gap ++ cs)⟩) :
    (root.join (Utf8.encode cs)).text? = some (String.ofList (r.toList ++ (gap ++ cs))) := by
  obtain ⟨rs, hrs, rfl⟩ := Option.map_eq_some_iff.mp hr
  rw [hgap, Utf8.decode?_eq_some_iff.mp hrs, ← Utf8.encode_append, text?_ofList,
    String.toList_ofList]

theorem exists_text?_of_slash {front last : List UInt8} {p : String}
    (h : (⟨front ++ slash :: last⟩ : Path).text? = some p) :
    ∃ fs, (⟨front⟩ : Path).text? = some (String.ofList fs) ∧
      (⟨front ++ [slash]⟩ : Path).text? = some (String.ofList (fs ++ ['/'])) := by
  obtain ⟨cs, hcs, -⟩ := Option.map_eq_some_iff.mp h
  obtain ⟨fs, -, hfs, -⟩ := Utf8.exists_of_decode?_append (lt_of_mem_head? (by decide) last) hcs
  refine ⟨fs, by rw [text?, hfs]; rfl, ?_⟩
  rw [Utf8.decode?_eq_some_iff.mp hfs, ← text?_ofList, Utf8.encode_append]
  rfl

/-- A root is a text if one of its entries is. -/
theorem exists_text?_of_join {last : List UInt8} {p : String}
    (h : (root.join last).text? = some p) : ∃ r, root.text? = some r := by
  unfold join at h
  split at h
  · next hends =>
    obtain ⟨bytes⟩ := root
    by_cases hroot : bytes = []
    · subst hroot
      exact ⟨"", text?_nil⟩
    · simp only [hroot, decide_false, Bool.false_or, decide_eq_true_eq] at hends
      obtain ⟨front, rfl⟩ := List.getLast?_eq_some_iff.mp hends
      rw [List.append_assoc] at h
      obtain ⟨fs, -, hfs⟩ := exists_text?_of_slash h
      exact ⟨_, hfs⟩
  · obtain ⟨fs, hfs, -⟩ := exists_text?_of_slash h
    exact ⟨_, hfs⟩

theorem exists_text?_of_descend {names : List (List UInt8)} {p : String}
    (h : (root.descend names).text? = some p) : ∃ r, root.text? = some r := by
  induction names generalizing root with
  | nil => exact ⟨p, h⟩
  | cons name names ih =>
    obtain ⟨q, hq⟩ := ih h
    exact exists_text?_of_join hq

/-- An entry whose name is a text is itself one if the root is. -/
theorem exists_text?_join_iff {cs : List Char} :
    (∃ p, (root.join (Utf8.encode cs)).text? = some p) ↔ ∃ r, root.text? = some r := by
  constructor
  · intro h
    obtain ⟨p, hp⟩ := h
    exact exists_text?_of_join hp
  · intro h
    obtain ⟨r, hr⟩ := h
    obtain ⟨gap, -, hjoin⟩ := root.exists_gap
    exact ⟨_, text?_join hr (hjoin cs)⟩

end Path

/-! ## Names read off the conventional place -/

namespace Layout

variable {root : Path} {r : String}

theorem relative_append {cs : List Char} (hne : cs ≠ []) (r : String) :
    relative (String.ofList (r.toList ++ cs)) r = .ok cs := by
  obtain ⟨c, cs, rfl⟩ := List.exists_cons_of_ne_nil hne
  rw [relative, String.toList_ofList, Affix.after?_append]

theorem eq_ok_of_toOption {ε α : Type} {x : Except ε α} {a : α} (h : x.toOption = some a) :
    x = .ok a := by
  cases x with
  | error e => cases h
  | ok b => exact congrArg Except.ok (Option.some.inj h)

/-- What the root leaves in front of a name is dropped. -/
theorem dropDot_dots_gap {gap cs : List Char} (hgap : gap = [] ∨ gap = ['/'])
    (h : cs.head? ≠ some '.') : dropDot (dots gap ++ cs) = cs := by
  rcases hgap with rfl | rfl
  · exact dropDot_eq h
  · rfl

/-- A type below a root is named for what follows the root, whatever that is. -/
theorem exists_typeName_join (hr : root.text? = some r) (stem : List Char) :
    ∃ gap : List Char, (gap = [] ∨ gap = ['/']) ∧
      typeName (root.join (Utf8.encode (stem ++ suffix))) root =
        .ok (String.ofList (dropDot (dots gap ++ dots stem))) := by
  obtain ⟨gap, hgap, hjoin⟩ := root.exists_gap
  have hne : gap ++ (stem ++ suffix) ≠ [] := by
    simp [suffix]
  refine ⟨gap, hgap, ?_⟩
  rw [typeName, textOf_of_text? (text?_join hr (hjoin _)), textOf_of_text? hr]
  show (relative _ r >>= _) = _
  rw [relative_append hne, ← List.append_assoc]
  simp only [bind, Except.bind, Affix.before?_append, dots_append]

theorem typeName_join {stem : List Char} (hr : root.text? = some r)
    (hstem : (dots stem).head? ≠ some '.') :
    typeName (root.join (Utf8.encode (stem ++ suffix))) root = .ok (String.ofList (dots stem)) := by
  obtain ⟨gap, hgap, htype⟩ := exists_typeName_join hr stem
  rw [htype, dropDot_dots_gap hgap hstem]

/-- The last byte of a text that ends in neither a slash nor a dot. -/
theorem exists_getLast?_encode (front : List Char) {c : Char} (hslash : c ≠ '/') (hdot : c ≠ '.') :
    ∃ b, (Utf8.encode (front ++ [c])).getLast? = some b ∧ b ≠ slash ∧ b ≠ dot := by
  have hne : Utf8.encode [c] ≠ [] := fun h => List.cons_ne_nil c [] (Utf8.encode_eq_nil_iff.mp h)
  have hlast : (Utf8.encode [c]).getLast hne ∈ Utf8.encode [c] := List.getLast_mem hne
  refine ⟨(Utf8.encode [c]).getLast hne, ?_, fun hb => ?_, fun hb => ?_⟩
  · rw [Utf8.encode_append, List.getLast?_append, List.getLast?_eq_some_getLast hne, Option.some_or]
  · rw [hb] at hlast
    exact Utf8.not_mem_encode (c := '/') (by decide) (by simp [hslash.symm]) hlast
  · rw [hb] at hlast
    exact Utf8.not_mem_encode (c := '.') (by decide) (by simp [hdot.symm]) hlast

theorem above?_join {outer : List Char} {last : List UInt8} (hr : root.text? = some r)
    (houter : Name.isQualified (String.ofList (dots outer)) = true) (hslash : slash ∉ last)
    (hplain : (⟨last⟩ : Path).IsPlain) : ∃ gap : List Char, (gap = [] ∨ gap = ['/']) ∧
    above? (root.join (Utf8.encode outer ++ slash :: last)) root = some (gap ++ outer) := by
  obtain ⟨gap, hgap, hjoin⟩ := root.exists_gap
  obtain ⟨front, c, rfl, hcslash, hcdot, -⟩ := exists_last_of_isQualified houter
  obtain ⟨b, hb, hbslash, hbdot⟩ := exists_getLast?_encode front hcslash hcdot
  refine ⟨gap, hgap, ?_⟩
  have hne : gap ++ (front ++ [c]) ≠ [] := by
    simp
  rw [above?, parent_join_nested hb hbslash hbdot hslash hplain, Option.bind_some,
    text?_join hr (hjoin _), Option.bind_some, hr, Option.bind_some, relative_append hne]
  rfl

theorem functionName_join {outer simple : List Char} {marker : String} (hr : root.text? = some r)
    (houter : Name.isQualified (String.ofList (dots outer)) = true) (hmarker : '/' ∉ marker.toList)
    (hsimple : '/' ∉ simple) : functionName marker (root.join
      (Utf8.encode (outer ++ '/' :: (marker.toList ++ simple ++ suffix)))) root =
      .ok (String.ofList (dots outer ++ '.' :: simple)) := by
  have hstem : '/' ∉ marker.toList ++ simple := by
    rw [List.mem_append, not_or]
    exact ⟨hmarker, hsimple⟩
  obtain ⟨hslash, hplain⟩ := isPlain_classFile hstem
  obtain ⟨gap, hgap, habove⟩ := above?_join hr houter hslash hplain
  have hne := ne_nil_of_isQualified houter
  have hhead : (dots outer ++ '.' :: simple).head? ≠ some '.' := by
    have hdots : dots outer ≠ [] := mt List.map_eq_nil_iff.mp hne
    rw [List.head?_append_of_ne_nil _ hdots]
    exact head?_dots_of_isQualified houter
  have hfile : (root.join (Utf8.encode outer ++ slash ::
      Utf8.encode (marker.toList ++ simple ++ suffix))).fileName =
      some (Utf8.encode (marker.toList ++ simple ++ suffix)) := by
    rw [join_nested]
    exact fileName_append_slash _ hslash hplain
  rw [Utf8.encode_append, encode_slash]
  apply eq_ok_of_toOption
  rw [toOption_functionName hfile, habove, Option.bind_some, Affix.after?_append, Option.map_some,
    dots_append, List.append_assoc (dots gap), dropDot_dots_gap hgap hhead]

/-! ## Names that classes report -/

open ClassFormat

theorem canonical_dotted (n : String) :
    Name.canonical (Name.dotted n) = String.ofList (dots n.toList) := by
  rw [Name.canonical, Name.dotted, String.toList_ofList, List.map_map, dots]
  congr 2
  funext c
  by_cases hslash : c = '/' <;> simp [hslash]

/-- A class reports the name in its file with a dot for each separator. -/
theorem canonicalName_of_denotes {f : ClassFile} {c : ClassInfo} {n : String} (hc : f.Denotes c)
    (hn : className? f.pool f.thisClass = some n) :
    (TypeDefinition.mk c).canonicalName = String.ofList (dots n.toList) := by
  obtain ⟨s, hs, hname⟩ := hc.name
  rw [hn] at hs
  cases hs
  rw [TypeDefinition.canonicalName, hname, canonical_dotted]

/-- Below every root, a class at its conventional place gets the name that it reports, and
a function the name of its directory and its own. -/
theorem names_at_conventional_place (hr : root.text? = some r) :
    (∀ n : String, Name.isQualified (String.ofList (dots n.toList)) = true →
      typeName (root.join (Utf8.bytesOf (n ++ ".class"))) root =
        .ok (String.ofList (dots n.toList)) ∧
      ∀ (f : ClassFile) (rest : List UInt8) (c : ClassInfo), f.Framed →
        className? f.pool f.thisClass = some n → decode (f.bytes ++ rest) = .ok c →
        (TypeDefinition.mk c).canonicalName = String.ofList (dots n.toList)) ∧
    ∀ outer marker simple : String, Name.isQualified (String.ofList (dots outer.toList)) = true →
      '/' ∉ marker.toList → '/' ∉ simple.toList →
      functionName marker
        (root.join (Utf8.bytesOf (outer ++ "/" ++ marker ++ simple ++ ".class"))) root =
        .ok (String.ofList (dots outer.toList) ++ "." ++ simple) := by
  refine ⟨fun n hn => ⟨?_, fun f rest c hf hname hdecode => ?_⟩, ?_⟩
  · have hfile : Utf8.bytesOf (n ++ ".class") = Utf8.encode (n.toList ++ suffix) := by
      rw [Utf8.bytesOf_eq_encode, String.toList_append]
      rfl
    rw [hfile]
    exact typeName_join hr (head?_dots_of_isQualified hn)
  · exact canonicalName_of_denotes ((decode_bytes_append_eq_ok_iff hf rest).mp hdecode) hname
  · intro outer marker simple houter hmarker hsimple
    have hfile : Utf8.bytesOf (outer ++ "/" ++ marker ++ simple ++ ".class") =
        Utf8.encode (outer.toList ++ '/' :: (marker.toList ++ simple.toList ++ suffix)) := by
      rw [Utf8.bytesOf_eq_encode]
      simp [String.toList_append, suffix]
    have hname : String.ofList (dots outer.toList) ++ "." ++ simple =
        String.ofList (dots outer.toList ++ '.' :: simple.toList) := by
      rw [← String.toList_inj]
      simp [String.toList_append]
    rw [hfile, hname]
    exact functionName_join hr houter hmarker hsimple

/-- The class of the area function, below a root that ends in a component `.`: as a type it
goes by its own name, as a function by that of the function. -/
theorem names_of_areaClass :
    typeName (.ofString "lib/./demo/Function_area.class") (.ofString "lib/.") =
      .ok "demo.Function_area" ∧
    functionName "Function_" (.ofString "lib/./demo/Function_area.class") (.ofString "lib/.") =
      .ok "demo.area" ∧
    ∃ c, decode areaClass.bytes = .ok c ∧
      (TypeDefinition.mk c).canonicalName = "demo.Function_area" := by
  obtain ⟨htypes, hfunctions⟩ := names_at_conventional_place (text?_ofString "lib/.")
  obtain ⟨htype, hclass⟩ := htypes "demo/Function_area" (by decide)
  obtain ⟨c, -, hdecode⟩ := exists_decode_areaClass
  refine ⟨htype, ?_, c, hdecode, ?_⟩
  · exact hfunctions "demo" "Function_" "area" (by decide) (by decide) (by decide)
  · rw [← List.append_nil areaClass.bytes] at hdecode
    exact hclass areaClass [] c areaClass_wellFormed.framed (by decide) hdecode

end Layout

end ClassIndex

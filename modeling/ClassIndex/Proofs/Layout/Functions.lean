/-
Names of functions and the files they are read off.

The file of a function is called after it: marker, name and ending stand in it one after
the other (`CalledAfter`).  No name is read off any other file, though it may start with the
marker and end as class files do.  The marker and the ending then share characters of the
file, for which the marker has to end as the ending begins (`exists_not_calledAfter_iff`).

For the rest the name depends on the directory of the file, and on whether the path is a
text.  That directory is the parent of the path.  Of a file in the root itself it comes out
no longer than the root, however that is spelled, and the file is taken to lie outside it
(`functionName_join_eq_error`).  Further down there is always something between the root and
the file (`Inside`).
-/
import ClassIndex.Proofs.Layout.Packages

namespace ClassIndex
namespace Layout

open ClassIndex.Path

variable {marker r : String} {file stem : List Char} {path root parent : Path}
  {names : List (List UInt8)}

/-! ## Files called after functions -/

/-- The marker, a name and the ending of class files, one after the other. -/
def CalledAfter (marker : String) (file : List Char) : Prop :=
  ∃ simple, file = marker.toList ++ simple ++ suffix

/-- The marker ends as the ending of class files begins. -/
def Overlaps (marker : String) : Prop :=
  ∃ shared, shared ≠ [] ∧ shared <:+ marker.toList ∧ shared <+: suffix

instance : Decidable (Overlaps marker) :=
  decidable_of_iff (∃ shared ∈ suffix.inits, shared ≠ [] ∧ shared <:+ marker.toList) <|
    exists_congr fun shared => by rw [List.mem_inits, and_rotate]

theorem calledAfter_append_iff : CalledAfter marker (stem ++ suffix) ↔ marker.toList <+: stem := by
  constructor
  · intro h
    obtain ⟨simple, h⟩ := h
    exact ⟨simple, (List.append_cancel_right h).symm⟩
  · intro h
    obtain ⟨simple, rfl⟩ := h
    exact ⟨simple, rfl⟩

/-- Some file has the marker and the ending and is not called after a function just if the
marker and the ending overlap. -/
theorem exists_not_calledAfter_iff :
    (∃ stem, marker.toList <+: stem ++ suffix ∧ ¬ CalledAfter marker (stem ++ suffix)) ↔
      Overlaps marker := by
  simp only [calledAfter_append_iff]
  constructor
  · intro h
    obtain ⟨stem, ⟨rest, hrest⟩, hnot⟩ := h
    rcases List.append_eq_append_iff.mp hrest with ⟨simple, hstem, -⟩ | ⟨shared, hshared, hsuffix⟩
    · exact absurd ⟨simple, hstem.symm⟩ hnot
    · refine ⟨shared, ?_, ⟨stem, hshared.symm⟩, ⟨rest, hsuffix.symm⟩⟩
      rintro rfl
      rw [List.append_nil] at hshared
      exact hnot (hshared ▸ List.prefix_rfl)
  · intro h
    obtain ⟨shared, hne, ⟨stem, hmarker⟩, ⟨rest, hsuffix⟩⟩ := h
    refine ⟨stem, ⟨rest, ?_⟩, fun hprefix => ?_⟩
    · rw [← hmarker, ← hsuffix, List.append_assoc]
    · -- the marker is longer than what is left of it in front of the ending
      have hle := hprefix.length_le
      have hpos := List.length_pos_iff.mpr hne
      rw [← hmarker, List.length_append] at hle
      omega

/-! ## The directory of a class -/

/-- The directory that a path is an entry of; it and the root are texts just if the path
is. -/
structure Above (path root parent : Path) : Prop where
  parent_eq : path.parent = some parent
  texts : (∃ t, path.text? = some t) ↔ (∃ p, parent.text? = some p) ∧ ∃ r, root.text? = some r

/-- Such a directory with something of its own between the root and the path. -/
structure Inside (path root parent : Path) : Prop extends Above path root parent where
  below : ∀ p r, parent.text? = some p → root.text? = some r → ∃ above, relative p r = .ok above

theorem above_join (h : IsName (Utf8.encode file)) :
    Above (root.join (Utf8.encode file)) root root.kept where
  parent_eq := parent_join h
  texts := by
    rw [exists_text?_join_iff, iff_and_self]
    intro h
    obtain ⟨r, hr⟩ := h
    obtain ⟨k, -, hk, -⟩ := exists_text?_kept hr
    exact ⟨k, hk⟩

theorem inside_descend (hne : names ≠ []) (hnames : ∀ name ∈ names, IsName name)
    (h : IsName (Utf8.encode file)) :
    Inside (root.descend (names ++ [Utf8.encode file])) root (root.descend names) where
  parent_eq := parent_descend_concat hne hnames h
  texts := by
    rw [descend_concat, exists_text?_join_iff, iff_self_and]
    intro h
    obtain ⟨p, hp⟩ := h
    exact exists_text?_of_descend hp
  below := by
    intro p r hp hr
    obtain ⟨above, rfl, habove, -⟩ := exists_above hr hne hnames hp
    exact ⟨above, relative_append habove r⟩

/-- The directory of an entry below no root is never empty. -/
theorem exists_inside_ofString {n : String} {outer : List Char}
    (hn : n.toList = outer ++ '/' :: file) (h : IsName (Utf8.encode file)) :
    ∃ parent, Inside (.ofString n) ⟨[]⟩ parent := by
  obtain ⟨parent, hparent, hne, k, hk⟩ : ∃ parent, (Path.ofString n).parent = some parent ∧
      parent.bytes ≠ [] ∧ ∃ k, parent.text? = some k := by
    rw [ofString_of_nested hn]
    by_cases houter : outer = []
    · subst houter
      exact ⟨_, parent_slash_cons h, List.cons_ne_nil slash [], _, text?_ofList ['/']⟩
    · have hbytes : Utf8.encode outer ≠ [] := mt Utf8.encode_eq_nil_iff.mp houter
      obtain ⟨k, -, hk, -⟩ := exists_text?_kept (text?_ofList outer)
      exact ⟨_, parent_below_single hbytes h.1 h.isPlain, kept_ne_nil hbytes, k, hk⟩
  refine ⟨parent, ⟨hparent, ?_⟩, ?_⟩
  · exact iff_of_true ⟨n, text?_ofString n⟩ ⟨⟨k, hk⟩, "", text?_nil⟩
  · intro p r hp hr
    cases hr
    have hp' : p.toList ≠ [] := by
      intro hnil
      rw [eq_of_text? hp, hnil] at hne
      exact hne rfl
    exact ⟨p.toList, by simpa using relative_append hp' ""⟩

/-! ## Reading a name -/

theorem exists_functionName_eq_notUtf8 (marker : String) (h : Above path root parent)
    (hpath : path.text? = none) :
    ∃ shown, functionName marker path root = .error (.notUtf8 shown) := by
  rw [functionName, h.parent_eq]
  cases hp : parent.text? with
  | none => exact ⟨parent.display, by simp only [textOf, hp, bind, Except.bind]⟩
  | some p =>
    cases hr : root.text? with
    | none => exact ⟨root.display, by simp only [textOf, hp, hr, bind, Except.bind]⟩
    | some r =>
      obtain ⟨t, ht⟩ := h.texts.mpr ⟨⟨p, hp⟩, r, hr⟩
      cases hpath.symm.trans ht

theorem functionName_join_eq_error (marker : String) (h : IsName (Utf8.encode file))
    (hr : root.text? = some r) : ∃ above,
      functionName marker (root.join (Utf8.encode file)) root = .error (.outsideRoot above r) := by
  obtain ⟨k, rest, hk, hrest, -⟩ := exists_text?_kept hr
  refine ⟨k, ?_⟩
  rw [functionName, parent_join h]
  simp only [textOf_of_text? hk, textOf_of_text? hr, bind, Except.bind, relative_eq_error hrest]

/-- In a directory, what becomes of a class file is decided by how it is called. -/
theorem functionName_of_inside (h : Inside path root parent) (hpath : path.text? ≠ none)
    (hfile : path.fileName = some (Utf8.encode (stem ++ suffix))) :
    (CalledAfter marker (stem ++ suffix) → ∃ name, functionName marker path root = .ok name) ∧
      (¬ CalledAfter marker (stem ++ suffix) →
        functionName marker path root = .error (.notAFunctionClass path.display marker)) := by
  obtain ⟨⟨p, hp⟩, r, hr⟩ := h.texts.mp (Option.ne_none_iff_exists'.mp hpath)
  obtain ⟨above, habove⟩ := h.below p r hp hr
  have hname : functionName marker path root = (Affix.after? marker.toList stem).elim
      (.error (.notAFunctionClass path.display marker))
      fun simple => .ok (String.ofList (dropDot (dots above ++ '.' :: simple))) := by
    rw [functionName, h.parent_eq, hfile]
    simp only [textOf_of_text? hp, textOf_of_text? hr, habove, bind, Except.bind,
      Option.bind_some, Utf8.decode?_encode, Affix.before?_append]
    cases Affix.after? marker.toList stem <;> rfl
  rw [calledAfter_append_iff, ← Affix.isSome_after?_iff, hname]
  cases Affix.after? marker.toList stem with
  | none => exact ⟨fun hsome => absurd hsome Bool.false_ne_true, fun _ => rfl⟩
  | some simple => exact ⟨fun _ => ⟨_, rfl⟩, fun hnone => absurd rfl hnone⟩

/-! ## Reading other names

The marker is looked at for functions only. -/

theorem bind_ne_error {ε α β : Type} {x : Except ε α} {f : α → Except ε β} {e : ε}
    (hx : x ≠ .error e) (hf : ∀ a, f a ≠ .error e) : x >>= f ≠ .error e := by
  cases x with
  | error e' =>
    intro h
    cases h
    exact hx rfl
  | ok a => exact hf a

variable {shown : String}

theorem textOf_ne_notAFunctionClass : textOf path ≠ .error (.notAFunctionClass shown marker) := by
  unfold textOf
  split <;> exact nofun

theorem relative_ne_notAFunctionClass {p : String} :
    relative p r ≠ .error (.notAFunctionClass shown marker) := by
  unfold relative
  split <;> exact nofun

theorem typeName_ne_notAFunctionClass :
    typeName path root ≠ .error (.notAFunctionClass shown marker) := by
  refine bind_ne_error textOf_ne_notAFunctionClass fun p => ?_
  refine bind_ne_error textOf_ne_notAFunctionClass fun r => ?_
  refine bind_ne_error relative_ne_notAFunctionClass fun below => ?_
  split <;> exact nofun

theorem package_ne_notAFunctionClass :
    package path root ≠ .error (.notAFunctionClass shown marker) := by
  unfold package
  split
  · refine bind_ne_error textOf_ne_notAFunctionClass fun p => ?_
    refine bind_ne_error textOf_ne_notAFunctionClass fun r => ?_
    split
    · exact nofun
    · refine bind_ne_error relative_ne_notAFunctionClass fun above => ?_
      split <;> exact nofun
  · exact nofun

end Layout
end ClassIndex

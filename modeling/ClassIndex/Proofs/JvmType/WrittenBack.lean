/-
Writing undoes reading, up to separators.

Reading a class name turns its slashes into dots and writing one turns dots into
slashes, so what was read from a descriptor is written as the same characters but for
dots, which come back as slashes.  The grammar does not tell the two separators apart:
it derives a text when it derives the text with slashes for its dots, as the same type
(`Describes.of_slashes` and its companions).  With both directions `read_iff_written`
says what a descriptor is read as: the one writable type whose written form it is, up to
separators.

Class names are whatever stands before a semicolon.  They may be empty and may hold
parentheses, brackets and letters of primitives, and all of these are written back.
-/
import ClassIndex.ClassInfo
import ClassIndex.Proofs.JvmType.Writable

namespace ClassIndex

/-! ## Separators -/

/-- What is written as a character that is no separator is that character. -/
theorem exists_cons_of_slashes {ds cs : List Char} {c : Char} (hc : c ≠ '/')
    (h : ds.map (fun d => if d = '.' then '/' else d) = c :: cs) :
    ∃ ds', ds = c :: ds' ∧ ds'.map (fun d => if d = '.' then '/' else d) = cs := by
  obtain ⟨d, ds', rfl, hd, htail⟩ := List.map_eq_cons_iff.mp h
  by_cases hdot : d = '.'
  · rw [if_pos hdot] at hd
    exact absurd hd.symm hc
  · rw [if_neg hdot] at hd
    exact ⟨ds', by rw [hd], htail⟩

/-- A name is read the same with slashes for its dots. -/
theorem Name.dotted_ofList_slashes (name : List Char) :
    dotted (String.ofList (name.map fun c => if c = '.' then '/' else c)) =
      dotted (String.ofList name) := by
  unfold dotted
  simp only [String.toList_ofList, List.map_map]
  congr 1
  apply List.map_congr_left
  intro c _
  by_cases hdot : c = '.'
  · subst hdot
    decide
  · simp [Function.comp, hdot]

namespace Descriptor

/-! ## The grammar reads both separators alike -/

theorem Describes.of_slashes {cs ds : List Char} {t : JvmType} (h : Describes cs t)
    (hd : ds.map (fun c => if c = '.' then '/' else c) = cs) : Describes ds t := by
  induction h generalizing ds with
  | @primitive kind hkind =>
    obtain ⟨ds', rfl, hnil⟩ := exists_cons_of_slashes (by cases kind <;> decide) hd
    rw [List.map_eq_nil_iff.mp hnil]
    exact .primitive hkind
  | @reference name hsemi =>
    obtain ⟨ds', rfl, hrest⟩ := exists_cons_of_slashes (by decide) hd
    obtain ⟨name', end', rfl, rfl, hend⟩ := List.map_eq_append_iff.mp hrest
    obtain ⟨ds', rfl, hnil⟩ := exists_cons_of_slashes (by decide) hend
    rw [List.map_eq_nil_iff.mp hnil, Name.dotted_ofList_slashes]
    exact .reference fun hmem =>
      hsemi ((Name.mem_map_replace_iff (by decide) (by decide)).mpr hmem)
  | array _ ih =>
    obtain ⟨ds', rfl, hrest⟩ := exists_cons_of_slashes (by decide) hd
    exact .array (ih hrest)

theorem DescribesAll.of_slashes {cs ds : List Char} {ts : List JvmType} (h : DescribesAll cs ts)
    (hd : ds.map (fun c => if c = '.' then '/' else c) = cs) : DescribesAll ds ts := by
  induction h generalizing ds with
  | nil =>
    rw [List.map_eq_nil_iff.mp hd]
    exact .nil
  | cons ht _ ih =>
    obtain ⟨front, back, rfl, hfront, hback⟩ := List.map_eq_append_iff.mp hd
    exact .cons (ht.of_slashes hfront) (ih hback)

theorem DescribesResult.of_slashes {cs ds : List Char} {t : JvmType} (h : DescribesResult cs t)
    (hd : ds.map (fun c => if c = '.' then '/' else c) = cs) : DescribesResult ds t := by
  cases h with
  | void =>
    obtain ⟨ds', rfl, hnil⟩ := exists_cons_of_slashes (by decide) hd
    rw [List.map_eq_nil_iff.mp hnil]
    exact .void
  | type ht => exact .type (ht.of_slashes hd)

theorem DescribesSignature.of_slashes {cs ds : List Char} {s : Signature}
    (h : DescribesSignature cs s) (hd : ds.map (fun c => if c = '.' then '/' else c) = cs) :
    DescribesSignature ds s := by
  obtain ⟨hp, hr⟩ := h
  obtain ⟨front, back, rfl, hfront, hback⟩ := List.map_eq_append_iff.mp hd
  obtain ⟨ps, rfl, hps⟩ := exists_cons_of_slashes (by decide) hfront
  obtain ⟨rs, rfl, hrs⟩ := exists_cons_of_slashes (by decide) hback
  exact .mk (hp.of_slashes hps) (hr.of_slashes hrs)

/-! ## What a descriptor is read as -/

theorem fieldType_eq_ok_iff_written {d : String} {t : JvmType} :
    fieldType d = .ok t ↔ t.IsWritable ∧
      t.descriptorChars = d.toList.map fun c => if c = '.' then '/' else c := by
  rw [fieldType_eq_ok_iff]
  constructor
  · intro h
    exact ⟨h.isWritable, h.descriptorChars_eq⟩
  · intro h
    obtain ⟨hwritable, hchars⟩ := h
    exact (describes_descriptorChars hwritable).of_slashes hchars.symm

theorem signature_eq_ok_iff_written {d : String} {s : Signature} :
    signature d = .ok s ↔ s.IsWritable ∧
      s.descriptorChars = d.toList.map fun c => if c = '.' then '/' else c := by
  rw [signature_eq_ok_iff]
  constructor
  · intro h
    exact ⟨h.isWritable, h.descriptorChars_eq⟩
  · intro h
    obtain ⟨hwritable, hchars⟩ := h
    exact (describesSignature_descriptorChars hwritable).of_slashes hchars.symm

/-- A type or the signature of a method is read from a descriptor exactly when it is
writable and its written form is the descriptor with slashes for dots; of a descriptor
without dots it is the descriptor. -/
theorem read_iff_written (d : String) :
    (∀ t : JvmType, fieldType d = .ok t ↔ t.IsWritable ∧
      t.descriptor.toList = d.toList.map fun c => if c = '.' then '/' else c) ∧
    (∀ m : MethodInfo, signature d = .ok m.signature ↔ m.signature.IsWritable ∧
      m.signature.descriptor.toList = d.toList.map fun c => if c = '.' then '/' else c) ∧
    ('.' ∉ d.toList →
      (∀ t : JvmType, fieldType d = .ok t → t.descriptor = d) ∧
      (∀ m : MethodInfo, signature d = .ok m.signature → m.signature.descriptor = d)) := by
  refine ⟨?_, ?_, ?_⟩
  · intro t
    rw [JvmType.descriptor, String.toList_ofList]
    exact fieldType_eq_ok_iff_written
  · intro m
    rw [Signature.descriptor, String.toList_ofList]
    exact signature_eq_ok_iff_written
  · intro hdots
    refine ⟨fun t hread => ?_, fun m hread => ?_⟩
    · rw [JvmType.descriptor, (fieldType_eq_ok_iff_written.mp hread).2,
        map_slash_of_not_mem hdots, String.ofList_toList]
    · rw [Signature.descriptor, (signature_eq_ok_iff_written.mp hread).2,
        map_slash_of_not_mem hdots, String.ofList_toList]

/-- An empty name and a name with a parenthesis, a bracket and a dot; a name that is written
as it was read. -/
theorem read_iff_written_punctuation :
    signature "(L;[L([.x;)V" =
      .ok ⟨[.reference "", .array (.reference "([.x")], .primitive .void⟩ ∧
    (JvmType.descriptor (.array (.reference "([.x"))).toList = "[L([/x;".toList ∧
    JvmType.descriptor (.array (.reference "a.(")) = "[La/(;" := by
  refine ⟨?_, ?_, ?_⟩
  · exact ((read_iff_written "(L;[L([.x;)V").2.1 ⟨"m", default,
      ⟨[.reference "", .array (.reference "([.x")], .primitive .void⟩, none⟩).mpr
      ⟨⟨by decide, Or.inl rfl⟩, by decide⟩
  · have hread : fieldType "[L([.x;" = .ok (.array (.reference "([.x")) := rfl
    exact (((read_iff_written "[L([.x;").1 _).mp hread).2
  · have hdots : '.' ∉ "[La/(;".toList := by decide
    have hread : fieldType "[La/(;" = .ok (.array (.reference "a.(")) := rfl
    exact ((read_iff_written "[La/(;").2.2 hdots).1 _ hread

end Descriptor
end ClassIndex

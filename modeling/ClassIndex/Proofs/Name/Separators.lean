/-
Names and what separates their parts.

Class files set the parts of a name off by slashes, the index by dots.  Going over
to dots and back changes nothing in a name that had none of the other kind
(`dotted_slashed_of_not_mem`).

A name is qualified when no part between its dots is empty.  Cutting a name at a dot
cuts its parts into those before and those after (`segments_of_enclosing`), so the
names around a qualified one are qualified (`isQualified_of_enclosing`): whatever
registers a qualified name can register those around it as well.
-/
import ClassIndex.Name

namespace ClassIndex
namespace Name

/-! ## One separator for another -/

theorem mem_map_replace_iff {a b c : Char} (ha : c ≠ a) (hb : c ≠ b) {cs : List Char} :
    (c ∈ cs.map fun d => if d = a then b else d) ↔ c ∈ cs := by
  rw [List.mem_map]
  constructor
  · rintro ⟨d, hd, hc⟩
    by_cases h : d = a
    · rw [if_pos h] at hc
      exact absurd hc.symm hb
    · rw [if_neg h] at hc
      exact hc ▸ hd
  · intro hc
    exact ⟨c, hc, if_neg ha⟩

theorem not_mem_map_replace {a b : Char} (hne : b ≠ a) (cs : List Char) :
    a ∉ cs.map fun d => if d = a then b else d := by
  rw [List.mem_map]
  rintro ⟨d, -, hd⟩
  by_cases h : d = a
  · rw [if_pos h] at hd
    exact hne hd
  · rw [if_neg h] at hd
    exact h hd

theorem mem_slashed_iff {c : Char} (hdot : c ≠ '.') (hslash : c ≠ '/') {s : String} :
    c ∈ (slashed s).toList ↔ c ∈ s.toList := by
  rw [slashed, String.toList_ofList]
  exact mem_map_replace_iff hdot hslash

theorem mem_dotted_iff {c : Char} (hdot : c ≠ '.') (hslash : c ≠ '/') {s : String} :
    c ∈ (dotted s).toList ↔ c ∈ s.toList := by
  rw [dotted, String.toList_ofList]
  exact mem_map_replace_iff hslash hdot

theorem not_mem_dotted {s : String} : '/' ∉ (dotted s).toList := by
  rw [dotted, String.toList_ofList]
  exact not_mem_map_replace (by decide) s.toList

theorem dotted_slashed_of_not_mem {s : String} (h : '/' ∉ s.toList) : dotted (slashed s) = s := by
  have hback : ∀ c ∈ s.toList, (if (if c = '.' then '/' else c) = '/' then '.' else
      if c = '.' then '/' else c) = id c := by
    intro c hc
    have hne : c ≠ '/' := fun he => h (he ▸ hc)
    by_cases hdot : c = '.'
    · simp [hdot]
    · simp [hdot, hne]
  have hchars := List.map_congr_left hback
  rw [List.map_id] at hchars
  rw [dotted, slashed, String.toList_ofList, List.map_map]
  exact (congrArg String.ofList hchars).trans String.ofList_toList

/-! ## Parts between dots -/

theorem isQualified_iff {name : String} : isQualified name = true ↔ [] ∉ segments name := by
  unfold isQualified
  rw [List.all_eq_true]
  constructor
  · intro h hmem
    exact absurd (h [] hmem) (by decide)
  · intro h s hs
    cases s with
    | nil => exact absurd hs h
    | cons c cs => rfl

theorem isQualified_eq_false_iff {name : String} :
    isQualified name = false ↔ [] ∈ segments name := by
  rw [← Bool.not_eq_true, isQualified_iff, Decidable.not_not]

/-- Nothing stands between two dots of a name, before the first or after the last. -/
def HasEmptyPart (name : String) : Prop :=
  name.toList = [] ∨ ['.'] <+: name.toList ∨ ['.'] <:+ name.toList ∨ ['.', '.'] <:+: name.toList

theorem nil_mem_splitOn_iff {cs : List Char} : [] ∈ cs.splitOn '.' ↔
    cs = [] ∨ ['.'] <+: cs ∨ ['.'] <:+ cs ∨ ['.', '.'] <:+: cs := by
  constructor
  · induction hn : cs.length using Nat.strongRecOn generalizing cs with
    | _ n ih =>
      intro hmem
      by_cases hdot : '.' ∈ cs
      · obtain ⟨a, b, rfl, ha⟩ := List.eq_append_cons_of_mem hdot
        rw [List.splitOn_append_cons_self_of_not_mem ha, List.mem_cons] at hmem
        rcases hmem with rfl | hmem
        · exact Or.inr (Or.inl ⟨b, rfl⟩)
        · have hlen : b.length < n := by
            rw [← hn, List.length_append, List.length_cons]
            omega
          rcases ih b.length hlen rfl hmem with rfl | ⟨t, rfl⟩ | ⟨t, rfl⟩ | ⟨t, u, rfl⟩
          · exact Or.inr (Or.inr (Or.inl ⟨a, rfl⟩))
          · exact Or.inr (Or.inr (Or.inr ⟨a, t, by simp⟩))
          · exact Or.inr (Or.inr (Or.inl ⟨a ++ '.' :: t, by simp⟩))
          · exact Or.inr (Or.inr (Or.inr ⟨a ++ '.' :: t, u, by simp⟩))
      · rw [List.splitOn_eq_singleton hdot, List.mem_singleton] at hmem
        exact Or.inl hmem.symm
  · rintro (rfl | ⟨t, rfl⟩ | ⟨t, rfl⟩ | ⟨t, u, rfl⟩)
    · exact List.mem_singleton.mpr rfl
    · have hsplit := List.splitOn_append_cons_self (a := '.') [] t
      rw [List.nil_append] at hsplit
      rw [List.singleton_append, hsplit]
      exact List.mem_append_left _ (List.mem_singleton.mpr rfl)
    · rw [List.splitOn_append_cons_self]
      exact List.mem_append_right _ (List.mem_singleton.mpr rfl)
    · have hbetween : t ++ ['.', '.'] ++ u = (t ++ ['.']) ++ '.' :: u := by simp
      rw [hbetween, List.splitOn_append_cons_self, List.splitOn_append_cons_self]
      exact List.mem_append_left _ (List.mem_append_right _ (List.mem_singleton.mpr rfl))

theorem isQualified_eq_false_iff_hasEmptyPart {name : String} :
    isQualified name = false ↔ HasEmptyPart name :=
  isQualified_eq_false_iff.trans nil_mem_splitOn_iff

theorem isQualified_iff_not_hasEmptyPart {name : String} :
    isQualified name = true ↔ ¬ HasEmptyPart name := by
  rw [← isQualified_eq_false_iff_hasEmptyPart, Bool.not_eq_false]

instance {name : String} : Decidable (HasEmptyPart name) :=
  decidable_of_iff _ isQualified_eq_false_iff_hasEmptyPart

/-- The parts of a name that is cut at one of its dots. -/
theorem segments_of_enclosing {name outer : String} {rest : List Char}
    (h : name.toList = outer.toList ++ '.' :: rest) :
    segments name = segments outer ++ rest.splitOn '.' := by
  rw [segments, h, List.splitOn_append_cons_self]
  rfl

theorem isQualified_of_enclosing {name outer : String} {rest : List Char}
    (h : name.toList = outer.toList ++ '.' :: rest) (hname : isQualified name = true) :
    isQualified outer = true := by
  rw [isQualified_iff] at hname ⊢
  intro hmem
  apply hname
  rw [segments_of_enclosing h]
  exact List.mem_append_left _ hmem

/-- A dot in front leaves an empty part before it. -/
theorem isQualified_of_dot {name : String} {rest : List Char} (h : name.toList = '.' :: rest) :
    isQualified name = false := by
  have hempty : name.toList = "".toList ++ '.' :: rest := h
  rw [isQualified_eq_false_iff, segments_of_enclosing hempty]
  exact List.mem_append_left _ (by decide)

end Name
end ClassIndex

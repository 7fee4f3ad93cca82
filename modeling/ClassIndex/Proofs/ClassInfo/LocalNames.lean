/-
Which line of a debug table names a slot.

`Claims lines slot v` says it on the lines as they are listed: `v` is of the slot,
no line of the slot starts earlier, and none listed before it starts at the same
address.  `LocalNames.get?_ofVariables` is the main statement: the names recorded
are exactly those of the lines that claim their slots.

The record is made from the sorted lines, of which the first of a slot counts.
Sorting keeps the order of lines with equal starts, so both sides come down to
`Leads`, which does not depend on the order of lines that start at different
addresses.
-/
import ClassIndex.ClassInfo.LocalNames

namespace ClassIndex
namespace LocalVariable

/-- The line that names a slot. -/
def Claims (lines : List LocalVariable) (slot : UInt16) (v : LocalVariable) : Prop :=
  v.slot = slot ∧ ∃ before after, lines = before ++ v :: after ∧
    (∀ u ∈ before, u.slot = slot → v.start < u.start) ∧
    (∀ u ∈ after, u.slot = slot → v.start ≤ u.start)

/-- No line of the slot starts before `v`, and `v` is the first of those that start
with it. -/
def Leads (lines : List LocalVariable) (slot : UInt16) (v : LocalVariable) : Prop :=
  (∀ u ∈ lines, u.slot = slot → v.start ≤ u.start) ∧
    (lines.filter fun u => u.slot = slot ∧ u.start = v.start).head? = some v

theorem leads_iff {lines : List LocalVariable} {slot : UInt16} {v : LocalVariable} :
    Leads lines slot v ↔ v.slot = slot ∧ ∃ before after, lines = before ++ v :: after ∧
      (∀ u ∈ before, ¬ (u.slot = slot ∧ u.start = v.start)) ∧
      ∀ u ∈ lines, u.slot = slot → v.start ≤ u.start := by
  unfold Leads
  rw [List.head?_filter, List.find?_eq_some_iff_append]
  constructor
  · intro h
    obtain ⟨hle, hv, before, after, hlines, hbefore⟩ := h
    refine ⟨(of_decide_eq_true hv).1, before, after, hlines, ?_, hle⟩
    intro u hu
    exact of_decide_eq_false (Bool.not_eq_true' _ ▸ hbefore u hu)
  · intro h
    obtain ⟨hslot, before, after, hlines, hbefore, hle⟩ := h
    refine ⟨hle, decide_eq_true ⟨hslot, rfl⟩, before, after, hlines, ?_⟩
    intro u hu
    rw [Bool.not_eq_true']
    exact decide_eq_false (hbefore u hu)

theorem claims_iff_leads {lines : List LocalVariable} {slot : UInt16} {v : LocalVariable} :
    Claims lines slot v ↔ Leads lines slot v := by
  rw [leads_iff]
  unfold Claims
  refine and_congr_right fun _ => exists_congr fun before => exists_congr fun after => ?_
  refine and_congr_right fun hlines => ?_
  subst hlines
  constructor
  · intro h
    obtain ⟨hbefore, hafter⟩ := h
    refine ⟨fun u hu hs => absurd hs.2 ?_, fun u hu hs => ?_⟩
    · intro he
      exact UInt16.lt_irrefl _ (he ▸ hbefore u hu hs.1)
    · rcases List.mem_append.mp hu with hu | hu
      · exact UInt16.le_of_lt (hbefore u hu hs)
      · rcases List.mem_cons.mp hu with rfl | hu
        · exact UInt16.le_refl _
        · exact hafter u hu hs
  · intro h
    obtain ⟨hbefore, hle⟩ := h
    refine ⟨fun u hu hs => ?_, fun u hu hs => ?_⟩
    · have hne : v.start ≠ u.start := fun he => hbefore u hu ⟨hs, he.symm⟩
      exact UInt16.lt_of_le_of_ne (hle u (by simp [hu]) hs) hne
    · exact hle u (by simp [hu]) hs

/-- A single line of a slot at the least start there can be claims the slot. -/
theorem claims_of_filter_eq {lines : List LocalVariable} {slot : UInt16} {v : LocalVariable}
    (h : (lines.filter fun u => u.slot = slot ∧ u.start = 0) = [v]) : Claims lines slot v := by
  have hv : v ∈ lines.filter fun u => u.slot = slot ∧ u.start = 0 := by
    rw [h]
    exact List.mem_singleton_self v
  have hstart : v.start = 0 := (of_decide_eq_true (List.mem_filter.mp hv).2).2
  rw [claims_iff_leads]
  refine ⟨fun u _ _ => ?_, ?_⟩
  · rw [hstart]
    exact UInt16.zero_le
  · rw [hstart, h]
    rfl

end LocalVariable

namespace LocalNames

open LocalVariable

theorem startLe_trans (a b c : LocalVariable) (hab : decide (a.start ≤ b.start) = true)
    (hbc : decide (b.start ≤ c.start) = true) : decide (a.start ≤ c.start) = true :=
  decide_eq_true (UInt16.le_trans (of_decide_eq_true hab) (of_decide_eq_true hbc))

theorem startLe_total (a b : LocalVariable) :
    (decide (a.start ≤ b.start) || decide (b.start ≤ a.start)) = true := by
  rcases UInt16.le_total a.start b.start with h | h <;> simp [h]

/-- Lines with one and the same start keep their order. -/
theorem filter_byStart (lines : List LocalVariable) (slot start : UInt16) :
    ((byStart lines).filter fun u => u.slot = slot ∧ u.start = start) =
      lines.filter fun u => u.slot = slot ∧ u.start = start := by
  have hmem : ∀ u ∈ lines.filter (fun u => u.slot = slot ∧ u.start = start),
      u.start = start := fun u hu => (of_decide_eq_true (List.mem_filter.mp hu).2).2
  have hpair : (lines.filter fun u => u.slot = slot ∧ u.start = start).Pairwise
      (fun a b => decide (a.start ≤ b.start) = true) := by
    refine List.pairwise_of_forall_mem_list fun a ha b hb => ?_
    rw [hmem a ha, hmem b hb]
    exact decide_eq_true (UInt16.le_refl start)
  have hsub : (lines.filter fun u => u.slot = slot ∧ u.start = start).Sublist (byStart lines) :=
    List.sublist_mergeSort startLe_trans startLe_total hpair List.filter_sublist
  have hsub' := hsub.filter fun u => u.slot = slot ∧ u.start = start
  rw [List.filter_filter] at hsub'
  simp only [Bool.and_self] at hsub'
  have hperm := (List.mergeSort_perm lines fun a b => decide (a.start ≤ b.start)).filter
    fun u => decide (u.slot = slot ∧ u.start = start)
  exact (hsub'.eq_of_length hperm.length_eq.symm).symm

/-- Sorting does not change which line leads a slot. -/
theorem leads_byStart_iff {lines : List LocalVariable} {slot : UInt16} {v : LocalVariable} :
    Leads (byStart lines) slot v ↔ Leads lines slot v := by
  unfold Leads
  rw [filter_byStart]
  simp only [byStart, List.mem_mergeSort]

/-- Among sorted lines the first of a slot leads it. -/
theorem find?_byStart_eq_some_iff {lines : List LocalVariable} {slot : UInt16}
    {v : LocalVariable} : (byStart lines).find? (fun u => u.slot = slot) = some v ↔
      Leads (byStart lines) slot v := by
  have hsorted := List.pairwise_mergeSort startLe_trans startLe_total lines
  rw [leads_iff, List.find?_eq_some_iff_append, decide_eq_true_iff]
  refine and_congr_right fun _ => exists_congr fun before => exists_congr fun after => ?_
  refine and_congr_right fun hlines => ?_
  rw [show lines.mergeSort _ = byStart lines from rfl, hlines, List.pairwise_append,
    List.pairwise_cons] at hsorted
  obtain ⟨-, ⟨hafter, -⟩, hbefore⟩ := hsorted
  constructor
  · intro hnone
    have hslot : ∀ u ∈ before, u.slot ≠ slot := fun u hu => by simpa using hnone u hu
    refine ⟨fun u hu hs => hslot u hu hs.1, fun u hu hs => ?_⟩
    rw [hlines] at hu
    rcases List.mem_append.mp hu with hu | hu
    · exact absurd hs (hslot u hu)
    · rcases List.mem_cons.mp hu with rfl | hu
      · exact UInt16.le_refl _
      · exact of_decide_eq_true (hafter u hu)
  · intro h u hu
    obtain ⟨hfirst, hle⟩ := h
    have hne : u.slot ≠ slot := by
      intro hs
      have h₁ := hle u (by rw [hlines]; simp [hu]) hs
      have h₂ := of_decide_eq_true (hbefore u hu v List.mem_cons_self)
      exact hfirst u hu ⟨hs, UInt16.le_antisymm h₂ h₁⟩
    simpa using hne

theorem lookup_map_eq (lines : List LocalVariable) (slot : UInt16) :
    (lines.map fun line => (line.slot, line.name)).lookup slot =
      (lines.find? fun u => u.slot = slot).map LocalVariable.name := by
  induction lines with
  | nil => rfl
  | cons v lines ih =>
    rw [List.map_cons, List.lookup_cons, List.find?_cons, ih]
    by_cases h : v.slot = slot
    · simp [h]
    · simp [h, beq_eq_false_iff_ne.mpr (Ne.symm h)]

/-- The names recorded are those of the lines that claim their slots. -/
theorem get?_ofVariables {lines : List LocalVariable} {slot : UInt16} {name : String} :
    (ofVariables lines).get? slot = some name ↔ ∃ v, Claims lines slot v ∧ v.name = name := by
  unfold ofVariables
  rw [Table.get?_ofList, lookup_map_eq, Option.map_eq_some_iff]
  simp only [find?_byStart_eq_some_iff, leads_byStart_iff, claims_iff_leads]

end LocalNames
end ClassIndex

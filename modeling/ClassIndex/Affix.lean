/-
Cutting a known beginning or ending off a list.
-/

namespace ClassIndex
namespace Affix

variable {α : Type} [DecidableEq α]

/-- What follows a beginning, for a list that has it. -/
def after? : List α → List α → Option (List α)
  | [], l => some l
  | _ :: _, [] => none
  | a :: front, b :: l => if a = b then after? front l else none

/-- What precedes an ending, for a list that has it. -/
def before? (ending l : List α) : Option (List α) :=
  (after? ending.reverse l.reverse).map List.reverse

theorem after?_eq_some_iff {front l rest : List α} :
    after? front l = some rest ↔ l = front ++ rest := by
  induction front generalizing l with
  | nil => simp [after?]
  | cons a front ih =>
    cases l with
    | nil => simp [after?]
    | cons b l =>
      by_cases h : a = b
      · simp [after?, h, ih]
      · simp [after?, h, Ne.symm h]

@[simp] theorem after?_append (front rest : List α) : after? front (front ++ rest) = some rest :=
  after?_eq_some_iff.mpr rfl

theorem before?_eq_some_iff {ending l stem : List α} :
    before? ending l = some stem ↔ l = stem ++ ending := by
  unfold before?
  rw [Option.map_eq_some_iff]
  constructor
  · rintro ⟨r, hr, rfl⟩
    rw [after?_eq_some_iff] at hr
    rw [← List.reverse_reverse l, hr, List.reverse_append, List.reverse_reverse]
  · rintro rfl
    exact ⟨stem.reverse, by simp, List.reverse_reverse stem⟩

@[simp] theorem before?_append (stem ending : List α) :
    before? ending (stem ++ ending) = some stem :=
  before?_eq_some_iff.mpr rfl

/-- A list has a beginning exactly when it can be cut off. -/
theorem isSome_after?_iff {front l : List α} : (after? front l).isSome ↔ front <+: l := by
  rw [Option.isSome_iff_exists]
  constructor
  · rintro ⟨rest, h⟩
    exact ⟨rest, (after?_eq_some_iff.mp h).symm⟩
  · rintro ⟨rest, h⟩
    exact ⟨rest, after?_eq_some_iff.mpr h.symm⟩

/-- A list has an ending exactly when it can be cut off. -/
theorem isSome_before?_iff {ending l : List α} : (before? ending l).isSome ↔ ending <:+ l := by
  rw [Option.isSome_iff_exists]
  constructor
  · rintro ⟨stem, h⟩
    exact ⟨stem, (before?_eq_some_iff.mp h).symm⟩
  · rintro ⟨stem, h⟩
    exact ⟨stem, before?_eq_some_iff.mpr h.symm⟩

end Affix
end ClassIndex

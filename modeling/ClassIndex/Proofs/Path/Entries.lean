/-
Paths that lead through directories.

The name of an entry is a name and no more: it has no slash in it and is not skipped.
Entries that lie one in the other come to one path below the first directory
(`descend_eq_join`), and the parent of such a path is the directory above it as it was
spelled (`parent_descend_concat`).  Only an entry of the first directory itself has
another parent: the directory up to what is skipped at its end (`parent_join`), where a
slash at the end makes no difference (`kept_append_slashes`).
-/
import ClassIndex.Proofs.Path.Below

namespace ClassIndex
namespace Path

/-- What an entry of a directory can be called. -/
def IsName (name : List UInt8) : Prop :=
  slash ∉ name ∧ isTrivial name = false ∧ name ≠ [dot, dot]

instance {name : List UInt8} : Decidable (IsName name) :=
  inferInstanceAs (Decidable (_ ∧ _ ∧ _))

variable {root : Path} {name last front : List UInt8} {names : List (List UInt8)}

theorem IsName.isPlain (h : IsName name) : (⟨name⟩ : Path).IsPlain :=
  isPlain_single h.1 h.2.1 h.2.2

theorem isName_of_isPlain (hslash : slash ∉ name) (h : (⟨name⟩ : Path).IsPlain) : IsName name := by
  have hsteps : (⟨name⟩ : Path).steps = [name] := steps_of_not_mem hslash
  exact ⟨hslash, h name (by rw [hsteps]; exact List.mem_cons_self)⟩

theorem IsName.ne_nil (h : IsName name) : name ≠ [] :=
  ne_nil_of_isTrivial h.2.1

/-! ## The parent of an entry -/

theorem kept_concat_slash (h : front ≠ []) :
    (⟨front ++ [slash]⟩ : Path).kept = (⟨front⟩ : Path).kept := by
  have hsplit : (below ⟨front⟩ ⟨[]⟩).split = _ := split_below h
  rw [kept, show (⟨front ++ [slash]⟩ : Path) = below ⟨front⟩ ⟨[]⟩ from rfl, hsplit,
    List.splitOn_append_cons_self]
  show (⟨_ ++ List.intercalate [slash] (trim (_ ++ [[]]))⟩ : Path) = _
  rw [trim_append_of_isTrivial rfl]
  rfl

/-- Slashes at the end of a path are skipped. -/
theorem kept_append_slashes (h : front ≠ []) (k : Nat) :
    (⟨front ++ List.replicate k slash⟩ : Path).kept = (⟨front⟩ : Path).kept := by
  induction k with
  | zero => rw [List.replicate_zero, List.append_nil]
  | succ k ih =>
    rw [List.replicate_succ', ← List.append_assoc,
      kept_concat_slash (List.append_ne_nil_of_left_ne_nil h _), ih]

/-- Something is kept of every path but the empty one. -/
theorem kept_ne_nil (h : root.bytes ≠ []) : root.kept.bytes ≠ [] := by
  obtain ⟨bytes⟩ := root
  induction hlength : bytes.length using Nat.strongRecOn generalizing bytes with
  | _ length ih =>
    by_cases hslash : bytes.getLast? = some slash
    · obtain ⟨front, rfl⟩ := List.getLast?_eq_some_iff.mp hslash
      by_cases hfront : front = []
      · subst hfront
        exact List.cons_ne_nil slash []
      · rw [kept_concat_slash hfront]
        exact ih front.length (by rw [← hlength, List.length_append]; simp) front hfront rfl
    · by_cases hdot : [slash, dot] <:+ bytes
      · obtain ⟨front, rfl⟩ := hdot
        by_cases hfront : front = []
        · subst hfront
          exact List.cons_ne_nil slash []
        · rw [kept_concat_dot hfront]
          exact ih front.length (by rw [← hlength, List.length_append]; simp) front hfront rfl
      · rw [kept_eq h hslash hdot]
        exact h

theorem parent_slash_cons (h : IsName last) :
    (⟨slash :: last⟩ : Path).parent = some ⟨[slash]⟩ := by
  have hbody : (⟨slash :: last⟩ : Path).body = [] ++ [last] := by
    rw [body, split_slash, List.splitOn_eq_singleton h.1, ← List.nil_append [last]]
    exact trim_append_of_not_isTrivial h.2.1
  rw [parent_eq_of_body hbody, split_slash]
  rfl

/-- The parent of an entry is the directory up to what is skipped at its end. -/
theorem parent_join (h : IsName last) : (root.join last).parent = some root.kept := by
  unfold join
  split
  · next hends =>
    by_cases hroot : root.bytes = []
    · obtain ⟨bytes⟩ := root
      subst hroot
      exact h.isPlain.parent_single h.1
    · simp only [hroot, decide_false, Bool.false_or, decide_eq_true_eq] at hends
      obtain ⟨front, hfront⟩ := List.getLast?_eq_some_iff.mp hends
      obtain ⟨bytes⟩ := root
      subst hfront
      by_cases hnil : front = []
      · subst hnil
        exact parent_slash_cons h
      · rw [kept_concat_slash hnil, List.append_assoc]
        exact parent_below_single hnil h.1 h.isPlain
  · next hends =>
    have hroot : root.bytes ≠ [] := fun hnil => hends (by simp [hnil])
    exact parent_below_single hroot h.1 h.isPlain

/-! ## Entries one in the other -/

theorem descend_concat (dir : Path) (names : List (List UInt8)) (last : List UInt8) :
    dir.descend (names ++ [last]) = (dir.descend names).join last := by
  rw [descend, descend, List.foldl_concat]

theorem exists_bytes_join (root : Path) (last : List UInt8) :
    ∃ gap, (root.join last).bytes = root.bytes ++ (gap ++ last) := by
  unfold join
  split
  · exact ⟨[], rfl⟩
  · exact ⟨[slash], rfl⟩

theorem exists_bytes_descend (root : Path) (names : List (List UInt8)) :
    ∃ rest, (root.descend names).bytes = root.bytes ++ rest := by
  induction names generalizing root with
  | nil => exact ⟨[], (List.append_nil _).symm⟩
  | cons name names ih =>
    obtain ⟨gap, hgap⟩ := exists_bytes_join root name
    obtain ⟨rest, hrest⟩ := ih (root.join name)
    refine ⟨gap ++ name ++ rest, ?_⟩
    rw [descend_cons, hrest, hgap, List.append_assoc]

theorem getLast?_append_ne (h : IsName last) : (front ++ last).getLast? ≠ some slash := by
  rw [List.getLast?_append, List.getLast?_eq_some_getLast h.ne_nil, Option.some_or]
  intro hlast
  exact h.1 (Option.some.inj hlast ▸ List.getLast_mem h.ne_nil)

/-- A component `.` at the end is all of the last name. -/
theorem eq_dot_of_suffix (h : [slash, dot] <:+ front ++ last) (hslash : slash ∉ last)
    (hne : last ≠ []) : last = [dot] := by
  obtain ⟨before, hbefore⟩ := h
  rcases List.append_eq_append_iff.mp hbefore with ⟨mid, -, hmid⟩ | ⟨mid, -, hlast⟩
  · cases mid with
    | nil =>
      rw [List.nil_append] at hmid
      exact absurd (hmid ▸ List.mem_cons_self) hslash
    | cons a mid =>
      obtain ⟨-, hrest⟩ := List.cons.inj hmid
      cases mid with
      | nil => exact hrest.symm
      | cons b mid =>
        obtain ⟨-, hnil⟩ := List.cons.inj hrest
        exact absurd (List.append_eq_nil_iff.mp hnil.symm).2 hne
  · rw [hlast] at hslash
    exact absurd (List.mem_append_right _ List.mem_cons_self) hslash

/-- A path that ends in a name ends neither in a slash nor in a component `.`. -/
theorem kept_join (h : IsName last) : (root.join last).kept = root.join last ∧
    (root.join last).bytes ≠ [] ∧ (root.join last).bytes.getLast? ≠ some slash := by
  obtain ⟨gap, hbytes⟩ := exists_bytes_join root last
  rw [← List.append_assoc] at hbytes
  have hne : (root.join last).bytes ≠ [] := by
    rw [hbytes]
    exact List.append_ne_nil_of_right_ne_nil _ h.ne_nil
  have hslash : (root.join last).bytes.getLast? ≠ some slash := by
    rw [hbytes]
    exact getLast?_append_ne h
  refine ⟨kept_eq hne hslash fun hdot => ?_, hne, hslash⟩
  rw [hbytes] at hdot
  have hlast := eq_dot_of_suffix hdot h.1 h.ne_nil
  rw [hlast] at h
  exact absurd h.2.1 (by decide)

theorem kept_descend_concat (root : Path) (names : List (List UInt8)) (h : IsName last) :
    (root.descend (names ++ [last])).kept = root.descend (names ++ [last]) ∧
      (root.descend (names ++ [last])).bytes ≠ [] ∧
      (root.descend (names ++ [last])).bytes.getLast? ≠ some slash := by
  rw [descend_concat]
  exact kept_join h

/-- Names taken one after the other come to one path. -/
theorem descend_eq_join (hne : names ≠ []) (hnames : ∀ name ∈ names, IsName name) :
    root.descend names = root.join (List.intercalate [slash] names) := by
  induction names using List.reverseRecOn with
  | nil => exact absurd rfl hne
  | append_singleton front last ih =>
    rw [descend_concat]
    by_cases hfront : front = []
    · subst hfront
      rw [List.nil_append, List.intercalate_singleton]
      rfl
    · have hplain : ∀ name ∈ front, IsName name := fun name hmem =>
        hnames name (List.mem_append_left _ hmem)
      obtain ⟨outer, inner, rfl⟩ := (List.eq_nil_or_concat' front).resolve_left hfront
      obtain ⟨-, hbytes, hslash⟩ := kept_descend_concat root outer
        (hplain inner (List.mem_append_right _ List.mem_cons_self))
      rw [intercalate_concat hfront, join_nested, ← ih hfront hplain, join_eq hbytes hslash]

/-- The parent of an entry in a directory further down is that directory as it is
spelled. -/
theorem parent_descend_concat (hne : names ≠ []) (hnames : ∀ name ∈ names, IsName name)
    (hlast : IsName last) :
    (root.descend (names ++ [last])).parent = some (root.descend names) := by
  obtain ⟨front, inner, rfl⟩ := (List.eq_nil_or_concat' names).resolve_left hne
  have hinner := hnames inner (List.mem_append_right _ List.mem_cons_self)
  rw [descend_concat, parent_join hlast, (kept_descend_concat root front hinner).1]

end Path
end ClassIndex

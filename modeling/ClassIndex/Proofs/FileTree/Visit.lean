/-
What a visit comes upon.

A visit to a directory comes upon the entries below it that are no directories
themselves, each under the path that leads to it (`mem_entries_visit_iff`), unless some
directory on the way has too long a path to be listed (`closed?_visit_eq_none_iff`).
-/
import ClassIndex.FileTree
import Mathlib

namespace ClassIndex

/-- The path that names lead to from a directory. -/
def Path.descend (dir : Path) (names : List (List UInt8)) : Path :=
  names.foldl Path.join dir

theorem Path.descend_cons (dir : Path) (name : List UInt8) (names : List (List UInt8)) :
    dir.descend (name :: names) = (dir.join name).descend names := rfl

namespace Listing

/-- The names that lead to each entry that is no directory. -/
def filePaths : Listing → List (List (List UInt8))
  | [] => []
  | (name, .directory sub) :: rest => (filePaths sub).map (name :: ·) ++ filePaths rest
  | (name, _) :: rest => [name] :: filePaths rest

/-- The names that lead to each directory. -/
def directoryPaths : Listing → List (List (List UInt8))
  | [] => []
  | (name, .directory sub) :: rest =>
    [name] :: (directoryPaths sub).map (name :: ·) ++ directoryPaths rest
  | _ :: rest => directoryPaths rest

/-! ## A visit, entry by entry -/

variable {dir : Path} {name : List UInt8} {node : Node} {sub rest : Listing} {sight : Sight}

theorem mem_visit_cons_directory : sight ∈ visit dir ((name, .directory sub) :: rest) ↔
    sight ∈ (if (dir.join name).isTooLong then [.closed (dir.join name)]
      else visit (dir.join name) sub) ∨ sight ∈ visit dir rest := by
  have hown : own dir ((name, .directory sub) :: rest) = own dir rest := rfl
  rw [visit, hown, nested, List.mem_append, List.mem_append, visit, visit, List.mem_append,
    ← or_assoc]
  exact Or.comm

theorem mem_visit_cons_file (hnode : ∀ sub, node ≠ .directory sub) :
    sight ∈ visit dir ((name, node) :: rest) ↔
      sight = .entry (dir.join name) ∨ sight ∈ visit dir rest := by
  have hvisit : visit dir ((name, node) :: rest) = .entry (dir.join name) :: visit dir rest := by
    cases node with
    | directory sub => exact absurd rfl (hnode sub)
    | file content => simp [visit, own, nested, Node.isDirectory]
    | link target => simp [visit, own, nested, Node.isDirectory]
  rw [hvisit, List.mem_cons]

/-! ## A visit as a whole -/

theorem exists_of_entry_mem_visit {path : Path} (l : Listing) (h : .entry path ∈ visit dir l) :
    ∃ names ∈ l.filePaths, path = dir.descend names := by
  fun_induction filePaths l generalizing dir with
  | case1 =>
    rw [visit, nested] at h
    cases h
  | case2 name sub rest ihsub ihrest =>
    rcases mem_visit_cons_directory.mp h with h | h
    · split at h
      · rw [List.mem_singleton] at h
        cases h
      · obtain ⟨names, hnames, hpath⟩ := ihsub h
        refine ⟨name :: names, List.mem_append_left _ (List.mem_map_of_mem hnames), ?_⟩
        rw [Path.descend_cons]
        exact hpath
    · obtain ⟨names, hnames, hpath⟩ := ihrest h
      exact ⟨names, List.mem_append_right _ hnames, hpath⟩
  | case3 name node rest hnode ih =>
    rcases (mem_visit_cons_file hnode).mp h with h | h
    · cases h
      exact ⟨[name], List.mem_cons_self, rfl⟩
    · obtain ⟨names, hnames, hpath⟩ := ih h
      exact ⟨names, List.mem_cons_of_mem _ hnames, hpath⟩

/-- All directories below one can be listed. -/
def AllShort (dir : Path) (l : Listing) : Prop :=
  ∀ names ∈ l.directoryPaths, (dir.descend names).isTooLong = false

theorem allShort_cons_directory : AllShort dir ((name, .directory sub) :: rest) ↔
    (dir.join name).isTooLong = false ∧ AllShort (dir.join name) sub ∧ AllShort dir rest := by
  unfold AllShort
  rw [directoryPaths, List.cons_append, List.forall_mem_cons, List.forall_mem_append,
    List.forall_mem_map]
  exact Iff.rfl

theorem allShort_cons_file (hnode : ∀ sub, node ≠ .directory sub) :
    AllShort dir ((name, node) :: rest) ↔ AllShort dir rest := by
  have hpaths : directoryPaths ((name, node) :: rest) = directoryPaths rest := by
    cases node with
    | directory sub => exact absurd rfl (hnode sub)
    | file content => rw [directoryPaths]; nofun
    | link target => rw [directoryPaths]; nofun
  rw [AllShort, hpaths]
  exact Iff.rfl

theorem entry_mem_visit {names : List (List UInt8)} (l : Listing) (hshort : AllShort dir l)
    (h : names ∈ l.filePaths) : .entry (dir.descend names) ∈ visit dir l := by
  fun_induction filePaths l generalizing dir names with
  | case1 => cases h
  | case2 name sub rest ihsub ihrest =>
    obtain ⟨hname, hsub, hrest⟩ := allShort_cons_directory.mp hshort
    rw [mem_visit_cons_directory, if_neg (by rw [hname]; decide)]
    rcases List.mem_append.mp h with h | h
    · obtain ⟨names, hnames, rfl⟩ := List.mem_map.mp h
      exact Or.inl (ihsub hsub hnames)
    · exact Or.inr (ihrest hrest h)
  | case3 name node rest hnode ih =>
    rw [mem_visit_cons_file hnode]
    rcases List.mem_cons.mp h with rfl | h
    · exact Or.inl rfl
    · exact Or.inr (ih ((allShort_cons_file hnode).mp hshort) h)

theorem closed?_visit_eq_none_iff (l : Listing) :
    Sight.closed? (visit dir l) = none ↔ AllShort dir l := by
  rw [Sight.closed?_eq_none_iff]
  induction l using filePaths.induct generalizing dir with
  | case1 =>
    rw [visit, nested]
    refine iff_of_true (fun _ => List.not_mem_nil) fun names h => ?_
    rw [directoryPaths] at h
    cases h
  | case2 name sub rest ihsub ihrest =>
    rw [allShort_cons_directory, ← ihsub, ← ihrest]
    simp only [mem_visit_cons_directory, not_or, forall_and]
    refine and_assoc.symm.trans (and_congr_left' ?_) |>.symm
    cases hlong : (dir.join name).isTooLong <;> simp
  | case3 name node rest hnode ih =>
    rw [allShort_cons_file hnode, ← ih]
    refine forall_congr' fun path => not_congr ?_
    have hother : Sight.closed path ≠ .entry (dir.join name) := by
      intro h
      cases h
    rw [mem_visit_cons_file hnode, or_iff_right hother]

/-- With every directory open, a visit comes upon every file. -/
theorem mem_entries_visit_iff {path : Path} {l : Listing} (hshort : AllShort dir l) :
    path ∈ Sight.entries (visit dir l) ↔ ∃ names ∈ l.filePaths, path = dir.descend names := by
  have hmem : path ∈ Sight.entries (visit dir l) ↔ .entry path ∈ visit dir l := by
    have hall := Sight.map_entry_entries ((closed?_visit_eq_none_iff l).mpr hshort)
    conv => rhs; rw [← hall]
    rw [List.mem_map]
    constructor
    · intro h
      exact ⟨path, h, rfl⟩
    · rintro ⟨path', h, hpath⟩
      cases hpath
      exact h
  rw [hmem]
  constructor
  · exact exists_of_entry_mem_visit l
  · rintro ⟨names, hnames, rfl⟩
    exact entry_mem_visit l hshort hnames

end Listing
end ClassIndex

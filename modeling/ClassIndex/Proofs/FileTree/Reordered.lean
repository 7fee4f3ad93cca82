/-
Directories listed in another order.

The system lists a directory in any order it likes, and the directories in it as well
(`Reordered`).  The order shows in no set of paths: the same files lie at the same paths
(`Reordered.perm_filePaths`), and the same directories can be listed
(`Reordered.allShort_iff`).
-/
import ClassIndex.Proofs.FileTree.Visit

namespace ClassIndex
namespace Listing

/-- The same entries in another order, in a directory and in those below it. -/
inductive Reordered : Listing → Listing → Prop
  | perm {l m : Listing} (h : l.Perm m) : Reordered l m
  | inside {name : List UInt8} {sub sub' rest : Listing} (h : Reordered sub sub') :
    Reordered ((name, .directory sub) :: rest) ((name, .directory sub') :: rest)
  | trans {l m n : Listing} (h : Reordered l m) (h' : Reordered m n) : Reordered l n

/-! ## Entry by entry -/

theorem filePaths_cons (e : List UInt8 × Node) (rest : Listing) :
    filePaths (e :: rest) = filePaths [e] ++ filePaths rest := by
  obtain ⟨name, node⟩ := e
  cases node with
  | directory sub => simp [filePaths]
  | file content => simp [filePaths]
  | link target => simp [filePaths]

theorem filePaths_eq_flatMap (l : Listing) : l.filePaths = l.flatMap fun e => filePaths [e] := by
  induction l with
  | nil => rw [filePaths, List.flatMap_nil]
  | cons e rest ih => rw [filePaths_cons, List.flatMap_cons, ih]

theorem directoryPaths_cons (e : List UInt8 × Node) (rest : Listing) :
    directoryPaths (e :: rest) = directoryPaths [e] ++ directoryPaths rest := by
  obtain ⟨name, node⟩ := e
  cases node with
  | directory sub => simp [directoryPaths]
  | file content => simp [directoryPaths]
  | link target => simp [directoryPaths]

theorem directoryPaths_eq_flatMap (l : Listing) :
    l.directoryPaths = l.flatMap fun e => directoryPaths [e] := by
  induction l with
  | nil => rw [directoryPaths, List.flatMap_nil]
  | cons e rest ih => rw [directoryPaths_cons, List.flatMap_cons, ih]

/-! ## In another order -/

variable {l m : Listing}

theorem Reordered.symm (h : Reordered l m) : Reordered m l := by
  induction h with
  | perm h => exact .perm h.symm
  | inside _ ih => exact .inside ih
  | trans _ _ ih ih' => exact ih'.trans ih

theorem Reordered.perm_filePaths (h : Reordered l m) : l.filePaths.Perm m.filePaths := by
  induction h with
  | perm h =>
    rw [filePaths_eq_flatMap, filePaths_eq_flatMap]
    exact h.flatMap_right _
  | inside _ ih =>
    rw [filePaths, filePaths]
    exact (ih.map _).append_right _
  | trans _ _ ih ih' => exact ih.trans ih'

theorem Reordered.perm_directoryPaths (h : Reordered l m) :
    l.directoryPaths.Perm m.directoryPaths := by
  induction h with
  | perm h =>
    rw [directoryPaths_eq_flatMap, directoryPaths_eq_flatMap]
    exact h.flatMap_right _
  | inside _ ih =>
    rw [directoryPaths, directoryPaths]
    exact ((ih.map _).cons _).append_right _
  | trans _ _ ih ih' => exact ih.trans ih'

theorem Reordered.allShort_iff (h : Reordered l m) (dir : Path) :
    l.AllShort dir ↔ m.AllShort dir := by
  unfold AllShort
  simp only [h.perm_directoryPaths.mem_iff]

end Listing
end ClassIndex

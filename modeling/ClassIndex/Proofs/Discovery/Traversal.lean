/-
Visits as traversals.

Discovery lists a directory once and takes what lies below from the listing.  The system
is asked for one directory after the other instead: those that are still to be listed stand
on a stack, each by its whole path (`Traversal`).  In a tree that the system could show, with
possible and distinct names in each directory (`isWellNamed`), both come upon the same
things in the same order (`traversal_visit`), so that discovery takes in what a traversal
comes upon (`directory_of_traversal`).
-/
import ClassIndex.Discovery
import ClassIndex.Proofs.FileTree.Following

namespace ClassIndex

namespace Listing

/-- The paths of a directory's own subdirectories. -/
def subdirectories (dir : Path) (l : Listing) : List Path :=
  l.filterMap fun e => if e.2.isDirectory then some (dir.join e.1) else none

variable {dir : Path} {name : List UInt8} {node : Node} {rest : Listing}

theorem subdirectories_cons_directory (sub : Listing) :
    subdirectories dir ((name, .directory sub) :: rest) =
      dir.join name :: subdirectories dir rest := rfl

theorem subdirectories_cons_file (hnode : ∀ sub, node ≠ .directory sub) :
    subdirectories dir ((name, node) :: rest) = subdirectories dir rest := by
  cases node with
  | directory sub => exact absurd rfl (hnode sub)
  | file content => rfl
  | link target => rfl

/-- The system allows all names in a listing and in those below it, and no two entries of a
directory have the same. -/
def isWellNamed : Listing → Bool
  | [] => true
  | (name, .directory sub) :: rest =>
    decide (FileTree.IsFileName name) && !(rest.map Prod.fst).contains name &&
      isWellNamed sub && isWellNamed rest
  | (name, _) :: rest =>
    decide (FileTree.IsFileName name) && !(rest.map Prod.fst).contains name && isWellNamed rest

variable {l sub : Listing} {e : List UInt8 × Node}

theorem isWellNamed_cons : isWellNamed (e :: rest) = true ↔
    FileTree.IsFileName e.1 ∧ e.1 ∉ rest.map Prod.fst ∧
      (∀ sub, e.2 = .directory sub → isWellNamed sub = true) ∧ isWellNamed rest = true := by
  obtain ⟨name, node⟩ := e
  cases node with
  | directory sub => simp [isWellNamed, and_assoc]
  | file content => simp [isWellNamed, and_assoc]
  | link target => simp [isWellNamed, and_assoc]

/-- Each entry is the one under its name. -/
theorem lookup_of_mem (h : l.isWellNamed = true) (he : e ∈ l) : l.lookup e.1 = some e.2 := by
  induction l with
  | nil => cases he
  | cons first rest ih =>
    obtain ⟨-, hdistinct, -, hrest⟩ := isWellNamed_cons.mp h
    rw [List.lookup_cons]
    rcases List.mem_cons.mp he with rfl | he
    · rw [BEq.rfl]
    · have hne : e.1 ≠ first.1 := fun hfst => hdistinct (hfst ▸ List.mem_map_of_mem he)
      rw [beq_false_of_ne hne]
      exact ih hrest he

theorem exists_isWellNamed_cons (h : l.isWellNamed = true) (he : e ∈ l) :
    ∃ rest, isWellNamed (e :: rest) = true := by
  induction l with
  | nil => cases he
  | cons first rest ih =>
    rcases List.mem_cons.mp he with rfl | he
    · exact ⟨rest, h⟩
    · exact ih (isWellNamed_cons.mp h).2.2.2 he

theorem isFileName_of_mem (h : l.isWellNamed = true) (he : e ∈ l) :
    FileTree.IsFileName e.1 := by
  obtain ⟨rest, hrest⟩ := exists_isWellNamed_cons h he
  exact (isWellNamed_cons.mp hrest).1

theorem isWellNamed_of_mem (h : l.isWellNamed = true) (he : (name, .directory sub) ∈ l) :
    sub.isWellNamed = true := by
  obtain ⟨rest, hrest⟩ := exists_isWellNamed_cons h he
  exact (isWellNamed_cons.mp hrest).2.2.1 sub rfl

/-- Every directory further down is well named, too. -/
theorem isWellNamed_of_at? {place : Place} (h : l.isWellNamed = true)
    (hplace : l.at? place = some (.directory sub)) : sub.isWellNamed = true := by
  induction place generalizing l with
  | nil =>
    cases hplace
    exact h
  | cons name names ih =>
    rw [at?] at hplace
    split at hplace
    · next below hbelow =>
      obtain ⟨before, after, rfl, -⟩ := List.lookup_eq_some_iff.mp hbelow
      exact ih (isWellNamed_of_mem h (List.mem_append_right _ List.mem_cons_self)) hplace
    · next node hnode hname =>
      split at hplace
      · cases hplace
        exact absurd rfl (hnode sub)
      · cases hplace
    · cases hplace

end Listing

/-! ## Up to a closed directory -/

namespace Sight

/-- What is come upon up to the first directory that cannot be listed. -/
def upTo : List Sight → List Sight
  | [] => []
  | entry path :: rest => entry path :: upTo rest
  | closed directory :: _ => [closed directory]

theorem entries_upTo (met : List Sight) : entries (upTo met) = entries met := by
  induction met with
  | nil => rfl
  | cons sight rest ih =>
    cases sight with
    | entry path => rw [upTo, entries, entries, ih]
    | closed directory => rfl

theorem closed?_upTo (met : List Sight) : closed? (upTo met) = closed? met := by
  induction met with
  | nil => rfl
  | cons sight rest ih =>
    cases sight with
    | entry path => rw [upTo, closed?, closed?, ih]
    | closed directory => rfl

theorem upTo_own_append (dir : Path) (l : Listing) (met : List Sight) :
    upTo (l.own dir ++ met) = l.own dir ++ upTo met := by
  induction l with
  | nil => rfl
  | cons e rest ih =>
    rw [Listing.own] at ih ⊢
    cases hdirectory : e.2.isDirectory with
    | true => simpa [hdirectory] using ih
    | false => simpa [hdirectory, upTo] using ih

end Sight

/-! ## Traversals -/

namespace FileTree

/-- What is come upon from a stack of directories.  The one on top is taken off the stack
and listed by its path, and its own subdirectories are put on, the last one listed on top.
The first directory with too long a path is the end. -/
inductive Traversal (t : FileTree) : List Path → List Sight → Prop
  | done : Traversal t [] []
  | listed {dir : Path} {l : Listing} {stack : List Path} {met : List Sight}
    (hlist : t.list dir = .ok l)
    (h : Traversal t ((l.subdirectories dir).reverse ++ stack) met) :
    Traversal t (dir :: stack) (l.own dir ++ met)
  | closed {dir : Path} {stack : List Path} (hlist : t.list dir = .error .nameTooLong) :
    Traversal t (dir :: stack) [.closed dir]

variable {t : FileTree} {dir root : Path} {l sub : Listing} {stack : List Path}
  {met met' : List Sight}

theorem Traversal.unique (h : Traversal t stack met) (h' : Traversal t stack met') :
    met = met' := by
  induction h generalizing met' with
  | done =>
    cases h'
    rfl
  | listed hlist h ih =>
    cases h' with
    | listed hlist' h' =>
      rw [hlist] at hlist'
      cases hlist'
      rw [ih h']
    | closed hlist' =>
      rw [hlist] at hlist'
      cases hlist'
  | closed hlist =>
    cases h' with
    | listed hlist' h' =>
      rw [hlist] at hlist'
      cases hlist'
    | closed hlist' => rfl

/-- The step: a directory in a listed one, by its path. -/
theorem list_join_of_mem (ht : t.top.isWellNamed = true) (hlist : t.list dir = .ok l)
    {name : List UInt8} (hmem : (name, .directory sub) ∈ l) :
    t.list (dir.join name) =
      if (dir.join name).isTooLong then .error .nameTooLong else .ok sub := by
  obtain ⟨place, -, hplace⟩ := find_eq_ok_iff.mp (list_eq_ok_iff.mp hlist)
  have hl : l.isWellNamed = true := Listing.isWellNamed_of_at? ht hplace
  exact list_join hlist (Listing.isFileName_of_mem hl hmem) (Listing.lookup_of_mem hl hmem)

/-- The run, for a part of a listed directory: its subdirectories come before whatever else
is on the stack. -/
theorem traversal_nested (ht : t.top.isWellNamed = true) (part : Listing)
    (hlist : t.list dir = .ok l) (hpart : ∀ e ∈ part, e ∈ l)
    (h : Traversal t stack (Sight.upTo met)) :
    Traversal t ((part.subdirectories dir).reverse ++ stack)
      (Sight.upTo (part.nested dir ++ met)) := by
  induction part using Listing.filePaths.induct generalizing dir l stack met with
  | case1 =>
    rw [Listing.nested]
    exact h
  | case2 name sub rest ihsub ihrest =>
    obtain ⟨hfirst, hrest⟩ := List.forall_mem_cons.mp hpart
    have hjoin := list_join_of_mem ht hlist hfirst
    rw [Listing.subdirectories_cons_directory, List.reverse_cons, List.append_assoc,
      Listing.nested, List.append_assoc]
    refine ihrest hlist hrest ?_
    split at hjoin
    · next hlong =>
      rw [if_pos hlong]
      exact .closed hjoin
    · next hlength =>
      rw [if_neg hlength, List.append_assoc, Sight.upTo_own_append]
      exact .listed hjoin (ihsub hjoin (fun e he => he) h)
  | case3 name node rest hnode ih =>
    obtain ⟨-, hrest⟩ := List.forall_mem_cons.mp hpart
    have hnested : Listing.nested dir ((name, node) :: rest) = Listing.nested dir rest := by
      rw [Listing.nested]
      intro name' sub hentry
      exact hnode sub (Prod.mk.inj hentry).2
    rw [Listing.subdirectories_cons_file hnode, hnested]
    exact ih hlist hrest h

/-- From a directory, a traversal comes upon what a visit to its listing does, up to a
directory that cannot be listed. -/
theorem traversal_visit (ht : t.top.isWellNamed = true) (hlist : t.list root = .ok l) :
    Traversal t [root] (Sight.upTo (l.visit root)) := by
  have hnested : Traversal t ((l.subdirectories root).reverse ++ [])
      (Sight.upTo (l.nested root ++ [])) :=
    traversal_nested ht l hlist (fun e he => he) .done
  rw [List.append_nil (l.nested root)] at hnested
  rw [Listing.visit, Sight.upTo_own_append]
  exact .listed hlist hnested

/-- Of two directories the one listed last comes first. -/
example :
    let l : Listing := [(Utf8.bytesOf "a", .directory [(Utf8.bytesOf "A.class", .file [])]),
      (Utf8.bytesOf "b", .directory [(Utf8.bytesOf "B.class", .file [])])]
    (ofEntries l).Traversal [.ofString "/tmp/work"]
      [.entry (.ofString "/tmp/work/b/B.class"), .entry (.ofString "/tmp/work/a/A.class")] := by
  intro l
  have hvisit : Sight.upTo (l.visit (.ofString "/tmp/work")) =
      [.entry (.ofString "/tmp/work/b/B.class"), .entry (.ofString "/tmp/work/a/A.class")] := by
    cbv
  rw [← hvisit]
  exact traversal_visit (by cbv) (by cbv)

end FileTree

namespace Discovery

variable {s : Settings} {root : Path}

theorem sights_upTo (met : List Sight) (index : Index) :
    sights s root (Sight.upTo met) index = sights s root met index := by
  rw [sights, sights, Sight.entries_upTo, Sight.closed?_upTo]

/-- Discovery in a directory takes in what a traversal from it comes upon. -/
theorem directory_of_traversal {tree : FileTree} {met : List Sight}
    (ht : tree.top.isWellNamed = true) (h : tree.Traversal [root] met) (index : Index) :
    directory s tree root index = sights s root met index := by
  cases hlist : tree.list root with
  | ok l =>
    rw [h.unique (FileTree.traversal_visit ht hlist), sights_upTo, directory, hlist]
  | error e =>
    cases h with
    | listed hlist' h =>
      rw [hlist] at hlist'
      cases hlist'
    | closed hlist' =>
      rw [directory, hlist']
      rfl

end Discovery
end ClassIndex

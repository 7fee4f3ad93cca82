/-
What a directory fails for in its layout.

A type whose name can be read off its path has a package, too, or lies directly in a root
that ends in a component `.` (`Layout.eq_nil_of_package_eq_error`).  A directory therefore
fails for its layout at a function or at a type without a name, but for such a root
(`exists_of_directory_eq_error_layout`), at which the reading of packages goes wrong
(`package_lost_in_dotted_root`).
-/
import ClassIndex.Proofs.Discovery.ListingOrder
import ClassIndex.Proofs.Discovery.Runs
import ClassIndex.Proofs.Layout.Packages

namespace ClassIndex

theorem Sight.entry_mem_of_mem_entries {path : Path} {met : List Sight} (h : path ∈ entries met) :
    entry path ∈ met := by
  fun_induction entries met with
  | case1 path' rest ih =>
    rcases List.mem_cons.mp h with rfl | h
    · exact List.mem_cons_self
    · exact List.mem_cons_of_mem _ (ih h)
  | case2 => cases h

theorem Listing.ne_nil_of_mem_filePaths {l : Listing} {names : List (List UInt8)}
    (h : names ∈ l.filePaths) : names ≠ [] := by
  fun_induction filePaths l with
  | case1 => cases h
  | case2 name sub rest ihsub ihrest =>
    rcases List.mem_append.mp h with h | h
    · obtain ⟨names, -, rfl⟩ := List.mem_map.mp h
      exact List.cons_ne_nil name names
    · exact ihrest h
  | case3 name node rest hnode ih =>
    rcases List.mem_cons.mp h with rfl | h
    · exact List.cons_ne_nil name []
    · exact ih h

namespace Discovery

open ClassIndex.Path Layout

variable {s : Settings} {tree : FileTree} {root : Path} {l : Listing} {c : Candidate}
  {index final : Index} {r : String}

theorem path_of_fileCandidate? {path : Path} (h : fileCandidate? path = some c) :
    c.path = path := by
  unfold fileCandidate? at h
  rw [Option.bind_eq_bind, Option.bind_eq_some_iff] at h
  obtain ⟨name, -, h⟩ := h
  rw [Option.ite_none_right_eq_some, Option.some_inj] at h
  rw [← h.2]

/-- A candidate that a visit comes upon is a class file below the root. -/
theorem mem_classFiles_of_visited
    (h : c ∈ fileCandidates (Sight.entries (l.visit root))) : c ∈ classFiles root l := by
  obtain ⟨path, hpath, hc⟩ := List.mem_filterMap.mp h
  obtain ⟨names, hnames, rfl⟩ :=
    Listing.exists_of_entry_mem_visit l (Sight.entry_mem_of_mem_entries hpath)
  exact List.mem_filterMap.mpr ⟨_, List.mem_map_of_mem hnames, hc⟩

theorem exists_of_mem_classFiles (h : c ∈ classFiles root l) :
    ∃ front last, front ++ [last] ∈ l.filePaths ∧ c.path = root.descend (front ++ [last]) := by
  obtain ⟨path, hpath, hc⟩ := List.mem_filterMap.mp h
  obtain ⟨names, hnames, rfl⟩ := List.mem_map.mp hpath
  have hne := Listing.ne_nil_of_mem_filePaths hnames
  rw [← List.dropLast_concat_getLast hne] at hnames hc
  exact ⟨_, _, hnames, path_of_fileCandidate? hc⟩

/-- A directory that fails for its layout fails at a class file below it. -/
theorem exists_of_directory_eq_error_layout {e : LayoutError} (hlist : tree.list root = .ok l)
    (h : directory s tree root index = (final, .error (.layout e))) :
    ∃ c ∈ classFiles root l, register s root c final = (final, .error (.layout e)) := by
  rw [directory_of_list s tree root index hlist, sights] at h
  rcases hrun : registerAll s root (fileCandidates (Sight.entries (l.visit root))) index with
    ⟨middle, e' | n⟩
  · rw [hrun] at h
    cases h
    obtain ⟨before, c, after, middle, n, hcs, -, hc⟩ := registerAll_eq_error_iff.mp hrun
    obtain ⟨rfl, -⟩ := register_eq_error_layout hc
    refine ⟨c, mem_classFiles_of_visited ?_, hc⟩
    rw [hcs]
    exact List.mem_append_right _ List.mem_cons_self
  · simp only [hrun] at h
    split at h <;> cases h

/-- Directories with qualified names spell the package of the classes in them, and its types
are named for it, however the root is spelled.  A class directly in the root has no package,
unless the root ends in a component `.`: there the class has a name and is still taken to
lie outside the root.  But for that, a directory fails for its layout at functions only, and
at types that have no name. -/
theorem packages_follow_directories (hr : root.text? = some r) :
    (∀ (ds : List String) (stem : String), Spell ds → '/' ∉ stem.toList →
      let path := root.descend (ds.map Utf8.bytesOf ++ [Utf8.bytesOf (stem ++ ".class")])
      (ds ≠ [] → package path root = .ok (some (".".intercalate (ds.map Name.canonical))) ∧
        typeName path root =
          .ok (".".intercalate (ds.map Name.canonical) ++ "." ++ Name.canonical stem)) ∧
      (ds = [] → (∃ name, typeName path root = .ok name) ∧
        (¬ EndsInDot r → package path root = .ok none) ∧
        (EndsInDot r → ∃ above, package path root = .error (.outsideRoot above r)))) ∧
    ∀ (s : Settings) (tree : FileTree) (l : Listing) (index final : Index) (e : LayoutError),
      tree.list root = .ok l → (∀ names ∈ l.filePaths, ∀ name ∈ names, IsName name) →
      directory s tree root index = (final, .error (.layout e)) →
      ∃ c ∈ classFiles root l, register s root c final = (final, .error (.layout e)) ∧
        (c.isFunction s = true ∨ typeName c.path root = .error e ∨
          EndsInDot r ∧ ∃ file, c.path = root.join file) := by
  constructor
  · intro ds stem hds hstem path
    refine ⟨fun hne => names_of_spell hr hds hne hstem, ?_⟩
    rintro rfl
    have hpath : path = root.join (Utf8.encode (stem.toList ++ suffix)) := by
      show root.join (Utf8.bytesOf (stem ++ ".class")) = _
      rw [Utf8.bytesOf_eq_encode, String.toList_append]
      rfl
    refine ⟨?_, package_join hr (isName_classFile hstem)⟩
    obtain ⟨gap, -, htype⟩ := exists_typeName_join hr stem.toList
    rw [hpath, htype]
    exact ⟨_, rfl⟩
  · intro s tree l index final e hlist hnames h
    obtain ⟨c, hc, hregister⟩ := exists_of_directory_eq_error_layout hlist h
    refine ⟨c, hc, hregister, ?_⟩
    rcases (register_eq_error_layout hregister).2 with hfunction | htype | ⟨⟨name, htype⟩, hpackage⟩
    · exact .inl hfunction
    · exact .inr (.inl htype)
    · obtain ⟨front, last, hmem, hpath⟩ := exists_of_mem_classFiles hc
      have hplain := List.forall_mem_append.mp (hnames _ hmem)
      rw [hpath] at htype hpackage
      obtain ⟨rfl, hdot, -⟩ := eq_nil_of_package_eq_error hr hplain.1
        (List.forall_mem_singleton.mp hplain.2) htype hpackage
      exact .inr (.inr ⟨hdot, last, hpath⟩)

/-- A function directly in a directory. -/
def looseFunction : Listing :=
  [(Utf8.bytesOf "Function_f.class", .file [])]

/-- A root with slashes at its end: a package in one of its directories, a type directly in
it, and a function directly in it, at which the directory fails. -/
theorem packages_follow_directories_slashes :
    let tree := besideArchive looseFunction []
    Layout.package (.ofString "/tmp/work/d//a$b/C.class") (.ofString "/tmp/work/d//") =
        .ok (some "a.b") ∧
      Layout.typeName (.ofString "/tmp/work/d//a$b/C.class") (.ofString "/tmp/work/d//") =
        .ok "a.b.C" ∧
      Layout.package (.ofString "/tmp/work/d//C.class") (.ofString "/tmp/work/d//") = .ok none ∧
      (directory {} tree (.ofString "/tmp/work/d//") .empty).2 =
        .error (.layout (.outsideRoot "/tmp/work/d" "/tmp/work/d//")) ∧
      ∃ c ∈ classFiles (.ofString "/tmp/work/d//") looseFunction, c.isFunction {} = true := by
  intro tree
  obtain ⟨hnames, hfaults⟩ := packages_follow_directories (text?_ofString "/tmp/work/d//")
  have hspell : Spell ["a$b"] := by
    rw [Spell, List.forall_mem_singleton]
    decide
  obtain ⟨hpackage, htype⟩ := (hnames ["a$b"] "C" hspell (by decide)).1 (by decide)
  have hnone := ((hnames [] "C" (List.forall_mem_nil _) (by decide)).2 rfl).2.1 (by decide)
  have hlist : tree.list (.ofString "/tmp/work/d//") = .ok looseFunction := by cbv
  have hpaths : looseFunction.filePaths = [[Utf8.bytesOf "Function_f.class"]] := by
    simp only [looseFunction, Listing.filePaths]
  have hplain : ∀ names ∈ looseFunction.filePaths, ∀ name ∈ names, IsName name := by
    rw [hpaths]
    decide +kernel
  have hvisit : looseFunction.visit (.ofString "/tmp/work/d//") =
      [.entry (.ofString "/tmp/work/d//Function_f.class")] := by cbv
  have hfails : (directory {} tree (.ofString "/tmp/work/d//") .empty).2 =
      .error (.layout (.outsideRoot "/tmp/work/d" "/tmp/work/d//")) := by
    rw [directory_of_list {} tree _ _ hlist, hvisit]
    decide +kernel
  refine ⟨hpackage, htype, hnone, hfails, ?_⟩
  obtain ⟨c, hc, -, hfunction | htype | ⟨hdot, -⟩⟩ :=
    hfaults {} tree _ _ _ _ hlist hplain (Prod.ext rfl hfails)
  · exact ⟨c, hc, hfunction⟩
  · rw [classFiles, hpaths] at hc
    revert c
    decide +kernel
  · exact absurd hdot (by decide)

/-- In a root that ends in a component `.`, a type has a name, and the directory fails for
its package. -/
theorem package_lost_in_dotted_root :
    let tree := besideArchive [(Utf8.bytesOf "A.class", .file [])] []
    Layout.typeName (.ofString "d/./A.class") (.ofString "d/.") = .ok "A" ∧
      Layout.package (.ofString "d/./A.class") (.ofString "d/.") =
        .error (.outsideRoot "d" "d/.") ∧
      (directory {} tree (.ofString "d/.") .empty).2 =
        .error (.layout (.outsideRoot "d" "d/.")) := by
  intro tree
  refine ⟨by decide +kernel, by decide +kernel, ?_⟩
  have hlist : tree.list (.ofString "d/.") = .ok [(Utf8.bytesOf "A.class", .file [])] := by cbv
  have hvisit : Listing.visit (.ofString "d/.") [(Utf8.bytesOf "A.class", .file [])] =
      [.entry (.ofString "d/./A.class")] := by cbv
  rw [directory_of_list {} tree _ _ hlist, hvisit]
  decide +kernel

end Discovery
end ClassIndex

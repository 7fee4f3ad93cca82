/-
The packages of a class path.

A class brings its packages only when it brings its name, so of the classes of one name the
first brings them (`entriesOf_packages`).  Entries in front of a class path therefore take a
package from it where they have a type of the same name in another package, for a nested
class and a class in a package can have one name.  `packages_behind` says which packages
stay: those that the entries in front have themselves, those of functions, and those of
types whose names the entries in front leave free.
-/
import ClassIndex.Proofs.Discovery.ClassPath

namespace ClassIndex
namespace Discovery

/-! ## One entry -/

namespace Offer

/-- The packages of the first candidate that makes a name lead to it. -/
def packagesAt? (o : Offer) (s : Settings) (kind : EntryKind) (name : String) :
    Option (List String) :=
  o.candidates.findSome? (Candidate.packagesAt? s o.root kind name)

variable {s : Settings} {o : Offer} {index final : Index} {n : Nat}

theorem take_packages (hok : o.take s index = (final, .ok n)) (package : String) :
    final.hasPackage package = true ↔ index.hasPackage package = true ∨
      ∃ kind name packages, (index.table kind).contains name = false ∧
        o.packagesAt? s kind name = some packages ∧ package ∈ packages :=
  registerAll_packages (take_eq_ok_iff.mp hok).1 package

theorem take_free_iff (hok : o.take s index = (final, .ok n)) {kind : EntryKind} {name : String} :
    (final.table kind).contains name = false ↔
      (index.table kind).contains name = false ∧ o.packagesAt? s kind name = none := by
  rw [Table.contains_eq_isSome, Table.contains_eq_isSome, take_tables hok, Option.isSome_or,
    Bool.or_eq_false_iff, packagesAt?, List.findSome?_eq_none_iff]
  simp only [Candidate.packagesAt?_eq_none_iff]
  rw [← List.findSome?_eq_none_iff, Option.isSome_eq_false_iff, Option.isSome_eq_false_iff,
    Option.isNone_iff_eq_none, Option.isNone_iff_eq_none]

end Offer

/-! ## Several entries -/

variable {s : Settings} {files : Files} {path : Path} {paths : List Path} {index final : Index}
  {n : Nat} {kind : EntryKind} {name package : String}

/-- The packages of the first class of a name, over all entries. -/
def firstPackages (s : Settings) (files : Files) (paths : List Path) (kind : EntryKind)
    (name : String) : Option (List String) :=
  paths.findSome? fun path => (offer s files path).packagesAt? s kind name

/-- The first class of a name brings a package with it. -/
def Brings (s : Settings) (files : Files) (paths : List Path) (kind : EntryKind)
    (name package : String) : Prop :=
  ∃ packages, firstPackages s files paths kind name = some packages ∧ package ∈ packages

/-- The run: the first class of each name that is new brings its packages. -/
theorem entriesOf_packages (hok : entriesOf s files paths index = (final, .ok n))
    (package : String) :
    final.hasPackage package = true ↔ index.hasPackage package = true ∨
      ∃ kind name, (index.table kind).contains name = false ∧
        Brings s files paths kind name package := by
  induction paths generalizing index n with
  | nil =>
    cases hok
    simp [Brings, firstPackages]
  | cons path rest ih =>
    obtain ⟨middle, k, m, hfirst, hrest, -⟩ := entriesOf_cons_eq_ok.mp hok
    rw [entry_eq_take] at hfirst
    rw [ih hrest, Offer.take_packages hfirst, or_assoc]
    refine or_congr Iff.rfl ?_
    simp only [← exists_or]
    refine exists_congr fun kind => exists_congr fun name => ?_
    rw [Offer.take_free_iff hfirst, Brings, Brings, firstPackages, firstPackages,
      List.findSome?_cons]
    cases (offer s files path).packagesAt? s kind name <;> simp

theorem entriesOf_free_iff (hok : entriesOf s files paths index = (final, .ok n)) :
    (final.table kind).contains name = false ↔
      (index.table kind).contains name = false ∧ firstPackages s files paths kind name = none := by
  induction paths generalizing index n with
  | nil =>
    cases hok
    simp [firstPackages]
  | cons path rest ih =>
    obtain ⟨middle, k, m, hfirst, hrest, -⟩ := entriesOf_cons_eq_ok.mp hok
    rw [entry_eq_take] at hfirst
    rw [ih hrest, Offer.take_free_iff hfirst, and_assoc, firstPackages, firstPackages,
      List.findSome?_cons]
    cases (offer s files path).packagesAt? s kind name <;> simp

theorem entriesOf_append_eq_ok {xs ys : List Path} :
    entriesOf s files (xs ++ ys) index = (final, .ok n) ↔
      ∃ middle k m, entriesOf s files xs index = (middle, .ok k) ∧
        entriesOf s files ys middle = (final, .ok m) ∧ n = k + m := by
  induction xs generalizing index n with
  | nil =>
    constructor
    · intro h
      exact ⟨index, 0, n, rfl, h, (Nat.zero_add n).symm⟩
    · intro h
      obtain ⟨middle, k, m, hxs, hys, rfl⟩ := h
      cases hxs
      rw [Nat.zero_add]
      exact hys
  | cons path rest ih =>
    rw [List.cons_append, entriesOf_cons_eq_ok]
    constructor
    · intro h
      obtain ⟨first, j, l, hfirst, hrest, rfl⟩ := h
      obtain ⟨middle, k, m, hxs, hys, rfl⟩ := ih.mp hrest
      exact ⟨middle, j + k, m, entriesOf_cons_eq_ok.mpr ⟨_, _, _, hfirst, hxs, rfl⟩, hys,
        (Nat.add_assoc ..).symm⟩
    · intro h
      obtain ⟨middle, k, m, hxs, hys, rfl⟩ := h
      obtain ⟨first, j, l, hfirst, hrest, rfl⟩ := entriesOf_cons_eq_ok.mp hxs
      exact ⟨first, j, l + m, hfirst, ih.mpr ⟨_, _, _, hrest, hys, rfl⟩, Nat.add_assoc ..⟩

/-! ## Entries in front -/

/-- A function brings the packages around it, wherever its class lies. -/
theorem eq_enclosing_of_firstPackages {packages : List String}
    (h : firstPackages s files paths .function name = some packages) :
    packages = Name.enclosing name := by
  obtain ⟨path, -, hpath⟩ := List.exists_of_findSome?_eq_some h
  obtain ⟨c, -, hc⟩ := List.exists_of_findSome?_eq_some hpath
  obtain ⟨hkind, -, -, hpackages⟩ :=
    Candidate.placement?_eq_some_iff.mp (Candidate.packagesAt?_eq_some_iff.mp hc)
  rw [Candidate.packages?, ← hkind] at hpackages
  exact (Option.some.inj hpackages).symm

/-- Of a class path by itself, every class brings its packages. -/
theorem hasPackage_iff_of_empty (hok : entriesOf s files paths .empty = (final, .ok n)) :
    final.hasPackage package = true ↔ ∃ kind name, Brings s files paths kind name package := by
  rw [entriesOf_packages hok]
  simp

/-- A function that is known already has brought its packages. -/
theorem hasPackage_of_function {xs ys : List Path} {front : Index}
    (hok : entriesOf s files xs .empty = (front, .ok n))
    (hname : (front.table .function).contains name = true)
    (h : Brings s files ys .function name package) : front.hasPackage package = true := by
  obtain ⟨packages, hpackages, hmem⟩ := h
  rw [eq_enclosing_of_firstPackages hpackages] at hmem
  cases hfirst : firstPackages s files xs .function name with
  | none =>
    rw [(entriesOf_free_iff hok).mpr ⟨Index.contains_table_empty, hfirst⟩] at hname
    cases hname
  | some first =>
    rw [hasPackage_iff_of_empty hok]
    exact ⟨.function, name, first, hfirst, eq_enclosing_of_firstPackages hfirst ▸ hmem⟩

/-- Behind other entries, functions bring their packages and so do types of free names. -/
theorem hasPackage_behind_iff {xs ys : List Path} {front both : Index} {k m : Nat}
    (hfront : entriesOf s files xs .empty = (front, .ok k))
    (hboth : entriesOf s files ys front = (both, .ok m)) :
    both.hasPackage package = true ↔ front.hasPackage package = true ∨
      (∃ name, Brings s files ys .function name package) ∨
      ∃ name, Brings s files ys .type name package ∧ (front.table .type).contains name = false := by
  rw [entriesOf_packages hboth]
  constructor
  · intro h
    rcases h with h | ⟨kind, name, hfree, hbrings⟩
    · exact .inl h
    · cases kind with
      | type => exact .inr (.inr ⟨name, hbrings, hfree⟩)
      | function => exact .inr (.inl ⟨name, hbrings⟩)
  · intro h
    rcases h with h | ⟨name, hbrings⟩ | ⟨name, hbrings, hfree⟩
    · exact .inl h
    · cases hknown : (front.table .function).contains name with
      | true => exact .inl (hasPackage_of_function hfront hknown hbrings)
      | false => exact .inr ⟨.function, name, hknown, hbrings⟩
    · exact .inr ⟨.type, name, hfree, hbrings⟩

/-- With other entries in front, a class path keeps the packages that these have
themselves, those of its functions, and those of its types whose names they leave free. -/
theorem packages_behind (s : Settings) (files : Files) {xs ys : List Path}
    (hxs : ∀ path ∈ xs, ∃ n, (entry s files path .empty).2 = .ok n)
    (hys : ∀ path ∈ ys, ∃ n, (entry s files path .empty).2 = .ok n) :
    ∃ front behind both, classPath s files xs = .ok front ∧ classPath s files ys = .ok behind ∧
      classPath s files (xs ++ ys) = .ok both ∧ ∀ package,
        (behind.hasPackage package = true ↔ ∃ kind name, Brings s files ys kind name package) ∧
        (both.hasPackage package = true ↔ front.hasPackage package = true ∨
          (∃ name, Brings s files ys .function name package) ∨
          ∃ name, Brings s files ys .type name package ∧
            (front.table .type).contains name = false) := by
  obtain ⟨front, k, hfront, -⟩ := entriesOf_above .empty hxs
  obtain ⟨behind, m, hbehind, -⟩ := entriesOf_above .empty hys
  obtain ⟨both, m', hboth, -⟩ := entriesOf_above front hys
  refine ⟨front, behind, both, classPath_eq_ok_iff.mpr ⟨k, hfront⟩,
    classPath_eq_ok_iff.mpr ⟨m, hbehind⟩,
    classPath_eq_ok_iff.mpr ⟨k + m', entriesOf_append_eq_ok.mpr ⟨_, _, _, hfront, hboth, rfl⟩⟩, ?_⟩
  intro package
  exact ⟨hasPackage_iff_of_empty hbehind, hasPackage_behind_iff hfront hboth⟩

/-! ## A nested class before a package -/

/-- A nested class in one directory; in the other a package, with a type of the same name
as the nested class, and a function. -/
def nestedBeforePackage : FileTree :=
  .ofEntries [(Utf8.bytesOf "x", .directory
      [(Utf8.bytesOf "a", .directory [(Utf8.bytesOf "B$C.class", .file [])])]),
    (Utf8.bytesOf "y", .directory
      [(Utf8.bytesOf "a", .directory
          [(Utf8.bytesOf "B", .directory [(Utf8.bytesOf "C.class", .file [])])]),
        (Utf8.bytesOf "p", .directory [(Utf8.bytesOf "Function_f.class", .file [])])])]

theorem offer_nested : offer {} nestedBeforePackage (.ofString "x") =
    ⟨.ofString "x", fileCandidates [.ofString "x/a/B$C.class"], none⟩ := by
  have hdirectory : nestedBeforePackage.isDirectory (.ofString "x") = true := by cbv
  have hlist : nestedBeforePackage.list (.ofString "x") = .ok
      [(Utf8.bytesOf "a", .directory [(Utf8.bytesOf "B$C.class", .file [])])] := by cbv
  have hvisit : Listing.visit (.ofString "x")
      [(Utf8.bytesOf "a", .directory [(Utf8.bytesOf "B$C.class", .file [])])] =
      [.entry (.ofString "x/a/B$C.class")] := by cbv
  rw [offer, FileTree.tree_files, if_pos hdirectory, directoryOffer, hlist]
  simp only [hvisit]
  rfl

theorem offer_package : offer {} nestedBeforePackage (.ofString "y") =
    ⟨.ofString "y", fileCandidates [.ofString "y/p/Function_f.class", .ofString "y/a/B/C.class"],
      none⟩ := by
  have hdirectory : nestedBeforePackage.isDirectory (.ofString "y") = true := by cbv
  have hlist : nestedBeforePackage.list (.ofString "y") = .ok
      [(Utf8.bytesOf "a", .directory
          [(Utf8.bytesOf "B", .directory [(Utf8.bytesOf "C.class", .file [])])]),
        (Utf8.bytesOf "p", .directory [(Utf8.bytesOf "Function_f.class", .file [])])] := by cbv
  have hvisit : Listing.visit (.ofString "y")
      [(Utf8.bytesOf "a", .directory
          [(Utf8.bytesOf "B", .directory [(Utf8.bytesOf "C.class", .file [])])]),
        (Utf8.bytesOf "p", .directory [(Utf8.bytesOf "Function_f.class", .file [])])] =
      [.entry (.ofString "y/p/Function_f.class"), .entry (.ofString "y/a/B/C.class")] := by cbv
  rw [offer, FileTree.tree_files, if_pos hdirectory, directoryOffer, hlist]
  simp only [hvisit]
  rfl

theorem entries_nestedBeforePackage :
    (entry {} nestedBeforePackage (.ofString "x") .empty).2 = .ok 1 ∧
      (entry {} nestedBeforePackage (.ofString "y") .empty).2 = .ok 2 := by
  rw [entry_eq_take, entry_eq_take, offer_nested, offer_package]
  exact ⟨by decide +kernel, by decide +kernel⟩

/-- The function keeps its package behind the nested class. -/
theorem packages_behind_function : ∃ both,
    classPath {} nestedBeforePackage [.ofString "x", .ofString "y"] = .ok both ∧
      both.hasPackage "p" = true := by
  obtain ⟨hx, hy⟩ := entries_nestedBeforePackage
  have hxs : ∀ path ∈ [Path.ofString "x"],
      ∃ n, (entry {} nestedBeforePackage path .empty).2 = .ok n :=
    List.forall_mem_singleton.mpr ⟨1, hx⟩
  have hys : ∀ path ∈ [Path.ofString "y"],
      ∃ n, (entry {} nestedBeforePackage path .empty).2 = .ok n :=
    List.forall_mem_singleton.mpr ⟨2, hy⟩
  obtain ⟨front, behind, both, -, -, hboth, hpackages⟩ :=
    packages_behind {} nestedBeforePackage hxs hys
  have hbrings : Brings {} nestedBeforePackage [.ofString "y"] .function "p.f" "p" := by
    refine ⟨["p"], ?_, List.mem_singleton.mpr rfl⟩
    rw [firstPackages, List.findSome?_cons, offer_package]
    decide +kernel
  exact ⟨both, hboth, (hpackages "p").2.mpr (.inr (.inl ⟨"p.f", hbrings⟩))⟩

/-- Behind the nested class, the type of its name is passed over, and the package of that
type with it. -/
theorem package_lost_behind :
    (∀ path ∈ [Path.ofString "x", .ofString "y"],
      ∃ n, (entry {} nestedBeforePackage path .empty).2 = .ok n) ∧
    ∃ behind both, classPath {} nestedBeforePackage [.ofString "y"] = .ok behind ∧
      classPath {} nestedBeforePackage [.ofString "x", .ofString "y"] = .ok both ∧
      behind.hasPackage "a.B" = true ∧ both.hasPackage "a.B" = false := by
  obtain ⟨hx, hy⟩ := entries_nestedBeforePackage
  have hbehind : (entriesOf {} nestedBeforePackage [.ofString "y"] .empty).2 = .ok 2 := by
    simp only [entriesOf, entry_eq_take, offer_package]
    decide +kernel
  have hboth : (entriesOf {} nestedBeforePackage [.ofString "x", .ofString "y"] .empty).2 =
      .ok 2 := by
    simp only [entriesOf, entry_eq_take, offer_nested, offer_package]
    decide +kernel
  refine ⟨?_, _, _, classPath_eq_ok_iff.mpr ⟨2, Prod.ext rfl hbehind⟩,
    classPath_eq_ok_iff.mpr ⟨2, Prod.ext rfl hboth⟩, ?_, ?_⟩
  · rw [List.forall_mem_cons, List.forall_mem_singleton]
    exact ⟨⟨1, hx⟩, 2, hy⟩
  · simp only [entriesOf, entry_eq_take, offer_package]
    decide +kernel
  · simp only [entriesOf, entry_eq_take, offer_nested, offer_package]
    decide +kernel

end Discovery
end ClassIndex

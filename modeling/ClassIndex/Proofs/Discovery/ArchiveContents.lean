/-
What an archive brings into the index.

The description goes by the names of the entries alone, in the order of their bytes.  Some
of them are classes (`IsClassEntry`), each of which derives the name of a type or of a
function (`Derives`).  A name that is new leads to the lowest entry that derives it
(`FirstToDerive`), and this entry brings the packages of its directory, or of the function's
name (`BringsPackage`).

An archive that is taken in leaves what all of its entries come to, and one that fails
leaves what the entries below one that cannot be taken in come to
(`archive_contents`).  How entries are read does not come into it, as long as the reader
names each of them once; the reader of zip archives does (`namesOnce_zip`).
-/
import ClassIndex.Proofs.Discovery.Agreement
import ClassIndex.Proofs.Discovery.Runs
import ClassIndex.Proofs.Layout.Packages
import ClassIndex.Proofs.Text.ByteOrder

namespace ClassIndex
namespace Discovery

open ClassIndex.Path Layout

variable {s : Settings} {jar : Path} {n name : String} {kind : EntryKind}

/-! ## Entries that are classes -/

/-- An entry below `META-INF/`, whatever `classes/` stand before that. -/
def InMetaInf (n : String) : Prop :=
  ∃ k rest, n.toList =
    (List.replicate k "classes/".toList).flatten ++ ("META-INF/".toList ++ rest)

theorem isMetaInf_step {cs : List Char} : isMetaInf cs = true ↔
    (∃ rest, cs = "META-INF/".toList ++ rest) ∨
      ∃ rest, cs = "classes/".toList ++ rest ∧ isMetaInf rest = true := by
  rw [isMetaInf, Bool.or_eq_true, Option.isSome_iff_exists]
  simp only [Affix.after?_eq_some_iff]
  refine or_congr Iff.rfl ?_
  cases h : Affix.after? "classes/".toList cs with
  | some rest =>
    rw [Affix.after?_eq_some_iff] at h
    subst h
    constructor
    · exact fun hrest => ⟨rest, rfl, hrest⟩
    · intro hmeta
      obtain ⟨rest', h', hrest⟩ := hmeta
      exact List.append_cancel_left h' ▸ hrest
  | none =>
    refine iff_of_false Bool.false_ne_true fun hmeta => ?_
    obtain ⟨rest, rfl, -⟩ := hmeta
    rw [Affix.after?_append] at h
    cases h

theorem isMetaInf_iff : isMetaInf n.toList = true ↔ InMetaInf n := by
  unfold InMetaInf
  generalize n.toList = cs
  constructor
  · induction hlength : cs.length using Nat.strongRecOn generalizing cs with
    | _ length ih =>
      intro h
      rcases isMetaInf_step.mp h with ⟨rest, rfl⟩ | ⟨rest, rfl, hrest⟩
      · exact ⟨0, rest, rfl⟩
      · have hshorter : rest.length < length := by
          rw [← hlength, List.length_append]
          exact Nat.lt_add_of_pos_left (by decide)
        obtain ⟨k, tail, htail⟩ := ih rest.length hshorter rest rfl hrest
        refine ⟨k + 1, tail, ?_⟩
        rw [htail, List.replicate_succ, List.flatten_cons, List.append_assoc]
  · intro h
    obtain ⟨k, rest, rfl⟩ := h
    induction k with
    | zero => exact isMetaInf_step.mpr (.inl ⟨rest, rfl⟩)
    | succ k ih =>
      rw [List.replicate_succ, List.flatten_cons, List.append_assoc]
      exact isMetaInf_step.mpr (.inr ⟨_, rfl, ih⟩)

/-- An entry whose last part is the name of a class file, and that is not passed over. -/
structure IsClassEntry (s : Settings) (n : String) : Prop where
  classFile : suffix <:+ (lastPart n).toList
  noDescription : lastPart n ≠ "module-info.class" ∧ lastPart n ≠ "package-info.class"
  noMetaInf : s.skipMetaInf = true → ¬ InMetaInf n

/-- The name that a class derives: a function's if its file name starts with the marker, and
a type's if not. -/
inductive Derives (s : Settings) (n : String) : EntryKind → String → Prop where
  | type {name : String} (hmarker : ¬ s.functionMarker.toList <+: (lastPart n).toList)
    (hname : typeName (.ofString n) ⟨[]⟩ = .ok name) : Derives s n .type name
  | function {name : String} (hmarker : s.functionMarker.toList <+: (lastPart n).toList)
    (hname : functionName s.functionMarker (.ofString n) ⟨[]⟩ = .ok name) :
    Derives s n .function name

theorem isClassFile_iff {file : String} : isClassFile file = true ↔
    suffix <:+ file.toList ∧ file ≠ "module-info.class" ∧ file ≠ "package-info.class" := by
  rw [isClassFile, Bool.and_eq_true, Affix.isSome_before?_iff, Bool.not_eq_true',
    ← Bool.not_eq_true, List.contains_iff_mem, descriptions, List.mem_cons, List.mem_singleton,
    not_or]

/-- The candidates of an archive are the classes among its entries. -/
theorem entryCandidate?_eq_some_iff {c : Candidate} :
    entryCandidate? s jar n = some c ↔ IsClassEntry s n ∧ entryAt jar n = c := by
  have hmeta : (s.skipMetaInf && isMetaInf n.toList) = true ↔
      ¬ (s.skipMetaInf = true → ¬ InMetaInf n) := by
    rw [Bool.and_eq_true, isMetaInf_iff]
    tauto
  unfold entryCandidate?
  by_cases hskip : (s.skipMetaInf && isMetaInf n.toList) = true
  · rw [if_pos hskip]
    refine iff_of_false nofun fun h => ?_
    exact hmeta.mp hskip h.1.noMetaInf
  · have hnone := not_not.mp (mt hmeta.mpr hskip)
    rw [if_neg hskip, Option.ite_none_right_eq_some, Option.some_inj, isClassFile_iff]
    refine and_congr_left fun _ => ?_
    exact ⟨fun h => ⟨h.1, h.2, hnone⟩, fun h => ⟨h.classFile, h.noDescription⟩⟩

theorem derives_entryAt_iff :
    (entryAt jar n).derives s ⟨[]⟩ kind name = true ↔ Derives s n kind name := by
  have hmarker : (entryAt jar n).isFunction s = true ↔
      s.functionMarker.toList <+: (lastPart n).toList := Affix.isSome_after?_iff
  rw [Candidate.derives_iff, Candidate.name?, Candidate.kind]
  by_cases hfunction : (entryAt jar n).isFunction s = true
  · rw [if_pos hfunction]
    constructor
    · intro h
      obtain ⟨rfl, hname⟩ := h
      exact .function (hmarker.mp hfunction) (eq_ok_of_toOption hname)
    · intro h
      cases h with
      | type hnot => exact absurd (hmarker.mp hfunction) hnot
      | function _ hname => exact ⟨rfl, congrArg Except.toOption hname⟩
  · rw [if_neg hfunction]
    constructor
    · intro h
      obtain ⟨rfl, hname⟩ := h
      exact .type (mt hmarker.mpr hfunction) (eq_ok_of_toOption hname)
    · intro h
      cases h with
      | type _ hname => exact ⟨rfl, congrArg Except.toOption hname⟩
      | function hyes => exact absurd (hmarker.mpr hyes) hfunction

instance : Decidable (IsClassEntry s n) :=
  decidable_of_iff ((entryCandidate? s ⟨[]⟩ n).isSome = true) (by
    rw [Option.isSome_iff_exists]
    simp only [entryCandidate?_eq_some_iff, exists_and_left, exists_eq', and_true])

instance : Decidable (Derives s n kind name) :=
  decidable_of_iff ((entryAt ⟨[]⟩ n).derives s ⟨[]⟩ kind name = true) derives_entryAt_iff

/-- The lowest of some entries to derive a name. -/
structure FirstToDerive (s : Settings) (names : List String) (kind : EntryKind)
    (name n : String) : Prop where
  mem : n ∈ names
  isClass : IsClassEntry s n
  derives : Derives s n kind name
  least : ∀ m ∈ names, IsClassEntry s m → Derives s m kind name → Utf8.bytesOf n ≤ Utf8.bytesOf m

theorem FirstToDerive.of_mem_iff {names names' : List String}
    (hsame : ∀ m, m ∈ names ↔ m ∈ names') (h : FirstToDerive s names kind name n) :
    FirstToDerive s names' kind name n where
  mem := (hsame n).mp h.mem
  isClass := h.isClass
  derives := h.derives
  least m hm := h.least m ((hsame m).mpr hm)

/-- Among the candidates of ordered entries, the first that derives a name is that of the
lowest entry. -/
theorem find?_derives_eq_some_iff {names : List String} (h : names.Pairwise (· < ·))
    {c : Candidate} :
    (names.filterMap (entryCandidate? s jar)).find? (Candidate.derives s ⟨[]⟩ kind name) = some c ↔
      ∃ n, FirstToDerive s names kind name n ∧ entryAt jar n = c := by
  have hany : ∀ m, (entryCandidate? s jar m).any (Candidate.derives s ⟨[]⟩ kind name) = true ↔
      IsClassEntry s m ∧ Derives s m kind name := by
    intro m
    rw [Option.any_eq_true]
    simp only [entryCandidate?_eq_some_iff]
    constructor
    · intro hc
      obtain ⟨c, ⟨hclass, rfl⟩, hderives⟩ := hc
      exact ⟨hclass, derives_entryAt_iff.mp hderives⟩
    · intro hm
      exact ⟨entryAt jar m, ⟨hm.1, rfl⟩, derives_entryAt_iff.mpr hm.2⟩
  rw [List.find?_filterMap, Option.bind_eq_some_iff]
  refine exists_congr fun n => ?_
  rw [find?_eq_some_iff_of_ordered h, entryCandidate?_eq_some_iff]
  simp only [hany]
  constructor
  · intro hn
    obtain ⟨⟨⟨hclass, hderives⟩, hmem, hleast⟩, -, hc⟩ := hn
    exact ⟨⟨hmem, hclass, hderives, fun m hm hclass hderives => hleast m hm ⟨hclass, hderives⟩⟩, hc⟩
  · intro hn
    obtain ⟨hfirst, hc⟩ := hn
    exact ⟨⟨⟨hfirst.isClass, hfirst.derives⟩, hfirst.mem, fun m hm hm' =>
      hfirst.least m hm hm'.1 hm'.2⟩, hfirst.isClass, hc⟩

/-! ## Packages of entries -/

/-- The directory of an entry, with dots, unless it has none. -/
def InDirectory (n directory : String) : Prop :=
  ∃ outer last : List Char, n.toList = outer ++ '/' :: last ∧ '/' ∉ last ∧
    directory = String.ofList (dropDot (dots outer)) ∧ directory ≠ ""

/-- The packages that an entry brings when it is the first to derive a name: those of its
directory for a type, those around the name for a function. -/
inductive BringsPackage (n : String) : EntryKind → String → String → Prop where
  | directory {name directory : String} (h : InDirectory n directory) :
    BringsPackage n .type name directory
  | above {name directory package : String} (h : InDirectory n directory)
    (hpackage : Name.Encloses package directory) : BringsPackage n .type name package
  | function {name package : String} (h : Name.Encloses package name) :
    BringsPackage n .function name package

theorem inDirectory_iff_of_nested {outer last : List Char} (hn : n.toList = outer ++ '/' :: last)
    (hlast : '/' ∉ last) {directory : String} : InDirectory n directory ↔
      directory = String.ofList (dropDot (dots outer)) ∧ directory ≠ "" := by
  constructor
  · intro h
    obtain ⟨outer', last', hn', hlast', hdirectory, hne⟩ := h
    have hsame : String.ofList last = String.ofList last' := by
      rw [← lastPart_of_nested hn hlast, lastPart_of_nested hn' hlast']
    rw [String.ofList_inj] at hsame
    rw [hn, hsame] at hn'
    rw [List.append_cancel_right hn']
    exact ⟨hdirectory, hne⟩
  · intro h
    exact ⟨outer, last, hn, hlast, h⟩

theorem bringsPackage_type_iff {package : String} : BringsPackage n .type name package ↔
    ∃ directory, InDirectory n directory ∧
      (package = directory ∨ Name.Encloses package directory) := by
  constructor
  · intro h
    cases h with
    | directory h => exact ⟨package, h, .inl rfl⟩
    | above h hpackage => exact ⟨_, h, .inr hpackage⟩
  · intro h
    obtain ⟨directory, h, rfl | hpackage⟩ := h
    · exact .directory h
    · exact .above h hpackage

theorem not_inDirectory (h : '/' ∉ n.toList) (directory : String) : ¬ InDirectory n directory := by
  intro hdirectory
  obtain ⟨outer, last, hn, -⟩ := hdirectory
  exact h (hn ▸ List.mem_append_right _ List.mem_cons_self)

/-- The packages of a type are the one that its directory spells and those around it. -/
theorem mem_packages_of_packageOf {c : Candidate} {root : Path} {outer : List Char}
    {packages : List String} (hkind : c.kind s = .type)
    (hpackage : Layout.package c.path root = .ok (packageOf outer))
    (h : c.packages? s root name = some packages) (package : String) :
    package ∈ packages ↔ ∃ directory,
      (directory = String.ofList (dropDot (dots outer)) ∧ directory ≠ "") ∧
        (package = directory ∨ Name.Encloses package directory) := by
  rw [Candidate.packages?_eq, hkind, hpackage] at h
  by_cases hempty : dropDot (dots outer) = []
  · have hnone : packageOf outer = none := by
      rw [packageOf, hempty]
    rw [hnone] at h
    cases h
    refine iff_of_false List.not_mem_nil fun h => ?_
    obtain ⟨directory, ⟨rfl, hne⟩, -⟩ := h
    rw [hempty] at hne
    exact hne rfl
  · rw [packageOf_eq_some hempty] at h
    obtain ⟨-, h⟩ := Option.ite_none_right_eq_some.mp h
    obtain rfl : Name.enclosing _ ++ [_] = packages := Option.some.inj h
    rw [List.mem_append, List.mem_singleton, Name.mem_enclosing]
    constructor
    · intro h
      exact ⟨_, ⟨rfl, fun hne => hempty (String.ofList_inj.mp hne)⟩, h.symm⟩
    · intro h
      obtain ⟨directory, ⟨rfl, -⟩, h⟩ := h
      exact h.symm

theorem mem_packages_of_type {packages : List String} (hshape : Shape n)
    (hp : (entryAt jar n).placement? s ⟨[]⟩ = some ⟨.type, name, packages⟩) (package : String) :
    package ∈ packages ↔ BringsPackage n .type name package := by
  obtain ⟨hkind, hname, hq, hpackages⟩ := Candidate.placement?_eq_some_iff.mp hp
  rw [bringsPackage_type_iff]
  cases hshape with
  | single stem hn hsingle =>
    have hstem : '/' ∉ stem := fun hmem => hsingle (hn ▸ List.mem_append_left _ hmem)
    have hpackage : Layout.package (entryAt jar n).path ⟨[]⟩ = .ok none :=
      package_ofString_of_file hstem hn
    rw [Candidate.packages?_eq, ← hkind, hpackage] at hpackages
    cases hpackages
    refine iff_of_false List.not_mem_nil fun h => ?_
    obtain ⟨directory, hdirectory, -⟩ := h
    exact not_inDirectory hsingle directory hdirectory
  | nested outer stem hn hlast =>
    have hstem : '/' ∉ stem := fun hmem => hlast (List.mem_append_left _ hmem)
    have hfull : n.toList = (outer ++ '/' :: stem) ++ suffix := by
      rw [hn, List.append_assoc, List.cons_append]
    have htype : typeName (entryAt jar n).path ⟨[]⟩ =
        .ok (String.ofList (dropDot (dots (outer ++ '/' :: stem)))) :=
      typeName_ofString (by rw [hn]; simp) hfull
    rw [Candidate.name?, ← hkind] at hname
    simp only [htype] at hname
    cases hname
    have hpackage : Layout.package (entryAt jar n).path ⟨[]⟩ = .ok (packageOf outer) :=
      package_ofString_of_directory hstem hn hq
    simp only [inDirectory_iff_of_nested hn hlast]
    exact mem_packages_of_packageOf hkind.symm hpackage hpackages package

/-- The packages of an entry with a place are those that it brings. -/
theorem mem_packages_iff {packages : List String} (hclass : IsClassEntry s n)
    (hp : (entryAt jar n).placement? s ⟨[]⟩ = some ⟨kind, name, packages⟩) (package : String) :
    package ∈ packages ↔ BringsPackage n kind name package := by
  have hshape : Shape n :=
    shape_of_isClassFile (isClassFile_iff.mpr ⟨hclass.classFile, hclass.noDescription⟩)
  cases kind with
  | type => exact mem_packages_of_type hshape hp package
  | function =>
    obtain ⟨hkind, -, -, hpackages⟩ := Candidate.placement?_eq_some_iff.mp hp
    rw [Candidate.packages?, ← hkind] at hpackages
    obtain rfl : Name.enclosing name = packages := Option.some.inj hpackages
    rw [Name.mem_enclosing]
    constructor
    · exact .function
    · intro h
      cases h with
      | function h => exact h

/-! ## Filling an index -/

/-- The names of an index stay, and each new one leads to the lowest entry that derives
it. -/
structure Filled (s : Settings) (jar : Path) (names : List String) (index final : Index) :
    Prop where
  kept : ∀ kind name binary, (index.table kind).get? name = some binary →
    (final.table kind).get? name = some binary
  new : ∀ kind name binary, (index.table kind).contains name = false →
    ((final.table kind).get? name = some binary ↔
      ∃ n, FirstToDerive s names kind name n ∧ binary = .entry jar n)

variable {names : List String} {index final : Index} {k : Nat}

theorem Filled.of_mem_iff {names' : List String} (hsame : ∀ m, m ∈ names ↔ m ∈ names')
    (h : Filled s jar names index final) : Filled s jar names' index final where
  kept := h.kept
  new kind name binary hfree := by
    rw [h.new kind name binary hfree]
    refine exists_congr fun n => and_congr_left fun _ => ?_
    exact ⟨.of_mem_iff hsame, .of_mem_iff fun m => (hsame m).symm⟩

/-- A run over ordered entries leaves what they come to. -/
theorem filled_of_registerAll (hordered : names.Pairwise (· < ·))
    (hok : registerAll s ⟨[]⟩ (names.filterMap (entryCandidate? s jar)) index = (final, .ok k)) :
    Filled s jar names index final where
  kept kind name binary h := by
    rw [registerAll_first hok, h, Option.some_or]
  new kind name binary hfree := by
    rw [Table.contains_eq_isSome, Option.isSome_eq_false_iff, Option.isNone_iff_eq_none] at hfree
    rw [registerAll_first hok, hfree, Option.none_or, Option.map_eq_some_iff]
    simp only [find?_derives_eq_some_iff hordered]
    constructor
    · intro h
      obtain ⟨c, ⟨n, hn, rfl⟩, rfl⟩ := h
      exact ⟨n, hn, rfl⟩
    · intro h
      obtain ⟨n, hn, rfl⟩ := h
      exact ⟨_, ⟨n, hn, rfl⟩, rfl⟩

theorem hasPackage_of_registerAll (hordered : names.Pairwise (· < ·))
    (hok : registerAll s ⟨[]⟩ (names.filterMap (entryCandidate? s jar)) index = (final, .ok k))
    (package : String) : final.hasPackage package = true ↔ index.hasPackage package = true ∨
      ∃ kind name n, (index.table kind).contains name = false ∧
        FirstToDerive s names kind name n ∧ BringsPackage n kind name package := by
  rw [registerAll_first_packages hok]
  simp only [find?_derives_eq_some_iff hordered]
  refine or_congr Iff.rfl (exists_congr fun kind => exists_congr fun name => ?_)
  constructor
  · intro h
    obtain ⟨c, packages, hfree, ⟨n, hn, rfl⟩, hp, hmem⟩ := h
    exact ⟨n, hfree, hn, (mem_packages_iff hn.isClass hp package).mp hmem⟩
  · intro h
    obtain ⟨n, hfree, hn, hbrings⟩ := h
    obtain ⟨packages, hp⟩ := exists_placement?_of_first hok hfree
      ((find?_derives_eq_some_iff hordered).mpr ⟨n, hn, rfl⟩)
    exact ⟨_, packages, hfree, ⟨n, hn, rfl⟩, hp,
      (mem_packages_iff hn.isClass hp package).mpr hbrings⟩

/-- A run over ordered entries that fails does so at one of them, and leaves what those
below it come to. -/
theorem exists_of_registerAll_eq_error {e : DiscoveryError} (hordered : names.Pairwise (· < ·))
    (herror : registerAll s ⟨[]⟩ (names.filterMap (entryCandidate? s jar)) index =
      (final, .error e)) :
    ∃ n ∈ names, IsClassEntry s n ∧
      Filled s jar (names.filter fun m => Utf8.bytesOf m < Utf8.bytesOf n) index final ∧
      ∃ middle, (∀ kind, middle.table kind = final.table kind) ∧
        register s ⟨[]⟩ (entryAt jar n) middle = (final, .error e) := by
  obtain ⟨before, c, after, middle, k, hcs, hbefore, hc⟩ := registerAll_eq_error_iff.mp herror
  obtain ⟨lower, rest, rfl, rfl, hrest⟩ := List.filterMap_eq_append_iff.mp hcs
  obtain ⟨passed, n, upper, rfl, hpassed, hn, -⟩ := List.filterMap_eq_cons_iff.mp hrest
  obtain ⟨hclass, rfl⟩ := entryCandidate?_eq_some_iff.mp hn
  rw [← List.append_assoc] at hordered ⊢
  have hbefore' : registerAll s ⟨[]⟩ ((lower ++ passed).filterMap (entryCandidate? s jar)) index =
      (middle, .ok k) := by
    rw [List.filterMap_append, List.filterMap_eq_nil_iff.mpr hpassed, List.append_nil]
    exact hbefore
  have hfilled := filled_of_registerAll (List.pairwise_append.mp hordered).1 hbefore'
  have htable : ∀ kind, final.table kind = middle.table kind := table_of_register_error hc
  refine ⟨n, List.mem_append_right _ List.mem_cons_self, hclass, ?_, middle, fun kind =>
    (htable kind).symm, hc⟩
  rw [filter_lt_of_ordered hordered]
  exact ⟨fun kind name binary h => htable kind ▸ hfilled.kept kind name binary h,
    fun kind name binary hfree => htable kind ▸ hfilled.new kind name binary hfree⟩

theorem exists_of_openArchive_eq_ok {files : Files} {opened : Archive}
    (h : files.openArchive jar = .ok opened) : ∃ stream, files.reader stream = .ok opened := by
  rw [Files.openArchive] at h
  cases hopen : files.tree.openFile jar with
  | error cause =>
    rw [hopen] at h
    cases h
  | ok stream =>
    refine ⟨stream, ?_⟩
    rw [hopen] at h
    replace h : (files.reader stream).mapError ReadError.archive = .ok opened := h
    cases hread : files.reader stream with
    | error fault =>
      rw [hread] at h
      cases h
    | ok opened' =>
      rw [hread] at h
      cases h
      rfl

/-- By a reader that names every entry once, an archive that is taken in makes each new name
lead to the lowest entry that derives it, marks the packages that these entries bring, and
answers how many names came in.  One that fails does so at an entry, never because a name is
taken, and leaves the names that the lower entries come to. -/
theorem archive_contents {files : Files} {opened : Archive} (honce : files.reader.NamesOnce)
    (hopened : files.openArchive jar = .ok opened) (s : Settings) (index : Index) :
    (∀ final k, archive s files jar index = (final, .ok k) →
      Filled s jar opened.names index final ∧
      (∀ package, final.hasPackage package = true ↔ index.hasPackage package = true ∨
        ∃ kind name n, (index.table kind).contains name = false ∧
          FirstToDerive s opened.names kind name n ∧ BringsPackage n kind name package) ∧
      entryCount final = entryCount index + k) ∧
    ∀ final e, archive s files jar index = (final, .error e) →
      (∃ n ∈ opened.names, IsClassEntry s n ∧
        Filled s jar (opened.names.filter fun m => Utf8.bytesOf m < Utf8.bytesOf n) index final ∧
        ∃ middle, (∀ kind, middle.table kind = final.table kind) ∧
          register s ⟨[]⟩ (entryAt jar n) middle = (final, .error e)) ∧
      ∀ kind name, e ≠ .index (.duplicate kind name) := by
  have hsame : ∀ n, n ∈ opened.names.mergeSort (fun m n => m ≤ n) ↔ n ∈ opened.names := fun n =>
    List.mem_mergeSort
  obtain ⟨stream, hstream⟩ := exists_of_openArchive_eq_ok hopened
  have hordered := pairwise_lt_mergeSort (honce stream opened hstream)
  rw [archive_of_opened s files jar index hopened, entries, entryCandidates]
  constructor
  · intro final k hok
    refine ⟨(filled_of_registerAll hordered hok).of_mem_iff hsame, fun package => ?_,
      registerAll_count hok⟩
    rw [hasPackage_of_registerAll hordered hok]
    refine or_congr Iff.rfl (exists_congr fun kind => exists_congr fun name => exists_congr fun n =>
      and_congr_right fun _ => and_congr_left fun _ => ?_)
    exact ⟨.of_mem_iff hsame, .of_mem_iff fun m => (hsame m).symm⟩
  · intro final e herror
    obtain ⟨n, hn, hclass, hfilled, hfails⟩ := exists_of_registerAll_eq_error hordered herror
    refine ⟨⟨n, (hsame n).mp hn, hclass, hfilled.of_mem_iff fun m => ?_, hfails⟩, ?_⟩
    · rw [List.mem_filter, List.mem_filter, hsame]
    · intro kind name he
      apply (registerAll_onlyAdds s ⟨[]⟩ _ index).2 kind name
      rw [herror, he]

/-! ## An archive of several files -/

theorem namesOnce_zip : ArchiveReader.NamesOnce Zip.reader := by
  intro stream opened h
  rw [Zip.reader] at h
  cases hzip : Zip.ofStream stream with
  | error fault =>
    rw [hzip] at h
    cases h
  | ok a =>
    rw [hzip] at h
    cases h
    exact (Table.pairwise_keys _).imp fun hlt => ne_of_lt hlt

/-- A class in a package before a nested class of the same name, a function, and a class
that is passed over. -/
def collidingEntries : List String :=
  ["a/B/C.class", "a/B$C.class", "p/Function_f.class", "META-INF/X.class"]

def collidingZip : Zip :=
  ⟨archiveOf (collidingEntries.map Utf8.bytesOf),
    [⟨"a/B/C.class", false, 0, 0, 0, 0⟩, ⟨"a/B$C.class", false, 0, 0, 0, 41⟩,
      ⟨"p/Function_f.class", false, 0, 0, 0, 82⟩, ⟨"META-INF/X.class", false, 0, 0, 0, 130⟩]⟩

set_option maxRecDepth 4000 in
theorem ofBytes_colliding :
    Zip.ofBytes (archiveOf (collidingEntries.map Utf8.bytesOf)) = .ok collidingZip := by
  cbv

/-- The nested class is lower and gets the name, with its directory as the package. -/
theorem archive_contents_colliding :
    let tree := besideArchive [] collidingEntries
    ∃ final, archive {} tree (.ofString "a.jar") .empty = (final, .ok 2) ∧
      (final.table .type).get? "a.B.C" = some (.entry (.ofString "a.jar") "a/B$C.class") ∧
      final.hasPackage "a" = true := by
  intro tree
  have hopened : tree.files.openArchive (.ofString "a.jar") = _ :=
    openArchive_besideArchive ofBytes_colliding
  have hcount : (archive {} tree (.ofString "a.jar") .empty).2 = .ok 2 := by
    have hsorted : entryCandidates {} (.ofString "a.jar") collidingZip.names =
        collidingZip.names.filterMap (entryCandidate? {} (.ofString "a.jar")) := by
      rw [entryCandidates, List.mergeSort_of_pairwise (by decide +kernel)]
    rw [archive_of_opened {} _ _ _ hopened, entries, hsorted]
    decide +kernel
  have hok : archive {} tree (.ofString "a.jar") .empty = (_, .ok 2) := Prod.ext rfl hcount
  obtain ⟨hfilled, hpackages, -⟩ := (archive_contents namesOnce_zip hopened {} .empty).1 _ _ hok
  have hfree : (Index.empty.table .type).contains "a.B.C" = false := Index.contains_table_empty
  have hfirst : FirstToDerive {} collidingZip.names .type "a.B.C" "a/B$C.class" :=
    ⟨by decide +kernel, by decide +kernel, by decide +kernel, by decide +kernel⟩
  have hdirectory : InDirectory "a/B$C.class" "a" :=
    ⟨['a'], "B$C.class".toList, by decide, by decide, by decide, by decide⟩
  refine ⟨_, hok, (hfilled.new _ _ _ hfree).mpr ⟨_, hfirst, rfl⟩, ?_⟩
  exact (hpackages "a").mpr (.inr ⟨.type, _, _, hfree, hfirst, .directory hdirectory⟩)

end Discovery
end ClassIndex

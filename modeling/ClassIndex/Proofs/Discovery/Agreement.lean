/-
A directory and an archive of the same files.

With no two files of one dotted name, the candidates of either source have one place for
each name (`agree_files`, `agree_entries`), so that the order in which they come does not
matter.  The directory is then taken in exactly when the archive is and the directory can
name each class and list each directory in it; and where both are taken in, they leave the
same names behind (`directory_agrees_archive`).
-/
import ClassIndex.Proofs.Discovery.ClassPath
import ClassIndex.Proofs.Discovery.Places
import ClassIndex.Proofs.Discovery.RelativeNames
import ClassIndex.Proofs.FileTree.Following

namespace ClassIndex
namespace Discovery

open ClassIndex.Path Layout

/-- Relative names of files that a directory and an archive can both hold, no two of them
the same with dots between all parts. -/
structure FileNames (names : List String) : Prop where
  plain : ∀ n ∈ names, (Path.ofString n).IsPlain
  notMetaInf : ∀ n ∈ names, isMetaInf n.toList = false
  distinct : ∀ m ∈ names, ∀ n ∈ names, dots m.toList = dots n.toList → m = n

/-- The candidates are those of the class files among the names. -/
def OfClasses (names : List String) (candidate : String → Candidate) (cs : List Candidate) : Prop :=
  ∀ c, c ∈ cs ↔ ∃ n ∈ names, isClassFile (lastPart n) = true ∧ c = candidate n

variable {s : Settings} {files : Files} {tree : FileTree} {root jar : Path} {l : Listing}
  {names : List String}

theorem ne_nil_of_list (h : tree.list root = .ok l) : root.bytes ≠ [] := by
  obtain ⟨place, hfollow, -⟩ := FileTree.find_eq_ok_iff.mp (FileTree.list_eq_ok_iff.mp h)
  exact (FileTree.follow_eq_ok_iff.mp hfollow).2.1

/-! ## Candidates of either source -/

theorem ofClasses_files (hroot : root.bytes ≠ []) (hslash : root.bytes.getLast? ≠ some slash)
    (hnames : FileNames names)
    (hfiles : ∀ p, p ∈ l.filePaths ↔ ∃ n ∈ names, p = (Path.ofString n).steps)
    (hshort : l.AllShort root) :
    OfClasses names (fileAt root) (fileCandidates (Sight.entries (l.visit root))) := by
  intro c
  rw [fileCandidates, List.mem_filterMap]
  constructor
  · rintro ⟨path, hpath, hc⟩
    obtain ⟨p, hp, rfl⟩ := (Listing.mem_entries_visit_iff hshort).mp hpath
    obtain ⟨n, hn, rfl⟩ := (hfiles p).mp hp
    have hplain := hnames.plain n hn
    rw [descend_steps hroot hslash hplain, fileCandidate?_below hplain hroot,
      Option.ite_none_right_eq_some, Option.some_inj] at hc
    exact ⟨n, hn, hc.1, hc.2.symm⟩
  · rintro ⟨n, hn, hclass, rfl⟩
    have hplain := hnames.plain n hn
    refine ⟨root.below (.ofString n), ?_, ?_⟩
    · rw [Listing.mem_entries_visit_iff hshort]
      exact ⟨_, (hfiles _).mpr ⟨n, hn, rfl⟩, (descend_steps hroot hslash hplain).symm⟩
    · rw [fileCandidate?_below hplain hroot, if_pos hclass]

theorem ofClasses_entries (hnames : FileNames names) {listed : List String}
    (hlisted : ∀ n, n ∈ listed ↔ n ∈ names) :
    OfClasses names (entryAt jar) (entryCandidates s jar listed) := by
  intro c
  rw [entryCandidates, List.mem_filterMap]
  simp only [List.mem_mergeSort, hlisted]
  constructor
  · rintro ⟨n, hn, hc⟩
    rw [entryCandidate?_eq (hnames.notMetaInf n hn), Option.ite_none_right_eq_some,
      Option.some_inj] at hc
    exact ⟨n, hn, hc.1, hc.2.symm⟩
  · rintro ⟨n, hn, hclass, rfl⟩
    refine ⟨n, hn, ?_⟩
    rw [entryCandidate?_eq (hnames.notMetaInf n hn), if_pos hclass]

/-- A function's packages follow from its name. -/
theorem placement?_congr_of_function {c d : Candidate} (hc : c.kind s = .function)
    (hd : d.kind s = .function) (hname : c.name? s root = d.name? s root) :
    c.placement? s root = d.placement? s root := by
  unfold Candidate.placement?
  rw [hname]
  simp only [Candidate.packages?, hc, hd]

/-- The stem of a type's name is that of its file, and no two files have the same. -/
theorem fileAt_eq_of_type (hnames : FileNames names) {m n r : String} (hm : m ∈ names)
    (hn : n ∈ names) (hmclass : isClassFile (lastPart m) = true)
    (hnclass : isClassFile (lastPart n) = true) (hr : root.text? = some r)
    (hmkind : (fileAt root m).kind s = .type) (hnkind : (fileAt root n).kind s = .type)
    (hname : (fileAt root m).name? s root = (fileAt root n).name? s root) : m = n := by
  obtain ⟨mstem, hmstem⟩ := (shape_of_isClassFile hmclass).exists_stem
  obtain ⟨nstem, hnstem⟩ := (shape_of_isClassFile hnclass).exists_stem
  rw [name?_fileAt_type hmkind hr hmstem, name?_fileAt_type hnkind hr hnstem, Option.some_inj,
    String.ofList_inj] at hname
  apply hnames.distinct m hm n hn
  rw [hmstem, hnstem, dots_append, dots_append, hname]

theorem agree_files (hroot : root.bytes ≠ []) (hnames : FileNames names) {cs : List Candidate}
    (hcs : OfClasses names (fileAt root) cs) : Agree s root cs := by
  intro c hc d hd hkind hname
  obtain ⟨m, hm, hmclass, rfl⟩ := (hcs c).mp hc
  obtain ⟨n, hn, hnclass, rfl⟩ := (hcs d).mp hd
  cases hfunction : (fileAt root n).kind s with
  | function => exact placement?_congr_of_function (hkind.trans hfunction) hfunction hname
  | type =>
    cases hr : root.text? with
    | none =>
      have hnone : ∀ n ∈ names, isClassFile (lastPart n) = true →
          (fileAt root n).placement? s root = none := fun n hn hclass =>
        Candidate.placement?_of_noName
          (name?_fileAt_of_noText hroot (hnames.plain n hn) (shape_of_isClassFile hclass) hr)
      rw [hnone m hm hmclass, hnone n hn hnclass]
    | some r =>
      rw [fileAt_eq_of_type hnames hm hn hmclass hnclass hr (hkind.trans hfunction) hfunction hname]

/-- The directory can name every class. -/
def AllNameable (root : Path) (names : List String) : Prop :=
  ∀ n ∈ names, isClassFile (lastPart n) = true → Nameable root n

theorem AllNameable.placement?_eq (hnameable : AllNameable root names) (hroot : root.bytes ≠ [])
    (hslash : root.bytes.getLast? ≠ some slash) (hnames : FileNames names) {n : String}
    (hn : n ∈ names) (hclass : isClassFile (lastPart n) = true) :
    (fileAt root n).placement? s root = (entryAt jar n).placement? s ⟨[]⟩ :=
  placement?_fileAt hroot (hnames.plain n hn) hslash (shape_of_isClassFile hclass)
    (hnameable n hn hclass)

theorem agree_entries (hroot : root.bytes ≠ []) (hslash : root.bytes.getLast? ≠ some slash)
    (hnames : FileNames names) (hnameable : AllNameable root names) {cs ds : List Candidate}
    (hcs : OfClasses names (fileAt root) cs) (hds : OfClasses names (entryAt jar) ds) :
    Agree s ⟨[]⟩ ds := by
  intro c hc d hd hkind hname
  obtain ⟨m, hm, hmclass, rfl⟩ := (hds c).mp hc
  obtain ⟨n, hn, hnclass, rfl⟩ := (hds d).mp hd
  have hmshape := shape_of_isClassFile hmclass
  have hnshape := shape_of_isClassFile hnclass
  rw [← name?_fileAt hroot (hnames.plain m hm) jar hmshape (hnameable m hm hmclass),
    ← name?_fileAt hroot (hnames.plain n hn) jar hnshape (hnameable n hn hnclass)] at hname
  rw [← hnameable.placement?_eq hroot hslash hnames hm hmclass,
    ← hnameable.placement?_eq hroot hslash hnames hn hnclass]
  exact agree_files hroot hnames hcs _ ((hcs _).mpr ⟨m, hm, hmclass, rfl⟩) _
    ((hcs _).mpr ⟨n, hn, hnclass, rfl⟩) hkind hname

/-! ## Both runs -/

/-- A place that some candidate has, of those that have a property. -/
theorem exists_placed_iff {root' : Path} {cs ds : List Candidate}
    (hsame : ∀ p, (∃ c ∈ cs, c.placement? s root = some p) ↔ ∃ d ∈ ds, d.placement? s root' = some p)
    (P : Placement → Prop) : (∃ c ∈ cs, ∃ p, c.placement? s root = some p ∧ P p) ↔
      ∃ d ∈ ds, ∃ p, d.placement? s root' = some p ∧ P p := by
  constructor
  · rintro ⟨c, hc, p, hp, h⟩
    obtain ⟨d, hd, hdp⟩ := (hsame p).mp ⟨c, hc, hp⟩
    exact ⟨d, hd, p, hdp, h⟩
  · rintro ⟨d, hd, p, hp, h⟩
    obtain ⟨c, hc, hcp⟩ := (hsame p).mpr ⟨d, hd, hp⟩
    exact ⟨c, hc, p, hcp, h⟩

/-- Indexes that the same places fill have the same names. -/
theorem keys_eq_of_places {root' : Path} {i j : Index} {cs ds : List Candidate}
    (hi : Places s root cs i) (hj : Places s root' ds j)
    (hsame : ∀ p, (∃ c ∈ cs, c.placement? s root = some p) ↔ ∃ d ∈ ds, d.placement? s root' = some p) :
    (∀ kind, (i.table kind).keys = (j.table kind).keys) ∧ i.packageNames = j.packageNames := by
  constructor
  · intro kind
    apply Table.keys_eq_keys
    intro name
    rw [Bool.eq_iff_iff, hi.names, hj.names]
    exact exists_placed_iff hsame _
  · apply Table.keys_eq_keys
    intro package
    rw [Bool.eq_iff_iff]
    exact (hi.packages package).trans ((exists_placed_iff hsame _).trans (hj.packages package).symm)

section Runs

variable {cs ds : List Candidate}
  (hcs : OfClasses names (fileAt root) cs) (hds : OfClasses names (entryAt jar) ds)
  (hroot : root.bytes ≠ []) (hslash : root.bytes.getLast? ≠ some slash) (hnames : FileNames names)

include hcs hds hroot hslash hnames

theorem placed_iff (hnameable : AllNameable root names) (p : Placement) :
    (∃ c ∈ cs, c.placement? s root = some p) ↔ ∃ d ∈ ds, d.placement? s ⟨[]⟩ = some p := by
  constructor
  · rintro ⟨c, hc, hp⟩
    obtain ⟨n, hn, hclass, rfl⟩ := (hcs c).mp hc
    refine ⟨entryAt jar n, (hds _).mpr ⟨n, hn, hclass, rfl⟩, ?_⟩
    rw [← hnameable.placement?_eq hroot hslash hnames hn hclass]
    exact hp
  · rintro ⟨d, hd, hp⟩
    obtain ⟨n, hn, hclass, rfl⟩ := (hds d).mp hd
    refine ⟨fileAt root n, (hcs _).mpr ⟨n, hn, hclass, rfl⟩, ?_⟩
    rw [hnameable.placement?_eq hroot hslash hnames hn hclass]
    exact hp

theorem registerAll_agrees : (∃ final n, registerAll s root cs .empty = (final, .ok n)) ↔
    (∃ final n, registerAll s ⟨[]⟩ ds .empty = (final, .ok n)) ∧ AllNameable root names := by
  rw [registerAll_empty_eq_ok_iff (agree_files hroot hnames hcs)]
  constructor
  · intro hall
    have hnameable : AllNameable root names := by
      intro n hn hclass
      by_contra h
      have hsome := hall _ ((hcs _).mpr ⟨n, hn, hclass, rfl⟩)
      rw [placement?_fileAt_eq_none hroot (hnames.plain n hn) (shape_of_isClassFile hclass) h]
        at hsome
      cases hsome
    refine ⟨?_, hnameable⟩
    rw [registerAll_empty_eq_ok_iff (agree_entries hroot hslash hnames hnameable hcs hds)]
    intro d hd
    obtain ⟨n, hn, hclass, rfl⟩ := (hds d).mp hd
    rw [← hnameable.placement?_eq hroot hslash hnames hn hclass]
    exact hall _ ((hcs _).mpr ⟨n, hn, hclass, rfl⟩)
  · rintro ⟨hok, hnameable⟩
    rw [registerAll_empty_eq_ok_iff (agree_entries hroot hslash hnames hnameable hcs hds)] at hok
    intro c hc
    obtain ⟨n, hn, hclass, rfl⟩ := (hcs c).mp hc
    rw [hnameable.placement?_eq hroot hslash hnames hn hclass]
    exact hok _ ((hds _).mpr ⟨n, hn, hclass, rfl⟩)

theorem contents_agree (hnameable : AllNameable root names) {i j : Index} {m n : Nat}
    (hi : registerAll s root cs .empty = (i, .ok m))
    (hj : registerAll s ⟨[]⟩ ds .empty = (j, .ok n)) :
    m = n ∧ i.typeNames = j.typeNames ∧ i.functions.keys = j.functions.keys ∧
      i.packageNames = j.packageNames := by
  obtain ⟨hkeys, hpackages⟩ := keys_eq_of_places
    (places_registerAll (agree_files hroot hnames hcs) hi)
    (places_registerAll (agree_entries hroot hslash hnames hnameable hcs hds) hj)
    (placed_iff hcs hds hroot hslash hnames hnameable)
  have htypes : i.types.keys = j.types.keys := hkeys .type
  have hfunctions : i.functions.keys = j.functions.keys := hkeys .function
  refine ⟨?_, htypes, hfunctions, hpackages⟩
  have hm := registerAll_count hi
  have hn := registerAll_count hj
  have hcount : entryCount i = entryCount j := by
    rw [entryCount, entryCount, ← Table.length_keys, ← Table.length_keys, htypes, hfunctions,
      Table.length_keys, Table.length_keys]
  omega

end Runs

/-! ## Both sources -/

theorem directory_eq_ok_iff (hlist : tree.list root = .ok l) {index final : Index} {k : Nat} :
    directory s tree root index = (final, .ok k) ↔
      registerAll s root (fileCandidates (Sight.entries (l.visit root))) index = (final, .ok k) ∧
        l.AllShort root := by
  rw [directory_eq_take, Offer.take_eq_ok_iff, directoryOffer, hlist]
  show _ ∧ (Sight.closed? (l.visit root)).map _ = none ↔ _
  rw [Option.map_eq_none_iff, Listing.closed?_visit_eq_none_iff]

/-- A directory with the files of an archive is taken in exactly when the archive is and
the directory can name each of its classes and list each of its directories.  Then both
bring in as many names, the same types, the same functions and the same packages. -/
theorem directory_agrees_archive {opened : Archive}
    (hlist : files.tree.list root = .ok l) (hslash : root.bytes.getLast? ≠ some slash)
    (hopened : files.openArchive jar = .ok opened) (hnames : FileNames names)
    (hfiles : ∀ p, p ∈ l.filePaths ↔ ∃ n ∈ names, p = (Path.ofString n).steps)
    (hentries : ∀ n, n ∈ opened.names ↔ n ∈ names) :
    ((∃ i m, directory s files.tree root .empty = (i, .ok m)) ↔
      (∃ j n, archive s files jar .empty = (j, .ok n)) ∧ AllNameable root names ∧
        l.AllShort root) ∧
    ∀ i j m n, directory s files.tree root .empty = (i, .ok m) →
      archive s files jar .empty = (j, .ok n) →
      m = n ∧ i.typeNames = j.typeNames ∧ i.functions.keys = j.functions.keys ∧
        i.packageNames = j.packageNames := by
  have hroot := ne_nil_of_list hlist
  have hds : OfClasses names (entryAt jar) (entryCandidates s jar opened.names) :=
    ofClasses_entries hnames hentries
  have hcs : l.AllShort root →
      OfClasses names (fileAt root) (fileCandidates (Sight.entries (l.visit root))) :=
    ofClasses_files hroot hslash hnames hfiles
  simp only [directory_eq_ok_iff hlist, archive_of_opened s files jar _ hopened, entries]
  constructor
  · constructor
    · rintro ⟨i, m, hi, hshort⟩
      obtain ⟨hok, hnameable⟩ :=
        (registerAll_agrees (hcs hshort) hds hroot hslash hnames).mp ⟨i, m, hi⟩
      exact ⟨hok, hnameable, hshort⟩
    · rintro ⟨hok, hnameable, hshort⟩
      obtain ⟨i, m, hi⟩ :=
        (registerAll_agrees (hcs hshort) hds hroot hslash hnames).mpr ⟨hok, hnameable⟩
      exact ⟨i, m, hi, hshort⟩
  · rintro i j m n ⟨hi, hshort⟩ hj
    have hnameable := ((registerAll_agrees (hcs hshort) hds hroot hslash hnames).mp ⟨i, m, hi⟩).2
    exact contents_agree (hcs hshort) hds hroot hslash hnames hnameable hi hj

set_option maxRecDepth 1000 in
/-- A function in a package comes out of both sources alike. -/
theorem directory_agrees_archive_packaged :
    let tree := besideArchive
      [(Utf8.bytesOf "p", .directory [(Utf8.bytesOf "Function_f.class", .file [])])]
      ["p/Function_f.class"]
    ∃ i j n, directory {} tree (.ofString "/tmp/work/d") .empty = (i, .ok n) ∧
      archive {} tree (.ofString "a.jar") .empty = (j, .ok n) ∧
      i.functions.keys = j.functions.keys ∧ i.packageNames = j.packageNames := by
  intro tree
  have hlist : tree.files.tree.list (.ofString "/tmp/work/d") = .ok
      [(Utf8.bytesOf "p", .directory [(Utf8.bytesOf "Function_f.class", .file [])])] := by cbv
  have hzip : Zip.ofBytes (archiveOf (["p/Function_f.class"].map Utf8.bytesOf)) =
      .ok ⟨archiveOf (["p/Function_f.class"].map Utf8.bytesOf),
        [⟨"p/Function_f.class", false, 0, 0, 0, 0⟩]⟩ := by cbv
  have hopened : tree.files.openArchive (.ofString "a.jar") = _ := openArchive_besideArchive hzip
  have hnames : FileNames ["p/Function_f.class"] := by
    refine ⟨?_, ?_, ?_⟩
    · intro n hn
      rw [List.mem_singleton.mp hn]
      show ∀ segment ∈ _, _
      decide +kernel
    · intro n hn
      rw [List.mem_singleton.mp hn]
      decide +kernel
    · intro m hm n hn _
      rw [List.mem_singleton.mp hm, List.mem_singleton.mp hn]
  have hfiles : ∀ p, p ∈ Listing.filePaths
      [(Utf8.bytesOf "p", .directory [(Utf8.bytesOf "Function_f.class", .file [])])] ↔
        ∃ n ∈ ["p/Function_f.class"], p = (Path.ofString n).steps := by
    have hpaths : Listing.filePaths
        [(Utf8.bytesOf "p", .directory [(Utf8.bytesOf "Function_f.class", .file [])])] =
          [(Path.ofString "p/Function_f.class").steps] := by
      simp only [Listing.filePaths, List.map_cons, List.map_nil, List.append_nil]
      decide +kernel
    intro p
    rw [hpaths]
    simp
  have hnameable : AllNameable (.ofString "/tmp/work/d") ["p/Function_f.class"] := by
    intro n hn _
    rw [List.mem_singleton.mp hn]
    refine ⟨by decide +kernel, by decide +kernel, fun h => absurd h (by decide +kernel)⟩
  have hshort : Listing.AllShort (.ofString "/tmp/work/d")
      [(Utf8.bytesOf "p", .directory [(Utf8.bytesOf "Function_f.class", .file [])])] := by
    have hpaths : Listing.directoryPaths
        [(Utf8.bytesOf "p", .directory [(Utf8.bytesOf "Function_f.class", .file [])])] =
          [[Utf8.bytesOf "p"]] := by
      simp only [Listing.directoryPaths, List.map_nil, List.append_nil]
    intro names hmem
    rw [hpaths, List.mem_singleton] at hmem
    rw [hmem]
    decide +kernel
  have hjar : (archive {} tree (.ofString "a.jar") .empty).2 = .ok 1 := by
    rw [archive_of_single hopened rfl]
    decide +kernel
  obtain ⟨hok, hsame⟩ := directory_agrees_archive (s := {}) hlist (by decide) hopened hnames hfiles
    fun n => Iff.rfl
  obtain ⟨i, m, hi⟩ := hok.mpr ⟨⟨_, 1, Prod.ext rfl hjar⟩, hnameable, hshort⟩
  obtain ⟨rfl, -, hfunctions, hpackages⟩ := hsame i _ m 1 hi (Prod.ext rfl hjar)
  exact ⟨i, _, 1, hi, Prod.ext rfl hjar, hfunctions, hpackages⟩

set_option maxRecDepth 1000 in
/-- An archive takes a type for another one, where a directory of the same file fails. -/
theorem archive_drops_dollar :
    let tree := besideArchive [(Utf8.bytesOf "$A.class", .file [])] ["$A.class"]
    (directory {} tree (.ofString "d") .empty).2 = .error (.index (.invalidName ".A")) ∧
      (archive {} tree (.ofString "a.jar") .empty).2 = .ok 1 ∧
      (archive {} tree (.ofString "a.jar") .empty).1.typeNames = ["A"] := by
  intro tree
  have hdirectory : directory {} tree (.ofString "d") .empty =
      sights {} (.ofString "d") [.entry (.ofString "d/$A.class")] .empty := by
    have hlist : tree.list (.ofString "d") = .ok [(Utf8.bytesOf "$A.class", .file [])] := by cbv
    have hvisit : Listing.visit (.ofString "d") [(Utf8.bytesOf "$A.class", .file [])] =
        [.entry (.ofString "d/$A.class")] := by cbv
    rw [directory_of_list {} tree _ _ hlist, hvisit]
  have hzip : Zip.ofBytes (archiveOf (["$A.class"].map Utf8.bytesOf)) =
      .ok ⟨archiveOf (["$A.class"].map Utf8.bytesOf), [⟨"$A.class", false, 0, 0, 0, 0⟩]⟩ := by cbv
  rw [hdirectory, archive_of_single (openArchive_besideArchive hzip) rfl]
  refine ⟨?_, ?_, ?_⟩ <;> decide +kernel

end Discovery
end ClassIndex

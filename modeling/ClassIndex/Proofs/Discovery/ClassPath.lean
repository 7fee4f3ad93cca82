/-
The first entry of a class path that has a name decides it.

What a class path entry offers, the candidates in it and what is wrong with it, does not
depend on the index (`entry_eq_take`).  A run over several entries is therefore the run of
each one on its own, put together with the earlier above the later (`entry_above` is the
step, `entriesOf_above` the run).  `classPath_tables` is the statement for a whole class
path.
-/
import ClassIndex.Proofs.Discovery.Registration

namespace ClassIndex
namespace Discovery

/-! ## What an entry offers -/

/-- The candidates of a class path entry, and what stands in the way after them. -/
structure Offer where
  root : Path
  candidates : List Candidate
  fault? : Option DiscoveryError

namespace Offer

def take (o : Offer) (s : Settings) (index : Index) : Outcome Nat :=
  match registerAll s o.root o.candidates index with
  | (index, .error e) => (index, .error e)
  | (index, .ok n) =>
    match o.fault? with
    | some e => (index, .error e)
    | none => (index, .ok n)

/-- Nothing, because of a fault or for no reason. -/
def nothing (fault? : Option DiscoveryError) : Offer :=
  ⟨⟨[]⟩, [], fault?⟩

variable {s : Settings} {o : Offer} {index : Index}

theorem take_eq_ok_iff {final : Index} {n : Nat} : o.take s index = (final, .ok n) ↔
    registerAll s o.root o.candidates index = (final, .ok n) ∧ o.fault? = none := by
  unfold take
  rcases registerAll s o.root o.candidates index with ⟨middle, e | m⟩
  · simp
  · cases o.fault? <;> simp

theorem take_onlyAdds (hfault : ∀ kind name, o.fault? ≠ some (.index (.duplicate kind name))) :
    OnlyAdds index (o.take s index) := by
  have hrun := registerAll_onlyAdds s o.root o.candidates index
  unfold take
  rcases hr : registerAll s o.root o.candidates index with ⟨final, e | n⟩
  · rw [hr] at hrun
    exact hrun.fail
  · rw [hr] at hrun
    cases hf : o.fault? with
    | none => exact hrun
    | some e =>
      refine ⟨hrun.1, ?_⟩
      intro kind name he
      cases he
      exact hfault kind name hf

theorem take_tables {final : Index} {n : Nat} (hok : o.take s index = (final, .ok n))
    (kind : EntryKind) (name : String) : (final.table kind).get? name =
      ((index.table kind).get? name).or
        (o.candidates.findSome? (Candidate.binding? s o.root kind name)) :=
  registerAll_tables (take_eq_ok_iff.mp hok).1 kind name

theorem take_eq_ok_of_covers {under below : Index} {n : Nat} (h : Covers index under)
    (hok : o.take s under = (below, .ok n)) : ∃ final n', o.take s index = (final, .ok n') := by
  obtain ⟨hrun, hfault⟩ := take_eq_ok_iff.mp hok
  obtain ⟨final, n', hrun'⟩ := registerAll_eq_ok_of_covers h hrun
  exact ⟨final, n', take_eq_ok_iff.mpr ⟨hrun', hfault⟩⟩

end Offer

def directoryOffer (tree : FileTree) (root : Path) : Offer :=
  match tree.list root with
  | .error cause => .nothing (some (.unreadable root cause))
  | .ok entries =>
    let met := entries.visit root
    ⟨root, fileCandidates (Sight.entries met),
      (Sight.closed? met).map fun dir => .unreadable dir .nameTooLong⟩

def archiveOffer (s : Settings) (files : Files) (path : Path) : Offer :=
  match files.openArchive path with
  | .error (.file cause) => .nothing (some (.unreadable path cause))
  | .error (.archive cause) => .nothing (some (.archive path cause))
  | .ok opened => ⟨⟨[]⟩, entryCandidates s path opened.names, none⟩

def offer (s : Settings) (files : Files) (path : Path) : Offer :=
  if files.tree.isDirectory path then directoryOffer files.tree path
  else if files.tree.isFile path && hasArchiveExtension s path then archiveOffer s files path
  else .nothing none

section Entries

variable (s : Settings) (files : Files) (tree : FileTree) (path : Path) (index : Index)

theorem directory_eq_take :
    directory s tree path index = (directoryOffer tree path).take s index := by
  unfold directory directoryOffer
  cases tree.list path with
  | error cause => rfl
  | ok entries =>
    simp only [sights, Offer.take]
    rcases registerAll s path _ index with ⟨final, e | n⟩
    · rfl
    · cases Sight.closed? (entries.visit path) <;> rfl

theorem directory_of_list {l : Listing} (hlist : tree.list path = .ok l) :
    directory s tree path index = sights s path (l.visit path) index := by
  rw [directory, hlist]

theorem archive_of_opened {opened : Archive} (hopened : files.openArchive path = .ok opened) :
    archive s files path index = entries s path opened.names index := by
  rw [archive, hopened]

theorem archive_eq_take :
    archive s files path index = (archiveOffer s files path).take s index := by
  unfold archive archiveOffer
  cases files.openArchive path with
  | error e => cases e <;> rfl
  | ok opened =>
    simp only [entries, Offer.take]
    rcases registerAll s ⟨[]⟩ _ index with ⟨final, e | n⟩ <;> rfl

theorem entry_eq_take : entry s files path index = (offer s files path).take s index := by
  unfold entry offer
  by_cases hdirectory : files.tree.isDirectory path = true
  · rw [if_pos hdirectory, if_pos hdirectory]
    exact directory_eq_take s files.tree path index
  · rw [if_neg hdirectory, if_neg hdirectory]
    by_cases harchive : (files.tree.isFile path && hasArchiveExtension s path) = true
    · rw [if_pos harchive, if_pos harchive]
      exact archive_eq_take s files path index
    · rw [if_neg harchive, if_neg harchive]
      rfl

/-- What is wrong with an entry is never a name. -/
theorem fault?_offer (kind : EntryKind) (name : String) :
    (offer s files path).fault? ≠ some (.index (.duplicate kind name)) := by
  unfold offer directoryOffer archiveOffer Offer.nothing
  split
  · split
    · nofun
    · intro h
      obtain ⟨dir, -, hdir⟩ := Option.map_eq_some_iff.mp h
      cases hdir
  · split
    · split <;> nofun
    · nofun

theorem entry_onlyAdds : OnlyAdds index (entry s files path index) := by
  rw [entry_eq_take]
  exact Offer.take_onlyAdds (fault?_offer s files path)

end Entries

/-! ## Class paths -/

variable {s : Settings} {files : Files} {path : Path} {index : Index}

/-- The step: an entry that succeeds on its own succeeds with any index, and brings the
names that the index does not have. -/
theorem entry_above (index : Index) {n : Nat} (hok : (entry s files path .empty).2 = .ok n) :
    ∃ final n', entry s files path index = (final, .ok n') ∧
      ∀ kind name, (final.table kind).get? name = ((index.table kind).get? name).or
        (((entry s files path .empty).1.table kind).get? name) := by
  have hown : (offer s files path).take s .empty = ((entry s files path .empty).1, .ok n) := by
    rw [← entry_eq_take, ← hok]
  obtain ⟨final, n', hrun⟩ := Offer.take_eq_ok_of_covers (covers_empty index) hown
  refine ⟨final, n', (entry_eq_take s files path index).trans hrun, ?_⟩
  intro kind name
  rw [Offer.take_tables hrun, Offer.take_tables hown, Index.get?_table_empty, Option.none_or]

theorem entriesOf_cons_eq_ok {paths : List Path} {final : Index} {n : Nat} :
    entriesOf s files (path :: paths) index = (final, .ok n) ↔
      ∃ middle k m, entry s files path index = (middle, .ok k) ∧
        entriesOf s files paths middle = (final, .ok m) ∧ n = k + m := by
  rw [entriesOf]
  constructor
  · intro h
    rcases hfirst : entry s files path index with ⟨middle, e | k⟩
    · rw [hfirst] at h
      cases h
    · rw [hfirst] at h
      rcases hrest : entriesOf s files paths middle with ⟨final', e | m⟩
      · simp only [hrest] at h
        cases h
      · simp only [hrest] at h
        cases h
        exact ⟨middle, k, m, rfl, hrest, rfl⟩
  · rintro ⟨middle, k, m, hfirst, hrest, rfl⟩
    simp only [hfirst, hrest]

theorem entriesOf_onlyAdds (s : Settings) (files : Files) (paths : List Path) (index : Index) :
    OnlyAdds index (entriesOf s files paths index) := by
  induction paths generalizing index with
  | nil => exact onlyAdds_ok 0
  | cons path rest ih =>
    have hstep := entry_onlyAdds s files path index
    unfold entriesOf
    rcases hentry : entry s files path index with ⟨middle, e | n⟩
    · rw [hentry] at hstep
      exact hstep.fail
    · rw [hentry] at hstep
      have hrest := hstep.trans (ih middle)
      simp only
      rcases hrun : entriesOf s files rest middle with ⟨final, e | m⟩
      · rw [hrun] at hrest
        exact hrest.fail
      · rw [hrun] at hrest
        exact hrest.yield _

/-- Where the first of several entries that has a name, on its own, makes it lead. -/
def firstBinding (s : Settings) (files : Files) (paths : List Path) (kind : EntryKind)
    (name : String) : Option Binary :=
  paths.findSome? fun path => ((entry s files path .empty).1.table kind).get? name

/-- The run: the names of the index stay, and the others go to the first entry that has
them. -/
theorem entriesOf_above {paths : List Path} (index : Index)
    (hok : ∀ path ∈ paths, ∃ n, (entry s files path .empty).2 = .ok n) :
    ∃ index' n, entriesOf s files paths index = (index', .ok n) ∧
      ∀ kind name, (index'.table kind).get? name =
        ((index.table kind).get? name).or (firstBinding s files paths kind name) := by
  induction paths generalizing index with
  | nil => exact ⟨index, 0, rfl, fun kind name => Option.or_none.symm⟩
  | cons path rest ih =>
    obtain ⟨n, hn⟩ := hok path List.mem_cons_self
    obtain ⟨middle, k, hfirst, habove⟩ := entry_above index hn
    obtain ⟨final, m, hrest, htables⟩ :=
      ih middle fun path hmem => hok path (List.mem_cons_of_mem _ hmem)
    refine ⟨final, k + m, entriesOf_cons_eq_ok.mpr ⟨_, _, _, hfirst, hrest, rfl⟩, ?_⟩
    intro kind name
    rw [htables, habove, Option.or_assoc]
    congr 1
    unfold firstBinding
    rw [List.findSome?_cons]
    cases ((entry s files path .empty).1.table kind).get? name <;> rfl

theorem classPath_eq_ok_iff {paths : List Path} : classPath s files paths = .ok index ↔
    ∃ n, entriesOf s files paths .empty = (index, .ok n) := by
  unfold classPath
  rcases entriesOf s files paths .empty with ⟨final, e | n⟩
  · simp
  · simp

/-- A class path whose entries can each be taken in can be taken in, and leads a name to
where the first entry that has it leads it.  Whatever is taken in later, or cannot be,
leaves the names that are there alone, and a name that comes twice is never the reason of
a failure. -/
theorem classPath_tables (s : Settings) (files : Files) :
    (∀ paths, (∀ path ∈ paths, ∃ n, (entry s files path .empty).2 = .ok n) →
      ∃ index, classPath s files paths = .ok index ∧
        ∀ kind name, (index.table kind).get? name = firstBinding s files paths kind name) ∧
    (∀ path index kind name binary, (index.table kind).get? name = some binary →
      ((entry s files path index).1.table kind).get? name = some binary) ∧
    (∀ paths kind name, classPath s files paths ≠ .error (.index (.duplicate kind name))) := by
  refine ⟨?_, ?_, ?_⟩
  · intro paths hok
    obtain ⟨index, n, hrun, htables⟩ := entriesOf_above .empty hok
    refine ⟨index, classPath_eq_ok_iff.mpr ⟨n, hrun⟩, ?_⟩
    intro kind name
    rw [htables, Index.get?_table_empty, Option.none_or]
  · intro path index
    exact (entry_onlyAdds s files path index).1
  · intro paths kind name h
    have hrun := (entriesOf_onlyAdds s files paths .empty).2 kind name
    unfold classPath at h
    rcases hentries : entriesOf s files paths .empty with ⟨final, e | n⟩
    · rw [hentries] at h hrun
      exact hrun (congrArg Except.error (Except.error.inj h))
    · rw [hentries] at h
      cases h

/-! ## An archive before a directory -/

theorem openArchive_of_zip {tree : FileTree} {stream : FileTree.Stream} {a : Zip}
    (hopen : tree.openFile path = .ok stream) (hzip : Zip.ofStream stream = .ok a) :
    tree.files.openArchive path = .ok ⟨a.names, a.read⟩ := by
  have hreader : tree.files.reader stream = .ok ⟨a.names, a.read⟩ := by
    show Zip.reader stream = _
    rw [Zip.reader, hzip]
    rfl
  have hstream : tree.files.tree.openFile path = .ok stream := hopen
  rw [Files.openArchive, hstream]
  show (tree.files.reader stream).mapError ReadError.archive = _
  rw [hreader]
  rfl

/-- With one entry there is nothing to sort. -/
theorem archive_of_single {opened : Archive} {name : String}
    (hopened : files.openArchive path = .ok opened) (hnames : opened.names = [name]) :
    archive s files path index =
      registerAll s ⟨[]⟩ (entryCandidate? s path name).toList index := by
  rw [archive_of_opened s files path index hopened, hnames, entries, entryCandidates,
    List.mergeSort_singleton, List.filterMap_cons]
  cases entryCandidate? s path name <;> rfl

/-- The part of an archive's headers that tells of an empty file with a name. -/
def emptyFileHeader (name : List UInt8) : List UInt8 :=
  [10, 0, 0, 0, 0, 0, 0, 0, 33, 0, 0, 0, 0, 0, 0, 0, 0, 0, 0, 0, 0, 0,
    UInt8.ofNat name.length, 0, 0, 0]

/-- The headers and names of empty files, one after the other. -/
def localHeaders (names : List (List UInt8)) : List UInt8 :=
  names.flatMap fun name => [0x50, 0x4B, 3, 4] ++ emptyFileHeader name ++ name

/-- The directory of an archive whose first file starts at `offset`. -/
def directoryHeaders (offset : Nat) : List (List UInt8) → List UInt8
  | [] => []
  | name :: rest =>
    [0x50, 0x4B, 1, 2, 10, 0] ++ emptyFileHeader name ++
      [0, 0, 0, 0, 0, 0, 0, 0, 0, 0, UInt8.ofNat offset, 0, 0, 0] ++ name ++
      directoryHeaders (offset + 30 + name.length) rest

/-- The bytes of an archive that holds a few empty files. -/
def archiveOf (names : List (List UInt8)) : List UInt8 :=
  localHeaders names ++ directoryHeaders 0 names ++
    [0x50, 0x4B, 5, 6, 0, 0, 0, 0, UInt8.ofNat names.length, 0, UInt8.ofNat names.length, 0,
      UInt8.ofNat (directoryHeaders 0 names).length, 0, 0, 0,
      UInt8.ofNat (localHeaders names).length, 0, 0, 0, 0, 0]

/-- A directory `d` beside an archive `a.jar` of empty files. -/
def besideArchive (l : Listing) (names : List String) : FileTree :=
  .ofEntries [(Utf8.bytesOf "d", .directory l),
    (Utf8.bytesOf "a.jar", .file (archiveOf (names.map Utf8.bytesOf)))]

theorem openFile_besideArchive (l : Listing) (names : List String) :
    (besideArchive l names).openFile (.ofString "a.jar") =
      .ok (.content (archiveOf (names.map Utf8.bytesOf))) := by
  cbv

theorem openArchive_besideArchive {l : Listing} {names : List String} {a : Zip}
    (hzip : Zip.ofBytes (archiveOf (names.map Utf8.bytesOf)) = .ok a) :
    (besideArchive l names).files.openArchive (.ofString "a.jar") = .ok ⟨a.names, a.read⟩ :=
  openArchive_of_zip (openFile_besideArchive l names) hzip

/-- A type, which the archive beside has too, and a function in a package. -/
def typeAndFunction : Listing :=
  [(Utf8.bytesOf "X.class", .file []),
    (Utf8.bytesOf "p", .directory [(Utf8.bytesOf "Function_f.class", .file [])])]

set_option maxRecDepth 1000 in
/-- The type leads into the archive, which comes first and is given from the top, and the
function into the directory, which is given by way of the one above the working
directory. -/
theorem classPath_tables_archiveFirst :
    let files := besideArchive typeAndFunction ["X.class"]
    ∃ index, classPath {} files
        [.ofString "/tmp/work/a.jar", .ofString "gone", .ofString "../work/d"] = .ok index ∧
      (index.table .type).get? "X" = some (.entry (.ofString "/tmp/work/a.jar") "X.class") ∧
      (index.table .function).get? "p.f" =
        some (.file (.ofString "../work/d/p/Function_f.class")) := by
  intro files
  have hjar : entry {} files (.ofString "/tmp/work/a.jar") .empty =
      registerAll {} ⟨[]⟩ (entryCandidate? {} (.ofString "/tmp/work/a.jar") "X.class").toList
        .empty := by
    have hdirectory : files.isDirectory (.ofString "/tmp/work/a.jar") = false := by cbv
    have hfile : (files.isFile (.ofString "/tmp/work/a.jar") &&
        hasArchiveExtension {} (.ofString "/tmp/work/a.jar")) = true := by cbv
    have hopen : files.openFile (.ofString "/tmp/work/a.jar") =
        .ok (.content (archiveOf (["X.class"].map Utf8.bytesOf))) := by cbv
    have hzip : Zip.ofBytes (archiveOf (["X.class"].map Utf8.bytesOf)) =
        .ok ⟨archiveOf (["X.class"].map Utf8.bytesOf), [⟨"X.class", false, 0, 0, 0, 0⟩]⟩ := by cbv
    rw [entry, FileTree.tree_files, hdirectory, hfile, if_neg (by decide), if_pos rfl]
    exact archive_of_single (openArchive_of_zip hopen hzip) rfl
  have hgone : entry {} files (.ofString "gone") .empty = (.empty, .ok 0) := by
    have hdirectory : files.isDirectory (.ofString "gone") = false := by cbv
    have hfile : files.isFile (.ofString "gone") = false := by cbv
    rw [entry, FileTree.tree_files, hdirectory, hfile, if_neg (by decide), if_neg (by decide)]
  have hdirectory : entry {} files (.ofString "../work/d") .empty =
      sights {} (.ofString "../work/d") [.entry (.ofString "../work/d/X.class"),
        .entry (.ofString "../work/d/p/Function_f.class")] .empty := by
    have hdirectory : files.isDirectory (.ofString "../work/d") = true := by cbv
    have hlist : files.list (.ofString "../work/d") = .ok typeAndFunction := by cbv
    have hvisit : typeAndFunction.visit (.ofString "../work/d") =
        [.entry (.ofString "../work/d/X.class"),
          .entry (.ofString "../work/d/p/Function_f.class")] := by cbv
    rw [entry, FileTree.tree_files, hdirectory, if_pos rfl, directory_of_list {} files _ _ hlist,
      hvisit]
  obtain ⟨index, hindex, htables⟩ := (classPath_tables {} files).1
    [.ofString "/tmp/work/a.jar", .ofString "gone", .ofString "../work/d"] (by
      simp only [List.forall_mem_cons]
      refine ⟨⟨1, ?_⟩, ⟨0, ?_⟩, ⟨2, ?_⟩, List.forall_mem_nil _⟩
      · rw [hjar]
        decide +kernel
      · rw [hgone]
      · rw [hdirectory]
        decide +kernel)
  refine ⟨index, hindex, ?_, ?_⟩
  · rw [htables]
    unfold firstBinding
    rw [List.findSome?_cons, hjar]
    decide +kernel
  · rw [htables]
    unfold firstBinding
    rw [List.findSome?_cons, List.findSome?_cons, List.findSome?_cons, hjar, hgone, hdirectory]
    decide +kernel

end Discovery
end ClassIndex

/-
What functions fail for in their layout.

A class counts as a function's once its file starts with the marker, and then a name is
read off what the file has between marker and ending.  Of the classes that a directory or
an archive holds (`Met`) some therefore count as functions and have no name: those that lie
directly in the root, and those in whose file the marker and the ending share characters.
`Reading` has a case for each of them, and no others but the name itself and a path that is
no text (`function_layout_faults`).  The second kind does not occur as long as the marker does
not end as the ending begins (`registerAll_ne_notAFunctionClass`).

With a marker that overlaps the ending of class files, one class that is not called after a
function makes its whole directory or archive fail (`marker_overlaps_ending`).
-/
import ClassIndex.Proofs.Discovery.ArchiveContents
import ClassIndex.Proofs.Discovery.LayoutFaults
import ClassIndex.Proofs.Layout.Functions

namespace ClassIndex
namespace Discovery

open ClassIndex.Path Layout

variable {s : Settings} {root jar path : Path} {c : Candidate} {n : String} {stem : List Char}

/-! ## Classes that are met -/

/-- A candidate that a visit to the root comes upon, or the entry of an archive. -/
inductive Met (s : Settings) (root : Path) (c : Candidate) : Prop where
  | visited {l : Listing} (hnames : ∀ names ∈ l.filePaths, ∀ name ∈ names, IsName name)
    (h : c ∈ fileCandidates (Sight.entries (l.visit root)))
  | listed {jar : Path} {n : String} (hroot : root = ⟨[]⟩) (h : entryCandidate? s jar n = some c)

/-- A candidate that lies directly in the root. -/
def Candidate.Loose (root : Path) (c : Candidate) : Prop :=
  c.path = root.join (Utf8.bytesOf c.fileName)

instance : Decidable (c.Loose root) :=
  inferInstanceAs (Decidable (_ = _))

/-- A class file, in the root or in a directory further down. -/
structure ClassFileIn (root : Path) (c : Candidate) (stem : List Char) : Prop where
  file : c.fileName.toList = stem ++ suffix
  name : IsName (Utf8.encode (stem ++ suffix))
  fileName : c.path.fileName = some (Utf8.encode (stem ++ suffix))
  place : c.Loose root ∨ ∃ parent, Inside c.path root parent

theorem Candidate.loose_iff (hfile : c.fileName.toList = stem ++ suffix) :
    c.Loose root ↔ c.path = root.join (Utf8.encode (stem ++ suffix)) := by
  rw [Loose, Utf8.bytesOf_eq_encode, hfile]

theorem fileName_of_fileCandidate? (h : fileCandidate? path = some c) :
    path.fileName = some (Utf8.encode c.fileName.toList) ∧ isClassFile c.fileName = true := by
  unfold fileCandidate? at h
  rw [Option.bind_eq_bind, Option.bind_eq_some_iff] at h
  obtain ⟨file, hfile, h⟩ := h
  obtain ⟨bytes, hbytes, hdecode⟩ := Option.bind_eq_some_iff.mp hfile
  obtain ⟨hclass, hc⟩ := Option.ite_none_right_eq_some.mp h
  cases hc
  rw [String.toList_ofList, hbytes, Utf8.decode?_eq_some_iff.mp hdecode]
  exact ⟨rfl, hclass⟩

theorem exists_classFileIn_of_visited {l : Listing}
    (hnames : ∀ names ∈ l.filePaths, ∀ name ∈ names, IsName name)
    (h : c ∈ fileCandidates (Sight.entries (l.visit root))) : ∃ stem, ClassFileIn root c stem := by
  obtain ⟨path, -, hc⟩ := List.mem_filterMap.mp h
  obtain ⟨front, last, hmem, hpath⟩ := exists_of_mem_classFiles (mem_classFiles_of_visited h)
  rw [← path_of_fileCandidate? hc, hpath] at hc
  obtain ⟨hfront, hlast⟩ := List.forall_mem_append.mp (hnames _ hmem)
  have hname : IsName last := List.forall_mem_singleton.mp hlast
  obtain ⟨hfileName, hclass⟩ := fileName_of_fileCandidate? hc
  obtain ⟨stem, hstem⟩ := (isClassFile_iff.mp hclass).1
  have hsame : last = Utf8.encode (stem ++ suffix) := by
    have hjoin := fileName_join (root.descend front) hname.1 hname.isPlain
    rw [← descend_concat, hfileName, ← hstem] at hjoin
    exact (Option.some.inj hjoin).symm
  subst hsame
  refine ⟨stem, hstem.symm, hname, by rw [hpath, hfileName, hstem], ?_⟩
  by_cases hnil : front = []
  · subst hnil
    exact .inl ((Candidate.loose_iff hstem.symm).mpr hpath)
  · exact .inr ⟨_, hpath ▸ inside_descend hnil hfront hname⟩

theorem exists_classFileIn_of_listed (h : entryCandidate? s jar n = some c) :
    ∃ stem, ClassFileIn ⟨[]⟩ c stem := by
  obtain ⟨hclass, rfl⟩ := entryCandidate?_eq_some_iff.mp h
  obtain ⟨stem, hstem⟩ := hclass.classFile
  have hfile : (entryAt jar n).fileName.toList = stem ++ suffix := hstem.symm
  rcases lastPart_eq n with ⟨heq, hsingle⟩ | ⟨outer, last, hn, hlast, heq⟩
  · rw [heq] at hstem
    have hno : '/' ∉ stem := fun hmem => hsingle (hstem ▸ List.mem_append_left _ hmem)
    obtain ⟨hslash, hplain⟩ := isPlain_classFile hno
    have hpath : (entryAt jar n).path = (⟨[]⟩ : Path).join (Utf8.encode (stem ++ suffix)) := by
      rw [hstem, ← bytes_ofString]
      rfl
    refine ⟨stem, hfile, isName_of_isPlain hslash hplain, ?_, ?_⟩
    · rw [hpath]
      exact fileName_join _ hslash hplain
    · exact .inl ((Candidate.loose_iff hfile).mpr hpath)
  · rw [heq, String.toList_ofList] at hstem
    subst hstem
    have hno : '/' ∉ stem := fun hmem => hlast (List.mem_append_left _ hmem)
    obtain ⟨hslash, hplain⟩ := isPlain_classFile hno
    have hname := isName_of_isPlain hslash hplain
    refine ⟨stem, hfile, hname, ?_, .inr (exists_inside_ofString hn hname)⟩
    show (Path.ofString n).fileName = _
    rw [ofString_of_nested hn]
    exact fileName_append_slash _ hslash hplain

theorem Met.exists_classFileIn (h : Met s root c) : ∃ stem, ClassFileIn root c stem := by
  cases h with
  | visited hnames h => exact exists_classFileIn_of_visited hnames h
  | listed hroot h =>
    subst hroot
    exact exists_classFileIn_of_listed h

/-! ## Reading the names of functions -/

/-- What comes of reading the name of a function: a name, and otherwise one of three
faults. -/
inductive Reading (s : Settings) (root : Path) (c : Candidate) :
    Except LayoutError String → Prop where
  | noText {shown : String} (hpath : c.path.text? = none) : Reading s root c (.error (.notUtf8 shown))
  | loose {above r : String} (hpath : c.path.text? ≠ none) (hloose : c.Loose root)
    (hr : root.text? = some r) : Reading s root c (.error (.outsideRoot above r))
  | overlapping (hpath : c.path.text? ≠ none) (hloose : ¬ c.Loose root)
    (hafter : ¬ CalledAfter s.functionMarker c.fileName.toList)
    (hoverlaps : Overlaps s.functionMarker) :
    Reading s root c (.error (.notAFunctionClass c.path.display s.functionMarker))
  | named {name : String} (hpath : c.path.text? ≠ none) (hloose : ¬ c.Loose root)
    (hafter : CalledAfter s.functionMarker c.fileName.toList) : Reading s root c (.ok name)

theorem ClassFileIn.above (h : ClassFileIn root c stem) : ∃ parent, Above c.path root parent := by
  rcases h.place with hloose | ⟨parent, hinside⟩
  · rw [(Candidate.loose_iff h.file).mp hloose]
    exact ⟨_, above_join h.name⟩
  · exact ⟨parent, hinside.toAbove⟩

theorem ClassFileIn.reading (h : ClassFileIn root c stem)
    (hmarker : s.functionMarker.toList <+: stem ++ suffix) :
    Reading s root c (functionName s.functionMarker c.path root) := by
  obtain ⟨parent, habove⟩ := h.above
  by_cases hpath : c.path.text? = none
  · obtain ⟨shown, hshown⟩ := exists_functionName_eq_notUtf8 s.functionMarker habove hpath
    rw [hshown]
    exact .noText hpath
  by_cases hloose : c.Loose root
  · obtain ⟨-, r, hr⟩ := habove.texts.mp (Option.ne_none_iff_exists'.mp hpath)
    obtain ⟨above, houtside⟩ := functionName_join_eq_error s.functionMarker h.name hr
    rw [← (Candidate.loose_iff h.file).mp hloose] at houtside
    rw [houtside]
    exact .loose hpath hloose hr
  obtain ⟨parent, hinside⟩ := h.place.resolve_left hloose
  obtain ⟨hnamed, hfault⟩ := functionName_of_inside hinside hpath h.fileName
  by_cases hafter : CalledAfter s.functionMarker (stem ++ suffix)
  · obtain ⟨name, hname⟩ := hnamed hafter
    rw [hname]
    exact .named hpath hloose (h.file ▸ hafter)
  · rw [hfault hafter]
    exact .overlapping hpath hloose (h.file ▸ hafter)
      (exists_not_calledAfter_iff.mp ⟨stem, hmarker, hafter⟩)

theorem register_function_eq_error_iff {index final : Index} {e : LayoutError}
    (hfunction : c.isFunction s = true) :
    register s root c index = (final, .error (.layout e)) ↔
      final = index ∧ functionName s.functionMarker c.path root = .error e := by
  rw [register, if_pos hfunction]
  constructor
  · intro h
    refine ⟨registerFunction_eq_error_layout h, ?_⟩
    unfold registerFunction at h
    split at h
    · next hname =>
      cases h
      exact hname
    · split at h
      · cases h
      · split at h <;> cases h
  · intro h
    obtain ⟨rfl, he⟩ := h
    rw [registerFunction, he]

theorem Met.reading (h : Met s root c) (hfunction : c.isFunction s = true) :
    Reading s root c (functionName s.functionMarker c.path root) := by
  obtain ⟨stem, hstem⟩ := h.exists_classFileIn
  apply hstem.reading
  rw [← hstem.file]
  exact Affix.isSome_after?_iff.mp hfunction

/-- With a marker that does not overlap the ending, no run fails for what the file of a
function is called. -/
theorem registerAll_ne_notAFunctionClass {cs : List Candidate} {index final : Index}
    {shown marker : String} (hmet : ∀ c ∈ cs, Met s root c)
    (hmarker : ¬ Overlaps s.functionMarker) :
    registerAll s root cs index ≠ (final, .error (.layout (.notAFunctionClass shown marker))) := by
  intro h
  obtain ⟨before, c, after, middle, n, rfl, -, hc⟩ := registerAll_eq_error_iff.mp h
  by_cases hfunction : c.isFunction s = true
  · have hreading := (hmet c (List.mem_append_right _ List.mem_cons_self)).reading hfunction
    rw [((register_function_eq_error_iff hfunction).mp hc).2] at hreading
    cases hreading with
    | overlapping _ _ _ hoverlaps => exact hmarker hoverlaps
  · rcases (register_eq_error_layout hc).2 with hfunction' | htype | ⟨-, hpackage⟩
    · exact hfunction hfunction'
    · exact typeName_ne_notAFunctionClass htype
    · exact package_ne_notAFunctionClass hpackage

/-- A class that is met and counts as a function's fails for its layout just where its name
cannot be read.  That is so if the path is no text, if the class lies directly in the root,
and otherwise for a file that is not called after a function.  Such a file counts as a
function's only if the marker overlaps the ending. -/
theorem function_layout_faults (h : Met s root c) (hfunction : c.isFunction s = true) :
    Reading s root c (functionName s.functionMarker c.path root) ∧
      ∀ index final e, register s root c index = (final, .error (.layout e)) ↔
        final = index ∧ functionName s.functionMarker c.path root = .error e :=
  ⟨h.reading hfunction, fun _ _ _ => register_function_eq_error_iff hfunction⟩

/-- A class whose file has one dot for the marker and the ending. -/
def sharedDot : Listing :=
  [(Utf8.bytesOf "p", .directory [(Utf8.bytesOf "Fn.class", .file [])])]

theorem visit_sharedDot :
    sharedDot.visit (.ofString "d") = [.entry (.ofString "d/p/Fn.class")] := by
  cbv

/-- The marker ends in a dot, as the ending begins: the class of a function is named, and
another one, with that dot in common, is not. -/
theorem function_layout_faults_shared_dot :
    let s : Settings := { functionMarker := "Fn." }
    let other : Candidate :=
      ⟨.ofString "d/p/Fn.class", "Fn.class", .file (.ofString "d/p/Fn.class")⟩
    Reading s ⟨[]⟩ (entryAt (.ofString "a.jar") "p/Fn.max.class") (.ok "p.max") ∧
      Reading s (.ofString "d") other (.error (.notAFunctionClass "d/p/Fn.class" "Fn.")) ∧
      Overlaps "Fn." ∧ ¬ Overlaps "Function_" := by
  intro s other
  have hlisted : entryCandidate? s (.ofString "a.jar") "p/Fn.max.class" =
      some (entryAt (.ofString "a.jar") "p/Fn.max.class") := by decide +kernel
  have hpaths : sharedDot.filePaths = [[Utf8.bytesOf "p", Utf8.bytesOf "Fn.class"]] := by cbv
  have hplain : ∀ names ∈ sharedDot.filePaths, ∀ name ∈ names, IsName name := by
    rw [hpaths]
    decide +kernel
  have hvisited : other ∈ fileCandidates (Sight.entries (sharedDot.visit (.ofString "d"))) := by
    rw [visit_sharedDot]
    decide +kernel
  obtain ⟨hnamed, -⟩ := function_layout_faults (.listed rfl hlisted) (by decide +kernel)
  have hmet : Met s (.ofString "d") other := .visited hplain hvisited
  obtain ⟨hfault, -⟩ := function_layout_faults hmet (by decide +kernel)
  refine ⟨?_, ?_, by decide, by decide⟩
  · have hname : functionName "Fn." (.ofString "p/Fn.max.class") ⟨[]⟩ = .ok "p.max" := by
      decide +kernel
    exact hname ▸ hnamed
  · have hname : functionName "Fn." (.ofString "d/p/Fn.class") (.ofString "d") =
        .error (.notAFunctionClass "d/p/Fn.class" "Fn.") := by decide +kernel
    exact hname ▸ hfault

set_option maxRecDepth 1000 in
/-- A class that is not called after a function makes its directory and its archive fail. -/
theorem marker_overlaps_ending :
    let s : Settings := { functionMarker := "Fn." }
    let tree := besideArchive sharedDot ["p/Fn.class"]
    s.fault? = none ∧
      (directory s tree (.ofString "d") .empty).2 =
        .error (.layout (.notAFunctionClass "d/p/Fn.class" "Fn.")) ∧
      (archive s tree (.ofString "a.jar") .empty).2 =
        .error (.layout (.notAFunctionClass "p/Fn.class" "Fn.")) := by
  intro s tree
  have hdirectory : directory s tree (.ofString "d") .empty =
      sights s (.ofString "d") [.entry (.ofString "d/p/Fn.class")] .empty := by
    have hlist : tree.list (.ofString "d") = .ok sharedDot := by cbv
    rw [directory_of_list s tree _ _ hlist, visit_sharedDot]
  have hzip : Zip.ofBytes (archiveOf (["p/Fn.class"].map Utf8.bytesOf)) =
      .ok ⟨archiveOf (["p/Fn.class"].map Utf8.bytesOf), [⟨"p/Fn.class", false, 0, 0, 0, 0⟩]⟩ := by
    cbv
  rw [hdirectory, archive_of_single (openArchive_besideArchive hzip) rfl]
  refine ⟨?_, ?_, ?_⟩ <;> decide +kernel

end Discovery
end ClassIndex

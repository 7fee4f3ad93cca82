/-
The order in which directories are listed.

Where candidates of one name have one place, whether a candidate ends the run depends on
the index before the run alone, whatever comes before it (`Fits`, with `fits_register_iff`
for the step and `registerAll_eq_ok_iff` for the run).  Where no two candidates have one
name, the index that a run leaves depends on the set of candidates only
(`registerAll_of_mem_iff`), and a directory has the same set of class files in whatever
order it is listed (`directory_of_reordered`).
-/
import ClassIndex.Proofs.Discovery.Agreement
import ClassIndex.Proofs.FileTree.Reordered

namespace ClassIndex
namespace Discovery

open ClassIndex.Path Layout

variable {s : Settings} {root : Path} {c d : Candidate} {cs ds : List Candidate}
  {index final : Index} {kind : EntryKind} {name : String} {n : Nat}

/-! ## Names of their own -/

/-- No two candidates have one name as functions or one name as types. -/
def Apart (s : Settings) (root : Path) (cs : List Candidate) : Prop :=
  ∀ c ∈ cs, ∀ d ∈ cs, c.kind s = d.kind s → c.name? s root = d.name? s root →
    c.name? s root ≠ none → c = d

instance : Decidable (Apart s root cs) :=
  inferInstanceAs (Decidable (∀ c ∈ cs, _))

theorem Apart.of_subset (h : Apart s root cs) (hsub : ∀ c ∈ ds, c ∈ cs) : Apart s root ds :=
  fun c hc d hd => h c (hsub c hc) d (hsub d hd)

theorem Apart.agree (h : Apart s root cs) : Agree s root cs := by
  intro c hc d hd hkind hname
  by_cases hnone : c.name? s root = none
  · rw [Candidate.placement?_of_noName hnone, Candidate.placement?_of_noName (hname ▸ hnone)]
  · rw [h c hc d hd hkind hname hnone]

theorem Apart.eq_of_placement? (h : Apart s root cs) (hc : c ∈ cs) (hd : d ∈ cs)
    {p q : Placement} (hp : c.placement? s root = some p) (hq : d.placement? s root = some q)
    (hkind : p.kind = q.kind) (hname : p.name = q.name) : c = d := by
  obtain ⟨hpkind, hpname, -⟩ := Candidate.placement?_eq_some_iff.mp hp
  obtain ⟨hqkind, hqname, -⟩ := Candidate.placement?_eq_some_iff.mp hq
  refine h c hc d hd ?_ ?_ ?_
  · rw [← hpkind, hkind, hqkind]
  · rw [hpname, hname, hqname]
  · rw [hpname]
    exact nofun

/-- With one value at most, the first is the only one. -/
theorem findSome?_eq_some_iff_of_unique {α β : Type} {f : α → Option β} {as : List α}
    (hunique : ∀ a ∈ as, ∀ b ∈ as, ∀ x y, f a = some x → f b = some y → x = y) {x : β} :
    as.findSome? f = some x ↔ ∃ a ∈ as, f a = some x := by
  constructor
  · exact List.exists_of_findSome?_eq_some
  · intro h
    obtain ⟨a, ha, hx⟩ := h
    have hsome : (as.findSome? f).isSome = true :=
      List.findSome?_isSome_iff.mpr ⟨a, ha, by rw [hx]; rfl⟩
    obtain ⟨y, hy⟩ := Option.isSome_iff_exists.mp hsome
    obtain ⟨b, hb, hby⟩ := List.exists_of_findSome?_eq_some hy
    rw [hy, hunique a ha b hb x y hx hby]

theorem Apart.findSome?_binding?_eq_some_iff (h : Apart s root cs) {binary : Binary} :
    cs.findSome? (Candidate.binding? s root kind name) = some binary ↔
      ∃ c ∈ cs, c.binding? s root kind name = some binary := by
  refine findSome?_eq_some_iff_of_unique fun c hc d hd x y hx hy => ?_
  obtain ⟨⟨p, hp, hpkind, hpname⟩, rfl⟩ := Candidate.binding?_eq_some_iff.mp hx
  obtain ⟨⟨q, hq, hqkind, hqname⟩, rfl⟩ := Candidate.binding?_eq_some_iff.mp hy
  rw [h.eq_of_placement? hc hd hp hq (hpkind.trans hqkind.symm) (hpname.trans hqname.symm)]

theorem Apart.findSome?_packagesAt?_eq_some_iff (h : Apart s root cs) {packages : List String} :
    cs.findSome? (Candidate.packagesAt? s root kind name) = some packages ↔
      ∃ c ∈ cs, c.packagesAt? s root kind name = some packages := by
  refine findSome?_eq_some_iff_of_unique fun c hc d hd x y hx hy => ?_
  have hp := Candidate.packagesAt?_eq_some_iff.mp hx
  have hq := Candidate.packagesAt?_eq_some_iff.mp hy
  cases h.eq_of_placement? hc hd hp hq rfl rfl
  exact Option.some.inj (hx.symm.trans hy)

/-! ## What becomes of each candidate -/

/-- A candidate that an index passes over or takes in. -/
def Fits (s : Settings) (root : Path) (index : Index) (c : Candidate) : Prop :=
  (∃ name, c.name? s root = some name ∧ (index.table (c.kind s)).contains name = true) ∨
    (c.placement? s root).isSome = true

theorem register_eq_ok_iff :
    (∃ final new, register s root c index = (final, .ok new)) ↔ Fits s root index c := by
  rcases register_cases s root c index with
    ⟨name, hname, htaken, h⟩ | ⟨p, hp, -, h⟩ | ⟨hnone, hfree, _, e, h, -⟩
  · exact iff_of_true ⟨_, _, h⟩ (.inl ⟨name, hname, htaken⟩)
  · exact iff_of_true ⟨_, _, h⟩ (.inr (by rw [hp]; rfl))
  · refine iff_of_false (fun hok => ?_) fun hfits => ?_
    · obtain ⟨final, new, hok⟩ := hok
      cases hok.symm.trans h
    · rcases hfits with ⟨name, hname, htaken⟩ | hsome
      · rw [hfree name hname] at htaken
        cases htaken
      · rw [hnone] at hsome
        cases hsome

/-- The step: one candidate makes no difference to the others. -/
theorem fits_register_iff (h : Agree s root cs) (hc : c ∈ cs) (hd : d ∈ cs) {middle : Index}
    {new : Bool} (hok : register s root c index = (middle, .ok new)) :
    Fits s root middle d ↔ Fits s root index d := by
  have htable := register_tables hok
  constructor
  · intro hfits
    rcases hfits with ⟨name, hname, htaken⟩ | hsome
    · rw [Table.contains_eq_isSome, htable, Option.isSome_or, Bool.or_eq_true] at htaken
      rcases htaken with htaken | hbinding
      · exact .inl ⟨name, hname, htaken⟩
      · obtain ⟨binary, hbinary⟩ := Option.isSome_iff_exists.mp hbinding
        obtain ⟨⟨p, hp, hpkind, hpname⟩, -⟩ := Candidate.binding?_eq_some_iff.mp hbinary
        obtain ⟨hckind, hcname, -⟩ := Candidate.placement?_eq_some_iff.mp hp
        have hsame : c.placement? s root = d.placement? s root :=
          h c hc d hd (hckind.symm.trans hpkind) (by rw [hcname, hname, hpname])
        exact .inr (by rw [← hsame, hp]; rfl)
    · exact .inr hsome
  · intro hfits
    rcases hfits with ⟨name, hname, htaken⟩ | hsome
    · refine .inl ⟨name, hname, ?_⟩
      rw [Table.contains_eq_isSome] at htaken ⊢
      rw [htable, Option.isSome_or, htaken]
      rfl
    · exact .inr hsome

/-- The run: it succeeds if no candidate would fail on its own. -/
theorem registerAll_eq_ok_iff (h : Agree s root cs) :
    (∃ final n, registerAll s root cs index = (final, .ok n)) ↔
      ∀ c ∈ cs, Fits s root index c := by
  induction cs generalizing index with
  | nil => exact iff_of_true ⟨index, 0, rfl⟩ (List.forall_mem_nil _)
  | cons c rest ih =>
    have hrest : Agree s root rest := fun d hd d' hd' =>
      h d (List.mem_cons_of_mem _ hd) d' (List.mem_cons_of_mem _ hd')
    rw [List.forall_mem_cons]
    constructor
    · intro hok
      obtain ⟨final, n, hok⟩ := hok
      obtain ⟨middle, new, m, hfirst, htail, -⟩ := registerAll_cons_eq_ok.mp hok
      refine ⟨register_eq_ok_iff.mp ⟨_, _, hfirst⟩, fun d hd => ?_⟩
      rw [← fits_register_iff h List.mem_cons_self (List.mem_cons_of_mem _ hd) hfirst]
      exact (ih hrest).mp ⟨_, _, htail⟩ d hd
    · intro hfits
      obtain ⟨hc, hall⟩ := hfits
      obtain ⟨middle, new, hfirst⟩ := register_eq_ok_iff.mpr hc
      have hall' : ∀ d ∈ rest, Fits s root middle d := fun d hd =>
        (fits_register_iff h List.mem_cons_self (List.mem_cons_of_mem _ hd) hfirst).mpr (hall d hd)
      obtain ⟨final, m, htail⟩ := (ih hrest).mpr hall'
      exact ⟨final, new.toNat + m, registerAll_cons_eq_ok.mpr ⟨_, _, _, hfirst, htail, rfl⟩⟩

/-- A run that succeeds leaves each candidate's name bound, to the candidate unless the
name was taken. -/
theorem bound_of_registerAll (h : Apart s root cs)
    (hok : registerAll s root cs index = (final, .ok n)) (hc : c ∈ cs) :
    ∃ name, c.name? s root = some name ∧ ((index.table (c.kind s)).contains name = true ∨
      (final.table (c.kind s)).get? name = some c.binary) := by
  rcases (registerAll_eq_ok_iff h.agree).mp ⟨_, _, hok⟩ c hc with ⟨name, hname, htaken⟩ | hsome
  · exact ⟨name, hname, .inl htaken⟩
  · obtain ⟨p, hp⟩ := Option.isSome_iff_exists.mp hsome
    obtain ⟨hkind, hname, -⟩ := Candidate.placement?_eq_some_iff.mp hp
    refine ⟨p.name, hname, ?_⟩
    rw [registerAll_tables hok, Table.contains_eq_isSome]
    cases (index.table (c.kind s)).get? p.name with
    | some binary => exact .inl rfl
    | none =>
      refine .inr (h.findSome?_binding?_eq_some_iff.mpr ⟨c, hc, ?_⟩)
      exact Candidate.binding?_eq_some_iff.mpr ⟨⟨p, hp, hkind, rfl⟩, rfl⟩

/-- Runs over the same candidates come to the same, in whatever order they are. -/
theorem registerAll_of_mem_iff (h : Apart s root cs) (hsame : ∀ c, c ∈ cs ↔ c ∈ ds)
    (hok : registerAll s root cs index = (final, .ok n)) :
    registerAll s root ds index = (final, .ok n) := by
  have h' : Apart s root ds := h.of_subset fun c => (hsame c).mpr
  have hfits : ∀ c ∈ ds, Fits s root index c := fun c hc =>
    (registerAll_eq_ok_iff h.agree).mp ⟨_, _, hok⟩ c ((hsame c).mpr hc)
  obtain ⟨final', n', hok'⟩ := (registerAll_eq_ok_iff h'.agree).mpr hfits
  have hfinal : final' = final := by
    refine Index.ext_of_table (fun kind name => ?_) fun package => ?_
    · rw [registerAll_tables hok', registerAll_tables hok]
      congr 1
      refine Option.ext fun binary => ?_
      rw [h'.findSome?_binding?_eq_some_iff, h.findSome?_binding?_eq_some_iff]
      simp only [hsame]
    · rw [registerAll_packages hok', registerAll_packages hok]
      simp only [h.findSome?_packagesAt?_eq_some_iff, h'.findSome?_packagesAt?_eq_some_iff, hsame]
  have hcount := registerAll_count hok
  have hcount' := registerAll_count hok'
  have hn : n' = n := by
    rw [hfinal] at hcount'
    omega
  rw [hok', hfinal, hn]

/-! ## Directories -/

variable {tree tree' : FileTree} {l m : Listing}

/-- The class files below a root. -/
def classFiles (root : Path) (l : Listing) : List Candidate :=
  fileCandidates (l.filePaths.map root.descend)

theorem mem_classFiles_visit_iff (hshort : l.AllShort root) :
    c ∈ fileCandidates (Sight.entries (l.visit root)) ↔ c ∈ classFiles root l := by
  rw [classFiles, fileCandidates, fileCandidates, List.mem_filterMap, List.mem_filterMap]
  simp only [Listing.mem_entries_visit_iff hshort, List.mem_map, eq_comm (a := root.descend _)]

theorem mem_classFiles_iff_of_reordered (h : l.Reordered m) :
    c ∈ classFiles root l ↔ c ∈ classFiles root m :=
  ((h.perm_filePaths.map _).filterMap _).mem_iff

theorem directory_of_reordered (hl : tree.list root = .ok l) (hm : tree'.list root = .ok m)
    (hlm : l.Reordered m) (hapart : Apart s root (classFiles root l))
    (hok : directory s tree root index = (final, .ok n)) :
    directory s tree' root index = (final, .ok n) := by
  rw [directory_eq_ok_iff hl] at hok
  obtain ⟨hrun, hshort⟩ := hok
  have hshort' := (hlm.allShort_iff root).mp hshort
  have hvisited : Apart s root (fileCandidates (Sight.entries (l.visit root))) :=
    hapart.of_subset fun c => (mem_classFiles_visit_iff hshort).mp
  rw [directory_eq_ok_iff hm]
  refine ⟨registerAll_of_mem_iff hvisited (fun c => ?_) hrun, hshort'⟩
  rw [mem_classFiles_visit_iff hshort, mem_classFiles_visit_iff hshort',
    mem_classFiles_iff_of_reordered hlm]

theorem fileCandidate?_join {dir : Path} {file : String} (hslash : '/' ∉ file.toList)
    (hclass : isClassFile file = true) : fileCandidate? (dir.join (Utf8.bytesOf file)) =
      some ⟨dir.join (Utf8.bytesOf file), file, .file (dir.join (Utf8.bytesOf file))⟩ := by
  obtain ⟨stem, hstem⟩ := Option.isSome_iff_exists.mp ((Bool.and_eq_true _ _).mp hclass).1
  rw [Affix.before?_eq_some_iff] at hstem
  have hno : '/' ∉ stem := fun h => hslash (hstem ▸ List.mem_append_left _ h)
  obtain ⟨hbytes, hplain⟩ := isPlain_classFile hno
  rw [← hstem, ← Utf8.bytesOf_eq_encode] at hbytes hplain
  have hname := fileName_join dir hbytes hplain
  have hdecode : Utf8.decode? (Utf8.bytesOf file) = some file.toList := by
    rw [Utf8.bytesOf_eq_encode, Utf8.decode?_encode]
  unfold fileCandidate?
  simp only [hname, hdecode, Option.bind_eq_bind, Option.bind_some, String.ofList_toList, hclass,
    if_true]

theorem isClassFile_append {stem : String} (hmodule : stem ≠ "module-info")
    (hpackage : stem ≠ "package-info") : isClassFile (stem ++ ".class") = true := by
  have hstem : (stem ++ ".class").toList = stem.toList ++ suffix := String.toList_append
  have hother : ∀ other : String, stem ≠ other → stem ++ ".class" ≠ other ++ ".class" := by
    intro other hne heq
    have hlists := congrArg String.toList heq
    rw [String.toList_append, String.toList_append] at hlists
    exact hne (String.toList_inj.mp (List.append_cancel_right hlists))
  have hdescription : descriptions.contains (stem ++ ".class") = false := by
    rw [descriptions, List.contains_eq_mem, decide_eq_false_iff_not, List.mem_cons,
      List.mem_singleton, not_or]
    exact ⟨hother "module-info" hmodule, hother "package-info" hpackage⟩
  rw [isClassFile, hstem, Affix.before?_append, hdescription]
  rfl

/-- A class file at any depth is a candidate under the path that leads to it. -/
theorem mem_classFiles (root : Path) {dirs : List (List UInt8)} {file : String}
    (hpath : dirs ++ [Utf8.bytesOf file] ∈ l.filePaths) (hslash : '/' ∉ file.toList)
    (hclass : isClassFile file = true) :
    ⟨root.descend (dirs ++ [Utf8.bytesOf file]), file,
      .file (root.descend (dirs ++ [Utf8.bytesOf file]))⟩ ∈ classFiles root l := by
  have hjoin : root.descend (dirs ++ [Utf8.bytesOf file]) =
      (root.descend dirs).join (Utf8.bytesOf file) := by
    rw [descend, descend, List.foldl_concat]
  refine List.mem_filterMap.mpr ⟨_, List.mem_map_of_mem hpath, ?_⟩
  rw [hjoin]
  exact fileCandidate?_join hslash hclass

/-- With no two class files of one name, a directory is taken in alike in whatever order
it and the directories in it are listed.  Every class file in it then has its name bound,
to itself unless the name was taken before. -/
theorem directory_listing_order (hl : tree.list root = .ok l) (hm : tree'.list root = .ok m)
    (hlm : l.Reordered m) (hapart : Apart s root (classFiles root l)) (index : Index) :
    (∀ final n, directory s tree root index = (final, .ok n) ↔
      directory s tree' root index = (final, .ok n)) ∧
    ∀ final n, directory s tree root index = (final, .ok n) →
      ∀ (dirs : List (List UInt8)) (stem : String),
        dirs ++ [Utf8.bytesOf (stem ++ ".class")] ∈ l.filePaths → '/' ∉ stem.toList →
        stem ≠ "module-info" → stem ≠ "package-info" →
        let path := root.descend (dirs ++ [Utf8.bytesOf (stem ++ ".class")])
        let c : Candidate := ⟨path, stem ++ ".class", .file path⟩
        ∃ name, c.name? s root = some name ∧ ((index.table (c.kind s)).contains name = true ∨
          (final.table (c.kind s)).get? name = some (.file path)) := by
  constructor
  · intro final n
    have hapart' : Apart s root (classFiles root m) :=
      hapart.of_subset fun c => (mem_classFiles_iff_of_reordered hlm).mpr
    constructor
    · exact directory_of_reordered hl hm hlm hapart
    · exact directory_of_reordered hm hl hlm.symm hapart'
  · intro final n hok dirs stem hpath hslash hmodule hpackage
    have hslash' : '/' ∉ (stem ++ ".class").toList := by
      rw [String.toList_append, List.mem_append, not_or]
      exact ⟨hslash, by decide⟩
    have hclass := mem_classFiles root hpath hslash' (isClassFile_append hmodule hpackage)
    obtain ⟨hrun, hshort⟩ := (directory_eq_ok_iff hl).mp hok
    have hvisited : Apart s root (fileCandidates (Sight.entries (l.visit root))) :=
      hapart.of_subset fun c => (mem_classFiles_visit_iff hshort).mp
    exact bound_of_registerAll hvisited hrun ((mem_classFiles_visit_iff hshort).mpr hclass)

/-- A type beside a package of a function and a type. -/
def packageFirst : Listing :=
  [(Utf8.bytesOf "p", .directory
      [(Utf8.bytesOf "Function_f.class", .file []), (Utf8.bytesOf "Y.class", .file [])]),
    (Utf8.bytesOf "X.class", .file [])]

def packageLast : Listing :=
  [(Utf8.bytesOf "X.class", .file []),
    (Utf8.bytesOf "p", .directory
      [(Utf8.bytesOf "Y.class", .file []), (Utf8.bytesOf "Function_f.class", .file [])])]

theorem reordered_packageFirst : packageFirst.Reordered packageLast :=
  .trans (.inside (.perm (.swap ..))) (.perm (.swap ..))

/-- Both orders bring in three names, and the type in the package is one of them. -/
theorem directory_listing_order_package :
    let tree := besideArchive packageFirst []
    let tree' := besideArchive packageLast []
    ∃ final, directory {} tree (.ofString "/tmp/work/d") .empty = (final, .ok 3) ∧
      directory {} tree' (.ofString "/tmp/work/d") .empty = (final, .ok 3) ∧
      (final.table .type).get? "p.Y" = some (.file (.ofString "/tmp/work/d/p/Y.class")) := by
  intro tree tree'
  have hl : tree.list (.ofString "/tmp/work/d") = .ok packageFirst := by cbv
  have hm : tree'.list (.ofString "/tmp/work/d") = .ok packageLast := by cbv
  have hpaths : packageFirst.filePaths =
      [[Utf8.bytesOf "p", Utf8.bytesOf "Function_f.class"],
        [Utf8.bytesOf "p", Utf8.bytesOf "Y.class"], [Utf8.bytesOf "X.class"]] := by
    simp only [packageFirst, Listing.filePaths, List.map_cons, List.map_nil, List.cons_append,
      List.nil_append]
  have hapart : Apart {} (.ofString "/tmp/work/d")
      (classFiles (.ofString "/tmp/work/d") packageFirst) := by
    rw [classFiles, hpaths]
    decide +kernel
  obtain ⟨hsame, hbound⟩ :=
    directory_listing_order (s := {}) hl hm reordered_packageFirst hapart .empty
  have hcount : (directory {} tree (.ofString "/tmp/work/d") .empty).2 = .ok 3 := by
    have hvisit : packageFirst.visit (.ofString "/tmp/work/d") =
        [.entry (.ofString "/tmp/work/d/X.class"),
          .entry (.ofString "/tmp/work/d/p/Function_f.class"),
          .entry (.ofString "/tmp/work/d/p/Y.class")] := by cbv
    rw [directory_of_list {} tree _ _ hl, hvisit]
    decide +kernel
  have hok : directory {} tree (.ofString "/tmp/work/d") .empty = (_, .ok 3) := Prod.ext rfl hcount
  refine ⟨_, hok, (hsame _ _).mp hok, ?_⟩
  obtain ⟨name, hname, htaken | hget⟩ := hbound _ _ hok [Utf8.bytesOf "p"] "Y"
    (by rw [hpaths]; decide +kernel) (by decide) (by decide) (by decide)
  · rw [Table.contains_eq_isSome, Index.get?_table_empty] at htaken
    cases htaken
  · have hnamed : some name = some "p.Y" := hname.symm.trans (by decide +kernel)
    cases hnamed
    exact hget

end Discovery
end ClassIndex

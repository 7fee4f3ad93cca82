/-
Taking a class path entry in a second time.

A run that succeeds leaves every candidate `Known`: the index has the name that the
candidate derives, be it from this candidate, from another of the run or from before the
run.  No scan and no registration ever takes a name away, not even one that fails
(`covers_afterwards`), so the candidates stay known; and a known candidate is passed over
before anything else about it is worked out (`register_of_known`).

What an entry offers is read off the file system anew each time.  An entry is `Unchanged`
when the same lies at its path, where the files of a directory and the names in an archive
may come in another order than the first time.  `entry_again` puts these together: taking an
unchanged entry in again brings nothing and changes nothing, whatever was done in between.
-/
import ClassIndex.Proofs.Discovery.ClassPath
import ClassIndex.Proofs.Discovery.ListingOrder
import ClassIndex.Proofs.Text.ByteOrder

namespace ClassIndex
namespace Discovery

variable {s : Settings} {root : Path} {c : Candidate} {cs : List Candidate}
  {index first later : Index} {n : Nat}

/-! ## Known candidates -/

/-- A candidate that derives a name which the index has. -/
def Known (s : Settings) (root : Path) (index : Index) (c : Candidate) : Prop :=
  ∃ name, c.name? s root = some name ∧ (index.table (c.kind s)).contains name = true

theorem Known.of_covers (h : Known s root first c) (hlater : Covers later first) :
    Known s root later c := by
  obtain ⟨name, hname, htaken⟩ := h
  exact ⟨name, hname, hlater _ _ htaken⟩

/-- The step: a known candidate is passed over. -/
theorem register_of_known (h : Known s root index c) :
    register s root c index = (index, .ok false) := by
  obtain ⟨name, hname, htaken⟩ := h
  rcases register_cases s root c index with ⟨-, -, -, h⟩ | ⟨p, hp, hfree, -⟩ | ⟨-, hfree, -⟩
  · exact h
  · obtain ⟨hkind, hpname, -⟩ := Candidate.placement?_eq_some_iff.mp hp
    cases hname.symm.trans hpname
    rw [hkind, htaken] at hfree
    cases hfree
  · rw [hfree name hname] at htaken
    cases htaken

theorem known_of_register {new : Bool} (hok : register s root c index = (first, .ok new)) :
    Known s root first c := by
  have htables := register_tables hok
  rcases register_cases s root c index with
    ⟨name, hname, htaken, h⟩ | ⟨p, hp, -, -⟩ | ⟨-, -, _, e, h, -⟩
  · cases hok.symm.trans h
    exact ⟨name, hname, htaken⟩
  · obtain ⟨hkind, hname, -⟩ := Candidate.placement?_eq_some_iff.mp hp
    have hbinding : c.binding? s root (c.kind s) p.name = some c.binary :=
      Candidate.binding?_eq_some_iff.mpr ⟨⟨p, hp, hkind, rfl⟩, rfl⟩
    refine ⟨p.name, hname, ?_⟩
    rw [Table.contains_eq_isSome, htables, hbinding, Option.isSome_or]
    exact Bool.or_true _
  · cases hok.symm.trans h

/-- The run: a run that succeeds leaves no candidate unknown. -/
theorem known_of_registerAll (hok : registerAll s root cs index = (first, .ok n)) :
    ∀ c ∈ cs, Known s root first c := by
  induction cs generalizing index n with
  | nil => exact nofun
  | cons d rest ih =>
    obtain ⟨middle, new, m, hstep, hrest, -⟩ := registerAll_cons_eq_ok.mp hok
    have hstays : Covers first middle := by
      have hadds := registerAll_onlyAdds s root rest middle
      rw [hrest] at hadds
      exact hadds.covers
    rw [List.forall_mem_cons]
    exact ⟨(known_of_register hstep).of_covers hstays, ih hrest⟩

/-- The run: known candidates are passed over one and all. -/
theorem registerAll_of_known (h : ∀ c ∈ cs, Known s root index c) :
    registerAll s root cs index = (index, .ok 0) := by
  induction cs with
  | nil => rfl
  | cons c rest ih =>
    obtain ⟨hc, hrest⟩ := List.forall_mem_cons.mp h
    exact registerAll_cons_eq_ok.mpr ⟨index, false, 0, register_of_known hc, ih hrest, rfl⟩

/-- After a run that succeeds, candidates that were among its own bring nothing. -/
theorem registerAll_again {ds : List Candidate}
    (hok : registerAll s root cs index = (first, .ok n)) (hlater : Covers later first)
    (hds : ∀ c ∈ ds, c ∈ cs) : registerAll s root ds later = (later, .ok 0) :=
  registerAll_of_known fun c hc => (known_of_registerAll hok c (hds c hc)).of_covers hlater

/-- A fault comes after the candidates, so it makes no difference to the index. -/
theorem Offer.covers_take (o : Offer) (s : Settings) (index : Index) :
    Covers (o.take s index).1 index := by
  have hrun := (registerAll_onlyAdds s o.root o.candidates index).covers
  unfold take
  rcases hr : registerAll s o.root o.candidates index with ⟨final, e | n⟩
  · rwa [hr] at hrun
  · rw [hr] at hrun
    cases o.fault? <;> exact hrun

/-! ## Whatever happens in between -/

/-- What can be done to an index: scans by any settings of any file system, and
registrations by hand. -/
inductive Action where
  | entry (s : Settings) (files : Files) (path : Path)
  | directory (s : Settings) (tree : FileTree) (root : Path)
  | archive (s : Settings) (files : Files) (path : Path)
  | registration (r : Registration)

/-- What an action leaves, whether it succeeds or fails. -/
def Action.leave : Action → Index → Index
  | entry s files path, index => (Discovery.entry s files path index).1
  | directory s tree root, index => (Discovery.directory s tree root index).1
  | archive s files path, index => (Discovery.archive s files path index).1
  | registration r, index => index.register r

def afterwards (actions : List Action) (index : Index) : Index :=
  actions.foldl (fun index action => action.leave index) index

theorem covers_withPackages (index : Index) (packages : List String) :
    Covers (index.withPackages packages) index := by
  intro kind name hname
  rwa [Index.table_withPackages]

theorem covers_enter (index : Index) (kind : EntryKind) (name : String) (binary : Binary)
    (packages : List String) : Covers (index.enter kind name binary packages) index := by
  intro kind' name' hname
  rw [Table.contains_eq_isSome] at hname ⊢
  rw [Index.get?_table_enter, Option.isSome_or, hname, Bool.true_or]

theorem covers_register (r : Registration) (index : Index) : Covers (index.register r) index := by
  unfold Index.register
  rcases Registration.addTo_cases r index with
    ⟨-, h⟩ | ⟨-, ⟨_, _, _, -, -, h⟩ | ⟨_, _, _, -, -, h⟩ | ⟨_, -, h⟩⟩
  · rw [h]
    exact .refl index
  · rw [h]
    exact .refl index
  · rw [h]
    exact covers_enter index _ _ _ _
  · rw [h]
    exact covers_withPackages index _

/-- The step: no action takes a name away. -/
theorem Action.covers_leave (action : Action) (index : Index) :
    Covers (action.leave index) index := by
  cases action with
  | entry s files path =>
    rw [leave, entry_eq_take]
    exact Offer.covers_take _ s index
  | directory s tree root =>
    rw [leave, directory_eq_take]
    exact Offer.covers_take _ s index
  | archive s files path =>
    rw [leave, archive_eq_take]
    exact Offer.covers_take _ s index
  | registration r => exact covers_register r index

/-- The run: no actions take a name away. -/
theorem covers_afterwards (actions : List Action) (index : Index) :
    Covers (afterwards actions index) index := by
  induction actions generalizing index with
  | nil => exact .refl index
  | cons action rest ih => exact (ih (action.leave index)).trans (action.covers_leave index)

/-! ## The same entry again -/

variable {files files' : Files} {path : Path}

/-- The same lies at a path as before, but a directory may be listed in another order, and
so may the names of an archive. -/
inductive Unchanged (files files' : Files) (path : Path) : Prop where
  | same (hfind : files'.tree.find path = files.tree.find path)
    (hopens : ∀ opened, files.openArchive path = .ok opened →
      ∃ opened', files'.openArchive path = .ok opened' ∧ opened.names.Perm opened'.names)
  | reordered {l m : Listing} (hl : files.tree.find path = .ok (.directory l))
    (hm : files'.tree.find path = .ok (.directory m)) (h : l.Reordered m)

theorem archiveOffer_congr
    (hopens : ∀ opened, files.openArchive path = .ok opened →
      ∃ opened', files'.openArchive path = .ok opened' ∧ opened.names.Perm opened'.names)
    (hfault : (archiveOffer s files path).fault? = none) :
    archiveOffer s files' path = archiveOffer s files path := by
  unfold archiveOffer at hfault ⊢
  cases hopened : files.openArchive path with
  | error e =>
    rw [hopened] at hfault
    cases e <;> cases hfault
  | ok opened =>
    obtain ⟨opened', hopened', hperm⟩ := hopens opened hopened
    simp only [hopened', entryCandidates, mergeSort_eq_of_perm hperm]

/-- An unchanged entry that had nothing wrong with it offers what it did. -/
theorem offer_congr (hfind : files'.tree.find path = files.tree.find path)
    (hopens : ∀ opened, files.openArchive path = .ok opened →
      ∃ opened', files'.openArchive path = .ok opened' ∧ opened.names.Perm opened'.names)
    (hfault : (offer s files path).fault? = none) : offer s files' path = offer s files path := by
  have hdirectory : files'.tree.isDirectory path = files.tree.isDirectory path := by
    rw [FileTree.isDirectory, FileTree.isDirectory, hfind]
  have hfile : files'.tree.isFile path = files.tree.isFile path := by
    rw [FileTree.isFile, FileTree.isFile, hfind]
  have hlist : files'.tree.list path = files.tree.list path := by
    rw [FileTree.list, FileTree.list, hfind]
  unfold offer at hfault ⊢
  rw [hdirectory, hfile]
  split
  · rw [directoryOffer, directoryOffer, hlist]
  · next hnot =>
    rw [if_neg hnot] at hfault
    split
    · next harchive =>
      rw [if_pos harchive] at hfault
      exact archiveOffer_congr hopens hfault
    · rfl

theorem entry_eq_directory_of_find {l : Listing} (h : files.tree.find path = .ok (.directory l))
    (index : Index) : entry s files path index = directory s files.tree path index := by
  have hdirectory : files.tree.isDirectory path = true := by
    rw [FileTree.isDirectory, h]
    rfl
  rw [entry, if_pos hdirectory]

/-- A directory that was taken in is passed over in whatever order it is listed then. -/
theorem entry_again_of_reordered {l m : Listing} (hl : files.tree.find path = .ok (.directory l))
    (hm : files'.tree.find path = .ok (.directory m)) (hlm : l.Reordered m)
    (hok : entry s files path index = (first, .ok n)) (hlater : Covers later first) :
    entry s files' path later = (later, .ok 0) := by
  rw [entry_eq_directory_of_find hl, directory_eq_ok_iff (FileTree.list_eq_ok_iff.mpr hl)] at hok
  rw [entry_eq_directory_of_find hm, directory_eq_ok_iff (FileTree.list_eq_ok_iff.mpr hm)]
  obtain ⟨hrun, hshort⟩ := hok
  have hshort' : m.AllShort path := (hlm.allShort_iff path).mp hshort
  refine ⟨registerAll_again hrun hlater fun c hc => ?_, hshort'⟩
  rwa [mem_classFiles_visit_iff hshort, mem_classFiles_iff_of_reordered hlm,
    ← mem_classFiles_visit_iff hshort']

/-- A class path entry that was taken in once and is unchanged brings nothing the second
time and leaves the index as it is, whatever was done to the index since. -/
theorem entry_again (hok : entry s files path index = (first, .ok n))
    (hsame : Unchanged files files' path) (actions : List Action) :
    entry s files' path (afterwards actions first) = (afterwards actions first, .ok 0) := by
  have hlater := covers_afterwards actions first
  cases hsame with
  | same hfind hopens =>
    rw [entry_eq_take, Offer.take_eq_ok_iff] at hok
    obtain ⟨hrun, hfault⟩ := hok
    rw [entry_eq_take, offer_congr hfind hopens hfault, Offer.take_eq_ok_iff]
    exact ⟨registerAll_again hrun hlater fun c hc => hc, hfault⟩
  | reordered hl hm hlm => exact entry_again_of_reordered hl hm hlm hok hlater

/-- A package of a function and a type beside a type, listed in another order the second
time.  In between come the same type from an archive, a directory that is not there, and a
registration of each outcome. -/
theorem entry_again_package :
    let tree := besideArchive packageFirst ["X.class"]
    let tree' := besideArchive packageLast ["X.class"]
    let actions : List Action :=
      [.archive {} tree (.ofString "a.jar"), .directory {} tree (.ofString "gone"),
        .registration (.entry .type "X" (.memory "X" [])), .registration (.package "p."),
        .registration (.entry .function "q.g" (.memory "g" []))]
    ∃ first, entry {} tree (.ofString "/tmp/work/d") .empty = (first, .ok 3) ∧
      entry {} tree' (.ofString "/tmp/work/d") (afterwards actions first) =
        (afterwards actions first, .ok 0) := by
  intro tree tree' actions
  have hl : tree.files.tree.find (.ofString "/tmp/work/d") = .ok (.directory packageFirst) := by cbv
  have hm : tree'.files.tree.find (.ofString "/tmp/work/d") = .ok (.directory packageLast) := by cbv
  have hcount : (entry {} tree (.ofString "/tmp/work/d") .empty).2 = .ok 3 := by
    have hvisit : packageFirst.visit (.ofString "/tmp/work/d") =
        [.entry (.ofString "/tmp/work/d/X.class"),
          .entry (.ofString "/tmp/work/d/p/Function_f.class"),
          .entry (.ofString "/tmp/work/d/p/Y.class")] := by cbv
    rw [entry_eq_directory_of_find hl,
      directory_of_list {} _ _ _ (FileTree.list_eq_ok_iff.mpr hl), hvisit]
    decide +kernel
  have hok : entry {} tree (.ofString "/tmp/work/d") .empty = (_, .ok 3) := Prod.ext rfl hcount
  exact ⟨_, hok, entry_again hok (.reordered hl hm reordered_packageFirst) actions⟩

end Discovery
end ClassIndex

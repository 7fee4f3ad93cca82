/-
What an index holds after any registrations.

A registration is refused when its name is not qualified, or when its name is already
taken by an entry of the same kind; a refused one changes nothing.  `Records` says what
that leaves: each qualified name leads where its first registration said, and the
packages are those registered and those around functions and packages.

`Records.register` is the step and `records_ofRegistrations` the run, so that
`ofRegistrations_contents` speaks of every sequence of registrations, refused ones among
them.  The packages stay closed because the names around a qualified name are qualified.
-/
import ClassIndex.Index
import ClassIndex.Proofs.Name.Separators
import Mathlib

namespace ClassIndex

/-! ## Entries of either kind -/

namespace Index

def table (index : Index) : EntryKind → Table String Binary
  | .type => index.types
  | .function => index.functions

/-- An index with one more entry, and the packages that come with it. -/
def enter (index : Index) (kind : EntryKind) (name : String) (binary : Binary)
    (packages : List String) : Index :=
  match kind with
  | .type => { index.withPackages packages with types := index.types.add name binary }
  | .function => { index.withPackages packages with functions := index.functions.add name binary }

variable {index : Index} {kind kind' : EntryKind} {name name' package : String} {binary : Binary}
  {packages : List String}

@[simp] theorem get?_table_empty : (empty.table kind).get? name = none := by
  cases kind <;> exact Table.get?_empty name

@[simp] theorem contains_table_empty : (empty.table kind).contains name = false := by
  rw [Table.contains_eq_isSome, get?_table_empty, Option.isSome_none]

@[simp] theorem hasPackage_empty : empty.hasPackage package = false :=
  Table.contains_empty package

@[simp] theorem table_withPackages : (index.withPackages packages).table kind = index.table kind := by
  cases kind <;> rfl

theorem hasPackage_withPackages : (index.withPackages packages).hasPackage package =
    (index.hasPackage package || decide (package ∈ packages)) := by
  show (index.packages.addAll _).contains package = _
  rw [Table.contains_addAll, List.map_map]
  congr 2
  rw [show (Prod.fst ∘ fun name : String => (name, ())) = id from rfl, List.map_id]

theorem get?_table_enter : ((index.enter kind name binary packages).table kind').get? name' =
    ((index.table kind').get? name').or
      (if kind = kind' ∧ name = name' then some binary else none) := by
  cases kind <;> cases kind' <;>
    simp [enter, table, withPackages, Table.get?_add, eq_comm (a := name)]

theorem hasPackage_enter : (index.enter kind name binary packages).hasPackage package =
    (index.hasPackage package || decide (package ∈ packages)) := by
  rw [← hasPackage_withPackages]
  cases kind <;> rfl

/-- An index is what its names lead to and what its packages are. -/
theorem ext_of_table {i j : Index}
    (htable : ∀ kind name, (i.table kind).get? name = (j.table kind).get? name)
    (hpackages : ∀ package, i.hasPackage package = true ↔ j.hasPackage package = true) : i = j := by
  have htypes : i.types = j.types := Table.ext (htable .type)
  have hfunctions : i.functions = j.functions := Table.ext (htable .function)
  have hmarks : i.packages = j.packages := by
    refine Table.ext fun package => ?_
    have hsome : (i.packages.get? package).isSome = true ↔ (j.packages.get? package).isSome = true :=
      hpackages package
    cases hi : i.packages.get? package <;> cases hj : j.packages.get? package <;>
      simp [hi, hj] at hsome ⊢
  obtain ⟨_, _, _⟩ := i
  obtain ⟨_, _, _⟩ := j
  cases htypes
  cases hfunctions
  cases hmarks
  rfl

end Index

/-- One name encloses another when a dot follows it there. -/
def Name.Encloses (outer name : String) : Prop :=
  ∃ rest, name.toList = outer.toList ++ '.' :: rest

theorem Name.Encloses.trans {a b c : String} (hab : Encloses a b) (hbc : Encloses b c) :
    Encloses a c := by
  obtain ⟨rest, hb⟩ := hab
  obtain ⟨rest', hc⟩ := hbc
  exact ⟨rest ++ '.' :: rest', by rw [hc, hb, List.append_assoc, List.cons_append]⟩

theorem Name.Encloses.isQualified {outer name : String} (h : Encloses outer name)
    (hname : Name.isQualified name = true) : Name.isQualified outer = true := by
  obtain ⟨rest, h⟩ := h
  exact isQualified_of_enclosing h hname

/-! ## Registrations -/

/-- One registration in an index. -/
inductive Registration where
  | entry (kind : EntryKind) (name : String) (binary : Binary)
  | package (name : String)

namespace Registration

def name : Registration → String
  | entry _ name _ => name
  | package name => name

def addTo : Registration → Index → Except IndexError Index
  | entry .type name binary, index => index.addType name binary
  | entry .function name binary, index => index.addFunction name binary
  | package name, index => index.addPackage name

def isEntry (kind : EntryKind) : Registration → Bool
  | entry kind' _ _ => kind' = kind
  | package _ => false

/-- Where a registration makes a name lead. -/
def binding? (kind : EntryKind) (name : String) : Registration → Option Binary
  | entry kind' name' binary => if kind' = kind ∧ name' = name then some binary else none
  | package _ => none

/-- The packages that come with a registration. -/
def packages : Registration → List String
  | entry .type _ _ => []
  | entry .function name _ => Name.enclosing name
  | package name => Name.enclosing name ++ [name]

/-- A package comes with itself and with whatever it encloses, types apart. -/
def Marks (package : String) : Registration → Prop
  | entry .type _ _ => False
  | entry .function name _ => Name.Encloses package name
  | .package name => package = name ∨ Name.Encloses package name

variable {r : Registration} {index : Index} {kind : EntryKind} {name p : String} {binary : Binary}

theorem mem_packages_iff : p ∈ r.packages ↔ r.Marks p := by
  cases r with
  | entry kind name binary =>
    cases kind with
    | type => exact List.mem_nil_iff p
    | function => exact Name.mem_enclosing
  | package name =>
    rw [packages, List.mem_append, List.mem_singleton, Name.mem_enclosing]
    exact Or.comm

theorem Marks.isQualified (h : r.Marks p) (hr : Name.isQualified r.name = true) :
    Name.isQualified p = true := by
  cases r with
  | entry kind name binary =>
    cases kind with
    | type => exact h.elim
    | function => exact h.isQualified hr
  | package name =>
    rcases h with rfl | h
    · exact hr
    · exact h.isQualified hr

/-- What encloses a package that comes with a registration comes with it too. -/
theorem Marks.of_encloses {outer : String} (houter : Name.Encloses outer p) (h : r.Marks p) :
    r.Marks outer := by
  cases r with
  | entry kind name binary =>
    cases kind with
    | type => exact h
    | function => exact houter.trans h
  | package name =>
    rcases h with rfl | h
    · exact Or.inr houter
    · exact Or.inr (houter.trans h)

theorem binding?_eq_some_iff : r.binding? kind name = some binary ↔ r = entry kind name binary := by
  cases r with
  | entry kind' name' binary' =>
    rw [binding?]
    constructor
    · intro h
      split at h
      · next hsame =>
        cases h
        rw [hsame.1, hsame.2]
      · cases h
    · intro h
      cases h
      exact if_pos ⟨rfl, rfl⟩
  | package name' => exact ⟨nofun, nofun⟩

theorem exists_of_isSome_findSome? {rs : List Registration}
    (h : (rs.findSome? (binding? kind name)).isSome = true) :
    ∃ binary, entry kind name binary ∈ rs := by
  obtain ⟨r, hr, hsome⟩ := List.findSome?_isSome_iff.mp h
  obtain ⟨binary, hbinary⟩ := Option.isSome_iff_exists.mp hsome
  exact ⟨binary, binding?_eq_some_iff.mp hbinary ▸ hr⟩

theorem isSome_findSome?_of_mem {rs : List Registration} (h : entry kind name binary ∈ rs) :
    (rs.findSome? (binding? kind name)).isSome = true := by
  apply List.findSome?_isSome_iff.mpr
  exact ⟨_, h, by rw [binding?_eq_some_iff.mpr rfl]; rfl⟩

/-- All that a registration can come to. -/
theorem addTo_cases (r : Registration) (index : Index) :
    (Name.isQualified r.name = false ∧ r.addTo index = .error (.invalidName r.name)) ∨
    Name.isQualified r.name = true ∧
      ((∃ kind name binary, r = entry kind name binary ∧ (index.table kind).contains name = true ∧
          r.addTo index = .error (.duplicate kind name)) ∨
       (∃ kind name binary, r = entry kind name binary ∧ (index.table kind).contains name = false ∧
          r.addTo index = .ok (index.enter kind name binary r.packages)) ∨
       ∃ name, r = package name ∧ r.addTo index = .ok (index.withPackages r.packages)) := by
  cases hname : Name.isQualified r.name with
  | false =>
    have hne : ¬ Name.isQualified r.name = true := by rw [hname]; decide
    refine Or.inl ⟨rfl, ?_⟩
    cases r with
    | entry kind name binary => cases kind <;> exact if_neg hne
    | package name => exact if_neg hne
  | true =>
    refine Or.inr ⟨rfl, ?_⟩
    cases r with
    | entry kind name binary =>
      cases hcontains : (index.table kind).contains name with
      | true =>
        refine Or.inl ⟨kind, name, binary, rfl, hcontains, ?_⟩
        cases kind <;> exact (if_pos hname).trans (if_pos hcontains)
      | false =>
        have hne : ¬ (index.table kind).contains name = true := by rw [hcontains]; decide
        refine Or.inr (Or.inl ⟨kind, name, binary, rfl, hcontains, ?_⟩)
        cases kind <;> exact (if_pos hname).trans (if_neg hne)
    | package name => exact Or.inr (Or.inr ⟨name, rfl, if_pos hname⟩)

end Registration

/-! ## Runs -/

namespace Index

open Registration

/-- What a registration leaves: the index with it, or the index as it was. -/
def register (index : Index) (r : Registration) : Index :=
  match r.addTo index with
  | .ok index => index
  | .error _ => index

def ofRegistrations (rs : List Registration) : Index :=
  rs.foldl register empty

theorem ofRegistrations_concat (rs : List Registration) (r : Registration) :
    ofRegistrations (rs ++ [r]) = (ofRegistrations rs).register r := by
  rw [ofRegistrations, List.foldl_append]
  rfl

/-- An index holds exactly what registrations put into it. -/
structure Records (index : Index) (rs : List Registration) : Prop where
  entries : ∀ kind name, (index.table kind).get? name =
    if Name.isQualified name then rs.findSome? (binding? kind name) else none
  packages : ∀ p, index.hasPackage p = true ↔
    ∃ r ∈ rs, Name.isQualified r.name = true ∧ r.Marks p

namespace Records

variable {index : Index} {rs : List Registration} {r : Registration} {kind : EntryKind}
  {name : String} {binary : Binary}

theorem contains_iff (h : index.Records rs) (hname : Name.isQualified name = true) :
    (index.table kind).contains name = true ↔ ∃ binary, entry kind name binary ∈ rs := by
  rw [Table.contains_eq_isSome, h.entries, if_pos hname]
  constructor
  · exact exists_of_isSome_findSome?
  · rintro ⟨binary, hmem⟩
    exact isSome_findSome?_of_mem hmem

/-- One more registration adds its binding where there was none. -/
theorem entries_concat (h : index.Records rs) :
    (if Name.isQualified name then (rs ++ [r]).findSome? (binding? kind name) else none) =
      ((index.table kind).get? name).or
        (if Name.isQualified name then r.binding? kind name else none) := by
  rw [h.entries]
  by_cases hname : Name.isQualified name = true
  · rw [if_pos hname, if_pos hname, if_pos hname, List.findSome?_append]
    cases hr : r.binding? kind name <;> simp [hr]
  · rw [if_neg hname, if_neg hname, if_neg hname]
    rfl

theorem packages_concat (h : index.Records rs) {p : String} :
    (∃ q ∈ rs ++ [r], Name.isQualified q.name = true ∧ q.Marks p) ↔
      index.hasPackage p = true ∨ Name.isQualified r.name = true ∧ r.Marks p := by
  rw [h.packages]
  constructor
  · rintro ⟨q, hq, hmarks⟩
    rcases List.mem_append.mp hq with hq | hq
    · exact Or.inl ⟨q, hq, hmarks⟩
    · rw [List.mem_singleton] at hq
      exact Or.inr (hq ▸ hmarks)
  · rintro (⟨q, hq, hmarks⟩ | hmarks)
    · exact ⟨q, List.mem_append_left _ hq, hmarks⟩
    · exact ⟨r, List.mem_append_right _ (List.mem_singleton.mpr rfl), hmarks⟩

/-- A registration that brings nothing new leaves a true record. -/
theorem concat_of_known (h : index.Records rs)
    (hentries : ∀ kind name, Name.isQualified name = true → r.binding? kind name ≠ none →
      (index.table kind).contains name = true)
    (hpackages : ∀ p, Name.isQualified r.name = true → r.Marks p → index.hasPackage p = true) :
    index.Records (rs ++ [r]) where
  entries kind name := by
    rw [h.entries_concat]
    by_cases hnew : Name.isQualified name = true ∧ r.binding? kind name ≠ none
    · have hknown := hentries kind name hnew.1 hnew.2
      rw [Table.contains_eq_isSome] at hknown
      obtain ⟨binary, hbinary⟩ := Option.isSome_iff_exists.mp hknown
      rw [hbinary]
      rfl
    · have hnone : (if Name.isQualified name then r.binding? kind name else none) = none := by
        split
        · next hname => exact Decidable.not_not.mp fun hne => hnew ⟨hname, hne⟩
        · rfl
      rw [hnone, Option.or_none]
  packages p := by
    rw [h.packages_concat]
    constructor
    · exact Or.inl
    · rintro (hp | ⟨hname, hmarks⟩)
      · exact hp
      · exact hpackages p hname hmarks

theorem concat_of_not_isQualified (h : index.Records rs)
    (hname : Name.isQualified r.name = false) : index.Records (rs ++ [r]) := by
  apply h.concat_of_known
  · intro kind name hq hbinding
    obtain ⟨binary, hbinary⟩ := Option.ne_none_iff_exists'.mp hbinding
    rw [binding?_eq_some_iff.mp hbinary] at hname
    exact absurd (hname.symm.trans hq) (by decide)
  · intro p hq
    exact absurd (hname.symm.trans hq) (by decide)

theorem concat_of_contains (h : index.Records rs) (hname : Name.isQualified name = true)
    (hcontains : (index.table kind).contains name = true) :
    index.Records (rs ++ [entry kind name binary]) := by
  apply h.concat_of_known
  · intro kind' name' _ hbinding
    obtain ⟨binary', hbinary⟩ := Option.ne_none_iff_exists'.mp hbinding
    have hsame := binding?_eq_some_iff.mp hbinary
    cases hsame
    exact hcontains
  · intro p _ hmarks
    obtain ⟨first, hfirst⟩ := (h.contains_iff hname).mp hcontains
    -- the registration that took the name came with the same packages
    have hmarks' : (entry kind name first).Marks p := by
      cases kind <;> exact hmarks
    exact (h.packages p).mpr ⟨_, hfirst, hname, hmarks'⟩

theorem concat_enter (h : index.Records rs) (hname : Name.isQualified name = true) :
    (index.enter kind name binary (entry kind name binary).packages).Records
      (rs ++ [entry kind name binary]) where
  entries kind' name' := by
    rw [h.entries_concat, get?_table_enter]
    congr 1
    rw [binding?]
    by_cases hsame : kind = kind' ∧ name = name'
    · rw [if_pos hsame, if_pos (hsame.2 ▸ hname)]
    · rw [if_neg hsame, ite_self]
  packages p := by
    rw [h.packages_concat, hasPackage_enter, Bool.or_eq_true, decide_eq_true_eq, mem_packages_iff]
    exact or_congr_right (iff_and_self.mpr fun _ => hname)

theorem concat_package (h : index.Records rs) (hname : Name.isQualified name = true) :
    (index.withPackages (Registration.package name).packages).Records
      (rs ++ [Registration.package name]) where
  entries kind' name' := by
    rw [h.entries_concat, table_withPackages, binding?, ite_self, Option.or_none]
  packages p := by
    rw [h.packages_concat, hasPackage_withPackages, Bool.or_eq_true, decide_eq_true_eq,
      mem_packages_iff]
    exact or_congr_right (iff_and_self.mpr fun _ => hname)

/-- The step: one registration more, taken or refused. -/
theorem register (h : index.Records rs) (r : Registration) :
    (index.register r).Records (rs ++ [r]) := by
  rw [Index.register]
  rcases r.addTo_cases index with ⟨hname, hr⟩ | ⟨hname, ⟨kind, name, binary, rfl, hcontains, hr⟩ |
    ⟨kind, name, binary, rfl, -, hr⟩ | ⟨name, rfl, hr⟩⟩
  · rw [hr]
    exact h.concat_of_not_isQualified hname
  · rw [hr]
    exact h.concat_of_contains hname hcontains
  · rw [hr]
    exact h.concat_enter hname
  · rw [hr]
    exact h.concat_package hname

end Records

theorem records_empty : empty.Records [] where
  entries kind name := get?_table_empty.trans (ite_self none).symm
  packages p := by
    constructor
    · intro h
      rw [hasPackage_empty] at h
      cases h
    · rintro ⟨r, hr, -⟩
      exact absurd hr List.not_mem_nil

/-- The run: any registrations are recorded. -/
theorem records_ofRegistrations (rs : List Registration) : (ofRegistrations rs).Records rs := by
  induction rs using List.reverseRecOn with
  | nil => exact records_empty
  | append_singleton rs r ih =>
    rw [ofRegistrations_concat]
    exact ih.register r

/-! ## What a run leaves

Each statement follows from the record of the run, without another induction. -/

variable {index : Index} {rs : List Registration} {kind : EntryKind} {name package : String}
  {binary : Binary}

theorem contains_table_iff : ((ofRegistrations rs).table kind).contains name = true ↔
    ¬ Name.HasEmptyPart name ∧ ∃ binary, entry kind name binary ∈ rs := by
  rw [← Name.isQualified_iff_not_hasEmptyPart]
  by_cases hname : Name.isQualified name = true
  · rw [(records_ofRegistrations rs).contains_iff hname]
    exact (and_iff_right hname).symm
  · rw [Table.contains_eq_isSome, (records_ofRegistrations rs).entries, if_neg hname]
    exact iff_of_false (by decide) fun h => hname h.1

/-- A name leads where its first registration said. -/
theorem get?_table_eq_some_iff : ((ofRegistrations rs).table kind).get? name = some binary ↔
    ¬ Name.HasEmptyPart name ∧ ∃ before after, rs = before ++ entry kind name binary :: after ∧
      ∀ other, entry kind name other ∉ before := by
  rw [(records_ofRegistrations rs).entries, ← Name.isQualified_iff_not_hasEmptyPart]
  by_cases hname : Name.isQualified name = true
  · rw [if_pos hname, List.findSome?_eq_some_iff, and_iff_right hname]
    constructor
    · rintro ⟨before, r, after, rfl, hr, hbefore⟩
      rw [binding?_eq_some_iff.mp hr]
      refine ⟨before, after, rfl, fun other hmem => ?_⟩
      have hnone := hbefore _ hmem
      rw [binding?_eq_some_iff.mpr rfl] at hnone
      cases hnone
    · rintro ⟨before, after, rfl, hbefore⟩
      refine ⟨before, _, after, rfl, binding?_eq_some_iff.mpr rfl, fun r hr => ?_⟩
      rw [Option.eq_none_iff_forall_ne_some]
      intro other hother
      exact hbefore other (binding?_eq_some_iff.mp hother ▸ hr)
  · rw [if_neg hname]
    exact iff_of_false (by nofun) fun h => hname h.1

theorem hasPackage_iff : (ofRegistrations rs).hasPackage package = true ↔
    ∃ r ∈ rs, ¬ Name.HasEmptyPart r.name ∧ r.Marks package := by
  simp only [← Name.isQualified_iff_not_hasEmptyPart]
  exact (records_ofRegistrations rs).packages package

theorem addTo_eq_invalidName_iff {r : Registration} :
    r.addTo (ofRegistrations rs) = .error (.invalidName r.name) ↔ Name.HasEmptyPart r.name := by
  rw [← Name.isQualified_eq_false_iff_hasEmptyPart]
  rcases r.addTo_cases (ofRegistrations rs) with ⟨hname, hr⟩ | ⟨hname, ⟨_, _, _, -, -, hr⟩ |
    ⟨_, _, _, -, -, hr⟩ | ⟨_, -, hr⟩⟩ <;> rw [hr, hname] <;> simp

theorem addTo_eq_duplicate_iff {r : Registration} :
    r.addTo (ofRegistrations rs) = .error (.duplicate kind name) ↔
      ¬ Name.HasEmptyPart name ∧ (∃ binary, r = entry kind name binary) ∧
        ∃ first, entry kind name first ∈ rs := by
  constructor
  · intro h
    rcases r.addTo_cases (ofRegistrations rs) with ⟨-, hr⟩ | ⟨-, ⟨_, _, binary, rfl, hcontains, hr⟩ |
      ⟨_, _, _, -, -, hr⟩ | ⟨_, -, hr⟩⟩ <;> rw [hr] at h <;> cases h
    have hknown := contains_table_iff.mp hcontains
    exact ⟨hknown.1, ⟨binary, rfl⟩, hknown.2⟩
  · rintro ⟨hname, ⟨binary, rfl⟩, hfirst⟩
    have hcontains := contains_table_iff.mpr ⟨hname, hfirst⟩
    rcases (entry kind name binary).addTo_cases (ofRegistrations rs) with ⟨hbad, -⟩ | ⟨-,
      ⟨_, _, _, heq, -, hr⟩ | ⟨_, _, _, heq, hnew, -⟩ | ⟨_, heq, -⟩⟩
    · exact absurd (Name.isQualified_eq_false_iff_hasEmptyPart.mp hbad) hname
    · cases heq
      exact hr
    · cases heq
      exact absurd (hnew.symm.trans hcontains) (by decide)
    · cases heq

/-- A refusal has one of two causes, and changes nothing. -/
theorem addTo_eq_error {r : Registration} {e : IndexError} (h : r.addTo index = .error e) :
    (e = .invalidName r.name ∨ ∃ kind, e = .duplicate kind r.name) ∧ index.register r = index := by
  refine ⟨?_, by rw [register, h]⟩
  rcases r.addTo_cases index with ⟨-, hr⟩ | ⟨-, ⟨kind, _, _, rfl, -, hr⟩ | ⟨_, _, _, -, -, hr⟩ |
    ⟨_, -, hr⟩⟩ <;> rw [hr] at h <;> cases h
  · exact Or.inl rfl
  · exact Or.inr ⟨kind, rfl⟩

/-- Entries of a kind are those that entries of the kind alone would leave. -/
theorem table_eq_table_filter :
    (ofRegistrations rs).table kind = (ofRegistrations (rs.filter (isEntry kind))).table kind := by
  apply Table.ext
  intro name
  rw [(records_ofRegistrations _).entries, (records_ofRegistrations _).entries]
  congr 1
  induction rs with
  | nil => rfl
  | cons r rs ih =>
    rw [List.filter_cons, List.findSome?_cons]
    cases hr : r.isEntry kind with
    | true =>
      rw [if_pos rfl, List.findSome?_cons, ih]
    | false =>
      have hnone : r.binding? kind name = none := by
        cases r with
        | entry kind' name' binary => exact if_neg fun h => of_decide_eq_false hr h.1
        | package name' => rfl
      rw [hnone, ih]
      rfl

/-- Types leave the packages as they are. -/
theorem hasPackage_eq_hasPackage_filter : (ofRegistrations rs).hasPackage package =
    (ofRegistrations (rs.filter fun r => !r.isEntry .type)).hasPackage package := by
  rw [Bool.eq_iff_iff, hasPackage_iff, hasPackage_iff]
  constructor
  · rintro ⟨r, hr, hname, hmarks⟩
    refine ⟨r, List.mem_filter.mpr ⟨hr, ?_⟩, hname, hmarks⟩
    cases r with
    | entry kind name binary =>
      cases kind with
      | type => exact hmarks.elim
      | function => rfl
    | package name => rfl
  · rintro ⟨r, hr, hname, hmarks⟩
    exact ⟨r, (List.mem_filter.mp hr).1, hname, hmarks⟩

/-- After any registrations: which further one is refused and why, what each name leads
to, and which packages there are. -/
theorem ofRegistrations_contents (rs : List Registration) :
    (∀ r : Registration,
      (r.addTo (ofRegistrations rs) = .error (.invalidName r.name) ↔
        Name.HasEmptyPart r.name) ∧
      (∀ kind name, r.addTo (ofRegistrations rs) = .error (.duplicate kind name) ↔
        ¬ Name.HasEmptyPart name ∧ (∃ binary, r = entry kind name binary) ∧
          ∃ first, entry kind name first ∈ rs) ∧
      (∀ e, r.addTo (ofRegistrations rs) = .error e →
        (e = .invalidName r.name ∨ ∃ kind, e = .duplicate kind r.name) ∧
          ofRegistrations (rs ++ [r]) = ofRegistrations rs) ∧
      (∀ index, r.addTo (ofRegistrations rs) = .ok index → ofRegistrations (rs ++ [r]) = index)) ∧
    (∀ kind name binary, ((ofRegistrations rs).table kind).get? name = some binary ↔
      ¬ Name.HasEmptyPart name ∧ ∃ before after, rs = before ++ entry kind name binary :: after ∧
        ∀ other, entry kind name other ∉ before) ∧
    (∀ package, (ofRegistrations rs).hasPackage package = true ↔
      ∃ r ∈ rs, ¬ Name.HasEmptyPart r.name ∧ r.Marks package) ∧
    (∀ kind name, ((ofRegistrations rs).table kind).contains name = true →
      ¬ Name.HasEmptyPart name) ∧
    (∀ package, (ofRegistrations rs).hasPackage package = true → ¬ Name.HasEmptyPart package ∧
      ∀ outer, Name.Encloses outer package → (ofRegistrations rs).hasPackage outer = true) ∧
    (∀ kind, (ofRegistrations rs).table kind =
      (ofRegistrations (rs.filter (isEntry kind))).table kind) ∧
    (∀ package, (ofRegistrations rs).hasPackage package =
      (ofRegistrations (rs.filter fun r => !r.isEntry .type)).hasPackage package) := by
  refine ⟨fun r => ⟨addTo_eq_invalidName_iff, fun kind name => addTo_eq_duplicate_iff, ?_, ?_⟩,
    fun kind name binary => get?_table_eq_some_iff, fun package => hasPackage_iff,
    fun kind name h => (contains_table_iff.mp h).1, ?_, fun kind => table_eq_table_filter,
    fun package => hasPackage_eq_hasPackage_filter⟩
  · intro e he
    rw [ofRegistrations_concat]
    exact addTo_eq_error he
  · intro index hindex
    rw [ofRegistrations_concat, register, hindex]
  · intro package hpackage
    obtain ⟨r, hr, hname, hmarks⟩ := hasPackage_iff.mp hpackage
    have hqualified := Name.isQualified_iff_not_hasEmptyPart.mpr hname
    refine ⟨Name.isQualified_iff_not_hasEmptyPart.mp (hmarks.isQualified hqualified), ?_⟩
    intro outer houter
    exact hasPackage_iff.mpr ⟨r, hr, hname, hmarks.of_encloses houter⟩

/-- One name for a type and a function; the type's second registration and the name
with an empty part are refused, and only the function brings a package. -/
theorem ofRegistrations_sharedName :
    let rs : List Registration := [.entry .type "a.b" (.memory "first" []),
      .entry .type "a..c" (.memory "bad" []), .entry .function "a.b" (.memory "sum" [])]
    (Registration.entry .type "a.b" (.memory "second" [])).addTo (ofRegistrations rs) =
        .error (.duplicate .type "a.b") ∧
      (Registration.package "a.").addTo (ofRegistrations rs) = .error (.invalidName "a.") ∧
      ofRegistrations (rs ++ [.package "a."]) = ofRegistrations rs ∧
      ((ofRegistrations rs).table .type).get? "a.b" = some (.memory "first" []) ∧
      ((ofRegistrations rs).table .function).get? "a.b" = some (.memory "sum" []) ∧
      (ofRegistrations rs).hasPackage "a" = true ∧
      (ofRegistrations (rs.take 2)).hasPackage "a" = false := by
  intro rs
  obtain ⟨hcalls, hentries, hpackages, -⟩ := ofRegistrations_contents rs
  obtain ⟨-, -, htypes, -⟩ := ofRegistrations_contents (rs.take 2)
  have hinvalid : (Registration.package "a.").addTo (ofRegistrations rs) =
      .error (.invalidName "a.") := (hcalls (.package "a.")).1.mpr (by decide)
  refine ⟨?_, hinvalid, ((hcalls _).2.2.1 _ hinvalid).2, ?_, ?_, ?_, ?_⟩
  · exact ((hcalls _).2.1 .type "a.b").mpr ⟨by decide, ⟨_, rfl⟩, _, List.mem_cons_self⟩
  · exact (hentries .type "a.b" _).mpr ⟨by decide, [], _, rfl, fun _ => List.not_mem_nil⟩
  · refine (hentries .function "a.b" _).mpr ⟨by decide, rs.take 2, [], rfl, ?_⟩
    intro other hmem
    simp [rs] at hmem
  · refine (hpackages "a").mpr ⟨.entry .function "a.b" (.memory "sum" []), ?_, by decide, ['b'], rfl⟩
    simp [rs]
  · rw [Bool.eq_false_iff]
    intro h
    obtain ⟨r, hr, -, hmarks⟩ := (htypes "a").mp h
    simp only [rs, List.take, List.mem_cons, List.not_mem_nil, or_false] at hr
    rcases hr with rfl | rfl <;> exact hmarks

end Index
end ClassIndex

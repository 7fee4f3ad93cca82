/-
What a lookup depends on.

A view answers each name from one entry of one table: the view of types from the table of
types, and the view for a function from the table of functions for that function's name
and from the table of types for every other (`Answers` and the lemmas on `typeView` and
`functionView`).  A name that is a type and a function is thus never opened as the other.

Two indexes that agree on what a view answers from give the same lookups, whatever the
loader does with the view (`type_congr`, `function_congr`).  The loader that decodes class
files asks for the name it is given and no other, so that a function's lookup depends on a
single entry (`function_congr_of_decoding`).  `lookups_separate` collects this.
-/
import ClassIndex.Lookup
import ClassIndex.Proofs.Lookup.Function

namespace ClassIndex

/-! ## Views -/

/-- What a view answers for a name, by the class that the name stands for, if any. -/
structure View.Answers (v : View) (files : Files) (name : String) (binary? : Option Binary) :
    Prop where
  unknown : v.openClass name = .ok none ↔ binary? = none
  opened : ∀ stream, v.openClass name = .ok (some stream) ↔
    ∃ b, binary? = some b ∧ b.openStream files = .ok stream
  failed : ∀ e, v.openClass name = .error e ↔
    ∃ b cause, binary? = some b ∧ b.openStream files = .error cause ∧ e = ⟨b.location, cause⟩
  located : v.locate name = binary?.map Binary.location

namespace View

variable {v w : View} {files : Files} {name : String} {binary? : Option Binary}

theorem ofBinaries_answers (choice : String → Option Binary) :
    (ofBinaries files choice).Answers files name (choice name) := by
  cases h : choice name with
  | none => constructor <;> simp [ofBinaries, h]
  | some b =>
    cases hb : b.openStream files with
    | ok stream => constructor <;> simp [ofBinaries, h, hb]
    | error cause => constructor <;> simp [ofBinaries, h, hb, eq_comm]

/-- A name has no place exactly when it is unknown. -/
theorem Answers.locate_eq_none_iff (h : v.Answers files name binary?) :
    v.locate name = none ↔ v.openClass name = .ok none := by
  rw [h.located, h.unknown, Option.map_eq_none_iff]

/-- There is one way to answer from a class. -/
theorem Answers.eq (hv : v.Answers files name binary?) (hw : w.Answers files name binary?) :
    v.openClass name = w.openClass name ∧ v.locate name = w.locate name := by
  refine ⟨?_, hv.located.trans hw.located.symm⟩
  cases h : v.openClass name with
  | error e => exact ((hw.failed e).mpr ((hv.failed e).mp h)).symm
  | ok stream? =>
    cases stream? with
    | none => exact (hw.unknown.mpr (hv.unknown.mp h)).symm
    | some stream => exact ((hw.opened stream).mpr ((hv.opened stream).mp h)).symm

end View

namespace Index

variable (index : Index) (files : Files) (function name : String)

theorem typeView_answers :
    (index.typeView files).Answers files name (index.types.get? name) :=
  View.ofBinaries_answers index.typeBinary?

theorem functionView_answers :
    (index.functionView files function).Answers files name
      (if name = function then index.functions.get? name else index.types.get? name) :=
  View.ofBinaries_answers (index.functionBinary? function)

theorem functionView_answers_own :
    (index.functionView files name).Answers files name (index.functions.get? name) := by
  have hanswers := index.functionView_answers files name name
  rwa [if_pos rfl] at hanswers

end Index

/-! ## Loading -/

/-- Decoding asks a view about the name it is given, and about no other. -/
theorem Loader.decoding_congr {v w : View} {name : String}
    (hopen : v.openClass name = w.openClass name) (hlocate : v.locate name = w.locate name) :
    decoding name v = decoding name w := by
  have hdemand : v.demand name = w.demand name := by
    rw [View.demand, View.demand, hopen]
  have hdescribe : v.describe name = w.describe name := by
    rw [View.describe, View.describe, hlocate]
  rw [decoding, decoding, hdemand, hdescribe]

/-- Decoding misses no class that the view has. -/
theorem Loader.decoding_ne_notFound {v : View} {name : String} (h : v.openClass name ≠ .ok none)
    (missing : String) : decoding name v ≠ .error (.notFound missing) := by
  unfold decoding View.demand
  cases hopen : v.openClass name with
  | error cause => exact nofun
  | ok stream? =>
    cases stream? with
    | none => exact absurd hopen h
    | some stream =>
      simp only [bind, Except.bind]
      cases stream.read with
      | error cause => exact nofun
      | ok bytes =>
        simp only [Except.mapError]
        cases ClassFormat.decode bytes <;> exact nofun

/-! ## Lookups -/

namespace Lookup

variable (l : Lookup)

/-- The same lookups in another index. -/
def withIndex (index : Index) : Lookup :=
  { l with index }

variable {l} {index : Index} {name : String}

/-! ### Classes

The class of a type and that of a function come about in one way. -/

/-- The class of a name in a table, loaded through a view, unless the name is none. -/
def classFrom (table : Table String Binary) (loader : Loader) (name : String) (v : View) :
    Except LoadError (Option ClassInfo) :=
  if table.contains name then some <$> loader name v else .ok none

theorem typeClass_eq : l.typeClass name =
    classFrom l.index.types l.loader name (l.index.typeView l.files) := rfl

theorem functionClass_eq : l.functionClass name =
    classFrom l.index.functions l.loader name (l.index.functionView l.files name) := rfl

section Classes

variable {table table' : Table String Binary} {loader : Loader} {v w : View} {files : Files}

theorem classFrom_eq_none_iff : classFrom table loader name v = .ok none ↔
    table.get? name = none := by
  rw [classFrom, Table.contains_eq_isSome]
  cases table.get? name with
  | none => exact iff_of_true rfl rfl
  | some binary =>
    rw [if_pos Option.isSome_some]
    cases loader name v <;> exact iff_of_false nofun nofun

theorem classFrom_eq_error_iff {cause : LoadError} : classFrom table loader name v = .error cause ↔
    table.get? name ≠ none ∧ loader name v = .error cause := by
  rw [classFrom, Table.contains_eq_isSome]
  cases table.get? name with
  | none => exact iff_of_false nofun fun h => h.1 rfl
  | some binary =>
    rw [if_pos Option.isSome_some, and_iff_right (Option.some_ne_none binary)]
    cases loader name v with
    | error e =>
      constructor <;> intro h <;> cases h <;> rfl
    | ok c => exact iff_of_false nofun nofun

theorem classFrom_congr (hentry : table.get? name = table'.get? name)
    (hload : loader name v = loader name w) :
    classFrom table loader name v = classFrom table' loader name w := by
  rw [classFrom, classFrom, hload, Table.contains_eq_isSome, Table.contains_eq_isSome, hentry]

/-- Through a view that answers from the table, decoding misses no class. -/
theorem classFrom_ne_notFound (h : v.Answers files name (table.get? name)) (missing : String) :
    classFrom table Loader.decoding name v ≠ .error (.notFound missing) := by
  intro herror
  obtain ⟨hname, hload⟩ := classFrom_eq_error_iff.mp herror
  exact Loader.decoding_ne_notFound (fun hopen => hname (h.unknown.mp hopen)) missing hload

end Classes

/-! ### Missing names -/

/-- A lookup of a type finds nothing exactly for the names that are no type. -/
theorem type_eq_none_iff : l.type name = .ok none ↔ l.index.types.get? name = none := by
  rw [← classFrom_eq_none_iff, ← typeClass_eq, type]
  cases l.typeClass name with
  | error cause => exact iff_of_false nofun nofun
  | ok c? => cases c? <;> simp

theorem function_eq_none_iff :
    l.function name = .ok none ↔ l.index.functions.get? name = none := by
  rw [← classFrom_eq_none_iff, ← functionClass_eq, function]
  cases l.functionClass name with
  | error cause => exact iff_of_false nofun nofun
  | ok c? =>
    cases c? with
    | none => exact iff_of_true rfl rfl
    | some c =>
      dsimp only
      cases FunctionDefinition.ofClass l.settings.invokeName name c <;>
        exact iff_of_false nofun nofun

/-! ### Two indexes -/

/-- Whatever the loader opens, a type's lookup sees the table of types only. -/
theorem type_congr (h : ∀ n, index.types.get? n = l.index.types.get? n) :
    (l.withIndex index).type name = l.type name := by
  have hview : index.typeView l.files = l.index.typeView l.files :=
    congrArg (View.ofBinaries l.files) (funext h)
  have hclass : (l.withIndex index).typeClass name = l.typeClass name :=
    classFrom_congr (h name) (congrArg (l.loader name) hview)
  rw [type, type, hclass]

/-- A function's lookup depends on the name's own entry and on what loading makes of
the view. -/
theorem function_congr_of_loader (hown : index.functions.get? name = l.index.functions.get? name)
    (hload : l.loader name (index.functionView l.files name) =
      l.loader name (l.index.functionView l.files name)) :
    (l.withIndex index).function name = l.function name := by
  have hclass : (l.withIndex index).functionClass name = l.functionClass name :=
    classFrom_congr hown hload
  rw [function, function, hclass]
  rfl

/-- Whatever the loader opens, a function's lookup sees its own entry, and types of
other names. -/
theorem function_congr (hown : index.functions.get? name = l.index.functions.get? name)
    (hothers : ∀ n, n ≠ name → index.types.get? n = l.index.types.get? n) :
    (l.withIndex index).function name = l.function name := by
  have hbinary : index.functionBinary? name = l.index.functionBinary? name := by
    funext n
    unfold Index.functionBinary?
    by_cases hn : n = name
    · rw [if_pos hn, if_pos hn, hn, hown]
    · rw [if_neg hn, if_neg hn, hothers n hn]
  refine function_congr_of_loader hown (congrArg (l.loader name) ?_)
  exact congrArg (View.ofBinaries l.files) hbinary

/-- With decoding, a function's lookup sees its own entry only. -/
theorem function_congr_of_decoding (hloader : l.loader = Loader.decoding)
    (hown : index.functions.get? name = l.index.functions.get? name) :
    (l.withIndex index).function name = l.function name := by
  have hanswers := index.functionView_answers_own l.files name
  rw [hown] at hanswers
  obtain ⟨hopen, hlocate⟩ := hanswers.eq (l.index.functionView_answers_own l.files name)
  refine function_congr_of_loader hown ?_
  rw [hloader]
  exact Loader.decoding_congr hopen hlocate

/-! ### Missing classes -/

theorem type_ne_notFound (hloader : l.loader = Loader.decoding) (named missing : String) :
    l.type name ≠ .error (.unloaded named (.notFound missing)) := by
  intro h
  unfold type at h
  split at h
  · next cause hclass =>
    cases h
    rw [typeClass_eq, hloader] at hclass
    exact classFrom_ne_notFound (l.index.typeView_answers l.files name) missing hclass
  · cases h

theorem function_ne_notFound (hloader : l.loader = Loader.decoding) (named missing : String) :
    l.function name ≠ .error (.unloaded named (.notFound missing)) := by
  intro h
  unfold function at h
  split at h
  · next cause hclass =>
    cases h
    rw [functionClass_eq, hloader] at hclass
    exact classFrom_ne_notFound (l.index.functionView_answers_own l.files name) missing hclass
  · cases h
  · split at h
    · next fault _ => cases fault <;> cases h
    · cases h

/-- Every view answers from the right table, and no lookup sees an entry of the other table
for its own name.  With decoding, a function's lookup sees no other entry at all, and none
misses a class. -/
theorem lookups_separate (l : Lookup) :
    (∀ n, (l.index.typeView l.files).Answers l.files n (l.index.types.get? n)) ∧
    (∀ f, (l.index.functionView l.files f).Answers l.files f (l.index.functions.get? f) ∧
      ∀ n, n ≠ f → (l.index.functionView l.files f).Answers l.files n (l.index.types.get? n)) ∧
    (∀ n, (l.index.typeView l.files).locate n = none ↔
      (l.index.typeView l.files).openClass n = .ok none) ∧
    (∀ f n, (l.index.functionView l.files f).locate n = none ↔
      (l.index.functionView l.files f).openClass n = .ok none) ∧
    (∀ n, l.type n = .ok none ↔ l.index.types.get? n = none) ∧
    (∀ f, l.function f = .ok none ↔ l.index.functions.get? f = none) ∧
    (∀ index : Index, (∀ n, index.types.get? n = l.index.types.get? n) →
      ∀ n, (l.withIndex index).type n = l.type n) ∧
    (∀ index f, index.functions.get? f = l.index.functions.get? f →
      (∀ n, n ≠ f → index.types.get? n = l.index.types.get? n) →
      (l.withIndex index).function f = l.function f) ∧
    (l.loader = Loader.decoding →
      (∀ index f, index.functions.get? f = l.index.functions.get? f →
        (l.withIndex index).function f = l.function f) ∧
      ∀ n named missing, l.type n ≠ .error (.unloaded named (.notFound missing)) ∧
        l.function n ≠ .error (.unloaded named (.notFound missing))) := by
  have htypes := l.index.typeView_answers l.files
  have hfunction := fun f n => l.index.functionView_answers l.files f n
  refine ⟨htypes, fun f => ⟨l.index.functionView_answers_own l.files f, fun n hn => ?_⟩,
    fun n => (htypes n).locate_eq_none_iff, fun f n => (hfunction f n).locate_eq_none_iff,
    fun n => type_eq_none_iff, fun f => function_eq_none_iff, fun index h n => type_congr h,
    fun index f => function_congr, fun hloader => ⟨?_, fun n named missing => ?_⟩⟩
  · have hother := hfunction f n
    rwa [if_neg hn] at hother
  · intro index f hown
    exact function_congr_of_decoding hloader hown
  · exact ⟨type_ne_notFound hloader named missing, function_ne_notFound hloader named missing⟩

end Lookup

/-- A lookup where one name is a function and a type, the class of the type being cut
off after its magic number. -/
def sharedNameLookup : Lookup :=
  areaLookup.withIndex { areaLookup.index with
    types := Table.empty.add "demo.area" (.memory "type" [0xCA, 0xFE, 0xBA, 0xBE]) }

/-- The function is looked up as if the type were not there. -/
theorem sharedNameLookup_separate :
    (sharedNameLookup.index.typeView sharedNameLookup.files).locate "demo.area" =
      some (.memory "type") ∧
    (sharedNameLookup.index.functionView sharedNameLookup.files "demo.area").locate "demo.area" =
      some (.memory "area") ∧
    areaLookup.function "demo.area" = sharedNameLookup.function "demo.area" ∧
    areaLookup.type "demo.area" = .ok none ∧ sharedNameLookup.type "demo.area" ≠ .ok none ∧
    ∀ named missing,
      sharedNameLookup.type "demo.area" ≠ .error (.unloaded named (.notFound missing)) := by
  have htype : sharedNameLookup.index.types.get? "demo.area" =
      some (.memory "type" [0xCA, 0xFE, 0xBA, 0xBE]) :=
    Table.get?_add_empty _ _
  have hfunction : sharedNameLookup.index.functions.get? "demo.area" =
      some (.memory "area" ClassFormat.areaClass.bytes) :=
    Table.get?_add_empty _ _
  obtain ⟨htypes, hfunctions, -, -, hnone, -, -, -, hdecoding⟩ :=
    Lookup.lookups_separate sharedNameLookup
  obtain ⟨hcongr, hfound⟩ := hdecoding rfl
  refine ⟨?_, ?_, ?_, ?_, ?_, fun named missing => (hfound _ named missing).1⟩
  · rw [(htypes "demo.area").located, htype]
    rfl
  · rw [(hfunctions "demo.area").1.located, hfunction]
    rfl
  · exact hcongr areaLookup.index "demo.area" rfl
  · obtain ⟨-, -, -, -, hnone, -⟩ := Lookup.lookups_separate areaLookup
    exact (hnone "demo.area").mpr (Table.get?_empty "demo.area")
  · rw [ne_eq, hnone, htype]
    exact nofun

end ClassIndex

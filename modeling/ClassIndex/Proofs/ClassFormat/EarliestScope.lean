/-
Slots are named by their earliest scope.

A body may hold any number of debug tables.  All their lines count together, in the order
in which they stand in the body, and a slot has the name of the line that claims it: the
one with the least start, the first listed among equals.  So the order of the lines shows
only between lines of one slot with one start (`Rearranged`).

`read_follows_earliest_scope` says all this of every body that is read.  What it says of
the lines is proved on lists of lines first (`contains_ofVariables`, `size_ofVariables`,
`ofVariables_of_rearranged`), and `read_eq_ok_iff_front` leads from bytes to lines.
-/
import Mathlib
import ClassIndex.Proofs.ClassFormat.DebugNames
import ClassIndex.Proofs.ClassFormat.RoundTrip

namespace ClassIndex

/-! ## Keys of tables -/

namespace Table

variable {κ α : Type} [Ord κ] [Std.TransOrd κ] [Std.LawfulEqOrd κ]

theorem nodup_keys (t : Table κ α) : t.keys.Nodup := by
  have hdistinct : t.keys.Pairwise fun a b => ¬ compare a b = .eq :=
    Std.ExtTreeMap.distinct_keys
  refine hdistinct.imp fun {a b} hne heq => ?_
  subst heq
  exact hne Std.ReflCmp.compare_self

/-- A table of entries has as many keys as occur in them. -/
theorem size_ofList [DecidableEq κ] (es : List (κ × α)) :
    (ofList es).size = (es.map Prod.fst).dedup.length := by
  rw [← length_keys]
  refine ((List.perm_ext_iff_of_nodup (nodup_keys _) (List.nodup_dedup _)).mpr ?_).length_eq
  intro k
  rw [mem_keys_iff, ofList, contains_addAll, contains_empty, Bool.false_or, decide_eq_true_iff,
    List.mem_dedup]

end Table

/-! ## Lines in another order -/

namespace LocalVariable

/-- The same lines in another order, with lines of one slot and one start among
themselves as they were. -/
structure Rearranged (lines lines' : List LocalVariable) : Prop where
  perm : lines.Perm lines'
  keeps : ∀ v ∈ lines, (lines.filter fun u => u.slot = v.slot ∧ u.start = v.start) =
    lines'.filter fun u => u.slot = v.slot ∧ u.start = v.start

instance {lines lines' : List LocalVariable} : Decidable (Rearranged lines lines') :=
  decidable_of_iff (lines.Perm lines' ∧ ∀ v ∈ lines,
      (lines.filter fun u => u.slot = v.slot ∧ u.start = v.start) =
        lines'.filter fun u => u.slot = v.slot ∧ u.start = v.start)
    ⟨fun h => ⟨h.1, h.2⟩, fun h => ⟨h.perm, h.keeps⟩⟩

theorem mem_and_slot_of_head?_filter {lines : List LocalVariable} {slot : UInt16}
    {v : LocalVariable}
    (h : (lines.filter fun u => u.slot = slot ∧ u.start = v.start).head? = some v) :
    v ∈ lines ∧ v.slot = slot := by
  obtain ⟨hmem, hv⟩ := List.mem_filter.mp (List.mem_of_head? h)
  exact ⟨hmem, (of_decide_eq_true hv).1⟩

theorem Rearranged.leads_iff {lines lines' : List LocalVariable} (h : Rearranged lines lines')
    {slot : UInt16} {v : LocalVariable} : Leads lines slot v ↔ Leads lines' slot v := by
  unfold Leads
  refine and_congr ?_ ?_
  · simp only [h.perm.mem_iff]
  · constructor
    · intro hv
      obtain ⟨hmem, rfl⟩ := mem_and_slot_of_head?_filter hv
      rw [← h.keeps v hmem]
      exact hv
    · intro hv
      obtain ⟨hmem, rfl⟩ := mem_and_slot_of_head?_filter hv
      rw [h.keeps v (h.perm.mem_iff.mpr hmem)]
      exact hv

end LocalVariable

namespace LocalNames

open LocalVariable

variable {lines lines' : List LocalVariable}

/-- Lines in another order give the same names. -/
theorem ofVariables_of_rearranged (h : Rearranged lines lines') :
    ofVariables lines = ofVariables lines' := by
  refine Table.ext fun slot => Option.ext fun name => ?_
  rw [get?_ofVariables, get?_ofVariables]
  simp only [claims_iff_leads, h.leads_iff]

theorem map_fst_byStart (lines : List LocalVariable) :
    ((byStart lines).map fun line => (line.slot, line.name)).map Prod.fst =
      (byStart lines).map LocalVariable.slot := by
  rw [List.map_map]
  rfl

/-- A slot is named if any line is of it. -/
theorem contains_ofVariables {slot : UInt16} :
    (ofVariables lines).contains slot = true ↔ ∃ v ∈ lines, v.slot = slot := by
  rw [ofVariables, Table.ofList, Table.contains_addAll, Table.contains_empty, Bool.false_or,
    decide_eq_true_iff, map_fst_byStart, List.mem_map]
  simp only [byStart, List.mem_mergeSort]

/-- There are as many names as there are slots in the lines. -/
theorem size_ofVariables (lines : List LocalVariable) :
    (ofVariables lines).size = (lines.map LocalVariable.slot).dedup.length := by
  rw [ofVariables, Table.size_ofList, map_fst_byStart]
  exact ((List.mergeSort_perm lines _).map _).dedup.length_eq

end LocalNames

/-! ## Bodies -/

namespace ClassFormat

/-- A body at the front of a byte string, with the lines of its debug tables in the order
of the tables. -/
structure BodyForm.Front (cs : List ConstantForm) (b : BodyForm)
    (tables : List (List LocalVariable)) (bs rest : List UInt8) : Prop where
  bytes : bs = b.bytes ++ rest
  framed : b.Framed
  tables : ∃ found, List.Forall₂ (AttributeForm.DenotesTable cs) b.attributes found ∧
    tables = found.filterMap id

namespace DebugTable

variable {cs cs' : List ConstantForm} {bs rest : List UInt8} {names : Option LocalNames}

theorem names_eq_none_iff {tables : List (List LocalVariable)} :
    DebugTable.names tables = none ↔ tables = [] := by
  cases tables with
  | nil => exact iff_of_true rfl rfl
  | cons table tables => exact iff_of_false nofun (List.cons_ne_nil table tables)

theorem names_eq_some_iff {tables : List (List LocalVariable)} {ns : LocalNames} :
    DebugTable.names tables = some ns ↔
      tables ≠ [] ∧ LocalNames.ofVariables tables.flatten = ns := by
  cases tables with
  | nil => exact iff_of_false nofun fun h => h.1 rfl
  | cons table tables =>
    have hne : table :: tables ≠ [] := List.cons_ne_nil table tables
    show some (LocalNames.ofVariables (table :: tables).flatten) = some ns ↔ _
    rw [Option.some_inj, and_iff_right hne]

/-- What is read is the body at the front, and the names are those of its tables. -/
theorem read_eq_ok_iff_front : DebugTable.read (poolOf cs) bs = .ok (names, rest) ↔
    ∃ b tables, BodyForm.Front cs b tables bs rest ∧ DebugTable.names tables = names := by
  rw [(debugTable_read_reads (agrees_poolOf cs)) bs names rest]
  constructor
  · intro hread
    obtain ⟨b, hbytes, hframed, found, hfound, hnames⟩ := hread
    exact ⟨b, found.filterMap id, ⟨hbytes, hframed, found, hfound, rfl⟩, namedBy_iff.mp hnames⟩
  · intro hform
    obtain ⟨b, tables, ⟨hbytes, hframed, found, hfound, rfl⟩, hnames⟩ := hform
    exact ⟨b, hbytes, hframed, found, hfound, namedBy_iff.mpr hnames⟩

theorem filterMap_eq_nil_iff {attributes : List AttributeForm}
    {found : List (Option (List LocalVariable))}
    (h : List.Forall₂ (AttributeForm.DenotesTable cs) attributes found) :
    found.filterMap id = [] ↔
      ∀ a ∈ attributes, text? cs a.name ≠ some DebugTable.attributeName := by
  induction h with
  | nil => simp
  | @cons a table attributes found ha _ ih =>
    rw [List.forall_mem_cons, ← ih]
    cases table with
    | none => exact (and_iff_right ha.not_isTable).symm
    | some lines => exact iff_of_false nofun fun h => h.1 ha.isTable

/-- A body that is read has names exactly if it has a debug table, and each slot has the
name of its line with the least start, or the first of these lines.  A body with the lines
in another order gives the same, as long as lines of one slot and one start stay in
theirs. -/
theorem read_follows_earliest_scope
    (h : DebugTable.read (poolOf cs) bs = .ok (names, rest)) :
    (∃ b tables, BodyForm.Front cs b tables bs rest) ∧
    ∀ b tables, BodyForm.Front cs b tables bs rest →
      (names = none ↔
        ∀ a ∈ b.attributes, text? cs a.name ≠ some DebugTable.attributeName) ∧
      (∀ ns, names = some ns →
        (∀ slot name, ns.get? slot = some name ↔
          ∃ v, LocalVariable.Claims tables.flatten slot v ∧ v.name = name) ∧
        (∀ slot, ns.contains slot = true ↔ ∃ v ∈ tables.flatten, v.slot = slot) ∧
        ns.size = (tables.flatten.map LocalVariable.slot).dedup.length) ∧
      ∀ cs' b' tables' bs' rest', BodyForm.Front cs' b' tables' bs' rest' →
        (tables' = [] ↔ tables = []) →
        LocalVariable.Rearranged tables.flatten tables'.flatten →
        DebugTable.read (poolOf cs') bs' = .ok (names, rest') := by
  constructor
  · obtain ⟨b, tables, hfront, -⟩ := read_eq_ok_iff_front.mp h
    exact ⟨b, tables, hfront⟩
  · intro b tables hfront
    have hnames : DebugTable.names tables = names := by
      have hread := read_eq_ok_iff_front.mpr ⟨b, tables, hfront, rfl⟩
      rw [h] at hread
      cases hread
      rfl
    refine ⟨?_, ?_, ?_⟩
    · obtain ⟨found, hfound, htables⟩ := hfront.tables
      rw [← hnames, names_eq_none_iff, htables, filterMap_eq_nil_iff hfound]
    · intro ns hns
      obtain ⟨-, rfl⟩ := names_eq_some_iff.mp (hnames.trans hns)
      exact ⟨fun slot name => LocalNames.get?_ofVariables,
        fun slot => LocalNames.contains_ofVariables, LocalNames.size_ofVariables _⟩
    · intro cs' b' tables' bs' rest' hfront' hnone hlines
      refine read_eq_ok_iff_front.mpr ⟨b', tables', hfront', ?_⟩
      rw [← hnames]
      cases hns : DebugTable.names tables with
      | none => rw [names_eq_none_iff, hnone, ← names_eq_none_iff, hns]
      | some ns =>
        obtain ⟨hne, rfl⟩ := names_eq_some_iff.mp hns
        exact names_eq_some_iff.mpr
          ⟨mt hnone.mp hne, (LocalNames.ofVariables_of_rearranged hlines).symm⟩

/-! ## A slot in three scopes -/

/-- Two tables, in which one slot has a later scope and two that start at once. -/
def reuseBody : BodyForm :=
  { areaBody with attributes := [
      ⟨12, countedBytes LineForm.bytes [⟨4, 2, 13, 15, 2⟩, ⟨0, 6, 14, 16, 2⟩]⟩,
      ⟨12, countedBytes LineForm.bytes [⟨0, 6, 13, 15, 2⟩, ⟨0, 6, 13, 15, 0⟩]⟩] }

/-- The same lines in one table, by their starts. -/
def sortedBody : BodyForm :=
  { areaBody with attributes := [
      ⟨12, countedBytes LineForm.bytes [⟨0, 6, 13, 15, 0⟩, ⟨0, 6, 14, 16, 2⟩, ⟨0, 6, 13, 15, 2⟩,
        ⟨4, 2, 13, 15, 2⟩]⟩] }

/-- What the lines of both bodies say. -/
theorem front_reuseBody : BodyForm.Front areaClass.pool reuseBody
    [[⟨4, 2, "width"⟩, ⟨0, 2, "height"⟩], [⟨0, 2, "width"⟩, ⟨0, 0, "width"⟩]]
    reuseBody.bytes [] where
  bytes := (List.append_nil _).symm
  framed := ⟨by decide, by decide, by decide⟩
  tables := ⟨_, .cons (.table (by decide) (List.append_nil _).symm (by decide)
    (.cons ⟨rfl, rfl, by decide⟩ (.cons ⟨rfl, rfl, by decide⟩ .nil)))
    (.cons (.table (by decide) (List.append_nil _).symm (by decide)
      (.cons ⟨rfl, rfl, by decide⟩ (.cons ⟨rfl, rfl, by decide⟩ .nil))) .nil), rfl⟩

theorem front_sortedBody : BodyForm.Front areaClass.pool sortedBody
    [[⟨0, 0, "width"⟩, ⟨0, 2, "height"⟩, ⟨0, 2, "width"⟩, ⟨4, 2, "width"⟩]]
    sortedBody.bytes [] where
  bytes := (List.append_nil _).symm
  framed := ⟨by decide, by decide, by decide⟩
  tables := ⟨_, .cons (.table (by decide) (List.append_nil _).symm (by decide)
    (.cons ⟨rfl, rfl, by decide⟩ (.cons ⟨rfl, rfl, by decide⟩ (.cons ⟨rfl, rfl, by decide⟩
      (.cons ⟨rfl, rfl, by decide⟩ .nil))))) .nil, rfl⟩

/-- The slot has the name of the first line that starts with the body, in either form. -/
theorem read_follows_earliest_scope_reuse :
    ∃ ns : LocalNames, DebugTable.read (poolOf areaClass.pool) reuseBody.bytes = .ok (some ns, []) ∧
      DebugTable.read (poolOf areaClass.pool) sortedBody.bytes = .ok (some ns, []) ∧
      ns.get? 2 = some "height" ∧ ns.contains 1 = false ∧ ns.size = 2 := by
  have hread := read_eq_ok_iff_front.mpr ⟨reuseBody, _, front_reuseBody, rfl⟩
  obtain ⟨-, hlines, hother⟩ := (read_follows_earliest_scope hread).2 _ _ front_reuseBody
  obtain ⟨hget, hcontains, hsize⟩ := hlines _ rfl
  refine ⟨_, hread, ?_, ?_, ?_, ?_⟩
  · exact hother _ _ _ _ _ front_sortedBody (iff_of_false nofun nofun) (by decide)
  · refine (hget 2 "height").mpr ⟨⟨0, 2, "height"⟩, ⟨rfl, [⟨4, 2, "width"⟩], _, rfl, ?_, ?_⟩, rfl⟩
    · decide
    · decide
  · rw [Bool.eq_false_iff]
    exact mt (hcontains 1).mp (by decide)
  · rw [hsize]
    decide

end DebugTable
end ClassFormat
end ClassIndex

/-
Which lines of debug tables name the parameters of a function.

A parameter lives from the start of the method that a call runs, and a line of a debug
table is about it if it has the parameter's slot and starts at 0.  The names recorded for a
class do not say where their lines start.  A slot is named by its earliest line, which is
the parameter's if there is one; but where the tables have no line for the parameter, a
variable that takes over its slot later gives it a name (`TakenOver`).

`function_parameter_names` says how a lookup comes out for every class file of a function
and every list of debug tables: a parameter is named by the line that claims its slot, so
by a line of its own unless the slot is taken over, and without any line for a slot there
is no definition.  `late_variable_names_parameter` is a file with a slot taken over.
-/
import ClassIndex.Proofs.ClassFormat.EarliestScope
import ClassIndex.Proofs.Lookup.Outcomes

namespace ClassIndex

open ClassFormat Descriptor

/-! ## The tables of a method -/

namespace ClassFormat

/-- An attribute of a method as a body with debug tables, or as no body. -/
inductive AttributeForm.HoldsTables (pool : List ConstantForm) (a : AttributeForm) :
    Option (List (List LocalVariable)) → Prop where
  | body {b : BodyForm} {tables : List (List LocalVariable)} {rest : List UInt8}
    (hname : text? pool a.name = some bodyAttribute)
    (hfront : BodyForm.Front pool b tables a.content rest) : HoldsTables pool a (some tables)
  | other {name : String} (hname : text? pool a.name = some name) (hne : name ≠ bodyAttribute) :
    HoldsTables pool a none

/-- The debug tables of a method: those of its body, the last one should it have several. -/
def MemberForm.HasTables (pool : List ConstantForm) (m : MemberForm)
    (tables : List (List LocalVariable)) : Prop :=
  ∃ bodies, List.Forall₂ (AttributeForm.HoldsTables pool) m.attributes bodies ∧
    tables = (bodies.filterMap id).getLast?.getD []

section Tables

variable {pool : List ConstantForm}

theorem LineForm.rightUnique_denotes : Relator.RightUnique (LineForm.Denotes pool) := by
  intro x v w hv hw
  obtain ⟨start, slot, name⟩ := v
  obtain ⟨start', slot', name'⟩ := w
  have hname : name = name' := Option.some.inj (hv.name.symm.trans hw.name)
  rw [show start = start' from hv.start.trans hw.start.symm,
    show slot = slot' from hv.slot.trans hw.slot.symm, hname]

theorem AttributeForm.rightUnique_denotesTable :
    Relator.RightUnique (AttributeForm.DenotesTable pool) := by
  intro a table table' h h'
  cases h with
  | table hname hcontent hlen hvs =>
    cases h' with
    | table _ hcontent' hlen' hvs' =>
      obtain ⟨rfl, -⟩ := LineForm.separable.counted ⟨hlen, fun _ _ => trivial⟩
        ⟨hlen', fun _ _ => trivial⟩ (hcontent.symm.trans hcontent')
      rw [LineForm.rightUnique_denotes.forall₂ hvs hvs']
    | other hname' hne => exact absurd (Option.some.inj (hname'.symm.trans hname)) hne
  | other hname hne =>
    cases h' with
    | table hname' => exact absurd (Option.some.inj (hname.symm.trans hname')) hne
    | other => rfl

theorem BodyForm.Front.unique {b b' : BodyForm} {tables tables' : List (List LocalVariable)}
    {bs rest rest' : List UInt8} (h : BodyForm.Front pool b tables bs rest)
    (h' : BodyForm.Front pool b' tables' bs rest') : tables = tables' := by
  obtain ⟨rfl, -⟩ := BodyForm.separable h.framed h'.framed (h.bytes.symm.trans h'.bytes)
  obtain ⟨found, hfound, rfl⟩ := h.tables
  obtain ⟨found', hfound', rfl⟩ := h'.tables
  rw [AttributeForm.rightUnique_denotesTable.forall₂ hfound hfound']

theorem AttributeForm.rightUnique_holdsTables :
    Relator.RightUnique (AttributeForm.HoldsTables pool) := by
  intro a tables tables' h h'
  cases h with
  | body hname hfront =>
    cases h' with
    | body _ hfront' => rw [hfront.unique hfront']
    | other hname' hne => exact absurd (Option.some.inj (hname'.symm.trans hname)) hne
  | other hname hne =>
    cases h' with
    | body hname' => exact absurd (Option.some.inj (hname.symm.trans hname')) hne
    | other => rfl

/-- A method has its tables in one way. -/
theorem MemberForm.HasTables.unique {m : MemberForm} {tables tables' : List (List LocalVariable)}
    (h : m.HasTables pool tables) (h' : m.HasTables pool tables') : tables = tables' := by
  obtain ⟨bodies, hbodies, rfl⟩ := h
  obtain ⟨bodies', hbodies', rfl⟩ := h'
  rw [AttributeForm.rightUnique_holdsTables.forall₂ hbodies hbodies']

theorem AttributeForm.DenotesBody.exists_tables {a : AttributeForm}
    {names : Option (Option LocalNames)} (h : a.DenotesBody pool names) :
    ∃ tables, a.HoldsTables pool tables ∧ names = tables.map DebugTable.names := by
  cases h with
  | body hname hcontent hframed hnames =>
    obtain ⟨found, hfound, hnamed⟩ := hnames
    refine ⟨_, .body hname ⟨hcontent, hframed, found, hfound, rfl⟩, ?_⟩
    rw [← namedBy_iff.mp hnamed]
    rfl
  | other hname hne => exact ⟨none, .other hname hne, rfl⟩

theorem exists_bodies {attributes : List AttributeForm} {names : List (Option (Option LocalNames))}
    (h : List.Forall₂ (AttributeForm.DenotesBody pool) attributes names) :
    ∃ bodies, List.Forall₂ (AttributeForm.HoldsTables pool) attributes bodies ∧
      names = bodies.map (Option.map DebugTable.names) := by
  induction h with
  | nil => exact ⟨[], .nil, rfl⟩
  | cons ha _ ih =>
    obtain ⟨tables, htables, rfl⟩ := ha.exists_tables
    obtain ⟨bodies, hbodies, rfl⟩ := ih
    exact ⟨tables :: bodies, .cons htables hbodies, rfl⟩

theorem MemberForm.DenotesMethod.exists_tables {m : MemberForm} {i : MethodInfo}
    (h : m.DenotesMethod pool i) :
    ∃ tables, m.HasTables pool tables ∧ i.locals = DebugTable.names tables := by
  obtain ⟨names, hnames, hlocals⟩ := h.locals
  obtain ⟨bodies, hbodies, rfl⟩ := exists_bodies hnames
  refine ⟨_, ⟨bodies, hbodies, rfl⟩, ?_⟩
  have hmap : (bodies.map (Option.map DebugTable.names)).filterMap id =
      (bodies.filterMap id).map DebugTable.names := by
    rw [List.filterMap_map, List.map_filterMap]
    rfl
  rw [hlocals, hmap, List.getLast?_map]
  cases (bodies.filterMap id).getLast? <;> rfl

/-- The names recorded for a method are those of its tables. -/
theorem MemberForm.HasTables.locals_eq {m : MemberForm} {tables : List (List LocalVariable)}
    {i : MethodInfo} (h : m.HasTables pool tables) (hi : m.DenotesMethod pool i) :
    i.locals = DebugTable.names tables := by
  obtain ⟨tables', htables', hlocals⟩ := hi.exists_tables
  rw [hlocals, h.unique htables']

end Tables

/-! ## The method of a function -/

/-- The slots of a method's parameters in the frame of a call. -/
def MemberForm.frameSlots (m : MemberForm) (s : Signature) : List Nat :=
  MethodInfo.frameSlots (if m.access &&& 0x0008 ≠ 0 then 0 else 1) s.parameters

/-- A class file with one method to call, whatever its debug tables. -/
structure ClassFile.Invokes (f : ClassFile) (invokeName : String) (m : MemberForm)
    (s : Signature) : Prop where
  wellFormed : f.WellFormed
  only : f.methods.filter (fun m => text? f.pool m.name ≠ some "<clinit>" ∧
    text? f.pool m.name ≠ some "<init>") = [m]
  name : text? f.pool m.name = some invokeName
  signature : ∃ d, text? f.pool m.descriptor = some d ∧ DescribesSignature d.toList s
  fits : (s.parameters.map JvmType.frameWidth).sum ≤ 65535

/-- What the class of such a file declares. -/
theorem ClassFile.Invokes.exists_declared {f : ClassFile} {invokeName : String} {m : MemberForm}
    {s : Signature} {c : ClassInfo} (h : f.Invokes invokeName m s) (hc : f.Denotes c) :
    ∃ i, c.Declares invokeName i ∧ m.DenotesMethod f.pool i ∧ i.signature = s ∧
      i.slots.map UInt16.toNat = m.frameSlots s := by
  obtain ⟨i, hmethods, hi⟩ := hc.exists_method h.only
  obtain ⟨d, hd, hs⟩ := h.signature
  have hname : i.name = invokeName := Option.some.inj (hi.name.symm.trans h.name)
  exact ⟨i, ⟨hmethods, hname⟩, hi, hi.signature_eq hd hs, hi.map_toNat_slots hd hs h.fits⟩

end ClassFormat

/-! ## Lines and slots -/

namespace LocalVariable

/-- Every slot has a line. -/
def Cover (lines : List LocalVariable) (slots : List Nat) : Prop :=
  ∀ slot ∈ slots, ∃ v ∈ lines, v.slot.toNat = slot

/-- A slot has that name from the start. -/
def NamesFromStart (lines : List LocalVariable) (slot : Nat) (name : String) : Prop :=
  ∃ v ∈ lines, v.slot.toNat = slot ∧ v.start = 0 ∧ v.name = name

/-- A slot has lines, all of which start later. -/
def TakenOver (lines : List LocalVariable) (slot : Nat) : Prop :=
  (∃ v ∈ lines, v.slot.toNat = slot) ∧ ∀ v ∈ lines, v.slot.toNat = slot → v.start ≠ 0

theorem Claims.mem {lines : List LocalVariable} {slot : UInt16} {v : LocalVariable}
    (h : Claims lines slot v) : v ∈ lines := by
  obtain ⟨-, before, after, rfl, -⟩ := h
  simp

/-- The line that claims a slot starts with the method unless the slot is taken over. -/
theorem Claims.start_eq_zero_or_takenOver {lines : List LocalVariable} {slot : UInt16}
    {v : LocalVariable} (h : Claims lines slot v) :
    v.start = 0 ∨ TakenOver lines slot.toNat := by
  by_cases hstart : v.start = 0
  · exact .inl hstart
  · refine .inr ⟨⟨v, h.mem, congrArg UInt16.toNat h.1⟩, fun u hu hslot hzero => hstart ?_⟩
    have hle := (claims_iff_leads.mp h).1 u hu (UInt16.toNat_inj.mp hslot)
    rw [hzero] at hle
    exact UInt16.le_antisymm hle UInt16.zero_le

end LocalVariable

/-- The name of a slot is that of the line that claims it. -/
def LocalVariable.ClaimsName (lines : List LocalVariable) (slot : Nat) (name : String) : Prop :=
  ∃ v, v.slot.toNat = slot ∧ LocalVariable.Claims lines v.slot v ∧ v.name = name

theorem LocalVariable.ClaimsName.namesFromStart_or_takenOver {lines : List LocalVariable}
    {slot : Nat} {name : String} (h : ClaimsName lines slot name) :
    NamesFromStart lines slot name ∨ TakenOver lines slot := by
  obtain ⟨v, rfl, hv, hname⟩ := h
  rcases hv.start_eq_zero_or_takenOver with hstart | htaken
  · exact .inl ⟨v, hv.mem, rfl, hstart, hname⟩
  · exact .inr htaken

open LocalVariable

section Outcomes

variable {i : MethodInfo} {tables : List (List LocalVariable)}

theorem MethodInfo.unnamed_ofVariables_iff {lines : List LocalVariable} {index : Nat} :
    i.Unnamed (.ofVariables lines) index ↔
      ∃ slot, i.slot? index = some slot ∧ ∀ v ∈ lines, v.slot ≠ slot := by
  unfold Unnamed
  refine exists_congr fun slot => and_congr_right fun _ => ?_
  rw [← Option.not_isSome_iff_eq_none, ← Table.contains_eq_isSome,
    LocalNames.contains_ofVariables]
  simp only [not_exists, not_and, ne_eq]

/-- Every parameter has a name if every slot has a line. -/
theorem MethodInfo.cover_iff {lines : List LocalVariable} :
    Cover lines (i.slots.map UInt16.toNat) ↔ ∀ index, ¬ i.Unnamed (.ofVariables lines) index := by
  unfold Cover
  simp only [unnamed_ofVariables_iff, List.forall_mem_map, UInt16.toNat_inj]
  constructor
  · intro h index hindex
    obtain ⟨slot, hslot, hnone⟩ := hindex
    rw [← i.getElem?_slots] at hslot
    obtain ⟨v, hv, hvslot⟩ := h slot (List.mem_of_getElem? hslot)
    exact hnone v hv hvslot
  · intro h slot hmem
    obtain ⟨index, hslot⟩ := List.mem_iff_getElem?.mp hmem
    rw [i.getElem?_slots] at hslot
    by_contra hnone
    exact h index ⟨slot, hslot, fun v hv hvslot => hnone ⟨v, hv, hvslot⟩⟩

theorem MethodInfo.Names.claimsName {lines : List LocalVariable} {ps : List Parameter}
    (h : i.Names (.ofVariables lines) ps) :
    List.Forall₂ (fun slot p => ClaimsName lines slot p.name) (i.slots.map UInt16.toNat) ps := by
  refine List.forall₂_map_left_iff.mpr (h.names.imp fun slot p hp => ?_)
  obtain ⟨v, hv, hname⟩ := LocalNames.get?_ofVariables.mp hp
  obtain rfl := hv.1
  exact ⟨v, rfl, hv, hname⟩

/-- The parameters come out if there are tables in which every slot has a line, each named by
the line that claims its slot. -/
theorem FunctionDefinition.collected_of_tables {r : Except DebugGap (List Parameter)}
    (hlocals : i.locals = DebugTable.names tables) (h : Collected i r) :
    (∃ gap, r = .error gap ∧
      ¬ (tables ≠ [] ∧ Cover tables.flatten (i.slots.map UInt16.toNat))) ∨
    ∃ ps, r = .ok ps ∧ (tables ≠ [] ∧ Cover tables.flatten (i.slots.map UInt16.toNat)) ∧
      ps.map Parameter.type = i.signature.parameters.map TypeUse.ofJvm ∧
      List.Forall₂ (fun slot p => ClaimsName tables.flatten slot p.name)
        (i.slots.map UInt16.toNat) ps := by
  cases h with
  | noTable hnone =>
    rw [hlocals, DebugTable.names_eq_none_iff] at hnone
    exact .inl ⟨_, rfl, fun h => h.1 hnone⟩
  | noName hnames hindex _ =>
    rw [hlocals] at hnames
    obtain ⟨-, rfl⟩ := DebugTable.names_eq_some_iff.mp hnames
    exact .inl ⟨_, rfl, fun h => MethodInfo.cover_iff.mp h.2 _ hindex⟩
  | named hnames hall hps =>
    rw [hlocals] at hnames
    obtain ⟨hne, rfl⟩ := DebugTable.names_eq_some_iff.mp hnames
    exact .inr ⟨_, rfl, ⟨hne, MethodInfo.cover_iff.mpr hall⟩, hps.types, hps.claimsName⟩

end Outcomes

/-- How a lookup comes out for a file of a function with given debug tables: with a gap, or
with a definition. -/
theorem Lookup.function_of_tables {l : Lookup} {name : String} {binary : Binary} {f : ClassFile}
    {rest : List UInt8} {m : MemberForm} {s : Signature} {tables : List (List LocalVariable)}
    (hloader : l.loader = Loader.decoding) (hname : l.index.functions.get? name = some binary)
    (hread : binary.read l.files = .ok (f.bytes ++ rest))
    (hf : f.Invokes l.settings.invokeName m s) (htables : m.HasTables f.pool tables) :
    (∃ gap, l.function name = .error (.missingNames name gap) ∧
      ¬ (tables ≠ [] ∧ Cover tables.flatten (m.frameSlots s))) ∨
    ∃ definition, l.function name = .ok (some definition) ∧
      (tables ≠ [] ∧ Cover tables.flatten (m.frameSlots s)) ∧
      definition.parameters.map Parameter.type = s.parameters.map TypeUse.ofJvm ∧
      List.Forall₂ (fun slot p => ClaimsName tables.flatten slot p.name) (m.frameSlots s)
        definition.parameters := by
  obtain ⟨c, hc⟩ := hf.wellFormed.exists_denotes
  have hdecode := (decode_bytes_append_eq_ok_iff hf.wellFormed.framed rest).mpr hc
  have hclass := functionClass_eq_ok hloader hname hread hdecode
  obtain ⟨i, hdeclares, hi, hs, hslots⟩ := hf.exists_declared hc
  rw [function_of_declares hclass hdeclares, ← hslots]
  have hcollected := FunctionDefinition.collected_of_tables (htables.locals_eq hi)
    (FunctionDefinition.collected_parametersOf i)
  rcases hcollected with ⟨gap, hgap, hnot⟩ | ⟨ps, hps, hcover, htypes, hnames⟩
  · rw [hgap]
    exact .inl ⟨gap, rfl, hnot⟩
  · rw [hps]
    rw [hs] at htypes
    exact .inr ⟨_, rfl, hcover, htypes, hnames⟩

/-- A parameter is named by the line that claims its slot, which starts with the method unless
the slot is taken over; and there are names for all parameters exactly if there is a table and
no slot is without a line.  So in a file in which no slot is taken over, each parameter is named
from the start of the method, and one that is not leaves the function without a definition. -/
theorem Lookup.function_parameter_names {l : Lookup} {name : String} {binary : Binary}
    {f : ClassFile} {rest : List UInt8} {m : MemberForm} {s : Signature}
    (hloader : l.loader = Loader.decoding) (hname : l.index.functions.get? name = some binary)
    (hread : binary.read l.files = .ok (f.bytes ++ rest))
    (hf : f.Invokes l.settings.invokeName m s) :
    (∃ tables, m.HasTables f.pool tables) ∧ ∀ tables, m.HasTables f.pool tables →
      ((∃ gap, l.function name = .error (.missingNames name gap)) ↔
        ¬ (tables ≠ [] ∧ Cover tables.flatten (m.frameSlots s))) ∧
      ((∃ definition, l.function name = .ok (some definition)) ↔
        tables ≠ [] ∧ Cover tables.flatten (m.frameSlots s)) ∧
      (∀ definition, l.function name = .ok (some definition) →
        List.Forall₂ (fun slot p => ClaimsName tables.flatten slot p.name ∧
          (NamesFromStart tables.flatten slot p.name ∨ TakenOver tables.flatten slot))
          (m.frameSlots s) definition.parameters) ∧
      ((∀ slot ∈ m.frameSlots s, ¬ TakenOver tables.flatten slot) →
        (∀ definition, l.function name = .ok (some definition) →
          List.Forall₂ (fun slot p => NamesFromStart tables.flatten slot p.name)
            (m.frameSlots s) definition.parameters) ∧
        ((∃ slot ∈ m.frameSlots s, ∀ n, ¬ NamesFromStart tables.flatten slot n) →
          ∃ gap, l.function name = .error (.missingNames name gap))) := by
  constructor
  · obtain ⟨c, hc⟩ := hf.wellFormed.exists_denotes
    obtain ⟨i, -, hi, -⟩ := hf.exists_declared hc
    obtain ⟨tables, htables, -⟩ := hi.exists_tables
    exact ⟨tables, htables⟩
  · intro tables htables
    rcases function_of_tables hloader hname hread hf htables with
      ⟨gap, hgap, hnot⟩ | ⟨definition, hok, hcover, -, hnames⟩
    · rw [hgap]
      exact ⟨iff_of_true ⟨gap, rfl⟩ hnot, iff_of_false nofun hnot, nofun,
        fun _ => ⟨nofun, fun _ => ⟨gap, rfl⟩⟩⟩
    · rw [hok]
      have hstart : List.Forall₂ (fun slot p => ClaimsName tables.flatten slot p.name ∧
          (NamesFromStart tables.flatten slot p.name ∨ TakenOver tables.flatten slot))
          (m.frameSlots s) definition.parameters :=
        hnames.imp fun slot p hp => ⟨hp, hp.namesFromStart_or_takenOver⟩
      refine ⟨iff_of_false nofun (not_not.mpr hcover), iff_of_true ⟨_, rfl⟩ hcover, ?_, ?_⟩
      · intro definition' hdefinition
        cases hdefinition
        exact hstart
      · intro hfree
        have hall : List.Forall₂ (fun slot p => NamesFromStart tables.flatten slot p.name)
            (m.frameSlots s) definition.parameters :=
          ((List.forall₂_and_left _ _).mpr ⟨hfree, hstart⟩).imp fun slot p hp =>
            hp.2.2.resolve_right hp.1
        refine ⟨?_, ?_⟩
        · intro definition' hdefinition
          cases hdefinition
          exact hall
        · intro hslot
          obtain ⟨slot, hmem, hnone⟩ := hslot
          obtain ⟨v, hv, hvslot⟩ := hcover.2 slot hmem
          exact (hfree slot hmem ⟨⟨v, hv, hvslot⟩, fun u hu huslot hzero =>
            hnone u.name ⟨u, hu, huslot, hzero, rfl⟩⟩).elim

theorem areaClass_invokes : areaClass.Invokes "invoke" ⟨0x0009, 9, 10, [⟨11, areaBody.bytes⟩]⟩
    ⟨[.primitive .long, .primitive .int], .primitive .double⟩ where
  wellFormed := areaClass_isFunction.wellFormed
  only := areaClass_isFunction.only
  name := areaClass_isFunction.name
  signature := ⟨"(JI)D", areaClass_isFunction.descriptor, areaClass_isFunction.signature⟩
  fits := areaClass_isFunction.fits

theorem front_areaBody : BodyForm.Front areaClass.pool areaBody
    [[⟨4, 2, "width"⟩, ⟨0, 2, "height"⟩, ⟨0, 0, "width"⟩]] areaBody.bytes [] where
  bytes := (List.append_nil _).symm
  framed := areaBody_framed
  tables := ⟨_, .cons (.table (by decide) (List.append_nil _).symm (by decide)
    (.cons ⟨rfl, rfl, by decide⟩ (.cons ⟨rfl, rfl, by decide⟩
      (.cons ⟨rfl, rfl, by decide⟩ .nil)))) .nil, rfl⟩

/-- The area's parameters are named from the start, although one of their slots is used again. -/
theorem areaLookup_parameter_names : ∃ definition,
    areaLookup.function "demo.area" = .ok (some definition) ∧
      List.Forall₂ (fun slot p => NamesFromStart
        [⟨4, 2, "width"⟩, ⟨0, 2, "height"⟩, ⟨0, 0, "width"⟩] slot p.name)
        [0, 2] definition.parameters := by
  have hread : (Binary.memory "area" areaClass.bytes).read areaLookup.files =
      .ok (areaClass.bytes ++ []) := congrArg Except.ok (List.append_nil _).symm
  obtain ⟨-, hall⟩ := Lookup.function_parameter_names rfl (Table.get?_add_empty _ _) hread
    areaClass_invokes
  obtain ⟨-, hok, -, hfree⟩ := hall _ ⟨_, .cons (.body (by decide) front_areaBody) .nil, rfl⟩
  obtain ⟨definition, hdefinition⟩ := hok.mpr ⟨by decide, by unfold Cover; decide⟩
  exact ⟨definition, hdefinition, (hfree (by unfold TakenOver; decide)).1 definition hdefinition⟩

/-! ## A slot taken over -/

/-- A body with a table that says nothing of the second parameter, but has a variable that
takes over its slot. -/
def lateBody : BodyForm :=
  { areaBody with attributes := [
      ⟨12, countedBytes LineForm.bytes [⟨4, 2, 17, 16, 2⟩, ⟨0, 6, 13, 15, 0⟩]⟩] }

def lateMethod : MemberForm := ⟨0x0009, 9, 10, [⟨11, lateBody.bytes⟩]⟩

def lateClass : ClassFile :=
  { areaClass with methods := [lateMethod] }

/-- What the lines of the table say. -/
def lateLines : List LocalVariable := [⟨4, 2, "unit"⟩, ⟨0, 0, "width"⟩]

def lateLookup : Lookup :=
  { areaLookup with index := { Index.empty with
      functions := Table.empty.add "demo.area" (.memory "area" lateClass.bytes) } }

theorem lateBody_framed : lateBody.Framed := ⟨by decide, by decide, by decide⟩

theorem lateClass_wellFormed : lateClass.WellFormed where
  framed := { areaClass_wellFormed.framed with methods := by decide }
  legible := areaClass_wellFormed.legible
  name := areaClass_wellFormed.name
  superName := areaClass_wellFormed.superName
  interfaces := areaClass_wellFormed.interfaces
  fields := areaClass_wellFormed.fields
  methods := by
    intro m hm
    rw [List.mem_singleton.mp hm]
    refine ⟨by decide, ⟨"(JI)D", _, by decide, areaClass_isFunction.signature⟩, ?_⟩
    intro a ha
    rw [List.mem_singleton.mp ha]
    refine ⟨by decide, fun _ => ⟨lateBody, [], (List.append_nil _).symm, lateBody_framed, ?_⟩⟩
    intro x hx
    rw [List.mem_singleton.mp hx]
    exact ⟨by decide, fun _ => ⟨_, [], (List.append_nil _).symm, by decide, by decide⟩⟩

theorem lateClass_invokes : lateClass.Invokes "invoke" lateMethod
    ⟨[.primitive .long, .primitive .int], .primitive .double⟩ where
  wellFormed := lateClass_wellFormed
  only := by decide
  name := by decide
  signature := ⟨"(JI)D", by decide, areaClass_isFunction.signature⟩
  fits := by decide

theorem front_lateBody :
    BodyForm.Front lateClass.pool lateBody [lateLines] lateBody.bytes [] where
  bytes := (List.append_nil _).symm
  framed := lateBody_framed
  tables := ⟨_, .cons (.table (by decide) (List.append_nil _).symm (by decide)
    (.cons ⟨rfl, rfl, by decide⟩ (.cons ⟨rfl, rfl, by decide⟩ .nil))) .nil, rfl⟩

/-- A parameter without a line is named after the variable that takes over its slot. -/
theorem late_variable_names_parameter :
    lateMethod.HasTables lateClass.pool [lateLines] ∧ (∀ n, ¬ NamesFromStart lateLines 2 n) ∧
    ∃ definition, lateLookup.function "demo.area" = .ok (some definition) ∧
      definition.parameters = [⟨"width", .primitive .long⟩, ⟨"unit", .primitive .int⟩] := by
  have htables : lateMethod.HasTables lateClass.pool [lateLines] :=
    ⟨_, .cons (.body (by decide) front_lateBody) .nil, rfl⟩
  have hname {slot : Nat} {n n' : String} (h : ClaimsName [lateLines].flatten slot n)
      (hall : ∀ v ∈ lateLines, v.slot.toNat = slot → v.name = n') : n = n' := by
    obtain ⟨v, hslot, hv, rfl⟩ := h
    exact hall v hv.mem hslot
  refine ⟨htables, ?_, ?_⟩
  · intro n h
    obtain ⟨v, hv, hslot, hstart, -⟩ := h
    exact (by decide : ∀ v ∈ lateLines, v.slot.toNat = 2 → v.start ≠ 0) v hv hslot hstart
  · have hread : (Binary.memory "area" lateClass.bytes).read lateLookup.files =
        .ok (lateClass.bytes ++ []) := congrArg Except.ok (List.append_nil _).symm
    rcases Lookup.function_of_tables rfl (Table.get?_add_empty _ _) hread lateClass_invokes
      htables with ⟨gap, -, hnot⟩ | ⟨definition, hok, -, htypes, hnames⟩
    · exact absurd ⟨by decide, by unfold Cover; decide⟩ hnot
    · refine ⟨definition, hok, ?_⟩
      change List.Forall₂ _ [0, 2] _ at hnames
      generalize definition.parameters = ps at htypes hnames
      rcases hnames with _ | ⟨hwidth, _ | ⟨hunit, _ | _⟩⟩
      rename_i p q
      obtain ⟨n, t⟩ := p
      obtain ⟨n', t'⟩ := q
      obtain rfl : n = "width" := hname hwidth (by decide)
      obtain rfl : n' = "unit" := hname hunit (by decide)
      cases htypes
      rfl

end ClassIndex

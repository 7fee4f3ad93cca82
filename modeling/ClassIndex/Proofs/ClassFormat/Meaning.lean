/-
What a class file says.

`ClassFile.Denotes f c` relates the items of a file to the class they describe:
numbers are followed into the pool, strings are decoded, descriptors are derived by
their grammar, and the names of a body are those of the debug lines that claim
their slots.  It mentions no reader and no position in a byte string.

A string's number leads to the constant that starts there.  A wide constant takes
two numbers, of which the second leads nowhere.

What is behind the end of a body or of a debug table, within its attribute, says
nothing.  `WellFormed` collects what a file has to satisfy to say anything at all.
-/
import ClassIndex.ClassFormat.Decode
import ClassIndex.Proofs.ClassFormat.ClassFile
import ClassIndex.Proofs.ClassInfo.LocalNames
import ClassIndex.Proofs.JvmType.Grammar

namespace ClassIndex
namespace ClassFormat

/-! ## References into the pool -/

/-- The constant that starts after so many numbers. -/
def constantAt? : List ConstantForm → Nat → Option ConstantForm
  | [], _ => none
  | c :: cs, n =>
    if n = 0 then some c
    else if n < c.places then none
    else constantAt? cs (n - c.places)

/-- The constant with a number, which is counted from 1. -/
def constant? (pool : List ConstantForm) (index : UInt16) : Option ConstantForm :=
  if index = 0 then none else constantAt? pool (index.toNat - 1)

def text? (pool : List ConstantForm) (index : UInt16) : Option String :=
  match constant? pool index with
  | some (.text payload) => (ModifiedUtf8.decode payload).toOption
  | _ => none

/-- The name of the class with a number, as the file writes it. -/
def className? (pool : List ConstantForm) (index : UInt16) : Option String :=
  match constant? pool index with
  | some (.classRef nameIndex) => text? pool nameIndex
  | _ => none

/-- A string constant has to be decodable, whether it is referred to or not. -/
def ConstantForm.Legible : ConstantForm → Prop
  | text payload => ∃ s, ModifiedUtf8.decode payload = .ok s
  | _ => True

instance (c : ConstantForm) : Decidable c.Legible :=
  match c with
  | .text payload =>
    match h : ModifiedUtf8.decode payload with
    | .ok s => .isTrue ⟨s, h⟩
    | .error _ => .isFalse fun ⟨_, hs⟩ => nomatch h.symm.trans hs
  | .classRef _ | .data _ _ => .isTrue trivial

/-! ## Bodies -/

structure LineForm.Denotes (pool : List ConstantForm) (x : LineForm) (v : LocalVariable) :
    Prop where
  start : v.start = x.start
  slot : v.slot = x.slot
  name : text? pool x.name = some v.name

/-- An attribute of a body as a debug table, or as none. -/
inductive AttributeForm.DenotesTable (pool : List ConstantForm) (a : AttributeForm) :
    Option (List LocalVariable) → Prop where
  | table {lines : List LineForm} {vs : List LocalVariable} {rest : List UInt8}
    (hname : text? pool a.name = some DebugTable.attributeName)
    (hcontent : a.content = countedBytes LineForm.bytes lines ++ rest)
    (hlen : lines.length < 2 ^ 16)
    (hvs : List.Forall₂ (LineForm.Denotes pool) lines vs) : DenotesTable pool a (some vs)
  | other {name : String} (hname : text? pool a.name = some name)
    (hne : name ≠ DebugTable.attributeName) : DenotesTable pool a none

/-- The names that debug tables give; without a table there are none. -/
def NamedBy (tables : List (List LocalVariable)) (names : Option LocalNames) : Prop :=
  (tables = [] ∧ names = none) ∨ (tables ≠ [] ∧ ∃ ns : LocalNames, names = some ns ∧
    ∀ slot name, ns.get? slot = some name ↔
      ∃ v, LocalVariable.Claims tables.flatten slot v ∧ v.name = name)

def BodyForm.Denotes (pool : List ConstantForm) (b : BodyForm) (names : Option LocalNames) :
    Prop :=
  ∃ tables, List.Forall₂ (AttributeForm.DenotesTable pool) b.attributes tables ∧
    NamedBy (tables.filterMap id) names

/-- An attribute of a method as its body, or as none. -/
inductive AttributeForm.DenotesBody (pool : List ConstantForm) (a : AttributeForm) :
    Option (Option LocalNames) → Prop where
  | body {b : BodyForm} {names : Option LocalNames} {rest : List UInt8}
    (hname : text? pool a.name = some bodyAttribute) (hcontent : a.content = b.bytes ++ rest)
    (hframed : b.Framed) (hnames : b.Denotes pool names) : DenotesBody pool a (some names)
  | other {name : String} (hname : text? pool a.name = some name) (hne : name ≠ bodyAttribute) :
    DenotesBody pool a none

/-! ## Members and the class -/

structure MemberForm.DenotesField (pool : List ConstantForm) (m : MemberForm) (i : FieldInfo) :
    Prop where
  name : text? pool m.name = some i.name
  access : i.access = ⟨m.access⟩
  type : ∃ d, text? pool m.descriptor = some d ∧ Descriptor.Describes d.toList i.type

structure MemberForm.DenotesMethod (pool : List ConstantForm) (m : MemberForm)
    (i : MethodInfo) : Prop where
  name : text? pool m.name = some i.name
  access : i.access = ⟨m.access⟩
  signature : ∃ d, text? pool m.descriptor = some d ∧
    Descriptor.DescribesSignature d.toList i.signature
  locals : ∃ bodies, List.Forall₂ (AttributeForm.DenotesBody pool) m.attributes bodies ∧
    i.locals = (bodies.filterMap id).getLast?.join

/-- A reference to a class by its dotted name. -/
def DenotesClass (pool : List ConstantForm) (index : UInt16) (name : String) : Prop :=
  ∃ s, className? pool index = some s ∧ name = Name.dotted s

structure ClassFile.Denotes (f : ClassFile) (c : ClassInfo) : Prop where
  legible : ∀ k ∈ f.pool, k.Legible
  name : DenotesClass f.pool f.thisClass c.name
  access : c.access = ⟨f.access⟩
  superName : (f.superClass = 0 ∧ c.superName = none) ∨
    (f.superClass ≠ 0 ∧ ∃ s, c.superName = some s ∧ DenotesClass f.pool f.superClass s)
  interfaces : List.Forall₂ (DenotesClass f.pool) f.interfaces c.interfaces
  fields : List.Forall₂ (MemberForm.DenotesField f.pool) f.fields c.fields
  methods : ∃ infos, List.Forall₂ (MemberForm.DenotesMethod f.pool) f.methods infos ∧
    c.methods = infos.filter (fun i => i.name ≠ "<clinit>" ∧ i.name ≠ "<init>") ∧
    c.constructors = infos.filter (fun i => i.name = "<init>")

/-! ## Well-formed files -/

namespace AttributeForm

/-- A debug table holds lines whose names are in the pool. -/
structure WellFormedInBody (pool : List ConstantForm) (a : AttributeForm) : Prop where
  name : (text? pool a.name).isSome
  table : text? pool a.name = some DebugTable.attributeName → ∃ (lines : List LineForm)
    (rest : List UInt8), a.content = countedBytes LineForm.bytes lines ++ rest ∧
    lines.length < 2 ^ 16 ∧ ∀ x ∈ lines, (text? pool x.name).isSome

/-- A body holds attributes that are well formed in it. -/
structure WellFormedInMethod (pool : List ConstantForm) (a : AttributeForm) : Prop where
  name : (text? pool a.name).isSome
  body : text? pool a.name = some bodyAttribute → ∃ (b : BodyForm) (rest : List UInt8),
    a.content = b.bytes ++ rest ∧ b.Framed ∧ ∀ x ∈ b.attributes, x.WellFormedInBody pool

end AttributeForm

structure MemberForm.WellFormedField (pool : List ConstantForm) (m : MemberForm) : Prop where
  name : (text? pool m.name).isSome
  type : ∃ d t, text? pool m.descriptor = some d ∧ Descriptor.Describes d.toList t

structure MemberForm.WellFormedMethod (pool : List ConstantForm) (m : MemberForm) : Prop where
  name : (text? pool m.name).isSome
  signature : ∃ d s, text? pool m.descriptor = some d ∧ Descriptor.DescribesSignature d.toList s
  attributes : ∀ a ∈ m.attributes, a.WellFormedInMethod pool

/-- Counts and lengths fit, strings are legible, numbers that are followed lead to
constants of the right kind, and descriptors are grammatical. -/
structure ClassFile.WellFormed (f : ClassFile) : Prop where
  framed : f.Framed
  legible : ∀ k ∈ f.pool, k.Legible
  name : (className? f.pool f.thisClass).isSome
  superName : f.superClass = 0 ∨ (className? f.pool f.superClass).isSome
  interfaces : ∀ i ∈ f.interfaces, (className? f.pool i).isSome
  fields : ∀ m ∈ f.fields, m.WellFormedField f.pool
  methods : ∀ m ∈ f.methods, m.WellFormedMethod f.pool

/-! ## Well-formed files denote a class -/

/-- What each item denotes, all together. -/
theorem exists_forall₂ {α β : Type} {R : α → β → Prop} {xs : List α}
    (h : ∀ x ∈ xs, ∃ y, R x y) : ∃ ys, List.Forall₂ R xs ys := by
  induction xs with
  | nil => exact ⟨[], .nil⟩
  | cons x xs ih =>
    obtain ⟨y, hy⟩ := h x List.mem_cons_self
    obtain ⟨ys, hys⟩ := ih fun a ha => h a (List.mem_cons_of_mem x ha)
    exact ⟨y :: ys, .cons hy hys⟩

theorem exists_of_forall₂_singleton {α β : Type} {R : α → β → Prop} {x : α} {ys : List β}
    (h : List.Forall₂ R [x] ys) : ∃ y, ys = [y] ∧ R x y := by
  cases h with
  | cons hy htail =>
    cases htail
    exact ⟨_, rfl, hy⟩

theorem namedBy_iff {tables : List (List LocalVariable)} {names : Option LocalNames} :
    NamedBy tables names ↔ DebugTable.names tables = names := by
  cases tables with
  | nil => simp [NamedBy, DebugTable.names, eq_comm]
  | cons table tables =>
    have hne : table :: tables ≠ [] := List.cons_ne_nil table tables
    simp only [NamedBy, DebugTable.names, hne, false_and, false_or, ne_eq, not_false_eq_true,
      true_and]
    constructor
    · intro h
      obtain ⟨ns, rfl, hns⟩ := h
      congr 1
      refine Table.ext fun slot => Option.ext fun name => ?_
      rw [LocalNames.get?_ofVariables, hns]
    · intro h
      subst h
      exact ⟨_, rfl, fun slot name => LocalNames.get?_ofVariables⟩

namespace AttributeForm

variable {pool : List ConstantForm} {a : AttributeForm}

theorem WellFormedInBody.exists_denotes (h : a.WellFormedInBody pool) :
    ∃ table, a.DenotesTable pool table := by
  obtain ⟨s, hs⟩ := Option.isSome_iff_exists.mp h.name
  by_cases heq : s = DebugTable.attributeName
  · rw [heq] at hs
    obtain ⟨lines, rest, hcontent, hlen, hlines⟩ := h.table hs
    obtain ⟨vs, hvs⟩ := exists_forall₂ (R := LineForm.Denotes pool) fun x hx => by
      obtain ⟨name, hname⟩ := Option.isSome_iff_exists.mp (hlines x hx)
      exact ⟨⟨x.start, x.slot, name⟩, rfl, rfl, hname⟩
    exact ⟨some vs, .table hs hcontent hlen hvs⟩
  · exact ⟨none, .other hs heq⟩

theorem WellFormedInMethod.exists_denotes (h : a.WellFormedInMethod pool) :
    ∃ names, a.DenotesBody pool names := by
  obtain ⟨s, hs⟩ := Option.isSome_iff_exists.mp h.name
  by_cases heq : s = bodyAttribute
  · rw [heq] at hs
    obtain ⟨b, rest, hcontent, hframed, hb⟩ := h.body hs
    obtain ⟨tables, htables⟩ := exists_forall₂ fun x hx => (hb x hx).exists_denotes
    exact ⟨_, .body hs hcontent hframed ⟨tables, htables, namedBy_iff.mpr rfl⟩⟩
  · exact ⟨none, .other hs heq⟩

end AttributeForm

theorem MemberForm.WellFormedField.exists_denotes {pool : List ConstantForm} {m : MemberForm}
    (h : m.WellFormedField pool) : ∃ i, m.DenotesField pool i := by
  obtain ⟨name, hname⟩ := Option.isSome_iff_exists.mp h.name
  obtain ⟨d, t, hd, ht⟩ := h.type
  exact ⟨⟨name, ⟨m.access⟩, t⟩, hname, rfl, d, hd, ht⟩

theorem MemberForm.WellFormedMethod.exists_denotes {pool : List ConstantForm} {m : MemberForm}
    (h : m.WellFormedMethod pool) : ∃ i, m.DenotesMethod pool i := by
  obtain ⟨name, hname⟩ := Option.isSome_iff_exists.mp h.name
  obtain ⟨d, s, hd, hs⟩ := h.signature
  obtain ⟨bodies, hbodies⟩ := exists_forall₂ fun a ha => (h.attributes a ha).exists_denotes
  exact ⟨⟨name, ⟨m.access⟩, s, (bodies.filterMap id).getLast?.join⟩, hname, rfl, ⟨d, hd, hs⟩,
    bodies, hbodies, rfl⟩

theorem ClassFile.WellFormed.exists_denotes {f : ClassFile} (h : f.WellFormed) :
    ∃ c, f.Denotes c := by
  obtain ⟨name, hname⟩ := Option.isSome_iff_exists.mp h.name
  obtain ⟨superName, hsuper⟩ : ∃ superName : Option String,
      (f.superClass = 0 ∧ superName = none) ∨ (f.superClass ≠ 0 ∧
        ∃ s, superName = some s ∧ DenotesClass f.pool f.superClass s) := by
    by_cases h0 : f.superClass = 0
    · exact ⟨none, .inl ⟨h0, rfl⟩⟩
    · obtain ⟨s, hs⟩ := Option.isSome_iff_exists.mp (h.superName.resolve_left h0)
      exact ⟨some (Name.dotted s), .inr ⟨h0, _, rfl, s, hs, rfl⟩⟩
  obtain ⟨interfaces, hinterfaces⟩ := exists_forall₂ (R := DenotesClass f.pool) fun i hi => by
    obtain ⟨s, hs⟩ := Option.isSome_iff_exists.mp (h.interfaces i hi)
    exact ⟨_, s, hs, rfl⟩
  obtain ⟨fields, hfields⟩ := exists_forall₂ fun m hm => (h.fields m hm).exists_denotes
  obtain ⟨infos, hinfos⟩ := exists_forall₂ fun m hm => (h.methods m hm).exists_denotes
  exact ⟨⟨Name.dotted name, ⟨f.access⟩, superName, interfaces, fields, _, _⟩,
    h.legible, ⟨name, hname, rfl⟩, rfl, hsuper, hinterfaces, hfields, infos, hinfos, rfl, rfl⟩

end ClassFormat
end ClassIndex

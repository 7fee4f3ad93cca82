/-
Names in a method with one debug table.

`HasTable` says of a method's attributes that one of them is a body and that one
attribute of this body is a debug table, with the given lines.  The names of the
method are then those of its lines, and a slot has the name that its only line from
the start of the method gives it, whatever later lines say (`HasTable.locals`,
`NamesAtStart.claims`).
-/
import ClassIndex.Proofs.ClassFormat.Meaning

namespace ClassIndex
namespace ClassFormat

/-- A method with one body, in which one debug table has the given lines. -/
def MemberForm.HasTable (pool : List ConstantForm) (m : MemberForm) (lines : List LineForm) :
    Prop :=
  ∃ (code table : AttributeForm) (b : BodyForm),
    m.attributes.filter (fun a => text? pool a.name = some bodyAttribute) = [code] ∧
    code.content = b.bytes ∧ b.Framed ∧
    b.attributes.filter (fun a => text? pool a.name = some DebugTable.attributeName) = [table] ∧
    table.content = countedBytes LineForm.bytes lines ∧ lines.length < 2 ^ 16

/-- One line alone names the slot from the start of the method. -/
def NamesAtStart (pool : List ConstantForm) (lines : List LineForm) (slot : Nat) (name : String) :
    Prop :=
  ∃ x, lines.filter (fun x => x.slot.toNat = slot ∧ x.start = 0) = [x] ∧
    text? pool x.name = some name

/-- What is read off some items of a list, matched with just these items. -/
theorem forall₂_filterMap {α β : Type} {R : α → Option β → Prop} {p : α → Bool} {xs : List α}
    {os : List (Option β)} (hsome : ∀ {x y}, R x (some y) → p x = true)
    (hnone : ∀ {x}, R x none → p x = false) (h : List.Forall₂ R xs os) :
    List.Forall₂ (fun x y => R x (some y)) (xs.filter p) (os.filterMap id) := by
  induction h with
  | nil => exact .nil
  | @cons x o xs os hx _ ih =>
    cases o with
    | none => rwa [List.filter_cons_of_neg (by rw [hnone hx]; decide)]
    | some y =>
      rw [List.filter_cons_of_pos (hsome hx)]
      exact .cons hx ih

namespace AttributeForm

variable {pool : List ConstantForm} {a : AttributeForm}

theorem DenotesTable.isTable {vs : List LocalVariable} (h : a.DenotesTable pool (some vs)) :
    text? pool a.name = some DebugTable.attributeName := by
  cases h with
  | table hname => exact hname

theorem DenotesTable.not_isTable (h : a.DenotesTable pool none) :
    text? pool a.name ≠ some DebugTable.attributeName := by
  cases h with
  | other hname hne =>
    intro h
    exact hne (Option.some.inj (hname.symm.trans h))

theorem DenotesBody.isBody {names : Option LocalNames} (h : a.DenotesBody pool (some names)) :
    text? pool a.name = some bodyAttribute := by
  cases h with
  | body hname => exact hname

theorem DenotesBody.not_isBody (h : a.DenotesBody pool none) :
    text? pool a.name ≠ some bodyAttribute := by
  cases h with
  | other hname hne =>
    intro h
    exact hne (Option.some.inj (hname.symm.trans h))

/-- The lines of a debug table are the ones it was written with. -/
theorem DenotesTable.forall₂_lines {vs : List LocalVariable} {lines : List LineForm}
    (h : a.DenotesTable pool (some vs)) (hcontent : a.content = countedBytes LineForm.bytes lines)
    (hlen : lines.length < 2 ^ 16) : List.Forall₂ (LineForm.Denotes pool) lines vs := by
  cases h with
  | table _ hcontent' hlen' hvs =>
    rw [hcontent, ← List.append_nil (countedBytes _ lines)] at hcontent'
    obtain ⟨rfl, -⟩ := LineForm.separable.counted ⟨hlen, fun _ _ => trivial⟩
      ⟨hlen', fun _ _ => trivial⟩ hcontent'
    exact hvs

/-- The names in a body are those of the body it was written with. -/
theorem DenotesBody.denotes {names : Option LocalNames} {b : BodyForm}
    (h : a.DenotesBody pool (some names)) (hcontent : a.content = b.bytes) (hb : b.Framed) :
    b.Denotes pool names := by
  cases h with
  | body _ hcontent' hb' hnames =>
    rw [hcontent, ← List.append_nil b.bytes] at hcontent'
    obtain ⟨rfl, -⟩ := BodyForm.separable hb hb' hcontent'
    exact hnames

end AttributeForm

/-- A method with a debug table has the names that the lines of the table give. -/
theorem MemberForm.HasTable.locals {pool : List ConstantForm} {m : MemberForm}
    {lines : List LineForm} {i : MethodInfo} (h : m.HasTable pool lines)
    (hm : m.DenotesMethod pool i) : ∃ (names : LocalNames) (vs : List LocalVariable),
      i.locals = some names ∧ List.Forall₂ (LineForm.Denotes pool) lines vs ∧
      ∀ slot name, names.get? slot = some name ↔
        ∃ v, LocalVariable.Claims vs slot v ∧ v.name = name := by
  obtain ⟨code, table, b, hcode, hbody, hframed, htable, hlines, hlen⟩ := h
  obtain ⟨bodies, hbodies, hlocals⟩ := hm.locals
  have hone := forall₂_filterMap (p := fun a => text? pool a.name = some bodyAttribute)
    (fun hx => decide_eq_true hx.isBody) (fun hx => decide_eq_false hx.not_isBody) hbodies
  rw [hcode] at hone
  obtain ⟨names, hnames, hcodeNames⟩ := exists_of_forall₂_singleton hone
  obtain ⟨tables, htables, hnamed⟩ := hcodeNames.denotes hbody hframed
  have hline := forall₂_filterMap (p := fun a => text? pool a.name = some DebugTable.attributeName)
    (fun hx => decide_eq_true hx.isTable) (fun hx => decide_eq_false hx.not_isTable) htables
  rw [htable] at hline
  obtain ⟨vs, hvs, htableLines⟩ := exists_of_forall₂_singleton hline
  rw [hvs] at hnamed
  rcases hnamed with ⟨hnil, -⟩ | ⟨-, ns, rfl, hns⟩
  · cases hnil
  · rw [List.flatten_cons, List.flatten_nil, List.append_nil] at hns
    refine ⟨ns, vs, ?_, htableLines.forall₂_lines hlines hlen, hns⟩
    rw [hlocals, hnames]
    rfl

/-- A slot named from the start of the method has that name for good. -/
theorem NamesAtStart.claims {pool : List ConstantForm} {lines : List LineForm}
    {vs : List LocalVariable} {slot : UInt16} {name : String}
    (h : NamesAtStart pool lines slot.toNat name)
    (hvs : List.Forall₂ (LineForm.Denotes pool) lines vs) :
    ∃ v, LocalVariable.Claims vs slot v ∧ v.name = name := by
  obtain ⟨x, hx, hname⟩ := h
  have hfilter : List.Forall₂ (LineForm.Denotes pool)
      (lines.filter fun x => x.slot.toNat = slot.toNat ∧ x.start = 0)
      (vs.filter fun v => v.slot = slot ∧ v.start = 0) := by
    apply List.rel_filter _ hvs
    intro y v hyv
    show decide (y.slot.toNat = slot.toNat ∧ y.start = 0) = true ↔
      decide (v.slot = slot ∧ v.start = 0) = true
    rw [hyv.slot, hyv.start, decide_eq_true_iff, decide_eq_true_iff, UInt16.toNat_inj]
  rw [hx] at hfilter
  obtain ⟨v, hv, hxv⟩ := exists_of_forall₂_singleton hfilter
  refine ⟨v, LocalVariable.claims_of_filter_eq hv, ?_⟩
  exact Option.some.inj (hxv.name.symm.trans hname)

end ClassFormat
end ClassIndex

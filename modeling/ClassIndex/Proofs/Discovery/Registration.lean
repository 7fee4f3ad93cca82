/-
What registering a candidate comes to.

Where a class belongs, its placement, can be read off its path alone: a kind, a name, and
the packages that come with it.  Registering then has three outcomes only
(`register_cases`).  A name that is taken is passed over, a class with a placement enters
the index under it, and any other class fails and leaves both tables of names alone.

A run that succeeds leads every name to the first class of that name, and leaves names
alone that were taken (`registerAll_tables`, and `registerAll_onlyAdds` also for a run
that fails); more names in the index before it make no run fail
(`registerAll_eq_ok_of_covers`).
-/
import ClassIndex.Discovery
import ClassIndex.Proofs.Index.Registrations

namespace ClassIndex
namespace Discovery

/-! ## Placements -/

/-- Where a class belongs in an index. -/
structure Placement where
  kind : EntryKind
  name : String
  packages : List String
  deriving DecidableEq

namespace Candidate

def kind (s : Settings) (c : Candidate) : EntryKind :=
  if c.isFunction s then .function else .type

def name? (s : Settings) (root : Path) (c : Candidate) : Option String :=
  match c.kind s with
  | .type => (Layout.typeName c.path root).toOption
  | .function => (Layout.functionName s.functionMarker c.path root).toOption

/-- The packages that come with a class of a given name, if they have names. -/
def packages? (s : Settings) (root : Path) (c : Candidate) (name : String) :
    Option (List String) :=
  match c.kind s with
  | .type =>
    match Layout.package c.path root with
    | .error _ => none
    | .ok none => some []
    | .ok (some package) =>
      if Name.isQualified package then some (Name.enclosing package ++ [package]) else none
  | .function => some (Name.enclosing name)

def placement? (s : Settings) (root : Path) (c : Candidate) : Option Placement :=
  (c.name? s root).bind fun name =>
    if Name.isQualified name then
      (c.packages? s root name).map fun packages => ⟨c.kind s, name, packages⟩
    else none

variable {s : Settings} {root : Path} {c : Candidate} {p : Placement}

theorem placement?_eq_some_iff : c.placement? s root = some p ↔
    p.kind = c.kind s ∧ c.name? s root = some p.name ∧ Name.isQualified p.name = true ∧
      c.packages? s root p.name = some p.packages := by
  rw [placement?, Option.bind_eq_some_iff]
  constructor
  · rintro ⟨name, hname, h⟩
    rw [Option.ite_none_right_eq_some, Option.map_eq_some_iff] at h
    obtain ⟨hq, packages, hpackages, rfl⟩ := h
    exact ⟨rfl, hname, hq, hpackages⟩
  · rintro ⟨hkind, hname, hq, hpackages⟩
    refine ⟨p.name, hname, ?_⟩
    rw [if_pos hq, hpackages, Option.map_some, ← hkind]

theorem placement?_eq_none_iff {name : String} (hname : c.name? s root = some name) :
    c.placement? s root = none ↔
      (Name.isQualified name = true → c.packages? s root name = none) := by
  rw [placement?, hname, Option.bind_some]
  by_cases hq : Name.isQualified name = true
  · rw [if_pos hq, Option.map_eq_none_iff]
    exact ⟨fun h _ => h, fun h => h hq⟩
  · rw [if_neg hq]
    exact iff_of_true rfl fun h => absurd h hq

theorem placement?_of_noName (hname : c.name? s root = none) : c.placement? s root = none := by
  rw [placement?, hname]
  rfl

theorem placement?_of_not_isQualified {name : String} (hname : c.name? s root = some name)
    (hq : Name.isQualified name = false) : c.placement? s root = none := by
  rw [placement?_eq_none_iff hname, hq]
  exact nofun

/-- The packages depend on the reading of the package alone. -/
theorem packages?_eq (name : String) : c.packages? s root name =
    match c.kind s with
    | .type => (Layout.package c.path root).toOption.bind fun
      | none => some []
      | some package =>
        if Name.isQualified package then some (Name.enclosing package ++ [package]) else none
    | .function => some (Name.enclosing name) := by
  rw [packages?]
  cases c.kind s with
  | type =>
    cases Layout.package c.path root with
    | error e => rfl
    | ok package? => cases package? <;> rfl
  | function => rfl

end Candidate

/-! ## One candidate -/

variable {s : Settings} {root : Path} {c : Candidate} {index : Index}

/-- An index with one more class, at its place. -/
def Placement.addTo (p : Placement) (binary : Binary) (index : Index) : Index :=
  index.enter p.kind p.name binary p.packages

/-- A step that fails: some packages may have been marked, but no name has been given
away, and none is said to be taken. -/
def Refuses (index : Index) (outcome : Outcome Bool) : Prop :=
  ∃ packages e, outcome = (index.withPackages packages, .error e) ∧
    ∀ kind name, e ≠ .index (.duplicate kind name)

theorem refuses_layout {e : LayoutError} : Refuses index (index, .error (.layout e)) :=
  ⟨[], .layout e, rfl, nofun⟩

theorem refuses_invalidName (packages : List String) {name : String} :
    Refuses index (index.withPackages packages, .error (.index (.invalidName name))) :=
  ⟨packages, _, rfl, nofun⟩

/-- All that can come of a candidate, by whether its name is taken and whether it has
a place. -/
def Outcomes (s : Settings) (root : Path) (c : Candidate) (index : Index)
    (outcome : Outcome Bool) : Prop :=
  (∃ name, c.name? s root = some name ∧ (index.table (c.kind s)).contains name = true ∧
    outcome = (index, .ok false)) ∨
  (∃ p, c.placement? s root = some p ∧ (index.table p.kind).contains p.name = false ∧
    outcome = (p.addTo c.binary index, .ok true)) ∨
  (c.placement? s root = none ∧
    (∀ name, c.name? s root = some name → (index.table (c.kind s)).contains name = false) ∧
    Refuses index outcome)

theorem outcomes_of_noName {e : LayoutError} (hname : c.name? s root = none) :
    Outcomes s root c index (index, .error (.layout e)) := by
  refine Or.inr (Or.inr ⟨Candidate.placement?_of_noName hname, ?_, refuses_layout⟩)
  intro name h
  rw [hname] at h
  cases h

theorem outcomes_of_refuses {name : String} {outcome : Outcome Bool}
    (hname : c.name? s root = some name)
    (hcontains : (index.table (c.kind s)).contains name = false)
    (hpackages : Name.isQualified name = true → c.packages? s root name = none)
    (h : Refuses index outcome) : Outcomes s root c index outcome := by
  refine Or.inr (Or.inr ⟨(Candidate.placement?_eq_none_iff hname).mpr hpackages, ?_, h⟩)
  intro name' h'
  rw [hname] at h'
  cases h'
  exact hcontains

theorem registerFunction_cases (hkind : c.kind s = .function) :
    Outcomes s root c index (registerFunction s root c index) := by
  have hname? : c.name? s root = (Layout.functionName s.functionMarker c.path root).toOption := by
    rw [Candidate.name?, hkind]
  unfold registerFunction
  cases hname : Layout.functionName s.functionMarker c.path root with
  | error e =>
    rw [hname] at hname?
    exact outcomes_of_noName hname?
  | ok name =>
    rw [hname] at hname?
    have hpackages : c.packages? s root name = some (Name.enclosing name) := by
      rw [Candidate.packages?, hkind]
    have htable : index.functions = index.table (c.kind s) := by rw [hkind]; rfl
    cases hcontains : index.functions.contains name with
    | true =>
      refine Or.inl ⟨name, hname?, htable ▸ hcontains, ?_⟩
      simp only [hcontains, if_true]
    | false =>
      by_cases hq : Name.isQualified name = true
      · refine Or.inr (Or.inl ⟨⟨.function, name, Name.enclosing name⟩, ?_, hcontains, ?_⟩)
        · exact Candidate.placement?_eq_some_iff.mpr ⟨hkind.symm, hname?, hq, hpackages⟩
        · simp only [Index.addFunction, if_pos hq, hcontains]
          rfl
      · apply outcomes_of_refuses hname? (htable ▸ hcontains) fun h => absurd h hq
        simp only [Index.addFunction, if_neg hq, hcontains]
        exact refuses_invalidName []

/-- Marking the package of a class leaves the packages that come with the class, if it
succeeds. -/
theorem registerPackage_cases (index : Index) (hkind : c.kind s = .type) (name : String) :
    (∃ packages, c.packages? s root name = some packages ∧
      registerPackage root c index = (index.withPackages packages, .ok ())) ∨
    (c.packages? s root name = none ∧ ∃ e, registerPackage root c index = (index, .error e) ∧
      ∀ kind name, e ≠ .index (.duplicate kind name)) := by
  rw [Candidate.packages?, hkind]
  unfold registerPackage
  cases Layout.package c.path root with
  | error e => exact Or.inr ⟨rfl, .layout e, rfl, nofun⟩
  | ok package? =>
    cases package? with
    | none => exact Or.inl ⟨[], rfl, rfl⟩
    | some package =>
      by_cases hq : Name.isQualified package = true
      · refine Or.inl ⟨Name.enclosing package ++ [package], if_pos hq, ?_⟩
        simp only [Index.addPackage, if_pos hq]
      · refine Or.inr ⟨if_neg hq, .index (.invalidName package), ?_, nofun⟩
        simp only [Index.addPackage, if_neg hq]

theorem registerType_cases (hkind : c.kind s = .type) :
    Outcomes s root c index (registerType root c index) := by
  have hname? : c.name? s root = (Layout.typeName c.path root).toOption := by
    rw [Candidate.name?, hkind]
  unfold registerType
  cases hname : Layout.typeName c.path root with
  | error e =>
    rw [hname] at hname?
    exact outcomes_of_noName hname?
  | ok name =>
    rw [hname] at hname?
    have htable : index.types = index.table (c.kind s) := by rw [hkind]; rfl
    cases hcontains : index.types.contains name with
    | true =>
      refine Or.inl ⟨name, hname?, htable ▸ hcontains, ?_⟩
      simp only [hcontains, if_true]
    | false =>
      rcases registerPackage_cases index hkind name with ⟨packages, hpackages, h⟩ | ⟨hpackages, e, h, he⟩
      · by_cases hq : Name.isQualified name = true
        · refine Or.inr (Or.inl ⟨⟨.type, name, packages⟩, ?_, hcontains, ?_⟩)
          · exact Candidate.placement?_eq_some_iff.mpr ⟨hkind.symm, hname?, hq, hpackages⟩
          · have hstill : (index.withPackages packages).types.contains name = false := hcontains
            simp only [hcontains, h, Index.addType, if_pos hq, hstill]
            rfl
        · apply outcomes_of_refuses hname? (htable ▸ hcontains) fun h => absurd h hq
          simp only [hcontains, h, Index.addType, if_neg hq]
          exact refuses_invalidName packages
      · apply outcomes_of_refuses hname? (htable ▸ hcontains) fun _ => hpackages
        simp only [hcontains, h]
        exact ⟨[], e, rfl, he⟩

/-- The step, by cases. -/
theorem register_cases (s : Settings) (root : Path) (c : Candidate) (index : Index) :
    Outcomes s root c index (register s root c index) := by
  unfold register
  by_cases hfunction : c.isFunction s = true
  · rw [if_pos hfunction]
    exact registerFunction_cases (if_pos hfunction)
  · rw [if_neg hfunction]
    exact registerType_cases (if_neg hfunction)

/-! ## Names that are taken -/

/-- The step leads every name that was taken where it led before, and does not fail
because a name is taken. -/
def OnlyAdds {α : Type} (index : Index) (outcome : Outcome α) : Prop :=
  (∀ kind name binary, (index.table kind).get? name = some binary →
    (outcome.1.table kind).get? name = some binary) ∧
  ∀ kind name, outcome.2 ≠ .error (.index (.duplicate kind name))

theorem onlyAdds_ok {α : Type} (a : α) : OnlyAdds index (index, .ok a) :=
  ⟨fun _ _ _ h => h, nofun⟩

theorem OnlyAdds.trans {α β : Type} {outcome : Outcome α} {outcome' : Outcome β}
    (h : OnlyAdds index outcome) (h' : OnlyAdds outcome.1 outcome') : OnlyAdds index outcome' :=
  ⟨fun kind name binary hb => h'.1 kind name binary (h.1 kind name binary hb), h'.2⟩

/-- A failure stays one in whatever the step is part of. -/
theorem OnlyAdds.fail {α β : Type} {left : Index} {e : DiscoveryError}
    (h : OnlyAdds index ((left, .error e) : Outcome α)) : OnlyAdds index ((left, .error e) : Outcome β) :=
  ⟨h.1, fun kind name he => h.2 kind name (congrArg Except.error (Except.error.inj he))⟩

theorem OnlyAdds.yield {α β : Type} {left : Index} {a : α} (h : OnlyAdds index (left, .ok a))
    (b : β) : OnlyAdds index (left, .ok b) :=
  ⟨h.1, nofun⟩

theorem register_onlyAdds (s : Settings) (root : Path) (c : Candidate) (index : Index) :
    OnlyAdds index (register s root c index) := by
  rcases register_cases s root c index with ⟨-, -, -, h⟩ | ⟨p, -, -, h⟩ | ⟨-, -, _, e, h, he⟩
  · rw [h]
    exact onlyAdds_ok false
  · rw [h]
    refine ⟨?_, nofun⟩
    intro kind name binary hb
    rw [Placement.addTo, Index.get?_table_enter, hb]
    rfl
  · rw [h]
    refine ⟨?_, fun kind name hd => he kind name (Except.error.inj hd)⟩
    intro kind name binary hb
    rw [Index.table_withPackages]
    exact hb

theorem registerAll_onlyAdds (s : Settings) (root : Path) (cs : List Candidate) (index : Index) :
    OnlyAdds index (registerAll s root cs index) := by
  induction cs generalizing index with
  | nil => exact onlyAdds_ok 0
  | cons c rest ih =>
    have hstep := register_onlyAdds s root c index
    unfold registerAll
    rcases hregister : register s root c index with ⟨middle, e | new⟩
    · rw [hregister] at hstep
      exact hstep.fail
    · rw [hregister] at hstep
      have hrest := hstep.trans (ih middle)
      simp only
      rcases hrun : registerAll s root rest middle with ⟨final, e | n⟩
      · rw [hrun] at hrest
        exact hrest.fail
      · rw [hrun] at hrest
        exact hrest.yield _

/-! ## What a run leaves in the tables -/

/-- Where a class makes a name lead, if it is the first to do so. -/
def Candidate.binding? (s : Settings) (root : Path) (kind : EntryKind) (name : String)
    (c : Candidate) : Option Binary :=
  (c.placement? s root).bind fun p =>
    if p.kind = kind ∧ p.name = name then some c.binary else none

theorem Candidate.binding?_eq_some_iff {kind : EntryKind} {name : String} {binary : Binary} :
    c.binding? s root kind name = some binary ↔
      (∃ p, c.placement? s root = some p ∧ p.kind = kind ∧ p.name = name) ∧ c.binary = binary := by
  rw [binding?, Option.bind_eq_some_iff]
  constructor
  · rintro ⟨p, hp, h⟩
    rw [Option.ite_none_right_eq_some, Option.some_inj] at h
    exact ⟨⟨p, hp, h.1⟩, h.2⟩
  · rintro ⟨⟨p, hp, hsame⟩, hbinary⟩
    exact ⟨p, hp, by rw [if_pos hsame, hbinary]⟩

/-- The step: a class is entered unless its name is taken. -/
theorem register_tables {final : Index} {new : Bool}
    (hok : register s root c index = (final, .ok new)) (kind : EntryKind) (name : String) :
    (final.table kind).get? name =
      ((index.table kind).get? name).or (c.binding? s root kind name) := by
  rcases register_cases s root c index with
    ⟨taken, hname, hcontains, h⟩ | ⟨p, hp, -, h⟩ | ⟨-, -, _, e, h, -⟩
  · cases hok.symm.trans h
    cases hbinding : c.binding? s root kind name with
    | none => rw [Option.or_none]
    | some binary =>
      obtain ⟨⟨p, hp, rfl, rfl⟩, -⟩ := Candidate.binding?_eq_some_iff.mp hbinding
      obtain ⟨hkind, hpname, -⟩ := Candidate.placement?_eq_some_iff.mp hp
      cases hname.symm.trans hpname
      rw [← hkind, Table.contains_eq_isSome] at hcontains
      obtain ⟨first, hfirst⟩ := Option.isSome_iff_exists.mp hcontains
      rw [hfirst]
      rfl
  · cases hok.symm.trans h
    rw [Placement.addTo, Index.get?_table_enter, Candidate.binding?, hp, Option.bind_some]
  · cases hok.symm.trans h

theorem registerAll_cons_eq_ok {cs : List Candidate} {final : Index} {n : Nat} :
    registerAll s root (c :: cs) index = (final, .ok n) ↔
      ∃ middle new m, register s root c index = (middle, .ok new) ∧
        registerAll s root cs middle = (final, .ok m) ∧ n = new.toNat + m := by
  rw [registerAll]
  constructor
  · intro h
    rcases hfirst : register s root c index with ⟨middle, e | new⟩
    · rw [hfirst] at h
      cases h
    · rw [hfirst] at h
      rcases hrest : registerAll s root cs middle with ⟨final', e | m⟩
      · simp only [hrest] at h
        cases h
      · simp only [hrest] at h
        cases h
        exact ⟨middle, new, m, rfl, hrest, rfl⟩
  · rintro ⟨middle, new, m, hfirst, hrest, rfl⟩
    simp only [hfirst, hrest]

/-- The run: a name leads where the first class makes it lead, unless it was taken. -/
theorem registerAll_tables {cs : List Candidate} {final : Index} {n : Nat}
    (hok : registerAll s root cs index = (final, .ok n)) (kind : EntryKind) (name : String) :
    (final.table kind).get? name =
      ((index.table kind).get? name).or (cs.findSome? (Candidate.binding? s root kind name)) := by
  induction cs generalizing index n with
  | nil =>
    cases hok
    exact Option.or_none.symm
  | cons c rest ih =>
    obtain ⟨middle, new, m, hfirst, hrest, -⟩ := registerAll_cons_eq_ok.mp hok
    rw [ih hrest, register_tables hfirst, Option.or_assoc, List.findSome?_cons]
    cases c.binding? s root kind name <;> rfl

/-! ## What a run leaves in the packages -/

/-- The packages that come with a class if it makes a name lead to it. -/
def Candidate.packagesAt? (s : Settings) (root : Path) (kind : EntryKind) (name : String)
    (c : Candidate) : Option (List String) :=
  (c.placement? s root).bind fun p =>
    if p.kind = kind ∧ p.name = name then some p.packages else none

theorem Candidate.packagesAt?_eq_some_iff {kind : EntryKind} {name : String}
    {packages : List String} : c.packagesAt? s root kind name = some packages ↔
      c.placement? s root = some ⟨kind, name, packages⟩ := by
  rw [packagesAt?, Option.bind_eq_some_iff]
  constructor
  · intro h
    obtain ⟨p, hp, h⟩ := h
    rw [Option.ite_none_right_eq_some, Option.some_inj] at h
    obtain ⟨⟨rfl, rfl⟩, rfl⟩ := h
    exact hp
  · intro h
    exact ⟨_, h, if_pos ⟨rfl, rfl⟩⟩

/-- The step: a class whose name is new brings its packages. -/
theorem register_packages {final : Index} {new : Bool}
    (hok : register s root c index = (final, .ok new)) (package : String) :
    final.hasPackage package = true ↔ index.hasPackage package = true ∨
      ∃ kind name packages, (index.table kind).contains name = false ∧
        c.packagesAt? s root kind name = some packages ∧ package ∈ packages := by
  simp only [Candidate.packagesAt?_eq_some_iff]
  rcases register_cases s root c index with
    ⟨taken, hname, hcontains, h⟩ | ⟨p, hp, hfree, h⟩ | ⟨-, -, _, e, h, -⟩
  · cases hok.symm.trans h
    refine (or_iff_left fun hnew => ?_).symm
    obtain ⟨kind, name, packages, hfree, hp, -⟩ := hnew
    obtain ⟨rfl, hpname, -⟩ := Candidate.placement?_eq_some_iff.mp hp
    cases hname.symm.trans hpname
    rw [hcontains] at hfree
    cases hfree
  · cases hok.symm.trans h
    rw [Placement.addTo, Index.hasPackage_enter, Bool.or_eq_true, decide_eq_true_eq]
    refine or_congr Iff.rfl ⟨fun hpackage => ⟨p.kind, p.name, p.packages, hfree, hp, hpackage⟩, ?_⟩
    intro hnew
    obtain ⟨kind, name, packages, -, hp', hpackage⟩ := hnew
    cases hp.symm.trans hp'
    exact hpackage
  · cases hok.symm.trans h

theorem Candidate.packagesAt?_eq_none_iff {kind : EntryKind} {name : String} :
    c.packagesAt? s root kind name = none ↔ c.binding? s root kind name = none := by
  rw [packagesAt?, binding?]
  cases c.placement? s root with
  | none => exact iff_of_true rfl rfl
  | some p => by_cases h : p.kind = kind ∧ p.name = name <;> simp [h]

/-- The names that a step leaves free. -/
theorem register_free_iff {final : Index} {new : Bool}
    (hok : register s root c index = (final, .ok new)) {kind : EntryKind} {name : String} :
    (final.table kind).contains name = false ↔ (index.table kind).contains name = false ∧
      c.packagesAt? s root kind name = none := by
  rw [Candidate.packagesAt?_eq_none_iff, Table.contains_eq_isSome, Table.contains_eq_isSome,
    register_tables hok, Option.isSome_or, Bool.or_eq_false_iff, Option.isSome_eq_false_iff,
    Option.isSome_eq_false_iff, Option.isNone_iff_eq_none, Option.isNone_iff_eq_none]

/-- The run: the first class of each name that is new brings its packages. -/
theorem registerAll_packages {cs : List Candidate} {final : Index} {n : Nat}
    (hok : registerAll s root cs index = (final, .ok n)) (package : String) :
    final.hasPackage package = true ↔ index.hasPackage package = true ∨
      ∃ kind name packages, (index.table kind).contains name = false ∧
        cs.findSome? (Candidate.packagesAt? s root kind name) = some packages ∧
        package ∈ packages := by
  induction cs generalizing index n with
  | nil =>
    cases hok
    simp
  | cons c rest ih =>
    obtain ⟨middle, new, m, hfirst, hrest, -⟩ := registerAll_cons_eq_ok.mp hok
    rw [ih hrest, register_packages hfirst, or_assoc]
    refine or_congr Iff.rfl ?_
    simp only [← exists_or]
    refine exists_congr fun kind => exists_congr fun name => exists_congr fun packages => ?_
    rw [register_free_iff hfirst, List.findSome?_cons]
    cases c.packagesAt? s root kind name <;> simp

/-! ## The same run above another index -/

/-- Every name of one index is a name of another. -/
def Covers (index under : Index) : Prop :=
  ∀ kind name, (under.table kind).contains name = true → (index.table kind).contains name = true

theorem covers_empty (index : Index) : Covers index .empty := by
  intro kind name h
  rw [Index.contains_table_empty] at h
  cases h

theorem Covers.refl (index : Index) : Covers index index :=
  fun _ _ h => h

theorem Covers.trans {under middle : Index} (h : Covers index middle) (h' : Covers middle under) :
    Covers index under :=
  fun kind name hname => h kind name (h' kind name hname)

/-- A step that leaves names alone takes none away. -/
theorem OnlyAdds.covers {α : Type} {outcome : Outcome α} (h : OnlyAdds index outcome) :
    Covers outcome.1 index := by
  intro kind name hname
  rw [Table.contains_eq_isSome] at hname ⊢
  obtain ⟨binary, hbinary⟩ := Option.isSome_iff_exists.mp hname
  rw [h.1 kind name binary hbinary]
  rfl

theorem Covers.register {under final below : Index} {new new' : Bool} (h : Covers index under)
    (hindex : register s root c index = (final, .ok new))
    (hunder : register s root c under = (below, .ok new')) : Covers final below := by
  intro kind name hname
  rw [Table.contains_eq_isSome, register_tables hunder, Option.isSome_or, Bool.or_eq_true] at hname
  rw [Table.contains_eq_isSome, register_tables hindex, Option.isSome_or, Bool.or_eq_true]
  exact hname.imp_left (h kind name)

/-- The step: more names in the index make no candidate fail. -/
theorem register_eq_ok_of_covers {under below : Index} {new : Bool} (h : Covers index under)
    (hok : register s root c under = (below, .ok new)) :
    ∃ final new', register s root c index = (final, .ok new') := by
  rcases register_cases s root c index with
    ⟨-, -, -, hindex⟩ | ⟨p, -, -, hindex⟩ | ⟨hnone, hfree, -⟩
  · exact ⟨_, _, hindex⟩
  · exact ⟨_, _, hindex⟩
  · rcases register_cases s root c under with
      ⟨name, hname, htaken, -⟩ | ⟨p, hp, -⟩ | ⟨-, -, _, e, hunder, -⟩
    · have hfree := hfree name hname
      rw [h _ _ htaken] at hfree
      cases hfree
    · rw [hnone] at hp
      cases hp
    · cases hok.symm.trans hunder

/-- The run, by its steps. -/
theorem registerAll_eq_ok_of_covers {cs : List Candidate} {under below : Index} {n : Nat}
    (h : Covers index under) (hok : registerAll s root cs under = (below, .ok n)) :
    ∃ final n', registerAll s root cs index = (final, .ok n') := by
  induction cs generalizing index under n with
  | nil => exact ⟨index, 0, rfl⟩
  | cons c rest ih =>
    obtain ⟨middle, new, m, hfirst, hrest, -⟩ := registerAll_cons_eq_ok.mp hok
    obtain ⟨middle', new', hfirst'⟩ := register_eq_ok_of_covers h hfirst
    obtain ⟨final, m', hrest'⟩ := ih (h.register hfirst' hfirst) hrest
    exact ⟨final, new'.toNat + m', registerAll_cons_eq_ok.mpr ⟨_, _, _, hfirst', hrest', rfl⟩⟩

end Discovery
end ClassIndex

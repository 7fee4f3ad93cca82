/-
Runs that fail, and names as candidates derive them.

A run fails at one candidate, with the index that the candidates before it leave
(`registerAll_eq_error_iff`).  A candidate that fails leaves all names alone
(`table_of_register_error`), and one whose name or package cannot be derived the packages,
too (`register_eq_error_layout`).

As long as a run does not fail, the first candidate that derives a new name has a place
under it (`exists_placement?_of_first`), since the name does not get past a candidate that
cannot be placed.  Names and packages then follow from the names that candidates derive
(`registerAll_first`, `registerAll_first_packages`).
-/
import ClassIndex.Proofs.Discovery.Registration

namespace ClassIndex
namespace Discovery

variable {s : Settings} {root : Path} {c : Candidate} {cs : List Candidate} {index final : Index}

/-! ## Where a run fails -/

theorem registerAll_cons_eq_error {e : DiscoveryError} :
    registerAll s root (c :: cs) index = (final, .error e) ↔
      register s root c index = (final, .error e) ∨ ∃ middle new,
        register s root c index = (middle, .ok new) ∧
        registerAll s root cs middle = (final, .error e) := by
  rw [registerAll]
  rcases register s root c index with ⟨middle, e' | new⟩
  · simp
  · rcases hrest : registerAll s root cs middle with ⟨final', e' | n⟩ <;> simp [hrest]

/-- The run: it fails where a candidate does, after others that do not. -/
theorem registerAll_eq_error_iff {e : DiscoveryError} :
    registerAll s root cs index = (final, .error e) ↔
      ∃ before c after middle n, cs = before ++ c :: after ∧
        registerAll s root before index = (middle, .ok n) ∧
        register s root c middle = (final, .error e) := by
  induction cs generalizing index with
  | nil =>
    refine iff_of_false nofun fun h => ?_
    obtain ⟨before, c, after, -, -, hcs, -⟩ := h
    exact absurd hcs.symm (List.append_ne_nil_of_right_ne_nil _ (List.cons_ne_nil c after))
  | cons d rest ih =>
    rw [registerAll_cons_eq_error]
    constructor
    · intro h
      rcases h with h | ⟨middle, new, hfirst, hrest⟩
      · exact ⟨[], d, rest, index, 0, rfl, rfl, h⟩
      · obtain ⟨before, c, after, middle', n, rfl, hbefore, hc⟩ := ih.mp hrest
        refine ⟨d :: before, c, after, middle', new.toNat + n, rfl, ?_, hc⟩
        exact registerAll_cons_eq_ok.mpr ⟨_, _, _, hfirst, hbefore, rfl⟩
    · intro h
      obtain ⟨before, c, after, middle', n, hcs, hbefore, hc⟩ := h
      cases before with
      | nil =>
        cases hcs
        cases hbefore
        exact .inl hc
      | cons d' before =>
        cases hcs
        obtain ⟨middle, new, m, hfirst, hbefore', -⟩ := registerAll_cons_eq_ok.mp hbefore
        exact .inr ⟨middle, new, hfirst, ih.mpr ⟨before, c, after, middle', m, rfl, hbefore', hc⟩⟩

/-- A candidate that fails gives no name away. -/
theorem table_of_register_error {e : DiscoveryError}
    (h : register s root c index = (final, .error e)) (kind : EntryKind) :
    final.table kind = index.table kind := by
  rcases register_cases s root c index with ⟨-, -, -, h'⟩ | ⟨p, -, -, h'⟩ | ⟨-, -, _, _, h', -⟩
  · cases h.symm.trans h'
  · cases h.symm.trans h'
  · cases h.symm.trans h'
    exact Index.table_withPackages ..

theorem registerFunction_eq_error_layout {e : LayoutError}
    (h : registerFunction s root c index = (final, .error (.layout e))) : final = index := by
  unfold registerFunction at h
  split at h
  · cases h
    rfl
  · split at h
    · cases h
    · split at h <;> cases h

theorem registerPackage_eq_error_layout {e : LayoutError}
    (h : registerPackage root c index = (final, .error (.layout e))) :
    final = index ∧ Layout.package c.path root = .error e := by
  unfold registerPackage at h
  split at h
  · next hpackage =>
    cases h
    exact ⟨rfl, hpackage⟩
  · cases h
  · split at h <;> cases h

theorem registerType_eq_error_layout {e : LayoutError}
    (h : registerType root c index = (final, .error (.layout e))) :
    final = index ∧ (Layout.typeName c.path root = .error e ∨
      ((∃ name, Layout.typeName c.path root = .ok name) ∧
        Layout.package c.path root = .error e)) := by
  unfold registerType at h
  split at h
  · next hname =>
    cases h
    exact ⟨rfl, .inl hname⟩
  · next name hname =>
    split at h
    · cases h
    · split at h
      · next middle e' hpackage =>
        cases h
        obtain ⟨hfinal, he⟩ := registerPackage_eq_error_layout hpackage
        exact ⟨hfinal, .inr ⟨⟨name, hname⟩, he⟩⟩
      · split at h <;> cases h

/-- A candidate fails for its layout when its name or its package cannot be derived, and
then leaves the index as it is. -/
theorem register_eq_error_layout {e : LayoutError}
    (h : register s root c index = (final, .error (.layout e))) :
    final = index ∧ (c.isFunction s = true ∨ Layout.typeName c.path root = .error e ∨
      ((∃ name, Layout.typeName c.path root = .ok name) ∧
        Layout.package c.path root = .error e)) := by
  unfold register at h
  split at h
  · next hfunction => exact ⟨registerFunction_eq_error_layout h, .inl hfunction⟩
  · exact (registerType_eq_error_layout h).imp_right .inr

/-! ## Names that candidates derive -/

variable {kind : EntryKind} {name : String} {n : Nat}

/-- Whether a candidate derives a name of some kind. -/
def Candidate.derives (s : Settings) (root : Path) (kind : EntryKind) (name : String)
    (c : Candidate) : Bool :=
  c.kind s = kind ∧ c.name? s root = some name

theorem Candidate.derives_iff : c.derives s root kind name = true ↔
    c.kind s = kind ∧ c.name? s root = some name := by
  rw [derives, decide_eq_true_eq]

theorem Candidate.derives_of_placement? {p : Placement} (h : c.placement? s root = some p) :
    c.derives s root p.kind p.name = true := by
  obtain ⟨hkind, hname, -⟩ := placement?_eq_some_iff.mp h
  exact derives_iff.mpr ⟨hkind.symm, hname⟩

theorem Candidate.packagesAt?_of_not_derives (h : c.derives s root kind name = false) :
    c.packagesAt? s root kind name = none := by
  rw [Option.eq_none_iff_forall_ne_some]
  intro packages hpackages
  have hderives := derives_of_placement? (packagesAt?_eq_some_iff.mp hpackages)
  rw [h] at hderives
  cases hderives

/-- The run: the first candidate that derives a new name has a place under it. -/
theorem exists_placement?_of_first (hok : registerAll s root cs index = (final, .ok n))
    (hfree : (index.table kind).contains name = false)
    (hfirst : cs.find? (Candidate.derives s root kind name) = some c) :
    ∃ packages, c.placement? s root = some ⟨kind, name, packages⟩ := by
  induction cs generalizing index n with
  | nil => cases hfirst
  | cons d rest ih =>
    obtain ⟨middle, new, m, hstep, hrest, -⟩ := registerAll_cons_eq_ok.mp hok
    rw [List.find?_cons] at hfirst
    cases hd : d.derives s root kind name with
    | false =>
      rw [hd] at hfirst
      refine ih hrest ?_ hfirst
      exact (register_free_iff hstep).mpr ⟨hfree, Candidate.packagesAt?_of_not_derives hd⟩
    | true =>
      rw [hd] at hfirst
      cases hfirst
      obtain ⟨rfl, hname⟩ := Candidate.derives_iff.mp hd
      rcases register_cases s root c index with
        ⟨taken, htaken, hcontains, -⟩ | ⟨p, hp, -, -⟩ | ⟨-, -, _, e, h, -⟩
      · cases htaken.symm.trans hname
        rw [hfree] at hcontains
        cases hcontains
      · obtain ⟨hkind, hpname, -⟩ := Candidate.placement?_eq_some_iff.mp hp
        cases hname.symm.trans hpname
        exact ⟨p.packages, by rw [hp, ← hkind]⟩
      · cases hstep.symm.trans h

/-- What has a value only where a property holds is first met at the first place of the
property. -/
theorem findSome?_eq_bind_find? {α β : Type} {f : α → Option β} {p : α → Bool} {l : List α}
    (hnone : ∀ a, p a = false → f a = none) (hsome : ∀ a, l.find? p = some a → f a ≠ none) :
    l.findSome? f = (l.find? p).bind f := by
  induction l with
  | nil => rfl
  | cons a l ih =>
    rw [List.findSome?_cons, List.find?_cons]
    cases ha : p a with
    | true =>
      obtain ⟨b, hb⟩ := Option.ne_none_iff_exists'.mp (hsome a (by rw [List.find?_cons, ha]))
      rw [hb, Option.bind_some, hb]
    | false =>
      rw [hnone a ha]
      exact ih fun b hb => hsome b (by rw [List.find?_cons, ha, hb])

/-- Of the values that candidates with a place have, the first is that of the first
candidate to derive the name. -/
theorem findSome?_eq_of_first {α : Type} {f : Candidate → Option α}
    (hf : ∀ c, f c = none ↔ c.packagesAt? s root kind name = none)
    (hok : registerAll s root cs index = (final, .ok n))
    (hfree : (index.table kind).contains name = false) :
    cs.findSome? f = (cs.find? (Candidate.derives s root kind name)).bind f := by
  refine findSome?_eq_bind_find? (fun c hc => ?_) fun c hc => ?_
  · exact (hf c).mpr (Candidate.packagesAt?_of_not_derives hc)
  · obtain ⟨packages, hpackages⟩ := exists_placement?_of_first hok hfree hc
    rw [Ne, hf, Candidate.packagesAt?_eq_some_iff.mpr hpackages]
    exact nofun

/-- A name leads to the first candidate that derives it, unless it was taken. -/
theorem registerAll_first (hok : registerAll s root cs index = (final, .ok n)) (kind : EntryKind)
    (name : String) : (final.table kind).get? name = ((index.table kind).get? name).or
      ((cs.find? (Candidate.derives s root kind name)).map Candidate.binary) := by
  rw [registerAll_tables hok]
  cases htaken : (index.table kind).get? name with
  | some binary => rfl
  | none =>
    have hfree : (index.table kind).contains name = false := by
      rw [Table.contains_eq_isSome, htaken]
      rfl
    rw [Option.none_or, Option.none_or,
      findSome?_eq_of_first (fun c => Candidate.packagesAt?_eq_none_iff.symm) hok hfree]
    cases hfirst : cs.find? (Candidate.derives s root kind name) with
    | none => rfl
    | some c =>
      obtain ⟨packages, hp⟩ := exists_placement?_of_first hok hfree hfirst
      exact Candidate.binding?_eq_some_iff.mpr ⟨⟨_, hp, rfl, rfl⟩, rfl⟩

/-- The first candidates of new names bring their packages. -/
theorem registerAll_first_packages (hok : registerAll s root cs index = (final, .ok n))
    (package : String) : final.hasPackage package = true ↔ index.hasPackage package = true ∨
      ∃ kind name c packages, (index.table kind).contains name = false ∧
        cs.find? (Candidate.derives s root kind name) = some c ∧
        c.placement? s root = some ⟨kind, name, packages⟩ ∧ package ∈ packages := by
  rw [registerAll_packages hok]
  refine or_congr Iff.rfl (exists_congr fun kind => exists_congr fun name => ?_)
  constructor
  · intro h
    obtain ⟨packages, hfree, hfirst, hmem⟩ := h
    rw [findSome?_eq_of_first (fun _ => Iff.rfl) hok hfree, Option.bind_eq_some_iff] at hfirst
    obtain ⟨c, hc, hpackages⟩ := hfirst
    exact ⟨c, packages, hfree, hc, Candidate.packagesAt?_eq_some_iff.mp hpackages, hmem⟩
  · intro h
    obtain ⟨c, packages, hfree, hc, hpackages, hmem⟩ := h
    refine ⟨packages, hfree, ?_, hmem⟩
    rw [findSome?_eq_of_first (fun _ => Iff.rfl) hok hfree, hc]
    exact Candidate.packagesAt?_eq_some_iff.mpr hpackages

end Discovery
end ClassIndex

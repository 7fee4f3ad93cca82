/-
Runs of discovery into an empty index.

As long as candidates of one name have one place, it does not matter in which order they
come: the run succeeds exactly when every candidate has a place
(`registerAll_empty_eq_ok_iff`), and the index then holds the names and packages of these
places and nothing else (`places_registerAll`).  `Places.register` is the step that carries
both.
-/
import ClassIndex.Proofs.Discovery.Registration

namespace ClassIndex
namespace Discovery

variable {s : Settings} {root : Path} {c : Candidate} {index : Index}

/-! ## Runs into an empty index -/

/-- Candidates of one kind and name have one placement, so that it does not matter which
of them comes first. -/
def Agree (s : Settings) (root : Path) (cs : List Candidate) : Prop :=
  ∀ c ∈ cs, ∀ d ∈ cs, c.kind s = d.kind s → c.name? s root = d.name? s root →
    c.placement? s root = d.placement? s root

/-- The names and packages of an index are those of the places that candidates have. -/
structure Places (s : Settings) (root : Path) (cs : List Candidate) (index : Index) : Prop where
  names : ∀ kind name, (index.table kind).contains name = true ↔
    ∃ c ∈ cs, ∃ p, c.placement? s root = some p ∧ p.kind = kind ∧ p.name = name
  packages : ∀ package, index.hasPackage package = true ↔
    ∃ c ∈ cs, ∃ p, c.placement? s root = some p ∧ package ∈ p.packages

theorem places_empty : Places s root [] .empty where
  names kind name := by simp
  packages package := by simp

theorem exists_mem_concat {P : Candidate → Prop} {cs : List Candidate} :
    (∃ d ∈ cs ++ [c], P d) ↔ (∃ d ∈ cs, P d) ∨ P c := by
  simp [or_and_right, exists_or]

theorem Places.concat {cs : List Candidate} {p : Placement} (h : Places s root cs index)
    (hp : c.placement? s root = some p) : Places s root (cs ++ [c]) (p.addTo c.binary index) where
  names kind name := by
    rw [exists_mem_concat, ← h.names, Table.contains_eq_isSome, Placement.addTo,
      Index.get?_table_enter, Option.isSome_or, Bool.or_eq_true, hp]
    refine or_congr Iff.rfl ?_
    by_cases hsame : p.kind = kind ∧ p.name = name <;> simp [hsame]
  packages package := by
    rw [exists_mem_concat, ← h.packages, Placement.addTo, Index.hasPackage_enter, Bool.or_eq_true,
      hp]
    simp

theorem Places.concat_known {cs : List Candidate} {p : Placement} {d : Candidate}
    (h : Places s root cs index) (hd : d ∈ cs) (hp : d.placement? s root = some p)
    (hc : c.placement? s root = some p) : Places s root (cs ++ [c]) index where
  names kind name := by
    rw [exists_mem_concat, ← h.names]
    refine ⟨Or.inl, fun hor => hor.elim id ?_⟩
    intro hsame
    exact (h.names kind name).mpr ⟨d, hd, hp.trans hc.symm ▸ hsame⟩
  packages package := by
    rw [exists_mem_concat, ← h.packages]
    refine ⟨Or.inl, fun hor => hor.elim id ?_⟩
    intro hsame
    exact (h.packages package).mpr ⟨d, hd, hp.trans hc.symm ▸ hsame⟩

/-- The step: a class with a place is in the index afterwards, any other fails. -/
theorem Places.register {cs : List Candidate} (h : Places s root cs index)
    (hagree : Agree s root (cs ++ [c])) :
    (∃ final new, register s root c index = (final, .ok new) ∧
      (c.placement? s root).isSome = true ∧ Places s root (cs ++ [c]) final) ∨
    ((c.placement? s root).isSome = false ∧ ∃ final e, register s root c index = (final, .error e)) := by
  rcases register_cases s root c index with
    ⟨name, hname, htaken, hc⟩ | ⟨p, hp, -, hc⟩ | ⟨hnone, -, _, e, hc, -⟩
  · obtain ⟨d, hd, p, hp, hkind, rfl⟩ := (h.names _ _).mp htaken
    obtain ⟨hdkind, hdname, -⟩ := Candidate.placement?_eq_some_iff.mp hp
    have hsame : c.placement? s root = some p := by
      rw [← hp]
      exact hagree c (List.mem_append_right _ (List.mem_singleton.mpr rfl)) d
        (List.mem_append_left _ hd) (hkind.symm.trans hdkind) (hname.trans hdname.symm)
    exact Or.inl ⟨_, _, hc, by rw [hsame]; rfl, h.concat_known hd hp hsame⟩
  · exact Or.inl ⟨_, _, hc, by rw [hp]; rfl, h.concat hp⟩
  · exact Or.inr ⟨by rw [hnone]; rfl, _, e, hc⟩

/-- The run, by its steps. -/
theorem Places.registerAll {done cs : List Candidate} (h : Places s root done index)
    (hagree : Agree s root (done ++ cs)) :
    (∀ c ∈ cs, (c.placement? s root).isSome = true) ∧
        (∃ final n, registerAll s root cs index = (final, .ok n) ∧ Places s root (done ++ cs) final) ∨
      (∃ c ∈ cs, (c.placement? s root).isSome = false) ∧
        ∃ final e, registerAll s root cs index = (final, .error e) := by
  induction cs generalizing done index with
  | nil =>
    refine Or.inl ⟨fun c hc => absurd hc List.not_mem_nil, index, 0, rfl, ?_⟩
    rw [List.append_nil]
    exact h
  | cons c rest ih =>
    rw [List.append_cons] at hagree
    have hagree' : Agree s root (done ++ [c]) := fun d hd d' hd' =>
      hagree d (List.mem_append_left _ hd) d' (List.mem_append_left _ hd')
    rcases h.register hagree' with ⟨middle, new, hc, hsome, hplaces⟩ | ⟨hnone, final, e, hc⟩
    · rcases ih hplaces hagree with ⟨hall, final, n, hrest, hfinal⟩ | ⟨⟨d, hd, hnone⟩, final, e, hrest⟩
      · refine Or.inl ⟨List.forall_mem_cons.mpr ⟨hsome, hall⟩, final, new.toNat + n, ?_, ?_⟩
        · exact registerAll_cons_eq_ok.mpr ⟨_, _, _, hc, hrest, rfl⟩
        · rw [List.append_cons]
          exact hfinal
      · refine Or.inr ⟨⟨d, List.mem_cons_of_mem _ hd, hnone⟩, final, e, ?_⟩
        simp only [Discovery.registerAll, hc, hrest]
    · refine Or.inr ⟨⟨c, List.mem_cons_self, hnone⟩, final, e, ?_⟩
      simp only [Discovery.registerAll, hc]

theorem registerAll_empty_eq_ok_iff {cs : List Candidate} (hagree : Agree s root cs) :
    (∃ final n, registerAll s root cs .empty = (final, .ok n)) ↔
      ∀ c ∈ cs, (c.placement? s root).isSome = true := by
  rcases places_empty.registerAll hagree with ⟨hall, final, n, hok, -⟩ | ⟨⟨c, hc, hnone⟩, final, e, herr⟩
  · exact iff_of_true ⟨final, n, hok⟩ hall
  · constructor
    · rintro ⟨final', n, hok⟩
      rw [herr] at hok
      cases hok
    · intro hall
      rw [hall c hc] at hnone
      cases hnone

theorem places_registerAll {cs : List Candidate} (hagree : Agree s root cs) {final : Index} {n : Nat}
    (hok : registerAll s root cs .empty = (final, .ok n)) : Places s root cs final := by
  rcases places_empty.registerAll hagree with ⟨-, final', n', hok', h⟩ | ⟨-, final', e, herr⟩
  · cases hok.symm.trans hok'
    exact h
  · cases hok.symm.trans herr

/-! ## Counting -/

def entryCount (index : Index) : Nat :=
  index.types.size + index.functions.size

theorem register_count {final : Index} {new : Bool}
    (hok : register s root c index = (final, .ok new)) :
    entryCount final = entryCount index + new.toNat := by
  rcases register_cases s root c index with
    ⟨-, -, -, h⟩ | ⟨p, -, hnew, h⟩ | ⟨-, -, _, e, h, -⟩
  · cases hok.symm.trans h
    rfl
  · cases hok.symm.trans h
    unfold Placement.addTo
    cases hkind : p.kind with
    | type =>
      rw [hkind] at hnew
      have hsize : (index.types.add p.name c.binary).size = index.types.size + 1 :=
        Table.size_add hnew c.binary
      show (index.types.add p.name c.binary).size + index.functions.size = _
      rw [hsize, entryCount, Bool.toNat_true]
      omega
    | function =>
      rw [hkind] at hnew
      have hsize : (index.functions.add p.name c.binary).size = index.functions.size + 1 :=
        Table.size_add hnew c.binary
      show index.types.size + (index.functions.add p.name c.binary).size = _
      rw [hsize, entryCount, Bool.toNat_true]
      omega
  · cases hok.symm.trans h

/-- The number answered is that of the names that came in. -/
theorem registerAll_count {cs : List Candidate} {final : Index} {n : Nat}
    (hok : registerAll s root cs index = (final, .ok n)) :
    entryCount final = entryCount index + n := by
  induction cs generalizing index n with
  | nil =>
    cases hok
    rfl
  | cons c rest ih =>
    obtain ⟨middle, new, m, hfirst, hrest, rfl⟩ := registerAll_cons_eq_ok.mp hok
    rw [ih hrest, register_count hfirst, Nat.add_assoc]

end Discovery
end ClassIndex

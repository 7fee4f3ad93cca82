/-
What becomes of the class of a function.

A lookup that has loaded a class ends in one of three ways.  The class does not declare
the method agreed on and no other; or it does, and the names of the parameters cannot all
be found; or there is a definition.  `Collected` has one case for each way in which the
parameters of a method come out, and `function_outcome` puts the cases together for every
class, whatever loader it comes from.

The descriptor of the method to call is written from the types of the class, while the
definition gives its types as source code uses them.  `Signature.descriptor_eq_join` says
that the descriptor can be read off the definition.
-/
import ClassIndex.Proofs.Lookup.Function

namespace ClassIndex

/-! ## Descriptors -/

theorem TypeUse.descriptor_ofJvm (t : JvmType) : (ofJvm t).descriptor = t.descriptor := by
  rw [TypeUse.descriptor, toJvm_ofJvm]

theorem toList_join_descriptor (ts : List JvmType) :
    (String.join (ts.map fun t => (TypeUse.ofJvm t).descriptor)).toList =
      ts.flatMap JvmType.descriptorChars := by
  induction ts with
  | nil => rfl
  | cons t ts ih =>
    rw [List.map_cons, String.join_cons, String.toList_append, ih, List.flatMap_cons,
      TypeUse.descriptor_ofJvm, JvmType.descriptor, String.toList_ofList]

/-- A signature is written as its types are, the parameters between parentheses. -/
theorem Signature.descriptor_eq_join (s : Signature) : s.descriptor =
    "(" ++ String.join (s.parameters.map fun t => (TypeUse.ofJvm t).descriptor) ++ ")" ++
      (TypeUse.ofJvm s.result).descriptor := by
  apply String.toList_inj.mp
  rw [String.toList_append, String.toList_append, String.toList_append, toList_join_descriptor,
    TypeUse.descriptor_ofJvm, JvmType.descriptor, String.toList_ofList, Signature.descriptor,
    String.toList_ofList, Signature.descriptorChars]
  simp

/-! ## Parameters -/

/-- The parameter at an index has a slot that no name is recorded for. -/
def MethodInfo.Unnamed (m : MethodInfo) (names : LocalNames) (index : Nat) : Prop :=
  ∃ slot, m.slot? index = some slot ∧ names.get? slot = none

/-- Parameters with the types of a method, each with the name recorded for its slot. -/
structure MethodInfo.Names (m : MethodInfo) (names : LocalNames) (ps : List Parameter) :
    Prop where
  types : ps.map Parameter.type = m.signature.parameters.map TypeUse.ofJvm
  names : List.Forall₂ (fun slot p => names.get? slot = some p.name) m.slots ps

/-- Items that are matched have matches at their indexes. -/
theorem exists_getElem?_of_forall₂ {α β : Type} {R : α → β → Prop} {xs : List α} {ys : List β}
    (h : List.Forall₂ R xs ys) {i : Nat} {y : β} (hy : ys[i]? = some y) :
    ∃ x, xs[i]? = some x ∧ R x y := by
  induction h generalizing i with
  | nil => cases hy
  | cons hxy _ ih =>
    cases i with
    | zero =>
      cases hy
      exact ⟨_, rfl, hxy⟩
    | succ i => exact ih hy

theorem map_zipWith_parameter {ns : List String} {us : List TypeUse}
    (hlen : ns.length = us.length) :
    (List.zipWith Parameter.mk ns us).map Parameter.name = ns ∧
      (List.zipWith Parameter.mk ns us).map Parameter.type = us := by
  induction ns generalizing us with
  | nil => exact ⟨rfl, (List.length_eq_zero_iff.mp hlen.symm).symm⟩
  | cons n ns ih =>
    cases us with
    | nil => cases hlen
    | cons u us =>
      obtain ⟨hnames, htypes⟩ := ih (Nat.succ.inj hlen)
      rw [List.zipWith_cons_cons, List.map_cons, List.map_cons, hnames, htypes]
      exact ⟨rfl, rfl⟩

theorem MethodInfo.names_zipWith {m : MethodInfo} {names : LocalNames} {ns : List String}
    (h : List.Forall₂ (fun slot n => names.get? slot = some n) m.slots ns) :
    m.Names names (List.zipWith Parameter.mk ns (m.signature.parameters.map TypeUse.ofJvm)) := by
  have hlen : ns.length = (m.signature.parameters.map TypeUse.ofJvm).length := by
    rw [← h.length_eq, List.length_map]
    exact FunctionDefinition.length_slotsFrom _ _
  obtain ⟨hnames, htypes⟩ := map_zipWith_parameter hlen
  refine ⟨htypes, ?_⟩
  rw [← hnames, List.forall₂_map_right_iff] at h
  exact h

namespace FunctionDefinition

/-- How the parameters of a method come out: without a debug table, up to the first
parameter without a name, or all of them. -/
inductive Collected (m : MethodInfo) : Except DebugGap (List Parameter) → Prop where
  | noTable (hlocals : m.locals = none) : Collected m (.error (.noTable m.name))
  | noName {names : LocalNames} {index : Nat} (hlocals : m.locals = some names)
    (hindex : m.Unnamed names index) (hfirst : ∀ j < index, ¬ m.Unnamed names j) :
    Collected m (.error (.noName index))
  | named {names : LocalNames} {ps : List Parameter} (hlocals : m.locals = some names)
    (hall : ∀ index, ¬ m.Unnamed names index) (hps : m.Names names ps) : Collected m (.ok ps)

theorem mapM_parameter_eq_error {names : LocalNames} {slots : List UInt16} {ts : List JvmType}
    (hlen : slots.length = ts.length) {index : Nat} {slot : UInt16}
    (hindex : slots[index]? = some slot) (hslot : names.get? slot = none)
    (hfirst : ∀ j < index, ∀ u, slots[j]? = some u → names.get? u ≠ none) (k : Nat) :
    ((slots.zip ts).zipIdx k).mapM
        (fun ((slot, t), index) => parameter names index slot t) =
      .error (.noName (k + index)) := by
  induction slots generalizing ts index k with
  | nil => cases hindex
  | cons u slots ih =>
    cases ts with
    | nil => cases hlen
    | cons t ts =>
      rw [List.zip_cons_cons, List.zipIdx_cons, List.mapM_cons]
      show (do
        let p ← parameter names k u t
        let ps ← ((slots.zip ts).zipIdx (k + 1)).mapM
          (fun ((slot, t), index) => parameter names index slot t)
        pure (p :: ps)) = _
      cases index with
      | zero =>
        cases hindex
        unfold parameter
        rw [hslot]
        rfl
      | succ index =>
        obtain ⟨n, hn⟩ := Option.ne_none_iff_exists'.mp (hfirst 0 (Nat.succ_pos index) u rfl)
        have hparam : parameter names k u t = .ok ⟨n, .ofJvm t⟩ := by
          unfold parameter
          rw [hn]
        have htail := ih (Nat.succ.inj hlen) hindex
          (fun j hj => hfirst (j + 1) (Nat.succ_lt_succ hj)) (k + 1)
        rw [hparam, htail, Nat.add_right_comm, Nat.add_assoc]
        rfl

/-- The first parameter without a name is the one reported. -/
theorem parametersOf_eq_noName {m : MethodInfo} {names : LocalNames} {index : Nat}
    (hlocals : m.locals = some names) (hindex : m.Unnamed names index)
    (hfirst : ∀ j < index, ¬ m.Unnamed names j) :
    parametersOf m = .error (.noName index) := by
  obtain ⟨slot, hslot, hnone⟩ := hindex
  rw [← m.getElem?_slots] at hslot
  have herror := mapM_parameter_eq_error (length_slotsFrom _ _) hslot hnone
    (fun j hj u hu hnone => hfirst j hj ⟨u, (m.getElem?_slots j).symm.trans hu, hnone⟩) 0
  unfold parametersOf
  rw [hlocals]
  rw [Nat.zero_add] at herror
  exact herror

theorem exists_names {m : MethodInfo} {names : LocalNames}
    (hall : ∀ index, ¬ m.Unnamed names index) :
    ∃ ns, List.Forall₂ (fun slot n => names.get? slot = some n) m.slots ns := by
  refine ClassFormat.exists_forall₂ fun slot hslot => ?_
  obtain ⟨index, hindex⟩ := List.mem_iff_getElem?.mp hslot
  rw [m.getElem?_slots] at hindex
  exact Option.ne_none_iff_exists'.mp fun hnone => hall index ⟨slot, hindex, hnone⟩

/-- Every method's parameters come out in one of the three ways. -/
theorem collected_parametersOf (m : MethodInfo) : Collected m (parametersOf m) := by
  cases hlocals : m.locals with
  | none =>
    have herror : parametersOf m = .error (.noTable m.name) := by
      unfold parametersOf
      rw [hlocals]
      rfl
    rw [herror]
    exact .noTable hlocals
  | some names =>
    by_cases hall : ∀ index, ¬ m.Unnamed names index
    · obtain ⟨ns, hns⟩ := exists_names hall
      rw [parametersOf_eq_ok hlocals hns]
      exact .named hlocals hall (MethodInfo.names_zipWith hns)
    · classical
      have hex : ∃ index, m.Unnamed names index := not_forall_not.mp hall
      have hfirst : ∀ j < Nat.find hex, ¬ m.Unnamed names j := fun j => Nat.find_min hex
      rw [parametersOf_eq_noName hlocals (Nat.find_spec hex) hfirst]
      exact .noName hlocals (Nat.find_spec hex) hfirst

end FunctionDefinition

/-! ## Lookups -/

/-- A class whose only declared method has the name agreed on. -/
def ClassInfo.Declares (c : ClassInfo) (invokeName : String) (m : MethodInfo) : Prop :=
  c.methods = [m] ∧ m.name = invokeName

namespace FunctionDefinition

variable {invokeName name : String} {c : ClassInfo} {m : MethodInfo}

/-- The parameters decide what becomes of a class that declares the method. -/
theorem ofClass_of_declares (h : c.Declares invokeName m) : ofClass invokeName name c =
    match parametersOf m with
    | .error gap => .error (.debug gap)
    | .ok ps => .ok ⟨name, .ofJvm m.signature.result, ps, c.methodRef m⟩ := by
  obtain ⟨hmethods, hname⟩ := h
  unfold ofClass
  rw [hmethods]
  dsimp only
  rw [if_neg (not_not.mpr hname)]
  cases parametersOf m <;> rfl

/-- A class that does not declare the method has the wrong shape. -/
theorem exists_ofClass_eq_shape (name : String) (h : ∀ m, ¬ c.Declares invokeName m) :
    ∃ fault, ofClass invokeName name c = .error (.shape fault) := by
  unfold ofClass
  split
  · next m hmethods =>
    have hname : m.name ≠ invokeName := fun hname => h m ⟨hmethods, hname⟩
    rw [if_pos hname]
    exact ⟨_, rfl⟩
  · exact ⟨_, rfl⟩

end FunctionDefinition

namespace Lookup

variable {l : Lookup} {name : String} {c : ClassInfo} {m : MethodInfo}

theorem function_of_declares (hclass : l.functionClass name = .ok (some c))
    (hm : c.Declares l.settings.invokeName m) : l.function name =
      match FunctionDefinition.parametersOf m with
      | .error gap => .error (.missingNames name gap)
      | .ok ps => .ok (some ⟨name, .ofJvm m.signature.result, ps, c.methodRef m⟩) := by
  unfold function
  rw [hclass]
  dsimp only
  rw [FunctionDefinition.ofClass_of_declares hm]
  cases FunctionDefinition.parametersOf m <;> rfl

theorem exists_shape_of_not_declares (hclass : l.functionClass name = .ok (some c))
    (h : ∀ m, ¬ c.Declares l.settings.invokeName m) :
    ∃ fault, l.function name = .error (.unsupportedShape name fault) := by
  obtain ⟨fault, hfault⟩ := FunctionDefinition.exists_ofClass_eq_shape name h
  refine ⟨fault, ?_⟩
  unfold function
  rw [hclass]
  dsimp only
  rw [hfault]
  rfl

end Lookup

/-- The definition of a function from the method that a call runs: its parameters, named
from the slots they have, its result, and the descriptor they make. -/
structure FunctionDefinition.IsOf (definition : FunctionDefinition) (name : String)
    (m : MethodInfo) (names : LocalNames) : Prop where
  name : definition.name = name
  length : definition.parameters.length = m.signature.parameters.length
  parameters : ∀ i p, definition.parameters[i]? = some p → ∃ slot t,
    m.slot? i = some slot ∧ m.signature.parameters[i]? = some t ∧
    names.get? slot = some p.name ∧ p.type = .ofJvm t
  result : definition.result = .ofJvm m.signature.result
  descriptor : definition.invocation.descriptor =
    "(" ++ String.join (definition.parameters.map fun p => p.type.descriptor) ++ ")" ++
      definition.result.descriptor

theorem MethodInfo.Names.isOf {m : MethodInfo} {names : LocalNames} {ps : List Parameter}
    (h : m.Names names ps) (c : ClassInfo) (name : String) :
    FunctionDefinition.IsOf ⟨name, .ofJvm m.signature.result, ps, c.methodRef m⟩ name m names where
  name := rfl
  length := by simpa using congrArg List.length h.types
  parameters := by
    intro i p hp
    obtain ⟨slot, hslot, hname⟩ := exists_getElem?_of_forall₂ h.names hp
    have htype : (ps.map Parameter.type)[i]? = some p.type := by
      rw [List.getElem?_map, hp]
      rfl
    rw [h.types, List.getElem?_map] at htype
    obtain ⟨t, ht, htype⟩ := Option.map_eq_some_iff.mp htype
    exact ⟨slot, t, (m.getElem?_slots i).symm.trans hslot, ht, hname, htype.symm⟩
  result := rfl
  descriptor := by
    have htypes : ps.map (fun p => p.type.descriptor) =
        m.signature.parameters.map fun t => (TypeUse.ofJvm t).descriptor := by
      have hmap := congrArg (List.map TypeUse.descriptor) h.types
      rwa [List.map_map, List.map_map] at hmap
    show m.signature.descriptor = _
    rw [htypes]
    exact m.signature.descriptor_eq_join

/-- What a class that was loaded for a function leads to: a fault of its shape unless it
declares the method agreed on and no other, then a gap in the names of the parameters if
there is one, the first one being reported, and otherwise the definition. -/
theorem Lookup.function_outcome {l : Lookup} {name : String} {c : ClassInfo}
    (hname : l.index.functions.contains name = true)
    (hload : l.loader name (l.index.functionView l.files name) = .ok c) :
    ((∃ fault, l.function name = .error (.unsupportedShape name fault)) ↔
      ∀ m, ¬ c.Declares l.settings.invokeName m) ∧
    ∀ m, c.Declares l.settings.invokeName m →
      ((∃ gap, l.function name = .error (.missingNames name gap)) ↔
        m.locals = none ∨ ∃ names index, m.locals = some names ∧ m.Unnamed names index) ∧
      (l.function name = .error (.missingNames name (.noTable m.name)) ↔ m.locals = none) ∧
      (∀ index, l.function name = .error (.missingNames name (.noName index)) ↔
        ∃ names, m.locals = some names ∧ m.Unnamed names index ∧
          ∀ j < index, ¬ m.Unnamed names j) ∧
      (∀ index, (DebugGap.noName index).message =
        "no local variable name for parameter " ++ toString index) ∧
      ∀ names, m.locals = some names → (∀ index, ¬ m.Unnamed names index) →
        ∃ definition, l.function name = .ok (some definition) ∧ definition.IsOf name m names := by
  have hclass : l.functionClass name = .ok (some c) := by
    unfold functionClass
    rw [if_pos hname, hload]
    rfl
  constructor
  · constructor
    · intro hshape m hm
      obtain ⟨fault, hfault⟩ := hshape
      rw [function_of_declares hclass hm] at hfault
      cases hps : FunctionDefinition.parametersOf m <;> rw [hps] at hfault <;> cases hfault
    · exact exists_shape_of_not_declares hclass
  · intro m hm
    rw [function_of_declares hclass hm]
    have hcollected := FunctionDefinition.collected_parametersOf m
    generalize FunctionDefinition.parametersOf m = r at hcollected
    cases hcollected with
    | noTable hlocals =>
      rw [hlocals]
      refine ⟨iff_of_true ⟨_, rfl⟩ (.inl rfl), iff_of_true rfl rfl, fun index => ?_,
        fun _ => rfl, nofun⟩
      exact iff_of_false nofun nofun
    | @noName names index hlocals hindex hfirst =>
      rw [hlocals]
      refine ⟨iff_of_true ⟨_, rfl⟩ (.inr ⟨names, index, rfl, hindex⟩), iff_of_false nofun nofun,
        fun i => ⟨?_, ?_⟩, fun _ => rfl, ?_⟩
      · intro h
        cases h
        exact ⟨names, rfl, hindex, hfirst⟩
      · intro h
        obtain ⟨names', hnames, hi, hfirst'⟩ := h
        cases hnames
        have hle : ¬ i < index := fun hlt => hfirst i hlt hi
        have hge : ¬ index < i := fun hlt => hfirst' index hlt hindex
        rw [show i = index by omega]
      · intro names' hnames hall
        cases hnames
        exact absurd hindex (hall index)
    | @named names ps hlocals hall hps =>
      rw [hlocals]
      refine ⟨iff_of_false nofun ?_, iff_of_false nofun nofun, fun i => iff_of_false nofun ?_,
        fun _ => rfl, ?_⟩
      · intro h
        rcases h with h | ⟨names', index, hnames, hindex⟩
        · cases h
        · cases hnames
          exact hall index hindex
      · intro h
        obtain ⟨names', hnames, hindex, -⟩ := h
        cases hnames
        exact hall i hindex
      · intro names' hnames _
        cases hnames
        exact ⟨_, rfl, hps.isOf c name⟩

/-- A function of two parameters, the first of which takes two slots. -/
def sumMethod (names : LocalNames) : MethodInfo where
  name := "invoke"
  access := ⟨0x0009⟩
  signature := ⟨[.primitive .long, .array (.primitive .int)], .primitive .void⟩
  locals := some names

/-- A lookup that is handed a class with the function and a constructor. -/
def sumLookup (names : LocalNames) : Lookup where
  index := { Index.empty with functions := Table.empty.add "demo.sum" (.memory "sum" []) }
  files := default
  settings := {}
  loader := fun _ _ => .ok {
    name := "demo.Function_sum"
    access := ⟨0x0031⟩
    superName := none
    interfaces := []
    fields := []
    methods := [sumMethod names]
    constructors := [⟨"<init>", ⟨0x0001⟩, ⟨[.primitive .int], .primitive .void⟩, none⟩] }

theorem slots_sumMethod (names : LocalNames) : (sumMethod names).slots = [0, 2] := by
  have hslots : MethodInfo.slotsFrom (if Access.isStatic ⟨0x0009⟩ then 0 else 1)
      [.primitive .long, .array (.primitive .int)] = [0, 2] := by decide
  exact hslots

/-- With a name at slot 1 but none at slot 2 it is the second parameter that is missed, and
with names at slots 0 and 2 there is a definition. -/
theorem function_outcome_sum :
    (sumLookup (.ofList [(0, "n"), (1, "ks")])).function "demo.sum" =
      .error (.missingNames "demo.sum" (.noName 1)) ∧
    ∃ definition, (sumLookup (.ofList [(2, "ks"), (0, "n")])).function "demo.sum" =
        .ok (some definition) ∧
      definition.IsOf "demo.sum" (sumMethod (.ofList [(2, "ks"), (0, "n")]))
        (.ofList [(2, "ks"), (0, "n")]) := by
  have hname (names : LocalNames) :
      (sumLookup names).index.functions.contains "demo.sum" = true :=
    congrArg Option.isSome (Table.get?_add_empty _ _)
  have hunnamed (names : LocalNames) (index : Nat) : (sumMethod names).Unnamed names index ↔
      ∃ slot, [(0 : UInt16), 2][index]? = some slot ∧ names.get? slot = none := by
    unfold MethodInfo.Unnamed
    simp only [← MethodInfo.getElem?_slots, slots_sumMethod]
  constructor
  · obtain ⟨-, hall⟩ := Lookup.function_outcome (hname (.ofList [(0, "n"), (1, "ks")])) rfl
    obtain ⟨-, -, hgap, -⟩ := hall _ ⟨rfl, rfl⟩
    refine (hgap 1).mpr ⟨_, rfl, (hunnamed _ 1).mpr ⟨2, rfl, ?_⟩, ?_⟩
    · rw [Table.get?_ofList]
      rfl
    · intro j hj h
      obtain rfl : j = 0 := by omega
      obtain ⟨slot, hslot, hnone⟩ := (hunnamed _ 0).mp h
      cases hslot
      rw [Table.get?_ofList] at hnone
      cases hnone
  · obtain ⟨-, hall⟩ := Lookup.function_outcome (hname (.ofList [(2, "ks"), (0, "n")])) rfl
    obtain ⟨-, -, -, -, hdefined⟩ := hall _ ⟨rfl, rfl⟩
    refine hdefined _ rfl fun index h => ?_
    obtain ⟨slot, hslot, hnone⟩ := (hunnamed _ index).mp h
    rw [Table.get?_ofList] at hnone
    rcases index with _ | _ | index
    · cases hslot
      cases hnone
    · cases hslot
      cases hnone
    · cases hslot

end ClassIndex

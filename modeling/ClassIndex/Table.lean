/-
Finite tables in which the first entry of a key stays.

A table is a search tree on its keys, so that large ones stay quick, but all that
can be told of it is which keys it has and what they lead to: two tables that
answer `get?` alike are equal (`ext`).  `add` leaves a key that is present alone.
The statements below describe each operation through `get?`, and no later module
looks at the tree.
-/
import Std.Data.ExtTreeMap

namespace ClassIndex

structure Table (κ α : Type) [Ord κ] where
  map : Std.ExtTreeMap κ α

namespace Table

variable {κ α : Type} [Ord κ]

def empty : Table κ α :=
  ⟨∅⟩

instance : Inhabited (Table κ α) := ⟨empty⟩

def size (t : Table κ α) : Nat :=
  t.map.size

@[simp] theorem size_empty : (empty : Table κ α).size = 0 :=
  Std.ExtTreeMap.size_empty

section Lookup

variable [Std.TransOrd κ]

def get? (t : Table κ α) (k : κ) : Option α :=
  t.map[k]?

def contains (t : Table κ α) (k : κ) : Bool :=
  (t.get? k).isSome

/-- Records an entry unless its key has one. -/
def add (t : Table κ α) (k : κ) (a : α) : Table κ α :=
  ⟨t.map.insertIfNew k a⟩

/-- Records a list of entries from left to right. -/
def addAll (t : Table κ α) (es : List (κ × α)) : Table κ α :=
  es.foldl (fun t e => t.add e.1 e.2) t

/-- A table that holds exactly the first entry of each key of a list. -/
def ofList (es : List (κ × α)) : Table κ α :=
  empty.addAll es

/-- The entries by increasing key. -/
def toList (t : Table κ α) : List (κ × α) :=
  t.map.toList

/-- The keys in increasing order. -/
def keys (t : Table κ α) : List κ :=
  t.map.keys

@[simp] theorem get?_empty (k : κ) : (empty : Table κ α).get? k = none :=
  Std.ExtTreeMap.getElem?_empty

@[simp] theorem addAll_nil (t : Table κ α) : t.addAll [] = t := rfl

@[simp] theorem addAll_cons (t : Table κ α) (e : κ × α) (es : List (κ × α)) :
    t.addAll (e :: es) = (t.add e.1 e.2).addAll es := rfl

@[simp] theorem contains_empty (k : κ) : (empty : Table κ α).contains k = false := by
  simp [contains]

theorem contains_eq_isSome (t : Table κ α) (k : κ) : t.contains k = (t.get? k).isSome := rfl

/-- A new key makes the table larger by one. -/
theorem size_add {t : Table κ α} {k : κ} (h : t.contains k = false) (a : α) :
    (t.add k a).size = t.size + 1 := by
  have hk : k ∉ t.map := by
    rw [Std.ExtTreeMap.mem_iff_isSome_getElem?]
    exact Bool.eq_false_iff.mp h
  show (t.map.insertIfNew k a).size = _
  rw [Std.ExtTreeMap.size_insertIfNew, if_neg hk]
  rfl

theorem length_keys (t : Table κ α) : t.keys.length = t.size :=
  Std.ExtTreeMap.length_keys

variable [Std.LawfulEqOrd κ]

/-- A table is what it answers. -/
theorem ext {t u : Table κ α} (h : ∀ k, t.get? k = u.get? k) : t = u := by
  cases t
  cases u
  congr
  exact Std.ExtTreeMap.ext_getElem? h

/-- The entries listed are those that are found. -/
theorem mem_toList_iff {t : Table κ α} {k : κ} {a : α} :
    (k, a) ∈ t.toList ↔ t.get? k = some a :=
  Std.ExtTreeMap.mem_toList_iff_getElem?_eq_some

theorem mem_keys_iff {t : Table κ α} {k : κ} : k ∈ t.keys ↔ t.contains k = true := by
  show k ∈ t.map.keys ↔ (t.map[k]?).isSome = true
  rw [Std.ExtTreeMap.mem_keys, Std.ExtTreeMap.mem_iff_isSome_getElem?]

/-- Tables with the same keys list them alike, whatever they lead to. -/
theorem keys_eq_keys {β : Type} {t : Table κ α} {u : Table κ β}
    (h : ∀ k, t.contains k = u.contains k) : t.keys = u.keys := by
  have hmap : (t.map.map fun _ _ => ()) = u.map.map fun _ _ => () := by
    apply Std.ExtTreeMap.ext_getElem?
    intro k
    rw [Std.ExtTreeMap.getElem?_map, Std.ExtTreeMap.getElem?_map]
    have hk : (t.map[k]?).isSome = (u.map[k]?).isSome := h k
    cases ht : t.map[k]? <;> cases hu : u.map[k]? <;> simp_all
  have hkeys := congrArg Std.ExtTreeMap.keys hmap
  rwa [Std.ExtTreeMap.keys_map, Std.ExtTreeMap.keys_map] at hkeys

variable [DecidableEq κ]

theorem get?_add (t : Table κ α) (k : κ) (a : α) (k' : κ) :
    (t.add k a).get? k' = (t.get? k').or (if k' = k then some a else none) := by
  show (t.map.insertIfNew k a)[k']? = (t.map[k']?).or _
  rw [Std.ExtTreeMap.getElem?_insertIfNew]
  by_cases hk : k' = k
  · subst hk
    by_cases hm : k' ∈ t.map <;> simp [hm]
  · simp [hk, Ne.symm hk, Std.LawfulEqCmp.compare_eq_iff_eq]

theorem contains_add (t : Table κ α) (k : κ) (a : α) (k' : κ) :
    (t.add k a).contains k' = (t.contains k' || decide (k' = k)) := by
  unfold contains
  rw [get?_add]
  by_cases hk : k' = k <;> simp [hk]

/-- A key added in a list has the entry the table had, or else the first of the
list. -/
theorem get?_addAll (t : Table κ α) (es : List (κ × α)) (k : κ) :
    (t.addAll es).get? k = (t.get? k).or (es.lookup k) := by
  induction es generalizing t with
  | nil => simp
  | cons e rest ih =>
    rw [addAll_cons, ih, get?_add, List.lookup_cons]
    by_cases hk : k = e.1
    · cases t.get? k <;> simp [hk]
    · simp [hk, beq_eq_false_iff_ne.mpr hk]

theorem contains_addAll (t : Table κ α) (es : List (κ × α)) (k : κ) :
    (t.addAll es).contains k = (t.contains k || decide (k ∈ es.map Prod.fst)) := by
  induction es generalizing t with
  | nil => simp
  | cons e rest ih =>
    rw [addAll_cons, ih, contains_add, Bool.or_assoc]
    congr 1
    simp only [List.map_cons, List.mem_cons, Bool.decide_or]

@[simp] theorem get?_ofList (es : List (κ × α)) (k : κ) :
    (ofList es).get? k = es.lookup k := by
  simp [ofList, get?_addAll]

end Lookup

end Table
end ClassIndex

/-
The frame of a call, shared out among its parameters.

The receiver, if there is one, and the parameters take the slots of a frame one after the
other, from slot 0 on.  Slots are words, and sums of words wrap around.  In a frame of at
most 65535 slots no sum does, whether the widths of the parameters are added up first and
the receiver put in front of them, or all are added up from the receiver on
(`slot?_eq_some_iff`, `sum?_widthsBefore`).  The slot of a parameter is then the number of
slots before it, so that every slot after the receiver is held by one parameter.

`slots_tile` says so for every method.  Two parameters never have one slot, so each of them
is named by an entry of its own in the debug names, whatever these are.
-/
import ClassIndex.Proofs.Lookup.Outcomes

namespace ClassIndex

/-! ## Sums of words -/

namespace Word

/-- The sum of two words, unless it is too large for a word. -/
def add? (a b : UInt16) : Option UInt16 :=
  if a.toNat + b.toNat < UInt16.size then some (a + b) else none

/-- Words added up from the left, unless a sum on the way is too large for a word. -/
def sum? (ws : List UInt16) : Option UInt16 :=
  ws.foldlM add? 0

theorem add?_eq_some_iff {a b c : UInt16} : add? a b = some c ↔ c.toNat = a.toNat + b.toNat := by
  unfold add?
  by_cases h : a.toNat + b.toNat < UInt16.size
  · rw [if_pos h, Option.some_inj, ← UInt16.toNat_inj, UInt16.toNat_add, Nat.mod_eq_of_lt h]
    exact eq_comm
  · rw [if_neg h]
    refine iff_of_false nofun fun hc => h ?_
    rw [← hc]
    exact c.toNat_lt

theorem foldlM_add?_eq_some_iff {a c : UInt16} {ws : List UInt16} :
    ws.foldlM add? a = some c ↔ c.toNat = a.toNat + (ws.map UInt16.toNat).sum := by
  induction ws generalizing a with
  | nil =>
    rw [List.foldlM_nil, Option.pure_def, Option.some_inj, ← UInt16.toNat_inj]
    exact eq_comm
  | cons w ws ih =>
    rw [List.foldlM_cons, Option.bind_eq_bind, Option.bind_eq_some_iff, List.map_cons, List.sum_cons]
    simp only [add?_eq_some_iff, ih]
    constructor
    · intro h
      obtain ⟨b, hb, hc⟩ := h
      omega
    · intro hc
      -- the sum so far is at most the sum of all, which is a word
      have hlt : a.toNat + w.toNat < UInt16.size := by
        have hword := c.toNat_lt
        simp only [UInt16.size]
        omega
      refine ⟨UInt16.ofNat (a.toNat + w.toNat), UInt16.toNat_ofNat_of_lt' hlt, ?_⟩
      rw [UInt16.toNat_ofNat_of_lt' hlt, hc, Nat.add_assoc]

/-- Words have a sum exactly if it is a word itself. -/
theorem sum?_eq_some_iff {c : UInt16} {ws : List UInt16} :
    sum? ws = some c ↔ c.toNat = (ws.map UInt16.toNat).sum := by
  rw [sum?, foldlM_add?_eq_some_iff, UInt16.toNat_zero, Nat.zero_add]

end Word

/-! ## Widths of parameters -/

namespace JvmType

/-- Slots that values take together. -/
def totalWidth (ts : List JvmType) : Nat :=
  (ts.map fun t => t.width.toNat).sum

@[simp] theorem totalWidth_nil : totalWidth [] = 0 := rfl

@[simp] theorem totalWidth_cons (t : JvmType) (ts : List JvmType) :
    totalWidth (t :: ts) = t.width.toNat + totalWidth ts := rfl

theorem totalWidth_append (ts us : List JvmType) :
    totalWidth (ts ++ us) = totalWidth ts + totalWidth us := by
  rw [totalWidth, List.map_append, List.sum_append]
  rfl

theorem sum_map_width (ts : List JvmType) :
    ((ts.map width).map UInt16.toNat).sum = totalWidth ts := by
  rw [List.map_map]
  rfl

theorem totalWidth_take_succ {ts : List JvmType} {index : Nat} {t : JvmType}
    (h : ts[index]? = some t) :
    totalWidth (ts.take (index + 1)) = totalWidth (ts.take index) + t.width.toNat := by
  rw [List.take_add_one, h, totalWidth_append]
  rfl

theorem totalWidth_take_mono (ts : List JvmType) {i j : Nat} (h : i ≤ j) :
    totalWidth (ts.take i) ≤ totalWidth (ts.take j) := by
  obtain ⟨k, rfl⟩ := Nat.exists_eq_add_of_le h
  rw [List.take_add, totalWidth_append]
  exact Nat.le_add_right _ _

theorem totalWidth_take_le (ts : List JvmType) (index : Nat) :
    totalWidth (ts.take index) ≤ totalWidth ts := by
  have hmono := totalWidth_take_mono ts (Nat.le_max_left index ts.length)
  rwa [List.take_of_length_le (Nat.le_max_right index ts.length)] at hmono

/-- Values one after the other leave no gap. -/
theorem exists_around {start offset : Nat} {ts : List JvmType} (hstart : start ≤ offset)
    (hend : offset < start + totalWidth ts) : ∃ index t, ts[index]? = some t ∧
      start + totalWidth (ts.take index) ≤ offset ∧
      offset < start + totalWidth (ts.take index) + t.width.toNat := by
  induction ts generalizing start with
  | nil => exact absurd hend (Nat.not_lt.mpr hstart)
  | cons t ts ih =>
    by_cases hfirst : offset < start + t.width.toNat
    · exact ⟨0, t, rfl, hstart, hfirst⟩
    · rw [totalWidth_cons, ← Nat.add_assoc] at hend
      obtain ⟨index, u, hu, hle, hlt⟩ := ih (Nat.not_lt.mp hfirst) hend
      refine ⟨index + 1, u, hu, ?_, ?_⟩ <;> rw [List.take_succ_cons, totalWidth_cons] <;> omega

end JvmType

/-! ## Slots -/

namespace MethodInfo

open JvmType

variable {m : MethodInfo} {index i j : Nat} {slot later : UInt16} {t : JvmType}

/-- The widths of the parameters before an index. -/
def widthsBefore (m : MethodInfo) (index : Nat) : List UInt16 :=
  (m.signature.parameters.take index).map JvmType.width

/-- The slots that a call takes, for the receiver and all parameters. -/
def frameSize (m : MethodInfo) : Nat :=
  m.receiverWidth.toNat + totalWidth m.signature.parameters

/-- A slot of the frame is one of those that the parameter at an index takes. -/
def Holds (m : MethodInfo) (index offset : Nat) : Prop :=
  ∃ slot t, m.slot? index = some slot ∧ m.signature.parameters[index]? = some t ∧
    slot.toNat ≤ offset ∧ offset < slot.toNat + t.width.toNat

theorem slotFrom?_eq_none_iff {start : UInt16} {ts : List JvmType} :
    slotFrom? start ts index = none ↔ ts.length ≤ index := by
  rw [← getElem?_slotsFrom, List.getElem?_eq_none_iff, FunctionDefinition.length_slotsFrom]

theorem slot?_eq_none_iff : m.slot? index = none ↔ m.signature.parameters.length ≤ index :=
  slotFrom?_eq_none_iff

theorem exists_slot?_iff :
    (∃ slot, m.slot? index = some slot) ↔ index < m.signature.parameters.length := by
  rw [← Option.ne_none_iff_exists', Ne, slot?_eq_none_iff, Nat.not_le]

theorem toNat_of_slotFrom? {start : UInt16} {ts : List JvmType}
    (h : start.toNat + totalWidth ts < UInt16.size) (hslot : slotFrom? start ts index = some slot) :
    slot.toNat = start.toNat + totalWidth (ts.take index) := by
  induction ts generalizing start index with
  | nil => cases hslot
  | cons t ts ih =>
    cases index with
    | zero =>
      cases hslot
      rfl
    | succ index =>
      rw [totalWidth_cons, ← Nat.add_assoc] at h
      have hnext : (start + t.width).toNat = start.toNat + t.width.toNat := by
        rw [UInt16.toNat_add]
        exact Nat.mod_eq_of_lt (Nat.lt_of_le_of_lt (Nat.le_add_right _ _) h)
      rw [ih (hnext ▸ h) hslot, hnext, List.take_succ_cons, totalWidth_cons, Nat.add_assoc]

/-- The slot of a parameter is the number of slots before it. -/
theorem slot?_eq_some_iff (h : m.frameSize ≤ 65535) : m.slot? index = some slot ↔
    index < m.signature.parameters.length ∧
      slot.toNat = m.receiverWidth.toNat + totalWidth (m.signature.parameters.take index) := by
  have hvalue : ∀ slot, m.slot? index = some slot →
      slot.toNat = m.receiverWidth.toNat + totalWidth (m.signature.parameters.take index) :=
    fun slot hslot => toNat_of_slotFrom? (Nat.lt_succ_of_le h) hslot
  constructor
  · intro hslot
    exact ⟨exists_slot?_iff.mp ⟨slot, hslot⟩, hvalue slot hslot⟩
  · intro hboth
    obtain ⟨hindex, hslot⟩ := hboth
    obtain ⟨slot', hslot'⟩ := exists_slot?_iff.mpr hindex
    rw [hslot', UInt16.toNat_inj.mp ((hvalue slot' hslot').trans hslot.symm)]

/-- No sum on the way to a slot is too large for a word, in whatever order the receiver and
the widths before the parameter are added up. -/
theorem sum?_widthsBefore (h : m.frameSize ≤ 65535) (hslot : m.slot? index = some slot) :
    Word.sum? (m.receiverWidth :: m.widthsBefore index) = some slot ∧
      (Word.sum? (m.widthsBefore index)).bind (Word.add? m.receiverWidth) = some slot := by
  have hvalue := ((slot?_eq_some_iff h).mp hslot).2
  constructor
  · rw [Word.sum?_eq_some_iff, List.map_cons, List.sum_cons, widthsBefore, sum_map_width, hvalue]
  · have hword : totalWidth (m.signature.parameters.take index) < UInt16.size := by
      have hlt := slot.toNat_lt
      simp only [UInt16.size]
      omega
    rw [Option.bind_eq_some_iff]
    refine ⟨UInt16.ofNat (totalWidth (m.signature.parameters.take index)), ?_, ?_⟩
    · rw [Word.sum?_eq_some_iff, widthsBefore, sum_map_width, UInt16.toNat_ofNat_of_lt' hword]
    · rw [Word.add?_eq_some_iff, UInt16.toNat_ofNat_of_lt' hword, hvalue]

theorem slot?_zero (hslot : m.slot? 0 = some slot) : slot = if m.isStatic then 0 else 1 := by
  rw [slot?] at hslot
  cases hts : m.signature.parameters with
  | nil =>
    rw [hts] at hslot
    cases hslot
  | cons t ts =>
    rw [hts] at hslot
    cases hslot
    rfl

/-- A parameter ends where the next one starts, and the last one where the frame does. -/
theorem slot_add_width (h : m.frameSize ≤ 65535) (hslot : m.slot? index = some slot)
    (ht : m.signature.parameters[index]? = some t) :
    (∀ next, m.slot? (index + 1) = some next → slot.toNat + t.width.toNat = next.toNat) ∧
      (m.slot? (index + 1) = none → slot.toNat + t.width.toNat = m.frameSize) := by
  have hvalue := ((slot?_eq_some_iff h).mp hslot).2
  have hsucc := totalWidth_take_succ ht
  constructor
  · intro next hnext
    rw [((slot?_eq_some_iff h).mp hnext).2, hsucc, hvalue, Nat.add_assoc]
  · intro hnone
    rw [List.take_of_length_le (slot?_eq_none_iff.mp hnone)] at hsucc
    rw [frameSize, hsucc, hvalue, Nat.add_assoc]

/-- A parameter ends before the later ones start. -/
theorem slot_add_width_le (h : m.frameSize ≤ 65535) (hij : i < j) (hslot : m.slot? i = some slot)
    (ht : m.signature.parameters[i]? = some t) (hlater : m.slot? j = some later) :
    slot.toNat + t.width.toNat ≤ later.toNat := by
  have hmono := totalWidth_take_mono m.signature.parameters (Nat.succ_le_of_lt hij)
  rw [totalWidth_take_succ ht] at hmono
  rw [((slot?_eq_some_iff h).mp hslot).2, ((slot?_eq_some_iff h).mp hlater).2]
  omega

theorem exists_parameter (hslot : m.slot? index = some slot) :
    ∃ t, m.signature.parameters[index]? = some t :=
  ⟨_, List.getElem?_eq_getElem (exists_slot?_iff.mp ⟨slot, hslot⟩)⟩

/-- Parameters that are values have different slots, the later ones the higher. -/
theorem slot_lt_slot (h : m.frameSize ≤ 65535)
    (hvoid : ∀ t ∈ m.signature.parameters, t ≠ .primitive .void) (hij : i < j)
    (hslot : m.slot? i = some slot) (hlater : m.slot? j = some later) : slot < later := by
  obtain ⟨t, ht⟩ := exists_parameter hslot
  have hle := slot_add_width_le h hij hslot ht hlater
  have hpos := t.frameWidth_pos
  rw [← toNat_width (hvoid t (List.mem_of_getElem? ht))] at hpos
  rw [UInt16.lt_iff_toNat_lt]
  omega

/-- The slots that parameters hold are those of the frame after the receiver. -/
theorem exists_holds_iff (hsize : m.frameSize ≤ 65535) (offset : Nat) :
    (∃ index, m.Holds index offset) ↔ m.receiverWidth.toNat ≤ offset ∧ offset < m.frameSize := by
  constructor
  · intro h
    obtain ⟨index, slot, t, hslot, ht, hle, hlt⟩ := h
    have hvalue := ((slot?_eq_some_iff hsize).mp hslot).2
    have htotal := totalWidth_take_le m.signature.parameters (index + 1)
    rw [totalWidth_take_succ ht] at htotal
    rw [frameSize]
    omega
  · intro h
    obtain ⟨hstart, hend⟩ := h
    obtain ⟨index, t, ht, hle, hlt⟩ := exists_around hstart hend
    obtain ⟨hindex, -⟩ := List.getElem?_eq_some_iff.mp ht
    obtain ⟨slot, hslot⟩ := exists_slot?_iff.mpr hindex
    rw [← ((slot?_eq_some_iff hsize).mp hslot).2] at hle hlt
    exact ⟨index, slot, t, hslot, ht, hle, hlt⟩

/-- No slot is held by two parameters. -/
theorem Holds.unique (h : m.frameSize ≤ 65535) {offset : Nat} (hi : m.Holds i offset)
    (hj : m.Holds j offset) : i = j := by
  obtain ⟨slot, t, hslot, ht, hle, hlt⟩ := hi
  obtain ⟨later, u, hlater, hu, hle', hlt'⟩ := hj
  rcases Nat.lt_trichotomy i j with hij | hij | hij
  · have hend := slot_add_width_le h hij hslot ht hlater
    omega
  · exact hij
  · have hend := slot_add_width_le h hij hlater hu hslot
    omega

/-! ## Names -/

theorem nodup_slots (h : m.frameSize ≤ 65535)
    (hvoid : ∀ t ∈ m.signature.parameters, t ≠ .primitive .void) : m.slots.Nodup := by
  rw [List.nodup_iff_getElem?_ne_getElem?]
  intro i j hij hj heq
  have hlater := List.getElem?_eq_getElem hj
  rw [hlater] at heq
  rw [getElem?_slots] at heq hlater
  exact UInt16.lt_irrefl _ (slot_lt_slot h hvoid hij heq hlater)

/-- Where names are found for all parameters, they are those of entries under the slots of
the parameters. -/
theorem Names.exists_entries {names : LocalNames} {ps : List Parameter} (h : m.Names names ps) :
    ∃ entries : List (UInt16 × String), entries.map Prod.fst = m.slots ∧
      entries.map Prod.snd = ps.map Parameter.name ∧ ∀ e ∈ entries, e ∈ names.toList := by
  have hlen : m.slots.length = (ps.map Parameter.name).length := by
    rw [h.names.length_eq, List.length_map]
  have hnames : List.Forall₂ (fun slot n => names.get? slot = some n) m.slots
      (ps.map Parameter.name) := List.forall₂_map_right_iff.mpr h.names
  refine ⟨m.slots.zip (ps.map Parameter.name), List.map_fst_zip hlen.le, List.map_snd_zip hlen.ge, ?_⟩
  intro e he
  exact Table.mem_toList_iff.mpr ((List.forall₂_iff_zip.mp hnames).2 he)

/-- The parameters of a method share out the slots of its frame that come after the receiver.
A parameter's slot is a sum of words none of which wraps around; it ends where the next one
starts, and no slot is left over or held twice.  So the parameters, if they are all values
and names are found for them, are named by different entries of the debug names. -/
theorem slots_tile (h : m.frameSize ≤ 65535) :
    (∀ index, m.slot? index = none ↔ m.signature.parameters.length ≤ index) ∧
    (∀ index slot, m.slot? index = some slot →
      Word.sum? (m.receiverWidth :: m.widthsBefore index) = some slot ∧
        (Word.sum? (m.widthsBefore index)).bind (Word.add? m.receiverWidth) = some slot) ∧
    (∀ slot, m.slot? 0 = some slot → slot = if m.isStatic then 0 else 1) ∧
    (∀ index slot t, m.slot? index = some slot → m.signature.parameters[index]? = some t →
      (∀ next, m.slot? (index + 1) = some next → slot.toNat + t.width.toNat = next.toNat) ∧
        (m.slot? (index + 1) = none → slot.toNat + t.width.toNat = m.frameSize)) ∧
    (∀ offset, (∃ index, m.Holds index offset) ↔
      m.receiverWidth.toNat ≤ offset ∧ offset < m.frameSize) ∧
    (∀ i j offset, m.Holds i offset → m.Holds j offset → i = j) ∧
    ((∀ t ∈ m.signature.parameters, t ≠ .primitive .void) →
      (∀ i j slot later, i < j → m.slot? i = some slot → m.slot? j = some later → slot < later) ∧
      ∀ names ps, m.locals = some names → FunctionDefinition.parametersOf m = .ok ps →
        ∃ entries : List (UInt16 × String), entries.Nodup ∧ entries.map Prod.fst = m.slots ∧
          entries.map Prod.snd = ps.map Parameter.name ∧ ∀ e ∈ entries, e ∈ names.toList) := by
  refine ⟨fun _ => slot?_eq_none_iff, fun _ _ => sum?_widthsBefore h, fun _ => slot?_zero,
    fun _ _ _ => slot_add_width h, exists_holds_iff h, fun _ _ _ => Holds.unique h, ?_⟩
  intro hvoid
  refine ⟨fun _ _ _ _ => slot_lt_slot h hvoid, ?_⟩
  intro names ps hlocals hps
  have hcollected := FunctionDefinition.collected_parametersOf m
  rw [hps] at hcollected
  cases hcollected with
  | named hlocals' _ hnames =>
    cases hlocals.symm.trans hlocals'
    obtain ⟨entries, hslots, hparameters, hmem⟩ := hnames.exists_entries
    refine ⟨entries, ?_, hslots, hparameters, hmem⟩
    apply List.Nodup.of_map Prod.fst
    rw [hslots]
    exact nodup_slots h hvoid

/-- A receiver and as many `long` parameters as there is room for behind it, and a static
method with the debug names of its parameters. -/
theorem slots_tile_widest :
    let fill : MethodInfo :=
      ⟨"fill", ⟨0⟩, ⟨List.replicate 32767 (.primitive .long), .primitive .void⟩, none⟩
    let names : LocalNames := Table.ofList [(0, "width"), (2, "height")]
    let area : MethodInfo :=
      ⟨"area", ⟨Access.staticFlag⟩, ⟨[.primitive .long, .primitive .int], .primitive .long⟩,
        some names⟩
    fill.frameSize = 65535 ∧
    (∃ slot, fill.slot? 32766 = some slot ∧ slot.toNat + 2 = 65535) ∧
    (∃! index, fill.Holds index 40000) ∧
    area.frameSize ≤ 65535 ∧
    ∃ entries : List (UInt16 × String), entries.Nodup ∧ entries.map Prod.fst = area.slots ∧
      entries.map Prod.snd = ["width", "height"] ∧ ∀ e ∈ entries, e ∈ names.toList := by
  intro fill names area
  have hfill : fill.frameSize = 65535 := by
    simp only [fill, frameSize, totalWidth, List.map_replicate, List.sum_replicate]
    decide
  have harea : area.frameSize ≤ 65535 := by decide
  obtain ⟨hnone, -, -, hnext, hholds, hunique, -⟩ := slots_tile hfill.le
  have hlength : fill.signature.parameters.length = 32767 := List.length_replicate
  refine ⟨hfill, ?_, ?_, harea, ?_⟩
  · obtain ⟨slot, hslot⟩ : ∃ slot, fill.slot? 32766 = some slot :=
      exists_slot?_iff.mpr (by rw [hlength]; decide)
    have hlast : fill.slot? (32766 + 1) = none := (hnone _).mpr hlength.le
    have ht : fill.signature.parameters[32766]? = some (.primitive .long) := by
      rw [List.getElem?_replicate, if_pos (by decide)]
    exact ⟨slot, hslot, ((hnext 32766 slot _ hslot ht).2 hlast).trans hfill⟩
  · obtain ⟨index, hindex⟩ := (hholds 40000).mpr ⟨by decide, by rw [hfill]; decide⟩
    exact ⟨index, hindex, fun j hj => hunique j index 40000 hj hindex⟩
  · obtain ⟨-, -, -, -, -, -, hvalues⟩ := slots_tile harea
    have hfound : List.Forall₂ (fun slot n => names.get? slot = some n) area.slots
        ["width", "height"] :=
      .cons (by rw [Table.get?_ofList]; decide) (.cons (by rw [Table.get?_ofList]; decide) .nil)
    exact (hvalues (by decide)).2 names _ rfl (FunctionDefinition.parametersOf_eq_ok rfl hfound)

end MethodInfo
end ClassIndex

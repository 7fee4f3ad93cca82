/-
The constant pool of a class file, as it is read.

A constant is read as the places it takes: what it is for those that refer to it,
and nothing in the second place of a wide one.  `Agrees` says that a pool answers as
the constants themselves do, and is all that the readers after the pool need.
-/
import ClassIndex.Proofs.ClassFormat.Meaning

namespace ClassIndex
namespace ClassFormat

open ByteReader Reader

/-! ## Constants in their places -/

namespace ConstantForm

/-- A constant for those that refer to it. -/
def constant : ConstantForm → Constant
  | text payload =>
    match ModifiedUtf8.decode payload with
    | .ok s => .text s
    | .error _ => .other
  | classRef nameIndex => .classRef nameIndex
  | data _ _ => .other

theorem constant_eq_text {c : ConstantForm} {s : String} : c.constant = .text s ↔
    ∃ payload, c = .text payload ∧ ModifiedUtf8.decode payload = .ok s := by
  cases c with
  | text payload => cases h : ModifiedUtf8.decode payload <;> simp [constant, h]
  | classRef nameIndex => simp [constant]
  | data kind content => simp [constant]

theorem constant_eq_classRef {c : ConstantForm} {j : UInt16} :
    c.constant = .classRef j ↔ c = .classRef j := by
  cases c with
  | text payload => cases h : ModifiedUtf8.decode payload <;> simp [constant, h]
  | classRef nameIndex => simp [constant]
  | data kind content => simp [constant]

/-- A constant in the places it takes. -/
def slots (c : ConstantForm) : List Constant :=
  c.constant :: List.replicate (c.places - 1) .other

@[simp] theorem length_slots (c : ConstantForm) : c.slots.length = c.places := by
  have hpos := c.places_pos
  unfold slots
  rw [List.length_cons, List.length_replicate]
  omega

/-- A place holds the constant that starts there, if one does. -/
theorem getD_slots (cs : List ConstantForm) (n : Nat) :
    (cs.flatMap slots)[n]?.getD .other = ((constantAt? cs n).map constant).getD .other := by
  induction cs generalizing n with
  | nil => rfl
  | cons c cs ih =>
    rw [List.flatMap_cons, List.getElem?_append, length_slots]
    have hpos := c.places_pos
    unfold constantAt?
    by_cases hn : n = 0
    · subst hn
      rw [if_pos hpos, if_pos rfl]
      rfl
    · obtain ⟨k, rfl⟩ := Nat.exists_eq_succ_of_ne_zero hn
      rw [if_neg hn]
      by_cases hk : k.succ < c.places
      · rw [if_pos hk, if_pos hk, slots, List.getElem?_cons_succ, List.getElem?_replicate]
        split <;> rfl
      · rw [if_neg hk, if_neg hk, ih]

end ConstantForm

/-- A pool that answers as the constants do. -/
structure Agrees (pool : ConstantPool) (cs : List ConstantForm) : Prop where
  text : ∀ {i s}, pool.text i = .ok s ↔ text? cs i = some s
  className : ∀ {i s}, pool.className i = .ok s ↔ className? cs i = some s

/-- The pool that is read for a list of constants. -/
def poolOf (cs : List ConstantForm) : ConstantPool :=
  ⟨(.other :: cs.flatMap ConstantForm.slots).toArray⟩

theorem getD_poolOf (cs : List ConstantForm) (i : UInt16) :
    (poolOf cs).slots[i.toNat]?.getD .other =
      ((constant? cs i).map ConstantForm.constant).getD .other := by
  unfold poolOf constant?
  rw [List.getElem?_toArray]
  by_cases hi : i = 0
  · subst hi
    rfl
  · have hne : i.toNat ≠ 0 := fun h => hi (UInt16.toNat_inj.mp h)
    obtain ⟨n, hn⟩ := Nat.exists_eq_succ_of_ne_zero hne
    rw [if_neg hi, hn, List.getElem?_cons_succ, ConstantForm.getD_slots]
    rfl

theorem text_eq_ok {pool : ConstantPool} {i : UInt16} {s : String} :
    pool.text i = .ok s ↔ pool.slots[i.toNat]?.getD .other = .text s := by
  unfold ConstantPool.text
  cases pool.slots[i.toNat]? with
  | none => simp
  | some c => cases c <;> simp

theorem className_eq_ok {pool : ConstantPool} {i : UInt16} {s : String} :
    pool.className i = .ok s ↔
      ∃ n, pool.slots[i.toNat]?.getD .other = .classRef n ∧ pool.text n = .ok s := by
  unfold ConstantPool.className
  cases pool.slots[i.toNat]? with
  | none => simp
  | some c => cases c <;> simp

theorem slot_poolOf_text {cs : List ConstantForm} {i : UInt16} {s : String} :
    (poolOf cs).slots[i.toNat]?.getD .other = .text s ↔
      ∃ payload, constant? cs i = some (.text payload) ∧ ModifiedUtf8.decode payload = .ok s := by
  rw [getD_poolOf]
  cases constant? cs i <;> simp [ConstantForm.constant_eq_text]

theorem slot_poolOf_classRef {cs : List ConstantForm} {i j : UInt16} :
    (poolOf cs).slots[i.toNat]?.getD .other = .classRef j ↔
      constant? cs i = some (.classRef j) := by
  rw [getD_poolOf]
  cases constant? cs i <;> simp [ConstantForm.constant_eq_classRef]

theorem text?_eq_some {cs : List ConstantForm} {i : UInt16} {s : String} :
    text? cs i = some s ↔
      ∃ payload, constant? cs i = some (.text payload) ∧ ModifiedUtf8.decode payload = .ok s := by
  unfold text?
  cases constant? cs i with
  | none => simp
  | some c =>
    cases c with
    | text payload => cases h : ModifiedUtf8.decode payload <;> simp [Except.toOption, h]
    | classRef nameIndex => simp
    | data kind content => simp

theorem className?_eq_some {cs : List ConstantForm} {i : UInt16} {s : String} :
    className? cs i = some s ↔ ∃ j, constant? cs i = some (.classRef j) ∧ text? cs j = some s := by
  unfold className?
  cases constant? cs i with
  | none => simp
  | some c => cases c <;> simp

theorem text_poolOf {cs : List ConstantForm} {i : UInt16} {s : String} :
    (poolOf cs).text i = .ok s ↔ text? cs i = some s := by
  rw [text_eq_ok, slot_poolOf_text, text?_eq_some]

theorem className_poolOf {cs : List ConstantForm} {i : UInt16} {s : String} :
    (poolOf cs).className i = .ok s ↔ className? cs i = some s := by
  simp only [className_eq_ok, slot_poolOf_classRef, text_poolOf, className?_eq_some]

theorem agrees_poolOf (cs : List ConstantForm) : Agrees (poolOf cs) cs :=
  ⟨text_poolOf, className_poolOf⟩

theorem DataKind.replicate_places (kind : DataKind) :
    List.replicate kind.places .other =
      Constant.other :: List.replicate (kind.places - 1) .other := by
  cases kind <;> rfl

/-! ## Reading it -/

/-- What follows a constant's tag. -/
def readContent (tag : UInt8) : Reader (List Constant) :=
  if tag = 1 then do
    match ModifiedUtf8.decode (← take (← u2).toNat) with
    | .ok value => return [.text value]
    | .error offset => throw (.badText offset)
  else if tag = 7 then do
    return [.classRef (← u2)]
  else
    match DataKind.ofTag? tag with
    | some kind => do
      skip kind.size
      return List.replicate kind.places .other
    | none => throw (.unknownTag tag)

/-- The kinds of constants without a meaning here differ in their sizes only. -/
theorem readConstant_eq : ConstantPool.readConstant = u1 >>= readContent := by
  unfold ConstantPool.readConstant
  congr 1
  funext tag
  split
  case h_18 =>
    have hall : ∀ kind : DataKind, kind.tag ≠ tag := by
      intro kind h
      subst h
      cases kind <;> contradiction
    unfold readContent
    rw [if_neg ‹_›, if_neg ‹_›, DataKind.ofTag?_eq_none hall]
  all_goals rfl

section Content

variable {bs rest : List UInt8} {places : List Constant}

theorem readContent_text_eq_ok : readContent 1 bs = .ok (places, rest) ↔
    ∃ (payload : List UInt8) (s : String), bs = bytes2 payload.length ++ (payload ++ rest) ∧
      payload.length < 2 ^ 16 ∧ ModifiedUtf8.decode payload = .ok s ∧ places = [.text s] := by
  unfold readContent
  rw [if_pos rfl]
  simp only [bind_eq_ok, u2_eq_ok, take_eq_ok]
  constructor
  · intro hread
    obtain ⟨n, _, rfl, payload, _, ⟨rfl, hlen⟩, h⟩ := hread
    cases hs : ModifiedUtf8.decode payload with
    | error offset =>
      rw [hs, throw_eq_ok] at h
      exact h.elim
    | ok s =>
      rw [hs, pure_eq_ok] at h
      obtain ⟨rfl, rfl⟩ := h
      exact ⟨payload, s, by rw [hlen], by rw [hlen]; exact n.toNat_lt, hs, rfl⟩
  · intro hform
    obtain ⟨payload, s, rfl, hlt, hs, rfl⟩ := hform
    have hlen : (UInt16.ofNat payload.length).toNat = payload.length :=
      UInt16.toNat_ofNat_of_lt' hlt
    refine ⟨UInt16.ofNat payload.length, payload ++ rest, by rw [hlen], payload, rest,
      ⟨rfl, hlen.symm⟩, ?_⟩
    rw [hs]
    rfl

theorem readContent_classRef_eq_ok : readContent 7 bs = .ok (places, rest) ↔
    ∃ i : UInt16, bs = bytes2 i.toNat ++ rest ∧ places = [.classRef i] := by
  unfold readContent
  rw [if_neg (by decide), if_pos rfl]
  simp only [bind_eq_ok, u2_eq_ok, pure_eq_ok]
  constructor
  · intro hread
    obtain ⟨i, _, rfl, rfl, rfl⟩ := hread
    exact ⟨i, rfl, rfl⟩
  · intro hform
    obtain ⟨i, rfl, rfl⟩ := hform
    exact ⟨i, rest, rfl, rfl, rfl⟩

theorem readContent_data_eq_ok (kind : DataKind) :
    readContent kind.tag bs = .ok (places, rest) ↔ ∃ content, bs = content ++ rest ∧
      content.length = kind.size ∧ places = List.replicate kind.places .other := by
  unfold readContent
  rw [if_neg kind.tag_ne_text, if_neg kind.tag_ne_classRef, DataKind.ofTag?_tag]
  simp only [bind_eq_ok, skip_eq_ok, pure_eq_ok]
  constructor
  · intro hread
    obtain ⟨-, _, ⟨content, rfl, hlen⟩, rfl, rfl⟩ := hread
    exact ⟨content, rfl, hlen, rfl⟩
  · intro hform
    obtain ⟨content, rfl, hlen, rfl⟩ := hform
    exact ⟨(), rest, ⟨content, rfl, hlen⟩, rfl, rfl⟩

/-- A tag that is read on is the tag of a constant. -/
theorem known_of_readContent {tag : UInt8} (h : readContent tag bs = .ok (places, rest)) :
    tag = 1 ∨ tag = 7 ∨ ∃ kind : DataKind, kind.tag = tag := by
  unfold readContent at h
  by_cases htext : tag = 1
  · exact .inl htext
  · by_cases hclass : tag = 7
    · exact .inr (.inl hclass)
    · rw [if_neg htext, if_neg hclass] at h
      cases hkind : DataKind.ofTag? tag with
      | none =>
        rw [hkind] at h
        exact (throw_eq_ok.mp h).elim
      | some kind => exact .inr (.inr ⟨kind, DataKind.tag_of_ofTag? hkind⟩)

end Content

theorem readConstant_reads : Reads ConstantPool.readConstant ConstantForm.bytes
    (fun c places => (c.Framed ∧ c.Legible) ∧ places = c.slots) := by
  intro bs places rest
  rw [readConstant_eq, bind_eq_ok]
  simp only [u1_eq_ok]
  constructor
  · intro hread
    obtain ⟨tag, mid, rfl, h⟩ := hread
    rcases known_of_readContent h with rfl | rfl | ⟨kind, rfl⟩
    · obtain ⟨payload, s, rfl, hlen, hs, rfl⟩ := readContent_text_eq_ok.mp h
      refine ⟨.text payload, ?_, ⟨hlen, s, hs⟩, ?_⟩
      · simp only [ConstantForm.bytes, List.cons_append, List.append_assoc]
      · simp only [ConstantForm.slots, ConstantForm.constant, hs]
        rfl
    · obtain ⟨i, rfl, rfl⟩ := readContent_classRef_eq_ok.mp h
      exact ⟨.classRef i, rfl, ⟨trivial, trivial⟩, rfl⟩
    · obtain ⟨content, rfl, hlen, rfl⟩ := (readContent_data_eq_ok kind).mp h
      exact ⟨.data kind content, rfl, ⟨hlen, trivial⟩, kind.replicate_places⟩
  · intro hform
    obtain ⟨c, rfl, ⟨hframed, hlegible⟩, rfl⟩ := hform
    cases c with
    | text payload =>
      obtain ⟨s, hs⟩ := hlegible
      refine ⟨1, bytes2 payload.length ++ (payload ++ rest), ?_, ?_⟩
      · simp only [ConstantForm.bytes, List.cons_append, List.append_assoc]
      · rw [readContent_text_eq_ok]
        refine ⟨payload, s, rfl, hframed, hs, ?_⟩
        simp only [ConstantForm.slots, ConstantForm.constant, hs]
        rfl
    | classRef i =>
      exact ⟨7, _, rfl, readContent_classRef_eq_ok.mpr ⟨i, rfl, rfl⟩⟩
    | data kind content =>
      exact ⟨kind.tag, _, rfl, (readContent_data_eq_ok kind).mpr
        ⟨content, rfl, hframed, kind.replicate_places.symm⟩⟩

theorem readSlots_reads (n : Nat) : Reads (ConstantPool.readSlots n)
    (List.flatMap ConstantForm.bytes)
    (fun cs places => (Fills n cs ∧ ∀ c ∈ cs, c.Framed ∧ c.Legible) ∧
      places = cs.flatMap ConstantForm.slots) := by
  -- not by the predecessor: a wide constant takes two numbers off the count
  induction n using Nat.strongRecOn with
  | ind n ih =>
    intro bs places rest
    cases n with
    | zero =>
      unfold ConstantPool.readSlots
      rw [pure_eq_ok]
      constructor
      · intro hread
        obtain ⟨rfl, rfl⟩ := hread
        exact ⟨[], rfl, ⟨rfl, by simp⟩, rfl⟩
      · intro hform
        obtain ⟨cs, rfl, ⟨hfills, -⟩, rfl⟩ := hform
        cases cs with
        | nil => exact ⟨rfl, rfl⟩
        | cons c cs => exact absurd hfills.1 (Nat.lt_irrefl 0)
    | succ n =>
      unfold ConstantPool.readSlots
      simp only [bind_eq_ok, pure_eq_ok]
      constructor
      · intro hread
        obtain ⟨first, mid, hfirst, others, _, hothers, rfl, rfl⟩ := hread
        obtain ⟨c, rfl, hc, rfl⟩ := (readConstant_reads _ _ _).mp hfirst
        rw [c.length_slots] at hothers
        obtain ⟨cs, rfl, ⟨hfills, hcs⟩, rfl⟩ := (ih _ (by omega) _ _ _).mp hothers
        refine ⟨c :: cs, by simp, ⟨⟨Nat.succ_pos n, ?_⟩, ?_⟩, rfl⟩
        · have hpos := c.places_pos
          rwa [show n + 1 - c.places = n - (c.places - 1) by omega]
        · simpa using ⟨hc, hcs⟩
      · intro hform
        obtain ⟨cs, rfl, ⟨hfills, hcs⟩, rfl⟩ := hform
        cases cs with
        | nil => exact absurd hfills (Nat.succ_ne_zero n)
        | cons c cs =>
          refine ⟨c.slots, cs.flatMap ConstantForm.bytes ++ rest, ?_,
            cs.flatMap ConstantForm.slots, rest, ?_, rfl, rfl⟩
          · exact (readConstant_reads _ _ _).mpr ⟨c, by simp, hcs c List.mem_cons_self, rfl⟩
          · have hpos := c.places_pos
            rw [c.length_slots, show n - (c.places - 1) = n + 1 - c.places by omega]
            exact (ih _ (by omega) _ _ _).mpr
              ⟨cs, rfl, ⟨hfills.2, fun d hd => hcs d (List.mem_cons_of_mem c hd)⟩, rfl⟩

theorem pool_read_eq_ok {bs rest : List UInt8} {pool : ConstantPool} :
    ConstantPool.read bs = .ok (pool, rest) ↔ ∃ (count : UInt16) (cs : List ConstantForm),
      bs = bytes2 count.toNat ++ (cs.flatMap ConstantForm.bytes ++ rest) ∧
      (Fills (count.toNat - 1) cs ∧ ∀ c ∈ cs, c.Framed ∧ c.Legible) ∧ pool = poolOf cs := by
  unfold ConstantPool.read
  simp only [bind_eq_ok, u2_eq_ok, pure_eq_ok, (readSlots_reads _) _ _ _]
  constructor
  · intro hread
    obtain ⟨count, _, rfl, _, _, ⟨cs, rfl, hcs, rfl⟩, rfl, rfl⟩ := hread
    exact ⟨count, cs, rfl, hcs, rfl⟩
  · intro hform
    obtain ⟨count, cs, rfl, hcs, rfl⟩ := hform
    exact ⟨count, _, rfl, _, rest, ⟨cs, rfl, hcs, rfl⟩, rfl, rfl⟩

end ClassFormat
end ClassIndex

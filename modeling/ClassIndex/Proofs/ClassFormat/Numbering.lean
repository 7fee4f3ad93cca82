/-
The numbers of the constant pool.

`Numbered cs n c` says that the constants of `cs` before `c` take up the numbers from 1
to below `n`.  It mentions no places: a pool answers by the constants that have a number
(`AnswersByNumber`), and the second number of a wide constant, like every number from
the declared count on, is nobody's.

A pool is read from the constants at the front of the bytes, and it is an unknown tag
that stops the reader if and only if one stands where the next constant is due.
-/
import ClassIndex.Proofs.ByteReader.Confined
import ClassIndex.Proofs.ClassFormat.Pool

namespace ClassIndex
namespace ClassFormat

open ByteReader Reader

/-! ## Numbers -/

/-- The constant that has a number: those before it take the numbers from 1 on. -/
def Numbered (cs : List ConstantForm) (n : Nat) (c : ConstantForm) : Prop :=
  ∃ before after, cs = before ++ c :: after ∧ n = 1 + (before.map ConstantForm.places).sum

theorem constantAt?_eq_some {cs : List ConstantForm} {n : Nat} {c : ConstantForm} :
    constantAt? cs n = some c ↔
      ∃ before after, cs = before ++ c :: after ∧ n = (before.map ConstantForm.places).sum := by
  induction cs generalizing n with
  | nil =>
    constructor
    · nofun
    · intro hsplit
      obtain ⟨before, after, hcs, -⟩ := hsplit
      simp at hcs
  | cons d cs ih =>
    have hpos := d.places_pos
    unfold constantAt?
    constructor
    · intro h
      split at h
      · next hn =>
        cases h
        exact ⟨[], cs, rfl, hn⟩
      · split at h
        · cases h
        · next hplaces =>
          obtain ⟨before, after, rfl, hn⟩ := ih.mp h
          refine ⟨d :: before, after, rfl, ?_⟩
          rw [List.map_cons, List.sum_cons]
          omega
    · intro hsplit
      obtain ⟨before, after, hcs, rfl⟩ := hsplit
      cases before with
      | nil =>
        cases hcs
        rfl
      | cons e before =>
        cases hcs
        rw [List.map_cons, List.sum_cons, if_neg (by omega), if_neg (by omega)]
        exact ih.mpr ⟨before, after, rfl, by omega⟩

theorem numbered_iff {cs : List ConstantForm} {n : Nat} {c : ConstantForm} :
    Numbered cs n c ↔ 0 < n ∧ constantAt? cs (n - 1) = some c := by
  rw [constantAt?_eq_some]
  constructor
  · intro hnumber
    obtain ⟨before, after, hcs, rfl⟩ := hnumber
    exact ⟨by omega, before, after, hcs, by omega⟩
  · intro hat
    obtain ⟨hpos, before, after, hcs, hn⟩ := hat
    exact ⟨before, after, hcs, by omega⟩

theorem constant?_eq_some {cs : List ConstantForm} {i : UInt16} {c : ConstantForm} :
    constant? cs i = some c ↔ Numbered cs i.toNat c := by
  rw [numbered_iff]
  unfold constant?
  by_cases hi : i = 0
  · subst hi
    simp
  · have hpos : 0 < i.toNat := Nat.pos_of_ne_zero fun h => hi (UInt16.toNat_inj.mp h)
    rw [if_neg hi]
    exact ⟨fun hat => ⟨hpos, hat⟩, fun hat => hat.2⟩

/-- Numbers are given once, and a constant has its places to itself. -/
theorem Numbered.eq_or_add_le {cs : List ConstantForm} {n m : Nat} {c d : ConstantForm}
    (hc : Numbered cs n c) (hd : Numbered cs m d) (hle : n ≤ m) :
    (n = m ∧ c = d) ∨ n + c.places ≤ m := by
  obtain ⟨before, after, rfl, rfl⟩ := hc
  obtain ⟨before', after', hcs, rfl⟩ := hd
  -- of two fronts of the list one begins with the other
  rcases List.append_eq_append_iff.mp hcs with ⟨mid, rfl, hmid⟩ | ⟨mid, rfl, hmid⟩
  · cases mid with
    | nil =>
      cases hmid
      exact .inl ⟨by simp, rfl⟩
    | cons e mid =>
      cases hmid
      right
      simp only [List.map_append, List.map_cons, List.sum_append, List.sum_cons]
      omega
  · cases mid with
    | nil =>
      cases hmid
      exact .inl ⟨by simp, rfl⟩
    | cons e mid =>
      cases hmid
      have hpos := d.places_pos
      simp only [List.map_append, List.map_cons, List.sum_append, List.sum_cons] at hle
      omega

theorem Fills.sum_lt {n : Nat} {before after : List ConstantForm} {c : ConstantForm}
    (h : Fills n (before ++ c :: after)) : (before.map ConstantForm.places).sum < n := by
  induction before generalizing n with
  | nil => exact h.1
  | cons d before ih =>
    have hrest := ih h.2
    rw [List.map_cons, List.sum_cons]
    omega

/-! ## Answers by number -/

section LookUps

variable {pool : ConstantPool} {i : UInt16} {fault : Fault}

theorem text_eq_error : pool.text i = .error fault ↔
    fault = .badIndex i ∧ ∀ s, pool.slots[i.toNat]?.getD .other ≠ .text s := by
  unfold ConstantPool.text
  cases pool.slots[i.toNat]? with
  | none => simp [eq_comm]
  | some c => cases c <;> simp [eq_comm]

theorem className_eq_error : pool.className i = .error fault ↔
    (fault = .badIndex i ∧ ∀ j, pool.slots[i.toNat]?.getD .other ≠ .classRef j) ∨
    ∃ j, pool.slots[i.toNat]?.getD .other = .classRef j ∧ pool.text j = .error fault := by
  unfold ConstantPool.className
  cases pool.slots[i.toNat]? with
  | none => simp [eq_comm]
  | some c => cases c <;> simp [eq_comm]

end LookUps

/-- A pool that answers by the numbers of its constants.  These are below the declared
count, and as far apart as the constants are wide. -/
structure AnswersByNumber (pool : ConstantPool) (count : UInt16) (cs : List ConstantForm) :
    Prop where
  declared : ∀ {n : Nat} {c : ConstantForm}, Numbered cs n c → 0 < n ∧ n < count.toNat
  apart : ∀ {n m : Nat} {c d : ConstantForm}, Numbered cs n c → Numbered cs m d → n ≤ m →
    (n = m ∧ c = d) ∨ n + c.places ≤ m
  text_eq_ok : ∀ {i : UInt16} {s : String}, pool.text i = .ok s ↔
    ∃ payload, Numbered cs i.toNat (.text payload) ∧ ModifiedUtf8.decode payload = .ok s
  className_eq_ok : ∀ {i : UInt16} {s : String}, pool.className i = .ok s ↔
    ∃ j, Numbered cs i.toNat (.classRef j) ∧ pool.text j = .ok s
  text_eq_error : ∀ {i : UInt16} {fault : Fault}, pool.text i = .error fault ↔
    fault = .badIndex i ∧ ¬ ∃ payload, Numbered cs i.toNat (.text payload)
  className_eq_error : ∀ {i : UInt16} {fault : Fault}, pool.className i = .error fault ↔
    (fault = .badIndex i ∧ ¬ ∃ j, Numbered cs i.toNat (.classRef j)) ∨
    ∃ j, Numbered cs i.toNat (.classRef j) ∧
      fault = .badIndex j ∧ ¬ ∃ payload, Numbered cs j.toNat (.text payload)

/-- A pool at the front of a byte string: the declared count, the constants that fill it,
and what follows them. -/
structure PoolFront (count : UInt16) (cs : List ConstantForm) (bs rest : List UInt8) :
    Prop where
  bytes : bs = bytes2 count.toNat ++ (cs.flatMap ConstantForm.bytes ++ rest)
  fills : Fills (count.toNat - 1) cs
  framed : ∀ c ∈ cs, c.Framed
  legible : ∀ c ∈ cs, c.Legible

theorem PoolFront.read_eq {count : UInt16} {cs : List ConstantForm} {bs rest : List UInt8}
    (h : PoolFront count cs bs rest) : ConstantPool.read bs = .ok (poolOf cs, rest) :=
  pool_read_eq_ok.mpr
    ⟨count, cs, h.bytes, ⟨h.fills, fun c hc => ⟨h.framed c hc, h.legible c hc⟩⟩, rfl⟩

theorem exists_poolFront {bs rest : List UInt8} {pool : ConstantPool}
    (h : ConstantPool.read bs = .ok (pool, rest)) : ∃ count cs, PoolFront count cs bs rest := by
  obtain ⟨count, cs, hbytes, ⟨hfills, hcs⟩, -⟩ := pool_read_eq_ok.mp h
  exact ⟨count, cs, hbytes, hfills, fun c hc => (hcs c hc).1, fun c hc => (hcs c hc).2⟩

theorem answersByNumber_poolOf {count : UInt16} {cs : List ConstantForm}
    (hfills : Fills (count.toNat - 1) cs) (hlegible : ∀ c ∈ cs, c.Legible) :
    AnswersByNumber (poolOf cs) count cs := by
  have htext : ∀ {i : UInt16} {fault : Fault}, (poolOf cs).text i = .error fault ↔
      fault = .badIndex i ∧ ¬ ∃ payload, Numbered cs i.toNat (.text payload) := by
    intro i fault
    simp only [ClassFormat.text_eq_error, ne_eq, slot_poolOf_text, constant?_eq_some]
    refine and_congr_right fun _ => ⟨?_, ?_⟩
    · intro hnone hnumber
      obtain ⟨payload, hnumber⟩ := hnumber
      have hmem : ConstantForm.text payload ∈ cs := by
        obtain ⟨before, after, rfl, -⟩ := hnumber
        simp
      obtain ⟨s, hs⟩ := hlegible _ hmem
      exact hnone s ⟨payload, hnumber, hs⟩
    · intro hnone s hnumber
      obtain ⟨payload, hnumber, -⟩ := hnumber
      exact hnone ⟨payload, hnumber⟩
  constructor
  case declared =>
    intro n c hnumber
    obtain ⟨before, after, rfl, rfl⟩ := hnumber
    have hlt := hfills.sum_lt
    omega
  case apart => exact Numbered.eq_or_add_le
  case text_eq_ok =>
    intro i s
    simp only [ClassFormat.text_eq_ok, slot_poolOf_text, constant?_eq_some]
  case className_eq_ok =>
    intro i s
    simp only [ClassFormat.className_eq_ok, slot_poolOf_classRef, constant?_eq_some]
  case text_eq_error => exact htext
  case className_eq_error =>
    intro i fault
    simp only [ClassFormat.className_eq_error, ne_eq, slot_poolOf_classRef, constant?_eq_some,
      htext, not_exists]

/-! ## Unknown tags -/

/-- The tags that begin a constant. -/
def supportedTags : List UInt8 :=
  1 :: 7 :: DataKind.all.map DataKind.tag

example : supportedTags = [1, 7, 3, 4, 5, 6, 8, 9, 10, 11, 12, 15, 16, 17, 18, 19, 20] := rfl

theorem DataKind.mem_all (kind : DataKind) : kind ∈ all := by
  cases kind <;> decide

theorem mem_supportedTags {tag : UInt8} :
    tag ∈ supportedTags ↔ tag = 1 ∨ tag = 7 ∨ ∃ kind : DataKind, kind.tag = tag := by
  simp [supportedTags, DataKind.mem_all]

theorem readContent_of_not_supported {tag : UInt8} (h : tag ∉ supportedTags) :
    readContent tag = throw (.unknownTag tag) := by
  rw [mem_supportedTags, not_or, not_or] at h
  obtain ⟨htext, hclass, hdata⟩ := h
  unfold readContent
  rw [if_neg htext, if_neg hclass, DataKind.ofTag?_eq_none fun kind hkind => hdata ⟨kind, hkind⟩]

section Faults

variable {P : Fault → Prop} (hend : P .unexpectedEnd) (htext : ∀ offset, P (.badText offset))

include hend htext

/-- What goes wrong behind a tag: too few bytes, a string that is no text, or the tag
itself, should it be unknown. -/
theorem readContent_confined {tag : UInt8} (htag : tag ∉ supportedTags → P (.unknownTag tag)) :
    Confined P (readContent tag) := by
  by_cases hsupported : tag ∈ supportedTags
  · unfold readContent
    rcases mem_supportedTags.mp hsupported with rfl | rfl | ⟨kind, rfl⟩
    · refine (u2_confined hend).bind fun n => ?_
      refine (Confined.take hend n.toNat).bind fun payload => ?_
      cases ModifiedUtf8.decode payload with
      | ok value => exact .pure _
      | error offset => exact .throw (htext offset)
    · exact (u2_confined hend).bind fun _ => .pure _
    · rw [if_neg kind.tag_ne_text, if_neg kind.tag_ne_classRef, DataKind.ofTag?_tag]
      exact (skip_confined hend _).bind fun _ => .pure _
  · rw [readContent_of_not_supported hsupported]
    exact .throw (htag hsupported)

variable (htag : ∀ tag, P (.unknownTag tag))

include htag

theorem readConstant_confined : Confined P ConstantPool.readConstant := by
  rw [readConstant_eq]
  exact (u1_confined hend).bind fun tag => readContent_confined hend htext fun _ => htag tag

theorem readSlots_confined (n : Nat) : Confined P (ConstantPool.readSlots n) := by
  induction n using Nat.strongRecOn with
  | ind n ih =>
    unfold ConstantPool.readSlots
    cases n with
    | zero => exact .pure []
    | succ n =>
      refine (readConstant_confined hend htext htag).bind fun places => ?_
      exact (ih _ (by omega)).bind fun _ => .pure _

theorem pool_read_confined : Confined P ConstantPool.read :=
  (u2_confined hend).bind fun _ => (readSlots_confined hend htext htag _).bind fun _ => .pure _

end Faults

section UnknownTags

variable {bs : List UInt8} {tag : UInt8}

theorem readConstant_eq_unknownTag :
    ConstantPool.readConstant bs = .error (.unknownTag tag) ↔
      ∃ tail, bs = tag :: tail ∧ tag ∉ supportedTags := by
  rw [readConstant_eq, bind_eq_error]
  constructor
  · intro h
    rcases h with hfirst | ⟨first, mid, hfirst, hcontent⟩
    · exact absurd rfl (u1_confined (P := (· ≠ .unknownTag tag)) nofun bs _ hfirst)
    · rw [u1_eq_ok.mp hfirst]
      by_cases hsupported : first ∈ supportedTags
      · refine absurd rfl (readContent_confined (P := (· ≠ .unknownTag tag)) nofun
          (fun _ => nofun) (fun hnot => absurd hsupported hnot) mid _ hcontent)
      · rw [readContent_of_not_supported hsupported] at hcontent
        cases hcontent
        exact ⟨mid, rfl, hsupported⟩
  · intro hform
    obtain ⟨tail, rfl, hnot⟩ := hform
    refine .inr ⟨tag, tail, u1_eq_ok.mpr rfl, ?_⟩
    rw [readContent_of_not_supported hnot]
    rfl

/-- The reader stops at a tag where the next constant is due: behind whole constants, and
with numbers still to be given. -/
theorem readSlots_eq_unknownTag {n : Nat} :
    ConstantPool.readSlots n bs = .error (.unknownTag tag) ↔
      ∃ (before : List ConstantForm) (tail : List UInt8),
        bs = before.flatMap ConstantForm.bytes ++ tag :: tail ∧
        (∀ c ∈ before, c.Framed ∧ c.Legible) ∧ (before.map ConstantForm.places).sum < n ∧
        tag ∉ supportedTags := by
  induction n using Nat.strongRecOn generalizing bs with
  | ind n ih =>
    unfold ConstantPool.readSlots
    cases n with
    | zero =>
      constructor
      · nofun
      · intro hform
        obtain ⟨before, tail, -, -, hlt, -⟩ := hform
        exact absurd hlt (Nat.not_lt_zero _)
    | succ n =>
      simp only [bind_eq_error, readConstant_eq_unknownTag]
      constructor
      · intro h
        rcases h with ⟨tail, rfl, hnot⟩ | ⟨first, mid, hfirst, hothers⟩
        · exact ⟨[], tail, rfl, nofun, Nat.succ_pos n, hnot⟩
        · obtain ⟨c, rfl, hc, rfl⟩ := (readConstant_reads _ _ _).mp hfirst
          rw [c.length_slots] at hothers
          rcases hothers with hothers | ⟨others, _, -, hpure⟩
          · obtain ⟨before, tail, rfl, hbefore, hlt, hnot⟩ := (ih _ (by omega)).mp hothers
            refine ⟨c :: before, tail, by simp, List.forall_mem_cons.mpr ⟨hc, hbefore⟩, ?_, hnot⟩
            have hpos := c.places_pos
            rw [List.map_cons, List.sum_cons]
            omega
          · cases hpure
      · intro hform
        obtain ⟨before, tail, rfl, hbefore, hlt, hnot⟩ := hform
        cases before with
        | nil => exact .inl ⟨tail, rfl, hnot⟩
        | cons c before =>
          obtain ⟨hc, hbefore⟩ := List.forall_mem_cons.mp hbefore
          have hpos := c.places_pos
          rw [List.map_cons, List.sum_cons] at hlt
          refine .inr ⟨c.slots, before.flatMap ConstantForm.bytes ++ tag :: tail, ?_, .inl ?_⟩
          · exact (readConstant_reads _ _ _).mpr ⟨c, by simp, hc, rfl⟩
          · rw [c.length_slots]
            exact (ih _ (by omega)).mpr ⟨before, tail, rfl, hbefore, by omega, hnot⟩

theorem pool_read_eq_unknownTag :
    ConstantPool.read bs = .error (.unknownTag tag) ↔
      ∃ (count : UInt16) (before : List ConstantForm) (tail : List UInt8),
        bs = bytes2 count.toNat ++ (before.flatMap ConstantForm.bytes ++ tag :: tail) ∧
        (∀ c ∈ before, c.Framed ∧ c.Legible) ∧
        1 + (before.map ConstantForm.places).sum < count.toNat ∧ tag ∉ supportedTags := by
  unfold ConstantPool.read
  simp only [bind_eq_error, u2_eq_ok, readSlots_eq_unknownTag]
  constructor
  · intro h
    rcases h with hcount | ⟨count, mid, rfl, ⟨before, tail, rfl, hbefore, hlt, hnot⟩ |
      ⟨places, _, -, hpure⟩⟩
    · exact absurd rfl (u2_confined (P := (· ≠ .unknownTag tag)) nofun bs _ hcount)
    · exact ⟨count, before, tail, rfl, hbefore, by omega, hnot⟩
    · cases hpure
  · intro hform
    obtain ⟨count, before, tail, rfl, hbefore, hlt, hnot⟩ := hform
    exact .inr ⟨count, _, rfl, .inl ⟨before, tail, rfl, hbefore, by omega, hnot⟩⟩

end UnknownTags

/-! ## The numbering of a pool -/

/-- A pool is read from the constants at the front of the bytes and answers by their
numbers, and its reader stops at a tag exactly where an unknown one stands. -/
theorem pool_numbering :
    (∀ bs rest, (∃ pool, ConstantPool.read bs = .ok (pool, rest)) ↔
      ∃ count cs, PoolFront count cs bs rest) ∧
    (∀ {count cs bs rest pool}, PoolFront count cs bs rest →
      ConstantPool.read bs = .ok (pool, rest) → AnswersByNumber pool count cs) ∧
    ∀ bs tag, ConstantPool.read bs = .error (.unknownTag tag) ↔
      ∃ (count : UInt16) (before : List ConstantForm) (tail : List UInt8),
        bs = bytes2 count.toNat ++ (before.flatMap ConstantForm.bytes ++ tag :: tail) ∧
        (∀ c ∈ before, c.Framed ∧ c.Legible) ∧
        1 + (before.map ConstantForm.places).sum < count.toNat ∧ tag ∉ supportedTags := by
  refine ⟨fun bs rest => ⟨?_, ?_⟩, ?_, fun bs tag => pool_read_eq_unknownTag⟩
  · intro hread
    obtain ⟨pool, hread⟩ := hread
    exact exists_poolFront hread
  · intro hfront
    obtain ⟨count, cs, hfront⟩ := hfront
    exact ⟨poolOf cs, hfront.read_eq⟩
  · intro count cs bs rest pool hfront hread
    rw [hfront.read_eq] at hread
    cases hread
    exact answersByNumber_poolOf hfront.fills hfront.legible

/-- A wide constant among others, and another one at the end that takes a number more than
declared. -/
def widePool : List ConstantForm :=
  [.text [0x41], .data .long (List.replicate 8 0), .classRef 1, .classRef 3,
    .data .double (List.replicate 8 0)]

theorem poolFront_widePool :
    PoolFront 7 widePool (bytes2 7 ++ widePool.flatMap ConstantForm.bytes) [] where
  bytes := by rw [List.append_nil]; rfl
  fills := ⟨by decide, by decide, by decide, by decide, by decide, rfl⟩
  framed := by decide
  legible := by decide

/-- The class with number 4 has its name, the one with number 5 is named by the second
place of the long constant, and there is no number 7. -/
theorem pool_numbering_widePool :
    ∃ pool, ConstantPool.read (bytes2 7 ++ widePool.flatMap ConstantForm.bytes) =
      .ok (pool, []) ∧ pool.className 4 = .ok "A" ∧ pool.className 5 = .error (.badIndex 3) ∧
      pool.text 7 = .error (.badIndex 7) := by
  obtain ⟨hread, hanswers, -⟩ := pool_numbering
  obtain ⟨pool, hpool⟩ := (hread _ _).mpr ⟨7, widePool, poolFront_widePool⟩
  have h := hanswers poolFront_widePool hpool
  have hname : Numbered widePool 1 (.text [0x41]) := ⟨[], _, rfl, rfl⟩
  have hclass : Numbered widePool 4 (.classRef 1) :=
    ⟨[.text [0x41], .data .long (List.replicate 8 0)], _, rfl, rfl⟩
  have hbad : Numbered widePool 5 (.classRef 3) :=
    ⟨[.text [0x41], .data .long (List.replicate 8 0), .classRef 1], _, rfl, rfl⟩
  refine ⟨pool, hpool, ?_, ?_, ?_⟩
  · exact h.className_eq_ok.mpr ⟨1, hclass, h.text_eq_ok.mpr ⟨_, hname, by decide⟩⟩
  · refine h.className_eq_error.mpr (.inr ⟨3, hbad, rfl, ?_⟩)
    simp [numbered_iff, widePool, constantAt?, ConstantForm.places, DataKind.places]
  · refine h.text_eq_error.mpr ⟨rfl, fun hseven => ?_⟩
    obtain ⟨payload, hseven⟩ := hseven
    exact absurd (h.declared hseven).2 (by decide)

end ClassFormat
end ClassIndex

/-
Texts unit by unit.

`Holds` says which one, two or three bytes hold a unit, `FallsInto` which bytes are such
pieces one after the other, and `Utf16.Reads` which characters a list of units is read as.
`decode_of_not_plain` is the unit reader in these terms: what is not plain UTF-8 is a text
exactly when it falls into units, and otherwise the fault lies at the end of the longest
beginning that does, where no unit starts.

Bytes without a fault fall into pieces to their end, and bytes with one to a place from which
no piece leads on (`exists_front`).  The reader goes over a piece as over one unit
(`Holds.units_append`), whatever follows, so it gets to that place and no further.

`decode_and_units` compares the unit reader with the preference for plain UTF-8: an answer
of the unit reader is kept, and there is another answer only for plain UTF-8 in which some
character takes four bytes.  The unit reader stops before the first of these.
-/
import ClassIndex.Proofs.Text.ModifiedUtf8

namespace ClassIndex

/-! ## Characters of units -/

namespace Utf16

/-- Units and the characters they are read as: those they are the units of, and U+FFFD for
each surrogate that is not the first half of a pair with the unit behind it. -/
inductive Reads : List UInt16 → List Char → Prop where
  | nil : Reads [] []
  | char {us : List UInt16} {cs : List Char} (c : Char) (h : Reads us cs) :
    Reads (units c ++ us) (c :: cs)
  | unpaired {u : UInt16} {us : List UInt16} {cs : List Char}
    (hu : 0xD800 ≤ u.toNat ∧ u.toNat ≤ 0xDFFF)
    (hpair : ∀ v ∈ us.head?, u.toNat ≤ 0xDBFF → ¬ (0xDC00 ≤ v.toNat ∧ v.toNat ≤ 0xDFFF))
    (h : Reads us cs) : Reads (u :: us) ('\uFFFD' :: cs)

theorem units_ofNat {u : UInt16} (h : u.toNat < 0xD800 ∨ 0xDFFF < u.toNat) :
    units (Char.ofNat u.toNat) = [u] := by
  have hu : u.toNat < 0x10000 := u.toNat_lt
  have hc : (Char.ofNat u.toNat).toNat = u.toNat := Utf8.toNat_char (by omega)
  rw [units, hc, if_pos hu, UInt16.ofNat_toNat]

theorem units_pair {u v : UInt16} (hu : 0xD800 ≤ u.toNat ∧ u.toNat < 0xDC00)
    (hv : 0xDC00 ≤ v.toNat ∧ v.toNat < 0xE000) : units (pair u v) = [u, v] := by
  have hc : (pair u v).toNat = 0x10000 + u.toNat % 1024 * 1024 + v.toNat % 1024 :=
    Utf8.toNat_char (by omega)
  rw [units, hc, if_neg (by omega),
    show 0xD800 + (0x10000 + u.toNat % 1024 * 1024 + v.toNat % 1024 - 0x10000) / 1024 = u.toNat by
      omega,
    show 0xDC00 + (0x10000 + u.toNat % 1024 * 1024 + v.toNat % 1024 - 0x10000) % 1024 = v.toNat by
      omega,
    UInt16.ofNat_toNat, UInt16.ofNat_toNat]

theorem reads_decode (us : List UInt16) : Reads us (decode us) := by
  -- A high surrogate at the end, before a low one and before anything else; then a low one
  -- by itself, and last a unit that is no surrogate.
  fun_induction decode us with
  | case1 => exact .nil
  | case2 u hhigh =>
    rw [isHigh_iff] at hhigh
    exact .unpaired (by omega) nofun .nil
  | case3 u hhigh v rest hlow ih =>
    rw [isHigh_iff] at hhigh
    rw [isLow_iff] at hlow
    have hread := Reads.char (pair u v) ih
    rwa [units_pair hhigh hlow] at hread
  | case4 u hhigh v rest hlow ih =>
    rw [isHigh_iff] at hhigh
    rw [isLow_iff] at hlow
    refine .unpaired (by omega) ?_ ih
    intro w hw _
    cases hw
    omega
  | case5 u rest hhigh hlow ih =>
    rw [isLow_iff] at hlow
    refine .unpaired (by omega) ?_ ih
    intro v _ hle
    omega
  | case6 u rest hhigh hlow ih =>
    rw [isHigh_iff] at hhigh
    rw [isLow_iff] at hlow
    have hread := Reads.char (Char.ofNat u.toNat) ih
    rwa [units_ofNat (by omega)] at hread

theorem decode_unpaired {u : UInt16} {us : List UInt16} (hu : 0xD800 ≤ u.toNat ∧ u.toNat ≤ 0xDFFF)
    (hpair : ∀ v ∈ us.head?, u.toNat ≤ 0xDBFF → ¬ (0xDC00 ≤ v.toNat ∧ v.toNat ≤ 0xDFFF)) :
    decode (u :: us) = '\uFFFD' :: decode us := by
  by_cases hhigh : isHigh u = true
  · cases us with
    | nil => rw [decode.eq_def]; simp only [if_pos hhigh]; rfl
    | cons v us =>
      have hlow : ¬ isLow v = true := by
        rw [isHigh_iff] at hhigh
        rw [isLow_iff]
        have hv := hpair v rfl (by omega)
        omega
      rw [decode.eq_def]
      simp only [if_pos hhigh, if_neg hlow]
  · have hlow : isLow u = true := by
      rw [isHigh_iff] at hhigh
      rw [isLow_iff]
      omega
    rw [decode.eq_def]
    simp only [if_neg hhigh, if_pos hlow]

theorem decode_eq_iff_reads {us : List UInt16} {cs : List Char} :
    decode us = cs ↔ Reads us cs := by
  constructor
  · intro h
    rw [← h]
    exact reads_decode us
  · intro h
    induction h with
    | nil => rfl
    | char c _ ih => rw [decode_units_append, ih]
    | unpaired hu hpair _ ih => rw [decode_unpaired hu hpair, ih]

end Utf16

namespace ModifiedUtf8

/-! ## Bytes that hold a unit -/

/-- One, two or three bytes and the unit they hold.  Overlong forms are among them. -/
inductive Holds : List UInt8 → UInt16 → Prop where
  | one {a : UInt8} (ha : a.toNat ≤ 0x7F) : Holds [a] a.toUInt16
  | two {a b : UInt8} (ha : 0xC0 ≤ a.toNat ∧ a.toNat ≤ 0xDF)
    (hb : 0x80 ≤ b.toNat ∧ b.toNat ≤ 0xBF) :
    Holds [a, b] (UInt16.ofNat ((a.toNat - 0xC0) * 64 + (b.toNat - 0x80)))
  | three {a b c : UInt8} (ha : 0xE0 ≤ a.toNat ∧ a.toNat ≤ 0xEF)
    (hb : 0x80 ≤ b.toNat ∧ b.toNat ≤ 0xBF) (hc : 0x80 ≤ c.toNat ∧ c.toNat ≤ 0xBF) :
    Holds [a, b, c]
      (UInt16.ofNat ((a.toNat - 0xE0) * 4096 + (b.toNat - 0x80) * 64 + (c.toNat - 0x80)))

/-- Bytes that are pieces one after the other, and the units these hold. -/
inductive FallsInto : List UInt8 → List UInt16 → Prop where
  | nil : FallsInto [] []
  | cons {piece bs : List UInt8} {u : UInt16} {us : List UInt16} (h : Holds piece u)
    (hs : FallsInto bs us) : FallsInto (piece ++ bs) (u :: us)

/-- Bytes that do not start with a unit, be it that they end inside one. -/
structure Malformed (bs : List UInt8) : Prop where
  ne_nil : bs ≠ []
  no_unit : ∀ piece u, Holds piece u → ¬ piece <+: bs

/-- The offset up to which bytes fall into units and behind which they do not. -/
structure FirstMalformed (bs : List UInt8) (offset : Nat) : Prop where
  front : ∃ us, FallsInto (bs.take offset) us
  longest : ∀ n us, n ≤ bs.length → FallsInto (bs.take n) us → n ≤ offset
  malformed : Malformed (bs.drop offset)

theorem Holds.length_pos {piece : List UInt8} {u : UInt16} (h : Holds piece u) :
    0 < piece.length := by
  cases h <;> exact Nat.succ_pos _

/-! ## The reader along the pieces -/

section Reader

variable {offset : Nat} {bs front rest : List UInt8} {us : List UInt16}

theorem Holds.units_append {piece : List UInt8} {u : UInt16} (h : Holds piece u) :
    units offset (piece ++ rest) = (u :: ·) <$> units (offset + piece.length) rest := by
  cases h with
  | one ha => exact units_one (Nat.lt_succ_of_le ha)
  | @two a b ha hb =>
    have hvalue : a.toNat % 32 * 64 + b.toNat % 64 = (a.toNat - 0xC0) * 64 + (b.toNat - 0x80) := by
      omega
    rw [← hvalue]
    exact units_two ha (Utf8.isTail_iff.mpr hb)
  | @three a b c ha hb hc =>
    have hvalue : a.toNat % 16 * 4096 + b.toNat % 64 * 64 + c.toNat % 64 =
        (a.toNat - 0xE0) * 4096 + (b.toNat - 0x80) * 64 + (c.toNat - 0x80) := by omega
    rw [← hvalue]
    exact units_three ha (Utf8.isTail_iff.mpr hb) (Utf8.isTail_iff.mpr hc)

theorem Malformed.units_eq (h : Malformed bs) : units offset bs = .error offset := by
  obtain ⟨hne, hunit⟩ := h
  -- Wherever the reader would take a unit, the bytes it takes hold one.
  rw [units.eq_def]
  split
  · exact absurd rfl hne
  · next a rest =>
    simp only [UInt8.lt_iff_toNat_lt, UInt8.le_iff_toNat_le, UInt8.reduceToNat,
      Bool.and_eq_true, decide_eq_true_eq]
    split
    · next ha =>
      exact absurd ⟨rest, rfl⟩ (hunit [a] _ (.one (by omega)))
    · split
      · next ha =>
        split
        · next b rest₂ =>
          split
          · next hb =>
            exact absurd ⟨rest₂, rfl⟩ (hunit [a, b] _ (.two ha (Utf8.isTail_iff.mp hb)))
          · rfl
        · rfl
      · split
        · next ha =>
          split
          · next b c rest₃ =>
            split
            · next htails =>
              exact absurd ⟨rest₃, rfl⟩ (hunit [a, b, c] _
                (.three ha (Utf8.isTail_iff.mp htails.1) (Utf8.isTail_iff.mp htails.2)))
            · rfl
          · rfl
        · rfl

theorem FallsInto.units_append (h : FallsInto front us) :
    units offset (front ++ rest) = (us ++ ·) <$> units (offset + front.length) rest := by
  induction h generalizing offset with
  | nil => exact (id_map _).symm
  | @cons piece bs u us h _ ih =>
    rw [List.append_assoc, h.units_append, ih, List.length_append, Nat.add_assoc]
    exact (comp_map _ _ _).symm

/-- Bytes fall into pieces to their end or to a place where no piece starts. -/
theorem exists_front (bs : List UInt8) : ∃ front us rest, bs = front ++ rest ∧
    FallsInto front us ∧ (rest = [] ∨ Malformed rest) := by
  induction hn : bs.length using Nat.strongRecOn generalizing bs with
  | _ n ih =>
    by_cases hpiece : ∃ piece u, Holds piece u ∧ piece <+: bs
    · obtain ⟨piece, u, hholds, tail, rfl⟩ := hpiece
      have hshorter : tail.length < n := by
        have hpos := hholds.length_pos
        rw [← hn, List.length_append]
        omega
      obtain ⟨front, us, rest, rfl, hfront, hrest⟩ := ih tail.length hshorter tail rfl
      exact ⟨piece ++ front, u :: us, rest, by rw [List.append_assoc], .cons hholds hfront, hrest⟩
    · by_cases hnil : bs = []
      · exact ⟨[], [], bs, rfl, .nil, Or.inl hnil⟩
      · refine ⟨[], [], bs, rfl, .nil, Or.inr ⟨hnil, ?_⟩⟩
        intro piece u hholds hstarts
        exact hpiece ⟨piece, u, hholds, hstarts⟩

theorem units_of_malformed (hfront : FallsInto front us) (hrest : Malformed rest) :
    units offset (front ++ rest) = .error (offset + front.length) := by
  rw [hfront.units_append, hrest.units_eq]
  rfl

theorem units_eq_ok_iff_fallsInto : units offset bs = .ok us ↔ FallsInto bs us := by
  constructor
  · intro h
    obtain ⟨front, vs, rest, rfl, hfront, rfl | hrest⟩ := exists_front bs
    · rw [hfront.units_append] at h
      cases h
      show FallsInto (front ++ []) (vs ++ [])
      rwa [List.append_nil, List.append_nil]
    · rw [units_of_malformed hfront hrest] at h
      cases h
  · intro h
    have hread : units offset (bs ++ []) = .ok (us ++ []) := h.units_append
    rwa [List.append_nil, List.append_nil] at hread

/-! ## Where the reader stops -/

theorem units_eq_error_iff {e : Nat} : units offset bs = .error e ↔
    ∃ front us rest, bs = front ++ rest ∧ FallsInto front us ∧ Malformed rest ∧
      e = offset + front.length := by
  constructor
  · intro h
    obtain ⟨front, us, rest, rfl, hfront, rfl | hrest⟩ := exists_front bs
    · rw [hfront.units_append] at h
      cases h
    · rw [units_of_malformed hfront hrest] at h
      cases h
      exact ⟨front, us, rest, rfl, hfront, hrest, rfl⟩
  · intro h
    obtain ⟨front, us, rest, rfl, hfront, hrest, rfl⟩ := h
    exact units_of_malformed hfront hrest

/-- Pieces that begin with other pieces go on with pieces: the reader has no choice. -/
theorem FallsInto.of_append {more : List UInt8} {vs : List UInt16}
    (hall : FallsInto (front ++ more) vs) (hfront : FallsInto front us) :
    ∃ ws, FallsInto more ws := by
  have hread : units 0 (front ++ more) = .ok vs := units_eq_ok_iff_fallsInto.mpr hall
  rw [hfront.units_append] at hread
  obtain ⟨ws, hws, -⟩ := except_map_eq_ok.mp hread
  exact ⟨ws, units_eq_ok_iff_fallsInto.mp hws⟩

/-- Where no piece starts, there are no pieces but none at all. -/
theorem Malformed.eq_nil_of_fallsInto {more : List UInt8} (h : Malformed rest)
    (hmore : more <+: rest) (hfalls : FallsInto more us) : more = [] := by
  cases hfalls with
  | nil => rfl
  | cons hholds _ =>
    exact absurd ((List.prefix_append _ _).trans hmore) (h.no_unit _ _ hholds)

theorem firstMalformed_append (hfront : FallsInto front us) (hrest : Malformed rest) :
    FirstMalformed (front ++ rest) front.length := by
  refine ⟨⟨us, ?_⟩, ?_, ?_⟩
  · rwa [List.take_left]
  · intro n vs hn hvs
    refine Nat.not_lt.mp fun hlt => ?_
    have htake : (front ++ rest).take n = front ++ rest.take (n - front.length) := by
      rw [List.take_append, List.take_of_length_le (Nat.le_of_lt hlt)]
    rw [htake] at hvs
    obtain ⟨ws, hws⟩ := hvs.of_append hfront
    have hnil := hrest.eq_nil_of_fallsInto (List.take_prefix _ _) hws
    have hlength := congrArg List.length hnil
    rw [List.length_append] at hn
    rw [List.length_take, List.length_nil] at hlength
    omega
  · rwa [List.drop_left]

theorem units_eq_error_iff_firstMalformed {e : Nat} :
    units 0 bs = .error e ↔ FirstMalformed bs e := by
  rw [units_eq_error_iff]
  constructor
  · intro h
    obtain ⟨front, us, rest, rfl, hfront, hrest, rfl⟩ := h
    rw [Nat.zero_add]
    exact firstMalformed_append hfront hrest
  · intro h
    obtain ⟨us, hus⟩ := h.front
    have hle : e ≤ bs.length := Nat.not_lt.mp fun hlt =>
      h.malformed.ne_nil (List.drop_eq_nil_of_le (Nat.le_of_lt hlt))
    refine ⟨bs.take e, us, bs.drop e, (List.take_append_drop e bs).symm, hus, h.malformed, ?_⟩
    rw [Nat.zero_add, List.length_take_of_le hle]

/-- In plain UTF-8 the unit reader gets over characters that are one unit each. -/
theorem units_encode_append {before : List Char} (h : ∀ d ∈ before, d.toNat < 0x10000) :
    units offset (Utf8.encode before ++ rest) =
      (before.flatMap Utf16.units ++ ·) <$> units (offset + (Utf8.encode before).length) rest := by
  induction before generalizing offset with
  | nil => exact (id_map _).symm
  | cons d before ih =>
    obtain ⟨hd, hbefore⟩ := List.forall_mem_cons.mp h
    rw [Utf8.encode_cons, List.append_assoc, units_encodeChar hd, ih hbefore, List.length_append,
      Nat.add_assoc, List.flatMap_cons, Utf16.units, if_pos hd]
    exact (comp_map _ _ _).symm

/-- It stops at a character that is two units. -/
theorem units_encode_stop {before after : List Char} {c : Char} (hc : 0x10000 ≤ c.toNat)
    (hbefore : ∀ d ∈ before, d.toNat < 0x10000) :
    units offset (Utf8.encode (before ++ c :: after)) =
      .error (offset + (Utf8.encode before).length) := by
  rw [Utf8.encode_append, Utf8.encode_cons, units_encode_append hbefore, units_encodeChar_error hc]
  rfl

theorem units_encode_eq_error_iff {cs : List Char} {e : Nat} :
    units offset (Utf8.encode cs) = .error e ↔ ∃ before c after, cs = before ++ c :: after ∧
      0x10000 ≤ c.toNat ∧ (∀ d ∈ before, d.toNat < 0x10000) ∧
      e = offset + (Utf8.encode before).length := by
  constructor
  · intro h
    cases hfind : cs.find? fun c => 0x10000 ≤ c.toNat with
    | none =>
      have hall : ∀ d ∈ cs, d.toNat < 0x10000 := by simpa using hfind
      have hread : units offset (Utf8.encode cs ++ []) = _ := units_encode_append hall
      rw [List.append_nil, h] at hread
      cases hread
    | some c =>
      obtain ⟨hc, before, after, rfl, hfirst⟩ := List.find?_eq_some_iff_append.mp hfind
      have hc : 0x10000 ≤ c.toNat := by simpa using hc
      have hbefore : ∀ d ∈ before, d.toNat < 0x10000 := by simpa using hfirst
      rw [units_encode_stop hc hbefore] at h
      cases h
      exact ⟨before, c, after, rfl, hc, hbefore, rfl⟩
  · intro h
    obtain ⟨before, c, after, rfl, hc, hbefore, rfl⟩ := h
    exact units_encode_stop hc hbefore

end Reader

/-! ## Plain UTF-8 and everything else -/

theorem decode_bytesOf (s : String) : decode (Utf8.bytesOf s) = .ok s := by
  rw [decode, Utf8.bytesOf_eq_encode, Utf8.decode?_encode]
  exact congrArg Except.ok String.ofList_toList

theorem decode_eq_of_ne_bytesOf {bs : List UInt8} (h : ∀ s : String, bs ≠ Utf8.bytesOf s) :
    decode bs = String.ofList <$> decodeUnits bs := by
  unfold decode
  cases hplain : Utf8.decode? bs with
  | none => rfl
  | some cs =>
    refine absurd ?_ (h (String.ofList cs))
    rw [Utf8.bytesOf_eq_encode, String.toList_ofList]
    exact Utf8.decode?_eq_some_iff.mp hplain

theorem ne_bytesOf_of_decode? {bs : List UInt8} (h : Utf8.decode? bs = none) (s : String) :
    bs ≠ Utf8.bytesOf s := by
  intro hbs
  rw [hbs, Utf8.bytesOf_eq_encode, Utf8.decode?_encode] at h
  cases h

/-- A byte string that is not plain UTF-8 is a text exactly when it falls into units, namely
the text these are read as.  Otherwise the fault is the end of the longest beginning that
falls into units. -/
theorem decode_of_not_plain {bs : List UInt8} (hne : ∀ s : String, bs ≠ Utf8.bytesOf s) :
    ((∃ s, decode bs = .ok s) ↔ ∃ us, FallsInto bs us) ∧
    (∀ s, decode bs = .ok s ↔ ∃ us, FallsInto bs us ∧ Utf16.Reads us s.toList) ∧
    (∀ offset, decode bs = .error offset ↔ FirstMalformed bs offset) := by
  have hok : ∀ s, decode bs = .ok s ↔ ∃ us, FallsInto bs us ∧ Utf16.Reads us s.toList := by
    intro s
    rw [decode_eq_of_ne_bytesOf hne, except_map_eq_ok]
    constructor
    · intro h
      obtain ⟨cs, hcs, rfl⟩ := h
      obtain ⟨us, hus, hread⟩ := decodeUnits_eq_ok_iff.mp hcs
      refine ⟨us, units_eq_ok_iff_fallsInto.mp hus, ?_⟩
      rw [String.toList_ofList]
      exact Utf16.decode_eq_iff_reads.mp hread
    · intro h
      obtain ⟨us, hus, hread⟩ := h
      refine ⟨s.toList, decodeUnits_eq_ok_iff.mpr ⟨us, ?_, ?_⟩, String.ofList_toList⟩
      · exact units_eq_ok_iff_fallsInto.mpr hus
      · exact Utf16.decode_eq_iff_reads.mpr hread
  refine ⟨?_, hok, ?_⟩
  · constructor
    · intro h
      obtain ⟨s, hs⟩ := h
      obtain ⟨us, hus, -⟩ := (hok s).mp hs
      exact ⟨us, hus⟩
    · intro h
      obtain ⟨us, hus⟩ := h
      refine ⟨String.ofList (Utf16.decode us), (hok _).mpr ⟨us, hus, ?_⟩⟩
      rw [String.toList_ofList]
      exact Utf16.reads_decode us
  · intro offset
    rw [decode_eq_of_ne_bytesOf hne, decodeUnits, except_map_eq_error, except_map_eq_error]
    exact units_eq_error_iff_firstMalformed

/-- A surrogate without its other half, and bytes that end inside a unit. -/
theorem decode_of_not_plain_odd :
    (∃ us, FallsInto [0xED, 0xA0, 0xBD, 0x21] us ∧ Utf16.Reads us ['\uFFFD', '!']) ∧
    FirstMalformed [0x61, 0xE0, 0xA0] 1 := by
  constructor
  · have hne : ∀ s : String, [0xED, 0xA0, 0xBD, 0x21] ≠ Utf8.bytesOf s :=
      ne_bytesOf_of_decode? (by decide)
    exact ((decode_of_not_plain hne).2.1 "\uFFFD!").mp rfl
  · have hne : ∀ s : String, [0x61, 0xE0, 0xA0] ≠ Utf8.bytesOf s :=
      ne_bytesOf_of_decode? (by decide)
    exact ((decode_of_not_plain hne).2.2 1).mp rfl

theorem length_encodeChar_eq_four_iff {c : Char} :
    (String.utf8EncodeChar c).length = 4 ↔ 0x10000 ≤ c.toNat := by
  rw [String.length_utf8EncodeChar, Char.utf8Size_eq_four_iff]
  exact Iff.rfl

theorem length_encodeChar_lt_four_iff {c : Char} :
    (String.utf8EncodeChar c).length < 4 ↔ c.toNat < 0x10000 := by
  have hle : (String.utf8EncodeChar c).length ≤ 4 := by
    rw [String.length_utf8EncodeChar]
    exact Char.utf8Size_le_four c
  have hfour := length_encodeChar_eq_four_iff (c := c)
  omega

/-- What the unit reader answers is the answer.  Where it fails and there is an answer, the
bytes are plain UTF-8, and it fails before their first character of four bytes. -/
theorem decode_and_units (bs : List UInt8) :
    (∀ cs, decodeUnits bs = .ok cs → decode bs = .ok (String.ofList cs)) ∧
    (∀ s offset, decodeUnits bs = .error offset ∧ decode bs = .ok s ↔ bs = Utf8.bytesOf s ∧
      ∃ before c after, s.toList = before ++ c :: after ∧ (String.utf8EncodeChar c).length = 4 ∧
        (∀ d ∈ before, (String.utf8EncodeChar d).length < 4) ∧
        offset = (Utf8.encode before).length) := by
  refine ⟨fun cs => decode_of_decodeUnits, fun s offset => ?_⟩
  simp only [length_encodeChar_eq_four_iff, length_encodeChar_lt_four_iff]
  have hstop : decodeUnits (Utf8.bytesOf s) = .error offset ↔
      ∃ before c after, s.toList = before ++ c :: after ∧ 0x10000 ≤ c.toNat ∧
        (∀ d ∈ before, d.toNat < 0x10000) ∧ offset = (Utf8.encode before).length := by
    rw [decodeUnits, except_map_eq_error, Utf8.bytesOf_eq_encode, units_encode_eq_error_iff]
    simp only [Nat.zero_add]
  constructor
  · intro h
    obtain ⟨herror, hs⟩ := h
    have hbs : bs = Utf8.bytesOf s := by
      by_cases hplain : ∃ t : String, bs = Utf8.bytesOf t
      · obtain ⟨t, ht⟩ := hplain
        rw [ht, decode_bytesOf] at hs
        cases hs
        exact ht
      · rw [decode_eq_of_ne_bytesOf fun t ht => hplain ⟨t, ht⟩, herror] at hs
        cases hs
    exact ⟨hbs, hstop.mp (hbs ▸ herror)⟩
  · intro h
    obtain ⟨rfl, hfirst⟩ := h
    exact ⟨hstop.mpr hfirst, decode_bytesOf s⟩

/-- A character above U+FFFF as two surrogates and in four bytes. -/
theorem decode_and_units_supplementary :
    decode [0xED, 0xA0, 0xBD, 0xED, 0xB8, 0x80] = .ok "😀" ∧
    decodeUnits [0x61, 0xF0, 0x9F, 0x98, 0x80] = .error 1 := by
  constructor
  · exact (decode_and_units [0xED, 0xA0, 0xBD, 0xED, 0xB8, 0x80]).1 ['😀'] rfl
  · have hbefore : ∀ d ∈ ['a'], (String.utf8EncodeChar d).length < 4 :=
      List.forall_mem_singleton.mpr (by decide)
    exact (((decode_and_units [0x61, 0xF0, 0x9F, 0x98, 0x80]).2 "a😀" 1).mpr
      ⟨by decide, ['a'], '😀', [], by decide, by decide, hbefore, by decide⟩).1

end ModifiedUtf8
end ClassIndex

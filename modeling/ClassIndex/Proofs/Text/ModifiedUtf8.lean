/-
Texts in class files are read as they were written.

A class file may hold a text in its own encoding or in plain UTF-8, and one reader takes
both.  `decode_form_and_plain` is the main statement: whatever its characters, a text comes
back from either form.

The two forms differ for NUL and for characters above U+FFFF only.  Where they agree, the
units of the plain form are those of the text (`units_encode`); where they differ, the unit
reader fails on the plain form or gives the same text.  So the reader's preference for plain
UTF-8 never costs an answer that the units give (`decode_of_decodeUnits`).
-/
import ClassIndex.Proofs.Text.Utf8
import ClassIndex.Text.ModifiedUtf8

namespace ClassIndex

/-! ## Surrogates -/

namespace Utf16

theorem toNat_ofNat_of_lt {n : Nat} (h : n < 0x10000) : (UInt16.ofNat n).toNat = n := by
  rw [UInt16.toNat_ofNat', Nat.mod_eq_of_lt h]

theorem isHigh_iff {u : UInt16} : isHigh u = true ↔ 0xD800 ≤ u.toNat ∧ u.toNat < 0xDC00 := by
  simp [isHigh, UInt16.le_iff_toNat_le, UInt16.lt_iff_toNat_lt]

theorem isLow_iff {u : UInt16} : isLow u = true ↔ 0xDC00 ≤ u.toNat ∧ u.toNat < 0xE000 := by
  simp [isLow, UInt16.le_iff_toNat_le, UInt16.lt_iff_toNat_lt]

/-- The units of a character are read as that character, whatever follows them: no unit of
another character can pair up with them. -/
theorem decode_units_append (c : Char) (rest : List UInt16) :
    decode (units c ++ rest) = c :: decode rest := by
  have hc : c.toNat < 0xD800 ∨ 0xDFFF < c.toNat ∧ c.toNat < 0x110000 := c.valid
  unfold units
  by_cases h : c.toNat < 0x10000
  · have hu : (UInt16.ofNat c.toNat).toNat = c.toNat := toNat_ofNat_of_lt h
    have hhigh : ¬ isHigh (UInt16.ofNat c.toNat) = true := by
      rw [isHigh_iff]
      omega
    have hlow : ¬ isLow (UInt16.ofNat c.toNat) = true := by
      rw [isLow_iff]
      omega
    rw [if_pos h, List.singleton_append, decode.eq_def]
    simp only [if_neg hhigh, if_neg hlow, hu, Char.ofNat_toNat]
  · have hu : (UInt16.ofNat (0xD800 + (c.toNat - 0x10000) / 1024)).toNat =
        0xD800 + (c.toNat - 0x10000) / 1024 := toNat_ofNat_of_lt (by omega)
    have hv : (UInt16.ofNat (0xDC00 + (c.toNat - 0x10000) % 1024)).toNat =
        0xDC00 + (c.toNat - 0x10000) % 1024 := toNat_ofNat_of_lt (by omega)
    have hhigh : isHigh (UInt16.ofNat (0xD800 + (c.toNat - 0x10000) / 1024)) = true := by
      rw [isHigh_iff]
      omega
    have hlow : isLow (UInt16.ofNat (0xDC00 + (c.toNat - 0x10000) % 1024)) = true := by
      rw [isLow_iff]
      omega
    have hpair : pair (UInt16.ofNat (0xD800 + (c.toNat - 0x10000) / 1024))
        (UInt16.ofNat (0xDC00 + (c.toNat - 0x10000) % 1024)) = c := by
      rw [pair, hu, hv]
      exact Utf8.char_ofNat_eq (by omega)
    rw [if_neg h, List.cons_append, List.singleton_append, decode.eq_def]
    simp only [if_pos hhigh, if_pos hlow, hpair]

theorem decode_flatMap_units (cs : List Char) : decode (cs.flatMap units) = cs := by
  induction cs with
  | nil => rfl
  | cons c cs ih => rw [List.flatMap_cons, decode_units_append, ih]

end Utf16

namespace ModifiedUtf8

/-! ## The rules of the form

Stated over characters, whereas `encode` goes through the units of the whole text. -/

/-- The three bytes of a number of sixteen bits. -/
def wide (n : Nat) : List UInt8 :=
  [UInt8.ofNat (0xE0 + n / 4096), UInt8.ofNat (0x80 + n / 64 % 64), UInt8.ofNat (0x80 + n % 64)]

/-- A character in a class file: NUL has two bytes, and one above U+FFFF is written as its
two surrogates. -/
def form (c : Char) : List UInt8 :=
  if c.toNat = 0 then [0xC0, 0x80]
  else if c.toNat < 0x10000 then String.utf8EncodeChar c
  else wide (0xD800 + (c.toNat - 0x10000) / 1024) ++ wide (0xDC00 + (c.toNat - 0x10000) % 1024)

theorem encodeUnit_wide {n : Nat} (h : 0x800 ≤ n ∧ n < 0x10000) :
    encodeUnit (UInt16.ofNat n) = wide n := by
  unfold encodeUnit
  simp only [Utf16.toNat_ofNat_of_lt h.2]
  rw [if_neg (by omega), if_neg (by omega), if_neg (by omega)]
  rfl

/-- Between NUL and the surrogates' characters, a unit is written as its character is in
plain UTF-8. -/
theorem encodeUnit_char {c : Char} (hzero : c.toNat ≠ 0) (h : c.toNat < 0x10000) :
    encodeUnit (UInt16.ofNat c.toNat) = String.utf8EncodeChar c := by
  have hval : c.val.toNat = c.toNat := rfl
  unfold encodeUnit String.utf8EncodeChar
  simp only [Utf16.toNat_ofNat_of_lt h, hval]
  rw [if_neg hzero]
  by_cases h1 : c.toNat < 0x80
  · have hle : c.toNat ≤ 0x7F := by omega
    rw [if_pos h1, if_pos hle]
  · have hle : ¬ c.toNat ≤ 0x7F := by omega
    rw [if_neg h1, if_neg hle]
    by_cases h2 : c.toNat < 0x800
    · have hle : c.toNat ≤ 0x7FF := by omega
      rw [if_pos h2, if_pos hle, show 0xC0 + c.toNat / 64 = c.toNat / 64 % 32 + 192 by omega,
        show 0x80 + c.toNat % 64 = c.toNat % 64 + 128 by omega]
    · have hle : ¬ c.toNat ≤ 0x7FF ∧ c.toNat ≤ 0xFFFF := by omega
      rw [if_neg h2, if_neg hle.1, if_pos hle.2,
        show 0xE0 + c.toNat / 4096 = c.toNat / 4096 % 16 + 224 by omega,
        show 0x80 + c.toNat / 64 % 64 = c.toNat / 64 % 64 + 128 by omega,
        show 0x80 + c.toNat % 64 = c.toNat % 64 + 128 by omega]

theorem flatMap_encodeUnit_units (c : Char) : (Utf16.units c).flatMap encodeUnit = form c := by
  have hc : c.toNat < 0xD800 ∨ 0xDFFF < c.toNat ∧ c.toNat < 0x110000 := c.valid
  unfold Utf16.units form
  by_cases hzero : c.toNat = 0
  · rw [hzero, if_pos (by decide), if_pos rfl]
    rfl
  · rw [if_neg hzero]
    by_cases h : c.toNat < 0x10000
    · rw [if_pos h, if_pos h, List.flatMap_singleton, encodeUnit_char hzero h]
    · rw [if_neg h, if_neg h, List.flatMap_cons, List.flatMap_singleton,
        encodeUnit_wide (by omega), encodeUnit_wide (by omega)]

/-- A text is written character by character. -/
theorem encode_eq_flatMap_form (cs : List Char) : encode cs = cs.flatMap form := by
  rw [encode, List.flatMap_assoc]
  simp only [flatMap_encodeUnit_units]

example : encode [Char.ofNat 0, 'a', '😀'] =
    [0xC0, 0x80, 0x61, 0xED, 0xA0, 0xBD, 0xED, 0xB8, 0x80] := by decide

/-! ## Reading units -/

theorem except_map_eq_ok {ε α β : Type} {r : Except ε α} {f : α → β} {b : β} :
    f <$> r = .ok b ↔ ∃ a, r = .ok a ∧ f a = b := by
  cases r with
  | error e => exact iff_of_false nofun nofun
  | ok a =>
    show Except.ok (f a) = .ok b ↔ _
    simp

theorem except_map_eq_error {ε α β : Type} {r : Except ε α} {f : α → β} {e : ε} :
    f <$> r = .error e ↔ r = .error e := by
  cases r with
  | error d => constructor <;> intro h <;> cases h <;> rfl
  | ok a => exact iff_of_false nofun nofun

section Units

variable {offset : Nat} {a b c : UInt8} {rest : List UInt8}

theorem units_one (ha : a.toNat < 0x80) :
    units offset (a :: rest) = (a.toUInt16 :: ·) <$> units (offset + 1) rest := by
  rw [units.eq_def]
  simp only [UInt8.lt_iff_toNat_lt, UInt8.reduceToNat, if_pos ha]

theorem units_two (ha : 0xC0 ≤ a.toNat ∧ a.toNat ≤ 0xDF) (hb : Utf8.isTail b = true) :
    units offset (a :: b :: rest) =
      (UInt16.ofNat (a.toNat % 32 * 64 + b.toNat % 64) :: ·) <$> units (offset + 2) rest := by
  have hone : ¬ a.toNat < 0x80 := by omega
  rw [units.eq_def]
  simp only [UInt8.lt_iff_toNat_lt, UInt8.le_iff_toNat_le, UInt8.reduceToNat, if_neg hone, ha.1,
    ha.2, hb, decide_true, Bool.and_self, if_true]

theorem units_three (ha : 0xE0 ≤ a.toNat ∧ a.toNat ≤ 0xEF) (hb : Utf8.isTail b = true)
    (hc : Utf8.isTail c = true) : units offset (a :: b :: c :: rest) =
      (UInt16.ofNat (a.toNat % 16 * 4096 + b.toNat % 64 * 64 + c.toNat % 64) :: ·) <$>
        units (offset + 3) rest := by
  have hone : ¬ a.toNat < 0x80 := by omega
  have htwo : ¬ a.toNat ≤ 0xDF := by omega
  rw [units.eq_def]
  simp only [UInt8.lt_iff_toNat_lt, UInt8.le_iff_toNat_le, UInt8.reduceToNat, if_neg hone, htwo,
    ha.1, ha.2, hb, hc, decide_true, decide_false, Bool.and_false, Bool.and_self, if_true,
    Bool.false_eq_true, if_false]

theorem units_error (ha : 0xF0 ≤ a.toNat) : units offset (a :: rest) = .error offset := by
  have hone : ¬ a.toNat < 0x80 := by omega
  have htwo : ¬ a.toNat ≤ 0xDF := by omega
  have hthree : ¬ a.toNat ≤ 0xEF := by omega
  rw [units.eq_def]
  simp only [UInt8.lt_iff_toNat_lt, UInt8.le_iff_toNat_le, UInt8.reduceToNat, if_neg hone, htwo,
    hthree, decide_false, Bool.and_false, Bool.false_eq_true, if_false]

/-- A unit is read as it was written. -/
theorem units_encodeUnit (u : UInt16) : units offset (encodeUnit u ++ rest) =
    (u :: ·) <$> units (offset + (encodeUnit u).length) rest := by
  have hu : u.toNat < 0x10000 := u.toNat_lt
  unfold encodeUnit
  by_cases hzero : u.toNat = 0
  · have heq : u = 0 := UInt16.toNat_inj.mp hzero
    simp only [if_pos hzero]
    rw [List.cons_append, List.singleton_append, units_two (by decide) (by decide), heq]
    rfl
  simp only [if_neg hzero]
  by_cases hone : u.toNat < 0x80
  · have ha : (UInt8.ofNat u.toNat).toNat = u.toNat := Utf8.toNat_ofNat_of_lt (by omega)
    have heq : (UInt8.ofNat u.toNat).toUInt16 = u := by
      rw [← UInt16.toNat_inj, UInt8.toNat_toUInt16, ha]
    rw [if_pos hone, List.singleton_append, units_one (by omega), heq]
    rfl
  rw [if_neg hone]
  by_cases htwo : u.toNat < 0x800
  · have ha : (UInt8.ofNat (0xC0 + u.toNat / 64)).toNat = 0xC0 + u.toNat / 64 :=
      Utf8.toNat_ofNat_of_lt (by omega)
    have hb : (UInt8.ofNat (0x80 + u.toNat % 64)).toNat = 0x80 + u.toNat % 64 :=
      Utf8.toNat_ofNat_of_lt (by omega)
    rw [if_pos htwo, List.cons_append, List.singleton_append,
      units_two (by omega) (Utf8.isTail_iff.mpr (by omega)), ha, hb,
      show (0xC0 + u.toNat / 64) % 32 * 64 + (0x80 + u.toNat % 64) % 64 = u.toNat by omega,
      UInt16.ofNat_toNat]
    rfl
  · have ha : (UInt8.ofNat (0xE0 + u.toNat / 4096)).toNat = 0xE0 + u.toNat / 4096 :=
      Utf8.toNat_ofNat_of_lt (by omega)
    have hb : (UInt8.ofNat (0x80 + u.toNat / 64 % 64)).toNat = 0x80 + u.toNat / 64 % 64 :=
      Utf8.toNat_ofNat_of_lt (by omega)
    have hc : (UInt8.ofNat (0x80 + u.toNat % 64)).toNat = 0x80 + u.toNat % 64 :=
      Utf8.toNat_ofNat_of_lt (by omega)
    rw [if_neg htwo, List.cons_append, List.cons_append, List.singleton_append,
      units_three (by omega) (Utf8.isTail_iff.mpr (by omega)) (Utf8.isTail_iff.mpr (by omega)),
      ha, hb, hc, show (0xE0 + u.toNat / 4096) % 16 * 4096 + (0x80 + u.toNat / 64 % 64) % 64 * 64 +
        (0x80 + u.toNat % 64) % 64 = u.toNat by omega, UInt16.ofNat_toNat]
    rfl

theorem units_flatMap_encodeUnit (us : List UInt16) :
    units offset (us.flatMap encodeUnit) = .ok us := by
  induction us generalizing offset with
  | nil => rfl
  | cons u us ih =>
    rw [List.flatMap_cons, units_encodeUnit, ih]
    rfl

/-! ## Units of plain UTF-8 -/

/-- Plain UTF-8 has a unit for each character that is one unit. -/
theorem units_encodeChar {c : Char} (h : c.toNat < 0x10000) :
    units offset (String.utf8EncodeChar c ++ rest) =
      (UInt16.ofNat c.toNat :: ·) <$> units (offset + (String.utf8EncodeChar c).length) rest := by
  by_cases hzero : c.toNat = 0
  · have hc : c = Char.ofNat 0 := (Utf8.char_ofNat_eq hzero.symm).symm
    rw [hc]
    exact units_one (by decide)
  · rw [← encodeUnit_char hzero h]
    exact units_encodeUnit _

/-- A sequence of four bytes is no unit. -/
theorem units_encodeChar_error {c : Char} (h : 0x10000 ≤ c.toNat) :
    units offset (String.utf8EncodeChar c ++ rest) = .error offset := by
  have hval : c.val.toNat = c.toNat := rfl
  have hle : ¬ c.toNat ≤ 0x7F ∧ ¬ c.toNat ≤ 0x7FF ∧ ¬ c.toNat ≤ 0xFFFF := by omega
  have ha : (UInt8.ofNat (c.toNat / 262144 % 8 + 240)).toNat = c.toNat / 262144 % 8 + 240 :=
    Utf8.toNat_ofNat_of_lt (by omega)
  unfold String.utf8EncodeChar
  simp only [hval, if_neg hle.1, if_neg hle.2.1, if_neg hle.2.2]
  rw [List.cons_append, units_error (by omega)]

/-- Where the units of a plain text can be read, they are the units of its characters. -/
theorem units_encode {cs : List Char} {us : List UInt16}
    (h : units offset (Utf8.encode cs) = .ok us) : us = cs.flatMap Utf16.units := by
  induction cs generalizing offset us with
  | nil =>
    cases h
    rfl
  | cons c cs ih =>
    rw [Utf8.encode_cons] at h
    by_cases hc : c.toNat < 0x10000
    · rw [units_encodeChar hc] at h
      obtain ⟨vs, hvs, rfl⟩ := except_map_eq_ok.mp h
      rw [ih hvs, List.flatMap_cons, Utf16.units, if_pos hc, List.singleton_append]
    · rw [units_encodeChar_error (by omega)] at h
      cases h

end Units

/-! ## Texts -/

theorem decodeUnits_eq_ok_iff {bs : List UInt8} {cs : List Char} :
    decodeUnits bs = .ok cs ↔ ∃ us, units 0 bs = .ok us ∧ Utf16.decode us = cs :=
  except_map_eq_ok

theorem decodeUnits_encode (cs : List Char) : decodeUnits (encode cs) = .ok cs := by
  rw [decodeUnits_eq_ok_iff]
  exact ⟨_, units_flatMap_encodeUnit _, Utf16.decode_flatMap_units cs⟩

/-- A text that the units give is the answer, also where the bytes are plain UTF-8. -/
theorem decode_of_decodeUnits {bs : List UInt8} {cs : List Char} (h : decodeUnits bs = .ok cs) :
    decode bs = .ok (String.ofList cs) := by
  unfold decode
  cases hplain : Utf8.decode? bs with
  | none =>
    rw [h]
    rfl
  | some ds =>
    obtain ⟨us, hus, rfl⟩ := decodeUnits_eq_ok_iff.mp h
    rw [Utf8.decode?_eq_some_iff] at hplain
    rw [hplain] at hus
    rw [units_encode hus, Utf16.decode_flatMap_units]

/-- A text is read back from its class file form, in which characters are written by the
rules of the format, and from plain UTF-8. -/
theorem decode_form_and_plain (s : String) :
    decode (s.toList.flatMap form) = .ok s ∧ decode (Utf8.bytesOf s) = .ok s ∧
      encode s.toList = s.toList.flatMap form := by
  refine ⟨?_, ?_, encode_eq_flatMap_form s.toList⟩
  · rw [← encode_eq_flatMap_form, decode_of_decodeUnits (decodeUnits_encode s.toList),
      String.ofList_toList]
  · rw [decode, Utf8.bytesOf_eq_encode, Utf8.decode?_encode]
    exact congrArg Except.ok String.ofList_toList

end ModifiedUtf8
end ClassIndex

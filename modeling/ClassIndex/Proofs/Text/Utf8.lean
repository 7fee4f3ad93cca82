/-
UTF-8 reads what it writes, and only that.

Every character is written as one chunk (`chunks_encodeChar`), so a written text is
read back whole (`decode?_encode`).  Conversely the bytes of each chunk that is a
character are those it is written with (`encode_of_chunks`), so that nothing else is
read (`decode?_eq_some_iff`).  An ASCII byte inside a written text is a
character of its own, never a part of a longer one (`encodeChar_ascii_or`), so that
the bytes of a text can be cut at such a byte as the text at that character.  The
same goes for bytes that are no text: what starts with an ASCII byte is read alike
whatever stands before it (`decode?_append`).
-/
import ClassIndex.Text.Utf8

namespace ClassIndex
namespace Utf8

/-! ## Bounds on bytes -/

/-- The table of first bytes over numbers. -/
theorem follow?_eq (a : UInt8) : follow? a =
    if a.toNat < 0xC2 then none
    else if a.toNat ≤ 0xDF then some (1, 0x80, 0xBF)
    else if a.toNat = 0xE0 then some (2, 0xA0, 0xBF)
    else if a.toNat = 0xED then some (2, 0x80, 0x9F)
    else if a.toNat ≤ 0xEF then some (2, 0x80, 0xBF)
    else if a.toNat = 0xF0 then some (3, 0x90, 0xBF)
    else if a.toNat ≤ 0xF3 then some (3, 0x80, 0xBF)
    else if a.toNat = 0xF4 then some (3, 0x80, 0x8F)
    else none := by
  simp only [follow?, UInt8.lt_iff_toNat_lt, UInt8.le_iff_toNat_le, ← UInt8.toNat_inj,
    UInt8.reduceToNat]

theorem isTail_iff {b : UInt8} : isTail b = true ↔ 0x80 ≤ b.toNat ∧ b.toNat ≤ 0xBF := by
  simp [isTail, UInt8.le_iff_toNat_le]

theorem follow?_two {a : UInt8} (ha : 0xC2 ≤ a.toNat ∧ a.toNat ≤ 0xDF) :
    follow? a = some (1, 0x80, 0xBF) := by
  rw [follow?_eq, if_neg (by omega), if_pos ha.2]

theorem follow?_three {a b : UInt8} (ha : 0xE0 ≤ a.toNat ∧ a.toNat ≤ 0xEF)
    (hb : 0x80 ≤ b.toNat ∧ b.toNat ≤ 0xBF)
    (he0 : a.toNat = 0xE0 → 0xA0 ≤ b.toNat) (hed : a.toNat = 0xED → b.toNat ≤ 0x9F) :
    ∃ low high, follow? a = some (2, low, high) ∧ low ≤ b ∧ b ≤ high := by
  rw [follow?_eq, if_neg (by omega), if_neg (by omega)]
  simp only [UInt8.le_iff_toNat_le]
  by_cases h0 : a.toNat = 0xE0
  · exact ⟨0xA0, 0xBF, by rw [if_pos h0], he0 h0, hb.2⟩
  · by_cases h1 : a.toNat = 0xED
    · exact ⟨0x80, 0x9F, by rw [if_neg h0, if_pos h1], hb.1, hed h1⟩
    · exact ⟨0x80, 0xBF, by rw [if_neg h0, if_neg h1, if_pos ha.2], hb⟩

theorem follow?_four {a b : UInt8} (ha : 0xF0 ≤ a.toNat ∧ a.toNat ≤ 0xF4)
    (hb : 0x80 ≤ b.toNat ∧ b.toNat ≤ 0xBF)
    (hf0 : a.toNat = 0xF0 → 0x90 ≤ b.toNat) (hf4 : a.toNat = 0xF4 → b.toNat ≤ 0x8F) :
    ∃ low high, follow? a = some (3, low, high) ∧ low ≤ b ∧ b ≤ high := by
  rw [follow?_eq, if_neg (by omega), if_neg (by omega), if_neg (by omega), if_neg (by omega),
    if_neg (by omega)]
  simp only [UInt8.le_iff_toNat_le]
  by_cases h0 : a.toNat = 0xF0
  · exact ⟨0x90, 0xBF, by rw [if_pos h0], hf0 h0, hb.2⟩
  · by_cases h1 : a.toNat = 0xF4
    · exact ⟨0x80, 0x8F, by rw [if_neg h0, if_neg (by omega), if_pos h1], hb.1, hf4 h1⟩
    · exact ⟨0x80, 0xBF, by rw [if_neg h0, if_pos (by omega)], hb⟩

/-! ## Chunks of given shapes -/

theorem not_lt_of_follow? {a : UInt8} {x : Nat × UInt8 × UInt8} (h : follow? a = some x) :
    ¬ a < 0x80 := by
  intro ha
  simp only [UInt8.lt_iff_toNat_lt, UInt8.reduceToNat] at ha
  rw [follow?_eq, if_pos (by omega)] at h
  cases h

theorem chunks_two {a b low high : UInt8} (h : follow? a = some (1, low, high))
    (hb : low ≤ b ∧ b ≤ high) (rest : List UInt8) :
    chunks (a :: b :: rest) = some (char₂ a b) :: chunks rest := by
  rw [chunks, if_neg (not_lt_of_follow? h), h]
  simp [hb.1, hb.2]

theorem chunks_three {a b c low high : UInt8} (h : follow? a = some (2, low, high))
    (hb : low ≤ b ∧ b ≤ high) (hc : isTail c = true) (rest : List UInt8) :
    chunks (a :: b :: c :: rest) = some (char₃ a b c) :: chunks rest := by
  rw [chunks, if_neg (not_lt_of_follow? h), h]
  simp [hb.1, hb.2, hc]

theorem chunks_four {a b c d low high : UInt8} (h : follow? a = some (3, low, high))
    (hb : low ≤ b ∧ b ≤ high) (hc : isTail c = true) (hd : isTail d = true)
    (rest : List UInt8) :
    chunks (a :: b :: c :: d :: rest) = some (char₄ a b c d) :: chunks rest := by
  rw [chunks, if_neg (not_lt_of_follow? h), h]
  simp [hb.1, hb.2, hc, hd]

/-! ## Written texts -/

theorem toNat_ofNat_of_lt {n : Nat} (h : n < 256) : (UInt8.ofNat n).toNat = n := by
  rw [UInt8.toNat_ofNat', Nat.mod_eq_of_lt h]

theorem char_ofNat_eq {c : Char} {n : Nat} (h : n = c.toNat) : Char.ofNat n = c := by
  rw [h, Char.ofNat_toNat]

/-- A written character is one chunk.  The bounds that `follow?` puts on the second
byte hold because the character is a scalar value written in its shortest form. -/
theorem chunks_encodeChar (c : Char) (rest : List UInt8) :
    chunks (String.utf8EncodeChar c ++ rest) = some c :: chunks rest := by
  have hc : c.toNat < 0xD800 ∨ 0xDFFF < c.toNat ∧ c.toNat < 0x110000 := c.valid
  have hval : c.val.toNat = c.toNat := rfl
  unfold String.utf8EncodeChar
  simp only [hval]
  by_cases h1 : c.toNat ≤ 0x7F
  · have ha : (UInt8.ofNat c.toNat).toNat = c.toNat := toNat_ofNat_of_lt (by omega)
    rw [if_pos h1, List.cons_append, List.nil_append, chunks,
      if_pos (UInt8.lt_iff_toNat_lt.mpr (by rw [ha]; exact Nat.lt_succ_of_le h1)), ha,
      Char.ofNat_toNat]
  rw [if_neg h1]
  by_cases h2 : c.toNat ≤ 0x7FF
  · have ha : (UInt8.ofNat (c.toNat / 64 % 32 + 192)).toNat = c.toNat / 64 % 32 + 192 :=
      toNat_ofNat_of_lt (by omega)
    have hb : (UInt8.ofNat (c.toNat % 64 + 128)).toNat = c.toNat % 64 + 128 :=
      toNat_ofNat_of_lt (by omega)
    rw [if_pos h2]
    simp only [List.cons_append, List.nil_append]
    rw [chunks_two (follow?_two (by omega)) ?_ rest]
    · rw [char₂, ha, hb, char_ofNat_eq (c := c) (by omega)]
    · simp only [UInt8.le_iff_toNat_le, hb, UInt8.reduceToNat]
      omega
  rw [if_neg h2]
  by_cases h3 : c.toNat ≤ 0xFFFF
  · have ha : (UInt8.ofNat (c.toNat / 4096 % 16 + 224)).toNat = c.toNat / 4096 % 16 + 224 :=
      toNat_ofNat_of_lt (by omega)
    have hb : (UInt8.ofNat (c.toNat / 64 % 64 + 128)).toNat = c.toNat / 64 % 64 + 128 :=
      toNat_ofNat_of_lt (by omega)
    have ht : (UInt8.ofNat (c.toNat % 64 + 128)).toNat = c.toNat % 64 + 128 :=
      toNat_ofNat_of_lt (by omega)
    rw [if_pos h3]
    simp only [List.cons_append, List.nil_append]
    obtain ⟨low, high, hf, hbounds⟩ := follow?_three (a := UInt8.ofNat (c.toNat / 4096 % 16 + 224))
      (b := UInt8.ofNat (c.toNat / 64 % 64 + 128)) (by omega) (by omega) (by omega) (by omega)
    rw [chunks_three hf hbounds (isTail_iff.mpr (by omega)) rest, char₃, ha, hb, ht,
      char_ofNat_eq (c := c) (by omega)]
  · have ha : (UInt8.ofNat (c.toNat / 262144 % 8 + 240)).toNat = c.toNat / 262144 % 8 + 240 :=
      toNat_ofNat_of_lt (by omega)
    have hb : (UInt8.ofNat (c.toNat / 4096 % 64 + 128)).toNat = c.toNat / 4096 % 64 + 128 :=
      toNat_ofNat_of_lt (by omega)
    have ht : (UInt8.ofNat (c.toNat / 64 % 64 + 128)).toNat = c.toNat / 64 % 64 + 128 :=
      toNat_ofNat_of_lt (by omega)
    have hu : (UInt8.ofNat (c.toNat % 64 + 128)).toNat = c.toNat % 64 + 128 :=
      toNat_ofNat_of_lt (by omega)
    rw [if_neg h3]
    simp only [List.cons_append, List.nil_append]
    obtain ⟨low, high, hf, hbounds⟩ := follow?_four (a := UInt8.ofNat (c.toNat / 262144 % 8 + 240))
      (b := UInt8.ofNat (c.toNat / 4096 % 64 + 128)) (by omega) (by omega) (by omega) (by omega)
    rw [chunks_four hf hbounds (isTail_iff.mpr (by omega)) (isTail_iff.mpr (by omega)) rest,
      char₄, ha, hb, ht, hu, char_ofNat_eq (c := c) (by omega)]

theorem chunks_encode (cs : List Char) : chunks (encode cs) = cs.map some := by
  induction cs with
  | nil => rfl
  | cons c cs ih => rw [encode_cons, chunks_encodeChar, ih, List.map_cons]

theorem mapM_id_eq_some_iff {xs : List (Option Char)} {cs : List Char} :
    xs.mapM id = some cs ↔ xs = cs.map some := by
  induction xs generalizing cs with
  | nil => cases cs <;> simp
  | cons x xs ih =>
    rw [List.mapM_cons]
    show (x.bind fun c => (xs.mapM id).bind fun ds => some (c :: ds)) = some cs ↔ _
    simp only [Option.bind_eq_some_iff, Option.some.injEq, ih]
    constructor
    · intro h
      obtain ⟨c, rfl, ds, rfl, rfl⟩ := h
      rfl
    · intro h
      cases cs with
      | nil => cases h
      | cons c ds =>
        cases h
        exact ⟨c, rfl, ds, rfl, rfl⟩

theorem decode?_encode (cs : List Char) : decode? (encode cs) = some cs := by
  rw [decode?_eq_mapM_chunks, mapM_id_eq_some_iff]
  exact chunks_encode cs

/-! ## ASCII bytes in written texts -/

/-- A character is written as its own byte, or in bytes that are no ASCII. -/
theorem encodeChar_ascii_or (c : Char) :
    (c.toNat < 0x80 ∧ String.utf8EncodeChar c = [UInt8.ofNat c.toNat]) ∨
      (0x80 ≤ c.toNat ∧ String.utf8EncodeChar c ≠ [] ∧
        ∀ b ∈ String.utf8EncodeChar c, 0x80 ≤ b.toNat) := by
  have hc : c.toNat < 0xD800 ∨ 0xDFFF < c.toNat ∧ c.toNat < 0x110000 := c.valid
  have hval : c.val.toNat = c.toNat := rfl
  by_cases h1 : c.toNat ≤ 0x7F
  · refine Or.inl ⟨by omega, ?_⟩
    unfold String.utf8EncodeChar
    simp only [hval]
    rw [if_pos h1]
  · refine Or.inr ⟨by omega, String.utf8EncodeChar_ne_nil, ?_⟩
    intro b hb
    unfold String.utf8EncodeChar at hb
    simp only [hval] at hb
    rw [if_neg h1] at hb
    split at hb
    · simp only [List.mem_cons, List.not_mem_nil, or_false] at hb
      rcases hb with rfl | rfl <;> rw [toNat_ofNat_of_lt (by omega)] <;> omega
    · split at hb
      · simp only [List.mem_cons, List.not_mem_nil, or_false] at hb
        rcases hb with rfl | rfl | rfl <;> rw [toNat_ofNat_of_lt (by omega)] <;> omega
      · simp only [List.mem_cons, List.not_mem_nil, or_false] at hb
        rcases hb with rfl | rfl | rfl | rfl <;> rw [toNat_ofNat_of_lt (by omega)] <;> omega

theorem encode_ascii {c : Char} (h : c.toNat < 0x80) (cs : List Char) :
    encode (c :: cs) = UInt8.ofNat c.toNat :: encode cs := by
  rcases encodeChar_ascii_or c with ⟨-, hc⟩ | ⟨hc, -⟩
  · rw [encode_cons, hc, List.singleton_append]
  · omega

/-- No character of a text is written with the byte of an ASCII character that the
text does not have. -/
theorem not_mem_encode {c : Char} (hc : c.toNat < 0x80) {cs : List Char} (h : c ∉ cs) :
    UInt8.ofNat c.toNat ∉ encode cs := by
  intro hmem
  obtain ⟨d, hd, hb⟩ := List.mem_flatMap.mp hmem
  have hbyte : (UInt8.ofNat c.toNat).toNat = c.toNat := toNat_ofNat_of_lt (by omega)
  rcases encodeChar_ascii_or d with ⟨hlt, he⟩ | ⟨-, -, hge⟩
  · rw [he, List.mem_singleton] at hb
    have hnat : c.toNat = d.toNat := by
      rw [← hbyte, hb, toNat_ofNat_of_lt (by omega)]
    exact h (Char.toNat_inj.mp hnat ▸ hd)
  · have := hge _ hb
    omega

/-- An ASCII byte at the front of a written text is the first character. -/
theorem exists_of_encode_eq_cons {b : UInt8} {bs : List UInt8} {cs : List Char}
    (h : encode cs = b :: bs) (hb : b.toNat < 0x80) :
    ∃ c ds, cs = c :: ds ∧ c.toNat = b.toNat ∧ bs = encode ds := by
  cases cs with
  | nil => cases h
  | cons c ds =>
    rcases encodeChar_ascii_or c with ⟨hc, -⟩ | ⟨-, hne, hge⟩
    · rw [encode_ascii hc] at h
      cases h
      exact ⟨c, ds, rfl, (toNat_ofNat_of_lt (by omega)).symm, rfl⟩
    · obtain ⟨d, tail, he⟩ := List.exists_cons_of_ne_nil hne
      rw [encode_cons, he, List.cons_append] at h
      have hd := hge d (by rw [he]; exact List.mem_cons_self)
      cases h
      omega

theorem encode_eq_nil_iff {cs : List Char} : encode cs = [] ↔ cs = [] := by
  constructor
  · intro h
    cases cs with
    | nil => rfl
    | cons c cs => exact absurd (List.append_eq_nil_iff.mp h).1 String.utf8EncodeChar_ne_nil
  · intro h
    subst h
    rfl

/-! ## Texts that are read -/

theorem bounds_of_follow?_two {a low high : UInt8} (h : follow? a = some (1, low, high)) :
    (0xC2 ≤ a.toNat ∧ a.toNat ≤ 0xDF) ∧ 0x80 ≤ low.toNat ∧ high.toNat ≤ 0xBF := by
  rw [follow?_eq] at h
  repeat' split at h
  all_goals cases h
  simp only [UInt8.reduceToNat]
  omega

theorem bounds_of_follow?_three {a low high : UInt8} (h : follow? a = some (2, low, high)) :
    (0xE0 ≤ a.toNat ∧ a.toNat ≤ 0xEF) ∧ 0x80 ≤ low.toNat ∧ high.toNat ≤ 0xBF ∧
      (a.toNat = 0xE0 → 0xA0 ≤ low.toNat) ∧ (a.toNat = 0xED → high.toNat ≤ 0x9F) := by
  rw [follow?_eq] at h
  repeat' split at h
  all_goals cases h
  all_goals simp only [UInt8.reduceToNat]
  all_goals omega

theorem bounds_of_follow?_four {a low high : UInt8} {more : Nat}
    (h : follow? a = some (more, low, high)) (hone : more ≠ 1) (htwo : more ≠ 2) :
    (0xF0 ≤ a.toNat ∧ a.toNat ≤ 0xF4) ∧ 0x80 ≤ low.toNat ∧ high.toNat ≤ 0xBF ∧
      (a.toNat = 0xF0 → 0x90 ≤ low.toNat) ∧ (a.toNat = 0xF4 → high.toNat ≤ 0x8F) := by
  rw [follow?_eq] at h
  repeat' split at h
  all_goals cases h
  all_goals first | exact absurd rfl hone | exact absurd rfl htwo | skip
  all_goals simp only [UInt8.reduceToNat]
  all_goals omega

/-- A scalar value keeps its number as a character. -/
theorem toNat_char {n : Nat} (h : n < 0xD800 ∨ 0xDFFF < n ∧ n < 0x110000) :
    (Char.ofNat n).toNat = n := by
  rw [Char.ofNat, dif_pos h]
  rfl

theorem byte_eq {a : UInt8} {n : Nat} (h : n = a.toNat) : UInt8.ofNat n = a := by
  rw [h, UInt8.ofNat_toNat]

theorem encodeChar_char₂ {a b : UInt8} (ha : 0xC2 ≤ a.toNat ∧ a.toNat ≤ 0xDF)
    (hb : 0x80 ≤ b.toNat ∧ b.toNat ≤ 0xBF) : String.utf8EncodeChar (char₂ a b) = [a, b] := by
  have hval : (char₂ a b).val.toNat = a.toNat % 32 * 64 + b.toNat % 64 := toNat_char (by omega)
  unfold String.utf8EncodeChar
  simp only [hval]
  rw [if_neg (by omega), if_pos (by omega), byte_eq (a := a) (by omega), byte_eq (a := b) (by omega)]

theorem encodeChar_char₃ {a b c : UInt8} (ha : 0xE0 ≤ a.toNat ∧ a.toNat ≤ 0xEF)
    (hb : 0x80 ≤ b.toNat ∧ b.toNat ≤ 0xBF) (hc : 0x80 ≤ c.toNat ∧ c.toNat ≤ 0xBF)
    (he0 : a.toNat = 0xE0 → 0xA0 ≤ b.toNat) (hed : a.toNat = 0xED → b.toNat ≤ 0x9F) :
    String.utf8EncodeChar (char₃ a b c) = [a, b, c] := by
  have hval : (char₃ a b c).val.toNat = a.toNat % 16 * 4096 + b.toNat % 64 * 64 + c.toNat % 64 :=
    toNat_char (by omega)
  unfold String.utf8EncodeChar
  simp only [hval]
  rw [if_neg (by omega), if_neg (by omega), if_pos (by omega), byte_eq (a := a) (by omega),
    byte_eq (a := b) (by omega), byte_eq (a := c) (by omega)]

theorem encodeChar_char₄ {a b c d : UInt8} (ha : 0xF0 ≤ a.toNat ∧ a.toNat ≤ 0xF4)
    (hb : 0x80 ≤ b.toNat ∧ b.toNat ≤ 0xBF) (hc : 0x80 ≤ c.toNat ∧ c.toNat ≤ 0xBF)
    (hd : 0x80 ≤ d.toNat ∧ d.toNat ≤ 0xBF)
    (hf0 : a.toNat = 0xF0 → 0x90 ≤ b.toNat) (hf4 : a.toNat = 0xF4 → b.toNat ≤ 0x8F) :
    String.utf8EncodeChar (char₄ a b c d) = [a, b, c, d] := by
  have hval : (char₄ a b c d).val.toNat = a.toNat % 8 * 262144 + b.toNat % 64 * 4096 +
      c.toNat % 64 * 64 + d.toNat % 64 := toNat_char (by omega)
  unfold String.utf8EncodeChar
  simp only [hval]
  rw [if_neg (by omega), if_neg (by omega), if_neg (by omega), byte_eq (a := a) (by omega),
    byte_eq (a := b) (by omega), byte_eq (a := c) (by omega), byte_eq (a := d) (by omega)]

theorem exists_of_cons_eq_map {c : Char} {xs : List (Option Char)} {cs : List Char}
    (h : some c :: xs = cs.map some) : ∃ ds, cs = c :: ds ∧ xs = ds.map some := by
  cases cs with
  | nil => cases h
  | cons d ds =>
    cases h
    exact ⟨ds, rfl, rfl⟩

/-- Chunk by chunk, the characters of a text have the bytes that were there. -/
theorem encode_of_chunks {bs : List UInt8} {cs : List Char} (h : chunks bs = cs.map some) :
    encode cs = bs := by
  fun_induction chunks bs generalizing cs with
  | case1 =>
    cases cs with
    | nil => rfl
    | cons c cs => cases h
  | case2 a rest ha ih =>
    obtain ⟨ds, rfl, hds⟩ := exists_of_cons_eq_map h
    have hlt : a.toNat < 0x80 := UInt8.lt_iff_toNat_lt.mp ha
    have hval : (Char.ofNat a.toNat).toNat = a.toNat := toNat_char (by omega)
    rw [encode_ascii (by rw [hval]; exact hlt), hval, UInt8.ofNat_toNat, ih hds]
  | case5 a ha low high b rest hb hf ih =>
    obtain ⟨ds, rfl, hds⟩ := exists_of_cons_eq_map h
    obtain ⟨hfirst, hlow, hhigh⟩ := bounds_of_follow?_two hf
    simp only [Bool.and_eq_true, decide_eq_true_eq, UInt8.le_iff_toNat_le] at hb
    rw [encode_cons, encodeChar_char₂ hfirst (by omega), ih hds]
    rfl
  | case7 a ha low high b hb c rest hc hf hmore ih =>
    obtain ⟨ds, rfl, hds⟩ := exists_of_cons_eq_map h
    obtain ⟨hfirst, hlow, hhigh, he0, hed⟩ := bounds_of_follow?_three hf
    simp only [Bool.and_eq_true, decide_eq_true_eq, UInt8.le_iff_toNat_le] at hb
    rw [encode_cons, encodeChar_char₃ hfirst (by omega) (isTail_iff.mp hc) (by omega) (by omega),
      ih hds]
    rfl
  | case9 a ha more low high hf b hb hmore c hc hmore' d rest hd ih =>
    obtain ⟨ds, rfl, hds⟩ := exists_of_cons_eq_map h
    obtain ⟨hfirst, hlow, hhigh, hf0, hf4⟩ := bounds_of_follow?_four hf hmore hmore'
    simp only [Bool.and_eq_true, decide_eq_true_eq, UInt8.le_iff_toNat_le] at hb
    rw [encode_cons, encodeChar_char₄ hfirst (by omega) (isTail_iff.mp hc) (isTail_iff.mp hd)
      (by omega) (by omega), ih hds]
    rfl
  | _ => cases cs <;> cases h

/-- Strict reading takes exactly what is written, so a text has one form. -/
theorem decode?_eq_some_iff {bs : List UInt8} {cs : List Char} :
    decode? bs = some cs ↔ bs = encode cs := by
  constructor
  · intro h
    rw [decode?_eq_mapM_chunks, mapM_id_eq_some_iff] at h
    exact (encode_of_chunks h).symm
  · intro h
    rw [h, decode?_encode]

/-! ## ASCII bytes in any bytes -/

/-- No first byte lets an ASCII byte follow. -/
theorem le_of_follow? {a low high : UInt8} {more : Nat} (h : follow? a = some (more, low, high)) :
    0x80 ≤ low := by
  unfold follow? at h
  repeat' split at h
  all_goals cases h <;> decide

/-- No chunk reaches into what starts with an ASCII byte. -/
theorem chunks_append {bs : List UInt8} (h : ∀ b ∈ bs.head?, b < 0x80) (as : List UInt8) :
    chunks (as ++ bs) = chunks as ++ chunks bs := by
  have hbreak : ∀ b rest, bs = b :: rest → ∀ low high : UInt8, 0x80 ≤ low →
      (low ≤ b && b ≤ high) = false ∧ isTail b = false := by
    intro b rest hbs low high hlow
    have hb : b < 0x80 := h b (by rw [hbs]; rfl)
    simp only [UInt8.le_iff_toNat_le, UInt8.lt_iff_toNat_lt, UInt8.reduceToNat] at hlow hb
    have hlt : ¬ low ≤ b := by
      rw [UInt8.le_iff_toNat_le]
      omega
    have htail : ¬ (0x80 : UInt8) ≤ b := by
      intro hle
      simp only [UInt8.le_iff_toNat_le, UInt8.reduceToNat] at hle
      omega
    simp [hlt, isTail, htail]
  fun_induction chunks as with
  | case1 => rfl
  | case2 a rest ha ih =>
    rw [List.cons_append, chunks, if_pos ha, ih]
    rfl
  | case3 a rest ha hf ih =>
    rw [List.cons_append, chunks, if_neg ha, hf, ih]
    rfl
  | case4 a ha more low high hf =>
    rw [List.cons_append, chunks, if_neg ha, hf]
    cases hbs : bs with
    | nil => rfl
    | cons b rest =>
      obtain ⟨hb, -⟩ := hbreak b rest hbs low high (le_of_follow? hf)
      simp [hb]
  | case5 a ha low high b rest hb hf ih =>
    rw [List.cons_append, List.cons_append, chunks_two hf (by simpa using hb), ih]
    rfl
  | case6 a ha more low high hf b hb hmore =>
    rw [List.cons_append, List.cons_append, chunks, if_neg ha, hf]
    cases hbs : bs with
    | nil => simp [hb, hmore, chunks]
    | cons c rest =>
      obtain ⟨-, hc⟩ := hbreak c rest hbs low high (le_of_follow? hf)
      simp [hb, hmore, hc]
  | case7 a ha low high b hb c rest hc hf hmore ih =>
    rw [List.cons_append, List.cons_append, List.cons_append, chunks_three hf (by simpa using hb) hc, ih]
    rfl
  | case8 a ha more low high hf b hb hmore c hc hmore' =>
    rw [List.cons_append, List.cons_append, List.cons_append, chunks, if_neg ha, hf]
    cases hbs : bs with
    | nil => simp [hb, hmore, hmore', hc, chunks]
    | cons d rest =>
      obtain ⟨-, hd⟩ := hbreak d rest hbs low high (le_of_follow? hf)
      simp [hb, hmore, hmore', hc, hd]
  | case9 a ha more low high hf b hb hmore c hc hmore' d rest hd ih =>
    rw [List.cons_append, List.cons_append, List.cons_append, List.cons_append, chunks, if_neg ha, hf]
    simp [hb, hmore, hmore', hc, hd, ih]
  | case10 a ha more low high hf b hb hmore c hc hmore' d rest hd ih =>
    rw [List.cons_append] at ih
    rw [List.cons_append, List.cons_append, List.cons_append, chunks, if_neg ha, hf]
    simp [hb, hmore, hmore', hc, hd, ih]
  | case11 a ha more low high hf b hb hmore c rest hc ih =>
    rw [List.cons_append] at ih
    rw [List.cons_append, List.cons_append, chunks, if_neg ha, hf]
    simp [hb, hmore, hc, ih]
  | case12 a ha more low high hf b rest hb ih =>
    rw [List.cons_append] at ih
    rw [List.cons_append, chunks, if_neg ha, hf]
    simp only [List.cons_append, if_neg hb, ih]

theorem decode?_append {bs : List UInt8} (h : ∀ b ∈ bs.head?, b < 0x80) (as : List UInt8) :
    decode? (as ++ bs) = (decode? as).bind fun cs => (decode? bs).map (cs ++ ·) := by
  rw [decode?_eq_mapM_chunks, decode?_eq_mapM_chunks, decode?_eq_mapM_chunks, chunks_append h,
    List.mapM_append]
  cases (chunks as).mapM id <;> cases (chunks bs).mapM id <;> rfl

theorem ne_nil_of_decode? {bs : List UInt8} {cs : List Char} (h : bs ≠ [])
    (hcs : decode? bs = some cs) : cs ≠ [] := by
  intro hnil
  rw [decode?_eq_some_iff, hnil] at hcs
  exact h hcs

theorem exists_of_decode?_append {as bs : List UInt8} {cs : List Char}
    (h : ∀ b ∈ bs.head?, b < 0x80) (hcs : decode? (as ++ bs) = some cs) :
    ∃ xs ys, decode? as = some xs ∧ decode? bs = some ys ∧ cs = xs ++ ys := by
  rw [decode?_append h, Option.bind_eq_some_iff] at hcs
  obtain ⟨xs, hxs, hcs⟩ := hcs
  obtain ⟨ys, hys, rfl⟩ := Option.map_eq_some_iff.mp hcs
  exact ⟨xs, ys, hxs, hys, rfl⟩

end Utf8
end ClassIndex

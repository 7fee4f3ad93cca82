/-
The order of texts is that of their bytes.

UTF-8 keeps the order of characters (`encodeChar_append_lt`), so texts compare by their
characters as their written forms do byte by byte (`encode_lt_encode_iff`).  Sorting puts
texts in this order, whichever one they come in (`mergeSort_eq_of_perm`), and the keys of a
table are in it (`pairwise_keys`).  The first of ordered texts that has some property is the
least (`find?_eq_some_iff_of_ordered`).
-/
import ClassIndex.Proofs.Text.Utf8
import ClassIndex.Table
import Mathlib

namespace ClassIndex
namespace Utf8

/-- Of two numbers, the lower has the lower digit where they first differ. -/
theorem digits_lt {m n : Nat} (h : m < n) :
    m / 262144 < n / 262144 ∨ m / 262144 = n / 262144 ∧
      (m / 4096 % 64 < n / 4096 % 64 ∨ m / 4096 % 64 = n / 4096 % 64 ∧
        (m / 64 % 64 < n / 64 % 64 ∨ m / 64 % 64 = n / 64 % 64 ∧ m % 64 < n % 64)) := by
  omega

/-- A lower character is written in lower bytes, whatever follows it. -/
theorem encodeChar_append_lt {c d : Char} (h : c < d) (xs ys : List UInt8) :
    String.utf8EncodeChar c ++ xs < String.utf8EncodeChar d ++ ys := by
  have hlt : c.val.toNat < d.val.toNat := h
  have hd : d.val.toNat < 0xD800 ∨ 0xDFFF < d.val.toNat ∧ d.val.toNat < 0x110000 := d.valid
  have hdigits := digits_lt hlt
  have hctop : c.val.toNat / 262144 % 8 = c.val.toNat / 262144 := by omega
  have hdtop : d.val.toNat / 262144 % 8 = d.val.toNat / 262144 := by omega
  unfold String.utf8EncodeChar
  -- One case for each two lengths: a shorter form has a lower first byte, and forms of one
  -- length compare by their digits.
  simp only [hctop, hdtop]
  split_ifs <;>
    simp (disch := omega) only [List.cons_append, List.nil_append, List.cons_lt_cons_iff,
      UInt8.lt_iff_toNat_lt, ← UInt8.toNat_inj, toNat_ofNat_of_lt] <;> omega

theorem encode_lt_encode {as bs : List Char} (h : as < bs) : encode as < encode bs := by
  induction bs generalizing as with
  | nil => cases h
  | cons b bs ih =>
    cases as with
    | nil =>
      have hne : encode (b :: bs) ≠ [] := mt encode_eq_nil_iff.mp (List.cons_ne_nil b bs)
      obtain ⟨x, xs, hx⟩ := List.exists_cons_of_ne_nil hne
      rw [hx, encode_nil]
      exact List.nil_lt_cons x xs
    | cons a as =>
      rw [encode_cons, encode_cons]
      rcases List.cons_lt_cons_iff.mp h with hab | ⟨rfl, hrest⟩
      · exact encodeChar_append_lt hab _ _
      · exact List.append_left_lt (ih hrest)

theorem encode_lt_encode_iff {as bs : List Char} : encode as < encode bs ↔ as < bs := by
  refine ⟨fun h => ?_, encode_lt_encode⟩
  rcases lt_trichotomy as bs with hlt | rfl | hgt
  · exact hlt
  · exact absurd h (List.lt_irrefl _)
  · exact absurd h (List.lt_asymm (encode_lt_encode hgt))

/-- Texts compare as their bytes do. -/
theorem bytesOf_lt_bytesOf_iff {s t : String} : bytesOf s < bytesOf t ↔ s < t := by
  rw [bytesOf_eq_encode, bytesOf_eq_encode, encode_lt_encode_iff]
  exact Iff.rfl

end Utf8

/-! ## Ordered texts -/

/-- A table lists its keys from the lowest to the highest. -/
theorem Table.pairwise_keys {α : Type} (t : Table String α) : t.keys.Pairwise (· < ·) := by
  have hordered : t.map.keys.Pairwise fun a b => compare a b = .lt := Std.ExtTreeMap.ordered_keys
  exact hordered.imp compareOfLessAndEq_eq_lt.mp

/-- Sorted texts stand from the lowest to the highest. -/
theorem pairwise_mergeSort (names : List String) :
    (names.mergeSort fun m n => m ≤ n).Pairwise (· ≤ ·) := by
  have hsorted : (names.mergeSort fun m n => m ≤ n).Pairwise fun m n => decide (m ≤ n) = true := by
    apply List.pairwise_mergeSort
    · intro a b c hab hbc
      exact decide_eq_true (String.le_trans (of_decide_eq_true hab) (of_decide_eq_true hbc))
    · intro a b
      rw [Bool.or_eq_true, decide_eq_true_eq, decide_eq_true_eq]
      exact String.le_total a b
  exact hsorted.imp of_decide_eq_true

theorem pairwise_lt_mergeSort {names : List String} (honce : names.Nodup) :
    (names.mergeSort fun m n => m ≤ n).Pairwise (· < ·) := by
  have honce' : (names.mergeSort fun m n => m ≤ n).Nodup :=
    (List.mergeSort_perm names _).nodup_iff.mpr honce
  exact (pairwise_mergeSort names).imp₂ (fun _ _ hle hne => lt_of_le_of_ne hle hne) honce'

/-- Sorting does not tell in which order texts come. -/
theorem mergeSort_eq_of_perm {names names' : List String} (h : names.Perm names') :
    (names.mergeSort fun m n => m ≤ n) = names'.mergeSort fun m n => m ≤ n := by
  apply List.Perm.eq_of_pairwise _ (pairwise_mergeSort names) (pairwise_mergeSort names')
  · exact ((List.mergeSort_perm names _).trans h).trans (List.mergeSort_perm names' _).symm
  · intro a b _ _ hab hba
    exact String.le_antisymm hab hba

/-- The first of ordered texts that has a property is the least. -/
theorem find?_eq_some_iff_of_ordered {names : List String} (h : names.Pairwise (· < ·))
    {p : String → Bool} {name : String} :
    names.find? p = some name ↔ p name = true ∧ name ∈ names ∧
      ∀ other ∈ names, p other = true → Utf8.bytesOf name ≤ Utf8.bytesOf other := by
  simp only [← List.not_lt, Utf8.bytesOf_lt_bytesOf_iff]
  rw [List.find?_eq_some_iff_append]
  refine and_congr_right fun _ => ⟨fun hsplit => ?_, fun hleast => ?_⟩
  · obtain ⟨before, after, rfl, hbefore⟩ := hsplit
    refine ⟨List.mem_append_right _ List.mem_cons_self, fun other hother hp hlt => ?_⟩
    obtain ⟨-, hrest, -⟩ := List.pairwise_append.mp h
    rcases List.mem_append.mp hother with hother | hother
    · have hnot := hbefore other hother
      rw [hp] at hnot
      cases hnot
    · rcases List.mem_cons.mp hother with rfl | hother
      · exact String.lt_irrefl _ hlt
      · exact String.lt_asymm hlt (List.rel_of_pairwise_cons hrest hother)
  · obtain ⟨hmem, hleast⟩ := hleast
    obtain ⟨before, after, rfl⟩ := List.append_of_mem hmem
    refine ⟨before, after, rfl, fun other hother => ?_⟩
    have hlt : other < name :=
      (List.pairwise_append.mp h).2.2 other hother name List.mem_cons_self
    rw [Bool.not_eq_true', ← Bool.not_eq_true]
    exact fun hp => hleast other (List.mem_append_left _ hother) hp hlt

/-- What stands before one of ordered texts are those that are lower. -/
theorem filter_lt_of_ordered {lower upper : List String} {name : String}
    (h : (lower ++ name :: upper).Pairwise (· < ·)) :
    (lower ++ name :: upper).filter (fun other => Utf8.bytesOf other < Utf8.bytesOf name) =
      lower := by
  obtain ⟨-, hrest, hlower⟩ := List.pairwise_append.mp h
  have hkept : ∀ other ∈ lower, decide (Utf8.bytesOf other < Utf8.bytesOf name) = true :=
    fun other hother =>
      decide_eq_true (Utf8.bytesOf_lt_bytesOf_iff.mpr (hlower other hother name List.mem_cons_self))
  have hdropped : ∀ other ∈ name :: upper,
      ¬ decide (Utf8.bytesOf other < Utf8.bytesOf name) = true := by
    intro other hother hlt
    rw [decide_eq_true_eq, Utf8.bytesOf_lt_bytesOf_iff] at hlt
    rcases List.mem_cons.mp hother with rfl | hother
    · exact String.lt_irrefl _ hlt
    · exact String.lt_asymm hlt (List.rel_of_pairwise_cons hrest hother)
  rw [List.filter_append, List.filter_eq_self.mpr hkept, List.filter_eq_nil_iff.mpr hdropped,
    List.append_nil]

end ClassIndex

/-
Readers that see what they take and nothing more.

A steady reader that succeeds has taken certain bytes off the front.  On any other
string that starts with them it gives the same result, and on a proper beginning of
them it runs out of bytes, before anything else can go wrong.  A fault other than
running out is found whatever follows.

Taking bytes is steady, and every way of building readers from steady ones gives a
steady one; a nested record needs nothing, since its bytes have been taken when it
is read.
-/
import ClassIndex.Proofs.ByteReader.Inversion

namespace ClassIndex
namespace ByteReader

variable {ε α β : Type} [HasEnd ε]

structure Steady (p : ByteReader ε α) : Prop where
  ok : ∀ {bs a rest}, p bs = .ok (a, rest) → ∃ front, bs = front ++ rest ∧
    (∀ tail, p (front ++ tail) = .ok (a, tail)) ∧
    ∀ short tail, front = short ++ tail → tail ≠ [] → p short = .error HasEnd.unexpectedEnd
  error : ∀ {bs fault}, p bs = .error fault → fault ≠ HasEnd.unexpectedEnd →
    ∀ tail, p (bs ++ tail) = .error fault

namespace Steady

theorem pure (a : α) : Steady (pure a : ByteReader ε α) where
  ok := by
    intro bs b rest h
    obtain ⟨rfl, rfl⟩ := pure_eq_ok.mp h
    refine ⟨[], rfl, fun _ => rfl, fun short tail hfront htail => ?_⟩
    exact absurd (List.append_eq_nil_iff.mp hfront.symm).2 htail
  error := fun h => nomatch h

theorem throw (fault : ε) : Steady (throw fault : ByteReader ε α) where
  ok := fun h => (throw_eq_ok.mp h).elim
  error := fun h _ _ => h

theorem liftM (r : Except ε α) : Steady (liftM r : ByteReader ε α) := by
  cases r with
  | error fault => exact throw fault
  | ok a => exact pure a

theorem take (n : Nat) : Steady (take n : ByteReader ε (List UInt8)) where
  ok := by
    intro bs front rest h
    obtain ⟨rfl, rfl⟩ := take_eq_ok.mp h
    refine ⟨front, rfl, take_append front, fun short tail hfront htail => ?_⟩
    have hpos : 0 < tail.length := List.length_pos_of_ne_nil htail
    apply take_of_length_lt
    rw [hfront, List.length_append]
    omega
  error := by
    intro bs fault h hne
    unfold ByteReader.take at h
    dsimp only at h
    split at h
    · cases h
    · cases h
      exact absurd rfl hne

theorem bind {p : ByteReader ε α} {f : α → ByteReader ε β} (hp : Steady p)
    (hf : ∀ a, Steady (f a)) : Steady (p >>= f) where
  ok := by
    intro bs b rest h
    obtain ⟨a, mid, ha, hb⟩ := bind_eq_ok.mp h
    obtain ⟨first, rfl, hfirst, hshort₁⟩ := hp.ok ha
    obtain ⟨second, rfl, hsecond, hshort₂⟩ := (hf a).ok hb
    refine ⟨first ++ second, (List.append_assoc first second rest).symm, ?_, ?_⟩
    · intro tail
      rw [List.append_assoc, bind_of_ok (hfirst _), hsecond]
    · intro short tail hfront htail
      -- the beginning ends within what `p` takes, or within what `f a` takes
      rcases List.append_eq_append_iff.mp hfront with ⟨s, rfl, hs⟩ | ⟨s, rfl, rfl⟩
      · rw [bind_of_ok (hfirst s), hshort₂ s tail hs htail]
      · by_cases hnil : s = []
        · subst hnil
          rw [List.append_nil] at hfirst
          have hnone := hfirst []
          rw [List.append_nil] at hnone
          rw [bind_of_ok hnone, hshort₂ [] second rfl htail]
        · exact bind_of_error (hshort₁ short s rfl hnil)
  error := by
    intro bs fault h hne tail
    cases hp' : p bs with
    | error e =>
      rw [bind_of_error hp'] at h
      cases h
      exact bind_of_error (hp.error hp' hne tail)
    | ok x =>
      obtain ⟨a, mid⟩ := x
      rw [bind_of_ok hp'] at h
      obtain ⟨first, rfl, hfirst, -⟩ := hp.ok hp'
      rw [List.append_assoc, bind_of_ok (hfirst _)]
      exact (hf a).error h hne tail

theorem map {p : ByteReader ε α} (hp : Steady p) (f : α → β) : Steady (f <$> p) :=
  hp.bind fun a => pure (f a)

theorem times {p : ByteReader ε α} (hp : Steady p) (n : Nat) : Steady (times p n) := by
  induction n with
  | zero => exact pure []
  | succ n ih => exact hp.bind fun a => ih.bind fun rest => pure (a :: rest)

theorem within (record : List UInt8) (p : ByteReader ε α) : Steady (within record p) := by
  unfold ByteReader.within
  cases p record with
  | error fault => exact throw fault
  | ok x => exact pure x.1

theorem ite {c : Prop} [Decidable c] {p q : ByteReader ε α} (hp : Steady p) (hq : Steady q) :
    Steady (if c then p else q) := by
  split
  · exact hp
  · exact hq

/-- What is taken is a number of bytes, and less than that is too little. -/
theorem runOn_ok {p : ByteReader ε α} (hp : Steady p) {bs : List UInt8} {a : α}
    (h : runOn p bs = .ok a) : ∃ n ≤ bs.length,
      (∀ bs' : List UInt8, bs'.take n = bs.take n → runOn p bs' = .ok a) ∧
      ∀ m < n, runOn p (bs.take m) = .error HasEnd.unexpectedEnd := by
  obtain ⟨rest, hrest⟩ := runOn_eq_ok.mp h
  obtain ⟨front, rfl, hfront, hshort⟩ := hp.ok hrest
  refine ⟨front.length, by simp, ?_, ?_⟩
  · intro bs' hbs'
    rw [List.take_left] at hbs'
    have hsplit := List.take_append_drop front.length bs'
    have hread := hfront (bs'.drop front.length)
    rw [hbs'] at hsplit
    rw [hsplit] at hread
    exact runOn_eq_ok.mpr ⟨_, hread⟩
  · intro m hm
    have htake : (front ++ rest).take m = front.take m :=
      List.take_append_of_le_length (Nat.le_of_lt hm)
    have hne : front.drop m ≠ [] := by
      intro hnil
      have := List.drop_eq_nil_iff.mp hnil
      omega
    have herror := hshort (front.take m) (front.drop m) (List.take_append_drop m front).symm hne
    unfold runOn
    rw [htake, herror]
    rfl

theorem runOn_error {p : ByteReader ε α} (hp : Steady p) {bs : List UInt8} {fault : ε}
    (h : runOn p bs = .error fault) (hne : fault ≠ HasEnd.unexpectedEnd) (tail : List UInt8) :
    runOn p (bs ++ tail) = .error fault := by
  unfold runOn at h ⊢
  cases hbs : p bs with
  | ok x =>
    rw [hbs] at h
    cases h
  | error e =>
    rw [hbs] at h
    cases h
    rw [hp.error hbs hne tail]
    rfl

end Steady
end ByteReader
end ClassIndex

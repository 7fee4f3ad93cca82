/-
Kinds of faults that a reader has.

A reader is confined to a kind of faults if whatever goes wrong in it is of that kind.
Taking bytes goes wrong at their end only, and a reader that is built from others has
the faults of these: from `bind_eq_error`, for every way of building readers.
-/
import ClassIndex.Proofs.ByteReader.Inversion

namespace ClassIndex
namespace ByteReader

variable {ε α β : Type}

/-- A sequence goes wrong in its first step, or in what follows the result of it. -/
theorem bind_eq_error {p : ByteReader ε α} {f : α → ByteReader ε β} {bs : List UInt8}
    {fault : ε} : (p >>= f) bs = .error fault ↔
      p bs = .error fault ∨ ∃ a mid, p bs = .ok (a, mid) ∧ f a mid = .error fault := by
  cases hp : p bs with
  | error e => simp [bind_of_error hp]
  | ok x =>
    obtain ⟨a, mid⟩ := x
    simp [bind_of_ok hp]

/-- Whatever goes wrong in a reader is of a kind. -/
def Confined (P : ε → Prop) (p : ByteReader ε α) : Prop :=
  ∀ bs fault, p bs = .error fault → P fault

namespace Confined

variable {P : ε → Prop} {p : ByteReader ε α}

theorem pure (a : α) : Confined P (pure a : ByteReader ε α) :=
  fun _ _ h => nomatch h

theorem throw {fault : ε} (hfault : P fault) : Confined P (throw fault : ByteReader ε α) := by
  intro bs fault' h
  cases h
  exact hfault

theorem liftM {r : Except ε α} (h : ∀ fault, r = .error fault → P fault) :
    Confined P (liftM r : ByteReader ε α) := by
  cases r with
  | error fault => exact throw (h fault rfl)
  | ok a => exact pure a

theorem take [HasEnd ε] (hend : P HasEnd.unexpectedEnd) (n : Nat) :
    Confined P (take n : ByteReader ε (List UInt8)) := by
  intro bs fault h
  unfold ByteReader.take at h
  dsimp only at h
  split at h
  · cases h
  · cases h
    exact hend

theorem bind {f : α → ByteReader ε β} (hp : Confined P p) (hf : ∀ a, Confined P (f a)) :
    Confined P (p >>= f) := by
  intro bs fault h
  rcases bind_eq_error.mp h with hfirst | ⟨a, mid, -, hsecond⟩
  · exact hp bs fault hfirst
  · exact hf a mid fault hsecond

theorem map (hp : Confined P p) (f : α → β) : Confined P (f <$> p) :=
  hp.bind fun a => pure (f a)

theorem times (hp : Confined P p) (n : Nat) : Confined P (times p n) := by
  induction n with
  | zero => exact pure []
  | succ n ih => exact hp.bind fun a => ih.bind fun rest => pure (a :: rest)

theorem within (record : List UInt8) (hp : Confined P p) : Confined P (within record p) := by
  unfold ByteReader.within
  split
  · exact pure _
  · next hfault => exact throw (hp _ _ hfault)

theorem ite {c : Prop} [Decidable c] {q : ByteReader ε α} (hp : Confined P p)
    (hq : Confined P q) : Confined P (if c then p else q) := by
  by_cases hc : c
  · rwa [if_pos hc]
  · rwa [if_neg hc]

/-- A fault of the whole is one of the reader. -/
theorem runOn (hp : Confined P p) {bs : List UInt8} {fault : ε} (h : p.runOn bs = .error fault) :
    P fault := by
  unfold ByteReader.runOn at h
  cases hread : p bs with
  | ok x =>
    rw [hread] at h
    cases h
  | error e =>
    rw [hread] at h
    cases h
    exact hp bs fault hread

end Confined
end ByteReader

namespace ClassFormat
namespace Reader

open ByteReader

variable {P : Fault → Prop}

theorem u1_confined (hend : P .unexpectedEnd) : Confined P u1 :=
  (Confined.take hend 1).bind fun _ => .pure _

theorem u2_confined (hend : P .unexpectedEnd) : Confined P u2 :=
  (Confined.take hend 2).bind fun _ => .pure _

theorem u4_confined (hend : P .unexpectedEnd) : Confined P u4 :=
  (Confined.take hend 4).bind fun _ => .pure _

theorem skip_confined (hend : P .unexpectedEnd) (n : Nat) : Confined P (skip n) :=
  (Confined.take hend n).bind fun _ => .pure _

theorem counted_confined {α : Type} {p : Reader α} (hend : P .unexpectedEnd)
    (hp : Confined P p) : Confined P (counted p) :=
  (u2_confined hend).bind fun _ => hp.times _

end Reader
end ClassFormat
end ClassIndex

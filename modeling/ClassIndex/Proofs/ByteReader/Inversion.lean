/-
When a reader succeeds.

A step of a reader succeeds on those byte strings that start with what the step
reads, and on no others.  The equations of the first part say this of each way of
building readers, as equivalences, so that one rewriting pass over a reader turns
"it succeeds with this result" into "the bytes are these, and these look-ups
give that".

`Reads p write Means` is that statement for a whole record: `p` succeeds exactly
on `write x` followed by anything, for the forms `x` of the record, and its
result is one that `x` means.  Both directions are in it, the one that a reader
accepts what a writer writes and the one that it accepts nothing else.
-/
import Mathlib
import ClassIndex.ClassFormat.Fault

namespace ClassIndex
namespace ByteReader

variable {ε α β : Type}

/-! ## Steps -/

theorem bind_eq_ok {p : ByteReader ε α} {f : α → ByteReader ε β} {bs rest : List UInt8}
    {b : β} : (p >>= f) bs = .ok (b, rest) ↔
      ∃ a mid, p bs = .ok (a, mid) ∧ f a mid = .ok (b, rest) := by
  show (p bs >>= fun x => f x.1 x.2) = .ok (b, rest) ↔ _
  cases hp : p bs with
  | error fault => simp [bind, Except.bind]
  | ok x =>
    constructor
    · intro h
      exact ⟨x.1, x.2, rfl, h⟩
    · intro hform
      obtain ⟨a, mid, hx, h⟩ := hform
      cases hx
      exact h

theorem bind_of_ok {p : ByteReader ε α} {f : α → ByteReader ε β} {bs mid : List UInt8} {a : α}
    (h : p bs = .ok (a, mid)) : (p >>= f) bs = f a mid := by
  show (p bs >>= fun x => f x.1 x.2) = f a mid
  rw [h]
  rfl

theorem bind_of_error {p : ByteReader ε α} {f : α → ByteReader ε β} {bs : List UInt8} {fault : ε}
    (h : p bs = .error fault) : (p >>= f) bs = .error fault := by
  show (p bs >>= fun x => f x.1 x.2) = .error fault
  rw [h]
  rfl

theorem pure_eq_ok {a b : α} {bs rest : List UInt8} :
    (pure a : ByteReader ε α) bs = .ok (b, rest) ↔ a = b ∧ bs = rest := by
  show Except.ok (a, bs) = Except.ok (b, rest) ↔ _
  simp

theorem throw_eq_ok {fault : ε} {bs : List UInt8} {x : α × List UInt8} :
    (throw fault : ByteReader ε α) bs = .ok x ↔ False := by
  show Except.error fault = Except.ok x ↔ _
  simp

theorem liftM_eq_ok {r : Except ε α} {bs rest : List UInt8} {a : α} :
    (liftM r : ByteReader ε α) bs = .ok (a, rest) ↔ r = .ok a ∧ bs = rest := by
  show (r >>= fun x => pure (x, bs)) = Except.ok (a, rest) ↔ _
  cases r <;> simp [bind, Except.bind, pure, Except.pure]

theorem map_eq_ok {p : ByteReader ε α} {f : α → β} {bs rest : List UInt8} {b : β} :
    (f <$> p) bs = .ok (b, rest) ↔ ∃ a, p bs = .ok (a, rest) ∧ f a = b := by
  show ((p >>= fun a => pure (f a)) : ByteReader ε β) bs = .ok (b, rest) ↔ _
  rw [bind_eq_ok]
  constructor
  · intro hread
    obtain ⟨a, mid, hp, hf⟩ := hread
    rw [pure_eq_ok] at hf
    obtain ⟨hb, rfl⟩ := hf
    exact ⟨a, hp, hb⟩
  · intro hform
    obtain ⟨a, hp, hb⟩ := hform
    exact ⟨a, rest, hp, pure_eq_ok.mpr ⟨hb, rfl⟩⟩

theorem within_eq_ok {record : List UInt8} {p : ByteReader ε α} {bs rest : List UInt8} {a : α} :
    within record p bs = .ok (a, rest) ↔ (∃ left, p record = .ok (a, left)) ∧ bs = rest := by
  unfold within
  cases hp : p record with
  | error fault => simp [throw_eq_ok]
  | ok x =>
    obtain ⟨b, left⟩ := x
    simp [pure_eq_ok]

theorem take_eq_ok [HasEnd ε] {n : Nat} {bs front rest : List UInt8} :
    (take n : ByteReader ε (List UInt8)) bs = .ok (front, rest) ↔
      bs = front ++ rest ∧ front.length = n := by
  constructor
  · intro h
    unfold take at h
    dsimp only at h
    split at h
    · next hn =>
      cases h
      exact ⟨(List.take_append_drop n bs).symm, hn⟩
    · cases h
  · intro hform
    obtain ⟨rfl, rfl⟩ := hform
    exact take_append front rest

theorem runOn_eq_ok {p : ByteReader ε α} {bs : List UInt8} {a : α} :
    runOn p bs = .ok a ↔ ∃ rest, p bs = .ok (a, rest) := by
  unfold runOn
  cases hp : p bs with
  | error fault => simp [Functor.map, Except.map]
  | ok x =>
    obtain ⟨b, rest⟩ := x
    simp [Functor.map, Except.map]

/-! ## Big-endian numbers -/

/-- A number as so many bytes, the most significant first. -/
def toBigEndian : Nat → Nat → List UInt8
  | 0, _ => []
  | width + 1, n => toBigEndian width (n / 256) ++ [UInt8.ofNat n]

@[simp] theorem length_toBigEndian (width n : Nat) : (toBigEndian width n).length = width := by
  induction width generalizing n with
  | zero => rfl
  | succ width ih => simp [toBigEndian, ih]

theorem bigEndian_concat (bs : List UInt8) (b : UInt8) :
    bigEndian (bs ++ [b]) = bigEndian bs * 256 + b.toNat := by
  simp [bigEndian]

theorem bigEndian_lt (bs : List UInt8) : bigEndian bs < 256 ^ bs.length := by
  induction bs using List.reverseRecOn with
  | nil => simp [bigEndian]
  | append_singleton bs b ih =>
    have hb : b.toNat < 256 := b.toNat_lt
    rw [bigEndian_concat, List.length_append, List.length_singleton, Nat.pow_succ]
    omega

theorem bigEndian_toBigEndian {width n : Nat} (h : n < 256 ^ width) :
    bigEndian (toBigEndian width n) = n := by
  induction width generalizing n with
  | zero =>
    have hn : n = 0 := by simpa using h
    rw [hn]
    rfl
  | succ width ih =>
    have hdiv : n / 256 < 256 ^ width := by
      rw [Nat.pow_succ] at h
      omega
    rw [toBigEndian, bigEndian_concat, ih hdiv, UInt8.toNat_ofNat']
    omega

theorem toBigEndian_bigEndian (bs : List UInt8) :
    toBigEndian bs.length (bigEndian bs) = bs := by
  induction bs using List.reverseRecOn with
  | nil => rfl
  | append_singleton bs b ih =>
    have hb : b.toNat < 256 := b.toNat_lt
    have hdiv : (bigEndian bs * 256 + b.toNat) / 256 = bigEndian bs := by omega
    have hlast : UInt8.ofNat (bigEndian bs * 256 + b.toNat) = b := by
      apply UInt8.toNat_inj.mp
      rw [UInt8.toNat_ofNat']
      omega
    rw [bigEndian_concat, List.length_append, List.length_singleton, toBigEndian, hdiv, hlast, ih]

theorem toBigEndian_inj {width m n : Nat} (hm : m < 256 ^ width) (hn : n < 256 ^ width)
    (h : toBigEndian width m = toBigEndian width n) : m = n := by
  rw [← bigEndian_toBigEndian hm, h, bigEndian_toBigEndian hn]

/-! ## Records -/

/-- The reader succeeds exactly on written forms, and its result is what the form
means. -/
def Reads {γ : Type} (p : ByteReader ε α) (write : γ → List UInt8) (Means : γ → α → Prop) :
    Prop :=
  ∀ bs a rest, p bs = .ok (a, rest) ↔ ∃ x, bs = write x ++ rest ∧ Means x a

theorem Reads.times {γ : Type} {p : ByteReader ε α} {write : γ → List UInt8}
    {Means : γ → α → Prop} (h : Reads p write Means) (n : Nat) :
    Reads (times p n) (List.flatMap write)
      (fun xs as => xs.length = n ∧ List.Forall₂ Means xs as) := by
  induction n with
  | zero =>
    intro bs as rest
    unfold ByteReader.times
    rw [pure_eq_ok]
    constructor
    · intro hread
      obtain ⟨rfl, rfl⟩ := hread
      exact ⟨[], rfl, rfl, .nil⟩
    · intro hform
      obtain ⟨xs, rfl, hlen, hall⟩ := hform
      rw [List.length_eq_zero_iff] at hlen
      subst hlen
      cases hall
      exact ⟨rfl, rfl⟩
  | succ n ih =>
    intro bs as rest
    unfold ByteReader.times
    simp only [bind_eq_ok, pure_eq_ok]
    constructor
    · intro hread
      obtain ⟨a, mid, hp, as', mid', htimes, rfl, rfl⟩ := hread
      obtain ⟨x, rfl, hx⟩ := (h _ _ _).mp hp
      obtain ⟨xs, rfl, hlen, hall⟩ := (ih _ _ _).mp htimes
      exact ⟨x :: xs, by simp, by simp [hlen], .cons hx hall⟩
    · intro hform
      obtain ⟨xs, rfl, hlen, hall⟩ := hform
      cases hall with
      | nil => simp at hlen
      | cons hx hall =>
        rename_i x a xs as
        have hn : xs.length = n := by simpa using hlen
        refine ⟨a, xs.flatMap write ++ rest, ?_, as, rest, ?_, rfl, rfl⟩
        · exact (h _ _ _).mpr ⟨x, by simp, hx⟩
        · exact (ih _ _ _).mpr ⟨xs, rfl, hn, hall⟩

end ByteReader

namespace ClassFormat

open ByteReader

/-! ## Words of class files -/

def bytes2 (n : Nat) : List UInt8 := toBigEndian 2 n

def bytes4 (n : Nat) : List UInt8 := toBigEndian 4 n

@[simp] theorem length_bytes2 (n : Nat) : (bytes2 n).length = 2 := length_toBigEndian 2 n

@[simp] theorem length_bytes4 (n : Nat) : (bytes4 n).length = 4 := length_toBigEndian 4 n

namespace Reader

theorem u1_eq_ok {bs rest : List UInt8} {v : UInt8} :
    u1 bs = .ok (v, rest) ↔ bs = v :: rest := by
  unfold u1
  simp only [bind_eq_ok, take_eq_ok, pure_eq_ok]
  constructor
  · intro hread
    obtain ⟨w, _, ⟨rfl, hw⟩, rfl, rfl⟩ := hread
    obtain ⟨b, rfl⟩ := List.length_eq_one_iff.mp hw
    simp [bigEndian]
  · intro hform
    subst hform
    exact ⟨[v], rest, ⟨rfl, rfl⟩, by simp [bigEndian], rfl⟩

theorem u2_eq_ok {bs rest : List UInt8} {v : UInt16} :
    u2 bs = .ok (v, rest) ↔ bs = bytes2 v.toNat ++ rest := by
  unfold u2
  simp only [bind_eq_ok, take_eq_ok, pure_eq_ok]
  constructor
  · intro hread
    obtain ⟨w, _, ⟨rfl, hw⟩, rfl, rfl⟩ := hread
    have hlt : bigEndian w < 2 ^ 16 := by simpa [hw] using bigEndian_lt w
    rw [UInt16.toNat_ofNat_of_lt' hlt, bytes2, ← hw, toBigEndian_bigEndian]
  · intro hform
    subst hform
    have hv : bigEndian (bytes2 v.toNat) = v.toNat := bigEndian_toBigEndian v.toNat_lt
    exact ⟨_, rest, ⟨rfl, length_bytes2 _⟩, by rw [hv, UInt16.ofNat_toNat], rfl⟩

theorem u4_eq_ok {bs rest : List UInt8} {v : UInt32} :
    u4 bs = .ok (v, rest) ↔ bs = bytes4 v.toNat ++ rest := by
  unfold u4
  simp only [bind_eq_ok, take_eq_ok, pure_eq_ok]
  constructor
  · intro hread
    obtain ⟨w, _, ⟨rfl, hw⟩, rfl, rfl⟩ := hread
    have hlt : bigEndian w < 2 ^ 32 := by simpa [hw] using bigEndian_lt w
    rw [UInt32.toNat_ofNat_of_lt' hlt, bytes4, ← hw, toBigEndian_bigEndian]
  · intro hform
    subst hform
    have hv : bigEndian (bytes4 v.toNat) = v.toNat := bigEndian_toBigEndian v.toNat_lt
    exact ⟨_, rest, ⟨rfl, length_bytes4 _⟩, by rw [hv, UInt32.ofNat_toNat], rfl⟩

theorem skip_eq_ok {n : Nat} {bs rest : List UInt8} {u : Unit} :
    skip n bs = .ok (u, rest) ↔ ∃ front, bs = front ++ rest ∧ front.length = n := by
  unfold skip
  simp only [bind_eq_ok, take_eq_ok, pure_eq_ok]
  constructor
  · intro hread
    obtain ⟨front, mid, hfront, -, rfl⟩ := hread
    exact ⟨front, hfront⟩
  · intro hform
    obtain ⟨front, hfront⟩ := hform
    exact ⟨front, rest, hfront, trivial, rfl⟩

/-- A count and as many records: the count is that of the forms, so it fits a word. -/
theorem counted_reads {α γ : Type} {p : Reader α} {write : γ → List UInt8}
    {Means : γ → α → Prop} (h : Reads p write Means) :
    Reads (counted p) (fun xs => bytes2 xs.length ++ xs.flatMap write)
      (fun xs as => xs.length < 2 ^ 16 ∧ List.Forall₂ Means xs as) := by
  intro bs as rest
  unfold counted
  simp only [bind_eq_ok, u2_eq_ok, (h.times _) _ _ _]
  constructor
  · intro hread
    obtain ⟨n, _, rfl, xs, rfl, hlen, hall⟩ := hread
    exact ⟨xs, by rw [hlen, List.append_assoc], by rw [hlen]; exact n.toNat_lt, hall⟩
  · intro hform
    obtain ⟨xs, rfl, hlt, hall⟩ := hform
    have hn : (UInt16.ofNat xs.length).toNat = xs.length := UInt16.toNat_ofNat_of_lt' hlt
    exact ⟨UInt16.ofNat xs.length, xs.flatMap write ++ rest, by rw [hn, List.append_assoc],
      xs, rfl, hn.symm, hall⟩

end Reader
end ClassFormat
end ClassIndex

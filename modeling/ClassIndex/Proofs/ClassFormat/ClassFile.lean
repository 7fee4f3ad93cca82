/-
Class files as they are laid out.

`ClassFile` is the record of a class file's items, with references left as the
numbers that stand in the file and attributes left as blocks of bytes.  `bytes`
writes it out: numbers big-endian, every list after a count of two bytes, every
attribute after a length of four.  `Framed` says that the counts and lengths fit
the words they are written in, and that the constants take up exactly the numbers
that the file declares.

What a method's body and a debug table look like inside an attribute is a record
of its own, `BodyForm` and `LineForm`.

The main statement is `ClassFile.bytes_append_inj`: what a framed class file writes
begins no other framed class file's writing, so a byte string holds at most one
class file, with one rest.
-/
import ClassIndex.Proofs.ByteReader.Inversion

namespace ClassIndex
namespace ClassFormat

open ByteReader

/-! ## Constants -/

/-- The kinds of constants whose content stays uninterpreted. -/
inductive DataKind where
  | integer | float | long | double | string | fieldRef | methodRef | interfaceMethodRef
  | nameAndType | methodHandle | methodType | dynamic | invokeDynamic | module | package
  deriving DecidableEq, Inhabited

namespace DataKind

def all : List DataKind :=
  [integer, float, long, double, string, fieldRef, methodRef, interfaceMethodRef, nameAndType,
    methodHandle, methodType, dynamic, invokeDynamic, module, package]

def tag : DataKind → UInt8
  | integer => 3
  | float => 4
  | long => 5
  | double => 6
  | string => 8
  | fieldRef => 9
  | methodRef => 10
  | interfaceMethodRef => 11
  | nameAndType => 12
  | methodHandle => 15
  | methodType => 16
  | dynamic => 17
  | invokeDynamic => 18
  | module => 19
  | package => 20

/-- Bytes after the tag. -/
def size : DataKind → Nat
  | long | double => 8
  | methodHandle => 3
  | string | methodType | module | package => 2
  | _ => 4

/-- Numbers that the constant takes in the pool. -/
def places : DataKind → Nat
  | long | double => 2
  | _ => 1

def ofTag? (b : UInt8) : Option DataKind :=
  all.find? (·.tag = b)

theorem ofTag?_tag (k : DataKind) : ofTag? k.tag = some k := by
  cases k <;> decide

theorem tag_of_ofTag? {b : UInt8} {k : DataKind} (h : ofTag? b = some k) : k.tag = b := by
  unfold ofTag? at h
  simpa using List.find?_some h

theorem ofTag?_eq_none {b : UInt8} (h : ∀ k : DataKind, k.tag ≠ b) : ofTag? b = none := by
  unfold ofTag?
  rw [List.find?_eq_none]
  intro k _
  simpa using h k

theorem tag_ne_text (k : DataKind) : k.tag ≠ 1 := by
  cases k <;> decide

theorem tag_ne_classRef (k : DataKind) : k.tag ≠ 7 := by
  cases k <;> decide

theorem tag_inj {k l : DataKind} (h : k.tag = l.tag) : k = l := by
  have hk := ofTag?_tag k
  rw [h, ofTag?_tag] at hk
  exact (Option.some.inj hk).symm

end DataKind

/-- A constant as it is written. -/
inductive ConstantForm where
  | text (payload : List UInt8)
  | classRef (nameIndex : UInt16)
  | data (kind : DataKind) (content : List UInt8)
  deriving DecidableEq, Inhabited

namespace ConstantForm

def bytes : ConstantForm → List UInt8
  | text payload => 1 :: (bytes2 payload.length ++ payload)
  | classRef nameIndex => 7 :: bytes2 nameIndex.toNat
  | data kind content => kind.tag :: content

def Framed : ConstantForm → Prop
  | text payload => payload.length < 2 ^ 16
  | classRef _ => True
  | data kind content => content.length = kind.size

instance (c : ConstantForm) : Decidable c.Framed :=
  match c with
  | text payload => inferInstanceAs (Decidable (payload.length < 2 ^ 16))
  | classRef _ => .isTrue trivial
  | data kind content => inferInstanceAs (Decidable (content.length = kind.size))

def places : ConstantForm → Nat
  | text _ => 1
  | classRef _ => 1
  | data kind _ => kind.places

theorem places_pos (c : ConstantForm) : 0 < c.places := by
  cases c with
  | text payload => exact Nat.one_pos
  | classRef nameIndex => exact Nat.one_pos
  | data kind content => cases kind <;> exact Nat.succ_pos _

end ConstantForm

/-- The constants take as many numbers as there are, the last one alone being free to
take one more. -/
def Fills : Nat → List ConstantForm → Prop
  | n, [] => n = 0
  | n, c :: cs => 0 < n ∧ Fills (n - c.places) cs

/-- Constants whose numbers add up fill them. -/
theorem fills_sum (cs : List ConstantForm) : Fills (cs.map ConstantForm.places).sum cs := by
  induction cs with
  | nil => rfl
  | cons c cs ih =>
    have hpos := c.places_pos
    rw [List.map_cons, List.sum_cons]
    refine ⟨by omega, ?_⟩
    rwa [Nat.add_sub_cancel_left]

/-! ## Attributes, members and the class -/

/-- A list after its count. -/
def countedBytes {γ : Type} (write : γ → List UInt8) (xs : List γ) : List UInt8 :=
  bytes2 xs.length ++ xs.flatMap write

/-- A list whose count fits its word, of forms that are framed. -/
def Counted {γ : Type} (Framed : γ → Prop) (xs : List γ) : Prop :=
  xs.length < 2 ^ 16 ∧ ∀ x ∈ xs, Framed x

instance {γ : Type} (Framed : γ → Prop) [DecidablePred Framed] (xs : List γ) :
    Decidable (Counted Framed xs) :=
  inferInstanceAs (Decidable (_ ∧ _))

structure AttributeForm where
  name : UInt16
  content : List UInt8
  deriving DecidableEq, Inhabited

namespace AttributeForm

def bytes (a : AttributeForm) : List UInt8 :=
  bytes2 a.name.toNat ++ (bytes4 a.content.length ++ a.content)

def Framed (a : AttributeForm) : Prop :=
  a.content.length < 2 ^ 32

instance : DecidablePred Framed :=
  fun a => inferInstanceAs (Decidable (a.content.length < 2 ^ 32))

end AttributeForm

/-- A field or a method. -/
structure MemberForm where
  access : UInt16
  name : UInt16
  descriptor : UInt16
  attributes : List AttributeForm
  deriving DecidableEq, Inhabited

namespace MemberForm

def bytes (m : MemberForm) : List UInt8 :=
  bytes2 m.access.toNat ++ (bytes2 m.name.toNat ++ (bytes2 m.descriptor.toNat ++
    countedBytes AttributeForm.bytes m.attributes))

def Framed (m : MemberForm) : Prop :=
  Counted AttributeForm.Framed m.attributes

instance : DecidablePred Framed :=
  fun m => inferInstanceAs (Decidable (Counted AttributeForm.Framed m.attributes))

end MemberForm

structure ClassFile where
  minor : UInt16
  major : UInt16
  /-- One more than the numbers that the constants take. -/
  poolCount : UInt16
  pool : List ConstantForm
  access : UInt16
  thisClass : UInt16
  superClass : UInt16
  interfaces : List UInt16
  fields : List MemberForm
  methods : List MemberForm
  attributes : List AttributeForm
  deriving DecidableEq, Inhabited

namespace ClassFile

def bytes (f : ClassFile) : List UInt8 :=
  bytes4 0xCAFEBABE ++ (bytes2 f.minor.toNat ++ (bytes2 f.major.toNat ++
    (bytes2 f.poolCount.toNat ++ (f.pool.flatMap ConstantForm.bytes ++
      (bytes2 f.access.toNat ++ (bytes2 f.thisClass.toNat ++ (bytes2 f.superClass.toNat ++
        (countedBytes (fun i => bytes2 i.toNat) f.interfaces ++
          (countedBytes MemberForm.bytes f.fields ++ (countedBytes MemberForm.bytes f.methods ++
            countedBytes AttributeForm.bytes f.attributes))))))))))

structure Framed (f : ClassFile) : Prop where
  fills : Fills (f.poolCount.toNat - 1) f.pool
  constants : ∀ c ∈ f.pool, c.Framed
  interfaces : f.interfaces.length < 2 ^ 16
  fields : Counted MemberForm.Framed f.fields
  methods : Counted MemberForm.Framed f.methods
  attributes : Counted AttributeForm.Framed f.attributes

end ClassFile

/-! ## Inside attributes -/

structure HandlerForm where
  start : UInt16
  stop : UInt16
  handler : UInt16
  catchType : UInt16
  deriving DecidableEq, Inhabited

def HandlerForm.bytes (h : HandlerForm) : List UInt8 :=
  bytes2 h.start.toNat ++ (bytes2 h.stop.toNat ++ (bytes2 h.handler.toNat ++
    bytes2 h.catchType.toNat))

/-- The body of a method, as the content of its attribute. -/
structure BodyForm where
  maxStack : UInt16
  maxLocals : UInt16
  code : List UInt8
  handlers : List HandlerForm
  attributes : List AttributeForm
  deriving DecidableEq, Inhabited

namespace BodyForm

def bytes (b : BodyForm) : List UInt8 :=
  bytes2 b.maxStack.toNat ++ (bytes2 b.maxLocals.toNat ++ (bytes4 b.code.length ++ (b.code ++
    (countedBytes HandlerForm.bytes b.handlers ++ countedBytes AttributeForm.bytes b.attributes))))

structure Framed (b : BodyForm) : Prop where
  code : b.code.length < 2 ^ 32
  handlers : b.handlers.length < 2 ^ 16
  attributes : Counted AttributeForm.Framed b.attributes

end BodyForm

/-- A line of a debug table. -/
structure LineForm where
  start : UInt16
  length : UInt16
  name : UInt16
  descriptor : UInt16
  slot : UInt16
  deriving DecidableEq, Inhabited

def LineForm.bytes (x : LineForm) : List UInt8 :=
  bytes2 x.start.toNat ++ (bytes2 x.length.toNat ++ (bytes2 x.name.toNat ++
    (bytes2 x.descriptor.toNat ++ bytes2 x.slot.toNat)))

/-! ## One class file at most -/

/-- Of two written forms neither begins the other, unless they are the same. -/
def Separable {γ : Type} (write : γ → List UInt8) (Framed : γ → Prop) : Prop :=
  ∀ {x y : γ} {s t : List UInt8}, Framed x → Framed y → write x ++ s = write y ++ t →
    x = y ∧ s = t

theorem bytes2_append_inj {m n : Nat} {s t : List UInt8} (hm : m < 2 ^ 16) (hn : n < 2 ^ 16)
    (h : bytes2 m ++ s = bytes2 n ++ t) : m = n ∧ s = t := by
  obtain ⟨hword, hrest⟩ := List.append_inj h (by simp)
  exact ⟨toBigEndian_inj hm hn hword, hrest⟩

theorem bytes4_append_inj {m n : Nat} {s t : List UInt8} (hm : m < 2 ^ 32) (hn : n < 2 ^ 32)
    (h : bytes4 m ++ s = bytes4 n ++ t) : m = n ∧ s = t := by
  obtain ⟨hword, hrest⟩ := List.append_inj h (by simp)
  exact ⟨toBigEndian_inj hm hn hword, hrest⟩

theorem word_append_inj {v w : UInt16} {s t : List UInt8}
    (h : bytes2 v.toNat ++ s = bytes2 w.toNat ++ t) : v = w ∧ s = t := by
  obtain ⟨hvw, hst⟩ := bytes2_append_inj v.toNat_lt w.toNat_lt h
  exact ⟨UInt16.toNat_inj.mp hvw, hst⟩

theorem Separable.flatMap {γ : Type} {write : γ → List UInt8} {Framed : γ → Prop}
    (hw : Separable write Framed) {xs ys : List γ} {s t : List UInt8}
    (hlen : xs.length = ys.length) (hx : ∀ x ∈ xs, Framed x) (hy : ∀ y ∈ ys, Framed y)
    (h : xs.flatMap write ++ s = ys.flatMap write ++ t) : xs = ys ∧ s = t := by
  induction xs generalizing ys with
  | nil =>
    have hnil : ys = [] := List.length_eq_zero_iff.mp hlen.symm
    rw [hnil] at h ⊢
    exact ⟨rfl, h⟩
  | cons x xs ih =>
    cases ys with
    | nil => cases hlen
    | cons y ys =>
      rw [List.flatMap_cons, List.flatMap_cons, List.append_assoc, List.append_assoc] at h
      obtain ⟨rfl, htail⟩ := hw (hx x List.mem_cons_self) (hy y List.mem_cons_self) h
      obtain ⟨rfl, hst⟩ := ih (Nat.succ.inj hlen) (fun a ha => hx a (List.mem_cons_of_mem x ha))
        (fun a ha => hy a (List.mem_cons_of_mem x ha)) htail
      exact ⟨rfl, hst⟩

theorem Separable.counted {γ : Type} {write : γ → List UInt8} {Framed : γ → Prop}
    (hw : Separable write Framed) : Separable (countedBytes write) (Counted Framed) := by
  intro xs ys s t hx hy h
  unfold countedBytes at h
  rw [List.append_assoc, List.append_assoc] at h
  obtain ⟨hlen, htail⟩ := bytes2_append_inj hx.1 hy.1 h
  exact hw.flatMap hlen hx.2 hy.2 htail

theorem separable_word : Separable (fun v : UInt16 => bytes2 v.toNat) (fun _ => True) :=
  fun _ _ h => word_append_inj h

theorem AttributeForm.separable : Separable AttributeForm.bytes AttributeForm.Framed := by
  intro a b s t ha hb h
  obtain ⟨name, content⟩ := a
  obtain ⟨name', content'⟩ := b
  simp only [AttributeForm.bytes, List.append_assoc] at h
  obtain ⟨rfl, h₁⟩ := word_append_inj h
  obtain ⟨hlen, h₂⟩ := bytes4_append_inj (m := content.length) (n := content'.length) ha hb h₁
  obtain ⟨rfl, hst⟩ := List.append_inj h₂ hlen
  exact ⟨rfl, hst⟩

theorem LineForm.separable : Separable LineForm.bytes (fun _ => True) := by
  intro x y s t _ _ h
  obtain ⟨start, length, name, descriptor, slot⟩ := x
  obtain ⟨start', length', name', descriptor', slot'⟩ := y
  simp only [LineForm.bytes, List.append_assoc] at h
  obtain ⟨rfl, h₁⟩ := word_append_inj h
  obtain ⟨rfl, h₂⟩ := word_append_inj h₁
  obtain ⟨rfl, h₃⟩ := word_append_inj h₂
  obtain ⟨rfl, h₄⟩ := word_append_inj h₃
  obtain ⟨rfl, hst⟩ := word_append_inj h₄
  exact ⟨rfl, hst⟩

theorem HandlerForm.separable : Separable HandlerForm.bytes (fun _ => True) := by
  intro x y s t _ _ h
  obtain ⟨start, stop, handler, catchType⟩ := x
  obtain ⟨start', stop', handler', catchType'⟩ := y
  simp only [HandlerForm.bytes, List.append_assoc] at h
  obtain ⟨rfl, h₁⟩ := word_append_inj h
  obtain ⟨rfl, h₂⟩ := word_append_inj h₁
  obtain ⟨rfl, h₃⟩ := word_append_inj h₂
  obtain ⟨rfl, hst⟩ := word_append_inj h₃
  exact ⟨rfl, hst⟩

theorem BodyForm.separable : Separable BodyForm.bytes BodyForm.Framed := by
  intro x y s t hx hy h
  obtain ⟨maxStack, maxLocals, code, handlers, attributes⟩ := x
  obtain ⟨maxStack', maxLocals', code', handlers', attributes'⟩ := y
  simp only [BodyForm.bytes, List.append_assoc] at h
  obtain ⟨rfl, h₁⟩ := word_append_inj h
  obtain ⟨rfl, h₂⟩ := word_append_inj h₁
  obtain ⟨hlen, h₃⟩ := bytes4_append_inj hx.code hy.code h₂
  obtain ⟨rfl, h₄⟩ := List.append_inj h₃ hlen
  obtain ⟨rfl, h₅⟩ := HandlerForm.separable.counted ⟨hx.handlers, fun _ _ => trivial⟩
    ⟨hy.handlers, fun _ _ => trivial⟩ h₄
  obtain ⟨rfl, hst⟩ := AttributeForm.separable.counted hx.attributes hy.attributes h₅
  exact ⟨rfl, hst⟩

theorem MemberForm.separable : Separable MemberForm.bytes MemberForm.Framed := by
  intro m n s t hm hn h
  obtain ⟨access, name, descriptor, attributes⟩ := m
  obtain ⟨access', name', descriptor', attributes'⟩ := n
  simp only [MemberForm.bytes, List.append_assoc] at h
  obtain ⟨rfl, h₁⟩ := word_append_inj h
  obtain ⟨rfl, h₂⟩ := word_append_inj h₁
  obtain ⟨rfl, h₃⟩ := word_append_inj h₂
  obtain ⟨rfl, hst⟩ := AttributeForm.separable.counted hm hn h₃
  exact ⟨rfl, hst⟩

theorem ConstantForm.separable : Separable ConstantForm.bytes ConstantForm.Framed := by
  intro c d s t hc hd h
  cases c with
  | text payload =>
    cases d with
    | text payload' =>
      simp only [ConstantForm.bytes, List.cons_append, List.append_assoc] at h
      obtain ⟨hlen, hrest⟩ := bytes2_append_inj (m := payload.length) (n := payload'.length) hc hd
        (List.cons.inj h).2
      obtain ⟨rfl, hst⟩ := List.append_inj hrest hlen
      exact ⟨rfl, hst⟩
    | classRef i => exact absurd (List.cons.inj h).1 (by decide)
    | data k content => exact absurd (List.cons.inj h).1.symm k.tag_ne_text
  | classRef i =>
    cases d with
    | text payload' => exact absurd (List.cons.inj h).1 (by decide)
    | classRef i' =>
      obtain ⟨rfl, hst⟩ := word_append_inj (List.cons.inj h).2
      exact ⟨rfl, hst⟩
    | data k content => exact absurd (List.cons.inj h).1.symm k.tag_ne_classRef
  | data k content =>
    cases d with
    | text payload' => exact absurd (List.cons.inj h).1 k.tag_ne_text
    | classRef i' => exact absurd (List.cons.inj h).1 k.tag_ne_classRef
    | data k' content' =>
      simp only [ConstantForm.bytes, List.cons_append] at h
      obtain ⟨htag, hrest⟩ := List.cons.inj h
      obtain rfl := DataKind.tag_inj htag
      have hlen : content.length = content'.length := Eq.trans hc (Eq.symm hd)
      obtain ⟨rfl, hst⟩ := List.append_inj hrest hlen
      exact ⟨rfl, hst⟩

/-- Constants that fill the same numbers are written as different bytes. -/
theorem Fills.append_inj {n : Nat} {cs ds : List ConstantForm} {s t : List UInt8}
    (hc : Fills n cs) (hd : Fills n ds) (hcs : ∀ c ∈ cs, c.Framed) (hds : ∀ d ∈ ds, d.Framed)
    (h : cs.flatMap ConstantForm.bytes ++ s = ds.flatMap ConstantForm.bytes ++ t) :
    cs = ds ∧ s = t := by
  induction cs generalizing n ds with
  | nil =>
    cases ds with
    | nil => exact ⟨rfl, h⟩
    | cons d ds => exact absurd hc (Nat.ne_of_gt hd.1)
  | cons c cs ih =>
    cases ds with
    | nil => exact absurd hd (Nat.ne_of_gt hc.1)
    | cons d ds =>
      rw [List.flatMap_cons, List.flatMap_cons, List.append_assoc, List.append_assoc] at h
      obtain ⟨rfl, htail⟩ := ConstantForm.separable (hcs c List.mem_cons_self)
        (hds d List.mem_cons_self) h
      obtain ⟨rfl, hst⟩ := ih hc.2 hd.2 (fun a ha => hcs a (List.mem_cons_of_mem c ha))
        (fun a ha => hds a (List.mem_cons_of_mem c ha)) htail
      exact ⟨rfl, hst⟩

/-- A byte string starts with at most one framed class file. -/
theorem ClassFile.bytes_append_inj {f g : ClassFile} {s t : List UInt8} (hf : f.Framed)
    (hg : g.Framed) (h : f.bytes ++ s = g.bytes ++ t) : f = g ∧ s = t := by
  obtain ⟨minor, major, count, pool, access, this, super, interfaces, fields, methods,
    attributes⟩ := f
  obtain ⟨minor', major', count', pool', access', this', super', interfaces', fields', methods',
    attributes'⟩ := g
  simp only [ClassFile.bytes, List.append_assoc] at h
  obtain ⟨rfl, h₁⟩ := word_append_inj (List.append_cancel_left h)
  obtain ⟨rfl, h₂⟩ := word_append_inj h₁
  obtain ⟨rfl, h₃⟩ := word_append_inj h₂
  obtain ⟨rfl, h₄⟩ := hf.fills.append_inj hg.fills hf.constants hg.constants h₃
  obtain ⟨rfl, h₅⟩ := word_append_inj h₄
  obtain ⟨rfl, h₆⟩ := word_append_inj h₅
  obtain ⟨rfl, h₇⟩ := word_append_inj h₆
  obtain ⟨rfl, h₈⟩ := separable_word.counted ⟨hf.interfaces, fun _ _ => trivial⟩
    ⟨hg.interfaces, fun _ _ => trivial⟩ h₇
  obtain ⟨rfl, h₉⟩ := MemberForm.separable.counted hf.fields hg.fields h₈
  obtain ⟨rfl, h₁₀⟩ := MemberForm.separable.counted hf.methods hg.methods h₉
  obtain ⟨rfl, hst⟩ := AttributeForm.separable.counted hf.attributes hg.attributes h₁₀
  exact ⟨rfl, hst⟩

end ClassFormat
end ClassIndex

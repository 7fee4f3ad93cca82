/-
Derivation trees of descriptors.

`TypeTree` and `SignatureTree` are the derivations of the grammar as data: which rule
derives each type, and the characters of each class name as they stand.  `Derives` says that
a tree is one of the grammar and derives given characters, and `type` and `signature` are
what it stands for.  A string has at most one derivation: of two trees neither derives a
beginning of what the other derives (`TypeTree.chars_append_inj`), so the parameters of a
signature can be told apart although nothing stands between them.

`Follows` says that a reader accepts what the trees of a grammar derive, and that whatever
else it is given is malformed.  The name of a class is cut out between two ASCII bytes,
so it is a text again, and the fault for a name that is none never occurs.
-/
import ClassIndex.Proofs.JvmType.Grammar

namespace ClassIndex
namespace Descriptor

/-! ## Trees -/

/-- A derivation of a type by its last rule. -/
inductive TypeTree where
  | primitive (kind : Primitive)
  | reference (name : List Char)
  | array (element : TypeTree)

namespace TypeTree

/-- The rules are those of the grammar: `void` is no type, and a name has no semicolon. -/
def Legal : TypeTree → Prop
  | primitive kind => kind ≠ .void
  | reference name => ';' ∉ name
  | array element => element.Legal

def chars : TypeTree → List Char
  | primitive kind => [kind.letter]
  | reference name => 'L' :: name ++ [';']
  | array element => '[' :: element.chars

def type : TypeTree → JvmType
  | primitive kind => .primitive kind
  | reference name => .reference (Name.dotted (String.ofList name))
  | array element => .array element.type

def Derives (x : TypeTree) (cs : List Char) : Prop :=
  x.Legal ∧ x.chars = cs

end TypeTree

/-- A derivation of a signature, without a result tree for `void`. -/
structure SignatureTree where
  parameters : List TypeTree
  result : Option TypeTree

namespace SignatureTree

structure Legal (x : SignatureTree) : Prop where
  parameters : ∀ p ∈ x.parameters, p.Legal
  result : ∀ r, x.result = some r → r.Legal

def resultChars (x : SignatureTree) : List Char :=
  match x.result with
  | none => ['V']
  | some r => r.chars

def chars (x : SignatureTree) : List Char :=
  '(' :: x.parameters.flatMap TypeTree.chars ++ ')' :: x.resultChars

def signature (x : SignatureTree) : Signature where
  parameters := x.parameters.map TypeTree.type
  result := (x.result.map TypeTree.type).getD (.primitive .void)

def Derives (x : SignatureTree) (cs : List Char) : Prop :=
  x.Legal ∧ x.chars = cs

end SignatureTree

/-! ## A derivation is the only one -/

theorem letter_inj {k l : Primitive} (h : k.letter = l.letter) : k = l := by
  revert h
  cases k <;> cases l <;> decide

theorem letter_ne (kind : Primitive) :
    kind.letter ≠ 'L' ∧ kind.letter ≠ '[' ∧ kind.letter ≠ ')' := by
  cases kind <;> decide

theorem append_semicolon_inj {name name' s t : List Char} (hname : ';' ∉ name)
    (hname' : ';' ∉ name') (h : name ++ ';' :: s = name' ++ ';' :: t) :
    name = name' ∧ s = t := by
  induction name generalizing name' with
  | nil =>
    cases name' with
    | nil => exact ⟨rfl, (List.cons.inj h).2⟩
    | cons c name' => exact absurd ((List.cons.inj h).1 ▸ List.mem_cons_self) hname'
  | cons c name ih =>
    cases name' with
    | nil => exact absurd ((List.cons.inj h).1 ▸ List.mem_cons_self) hname
    | cons d name' =>
      obtain ⟨rfl, htail⟩ := List.cons.inj h
      obtain ⟨rfl, hst⟩ := ih (fun hc => hname (List.mem_cons_of_mem c hc))
        (fun hc => hname' (List.mem_cons_of_mem c hc)) htail
      exact ⟨rfl, hst⟩

/-- What a tree derives is no beginning of what another one derives. -/
theorem TypeTree.chars_append_inj {x y : TypeTree} {s t : List Char} (hx : x.Legal)
    (hy : y.Legal) (h : x.chars ++ s = y.chars ++ t) : x = y ∧ s = t := by
  induction x generalizing y with
  | primitive kind =>
    obtain ⟨hL, harray, -⟩ := letter_ne kind
    cases y with
    | primitive kind' =>
      obtain ⟨hletter, hst⟩ := List.cons.inj h
      rw [letter_inj hletter]
      exact ⟨rfl, hst⟩
    | reference name => exact absurd (List.cons.inj h).1 hL
    | array element => exact absurd (List.cons.inj h).1 harray
  | reference name =>
    cases y with
    | primitive kind' => exact absurd (List.cons.inj h).1.symm (letter_ne kind').1
    | reference name' =>
      have htail : name ++ ';' :: s = name' ++ ';' :: t := by
        simpa [chars] using h
      obtain ⟨rfl, hst⟩ := append_semicolon_inj hx hy htail
      exact ⟨rfl, hst⟩
    | array element => exact absurd (List.cons.inj h).1 (by decide)
  | array element ih =>
    cases y with
    | primitive kind' => exact absurd (List.cons.inj h).1.symm (letter_ne kind').2.1
    | reference name => exact absurd (List.cons.inj h).1 (by decide)
    | array element' =>
      obtain ⟨rfl, hst⟩ := ih (y := element') hx hy (List.cons.inj h).2
      exact ⟨rfl, hst⟩

theorem TypeTree.Derives.unique {x y : TypeTree} {cs : List Char} (hx : x.Derives cs)
    (hy : y.Derives cs) : x = y := by
  refine (chars_append_inj (s := []) (t := []) hx.1 hy.1 ?_).1
  rw [hx.2, hy.2]

/-- A type begins with neither of the characters that end parameters or stand for no type. -/
theorem TypeTree.Legal.exists_cons {x : TypeTree} (h : x.Legal) :
    ∃ c cs, x.chars = c :: cs ∧ c ≠ ')' ∧ c ≠ 'V' := by
  cases x with
  | primitive kind =>
    refine ⟨kind.letter, [], rfl, (letter_ne kind).2.2, fun hV => h ?_⟩
    exact letter_inj (hV.trans (by decide : 'V' = Primitive.void.letter))
  | reference name => exact ⟨'L', _, rfl, by decide, by decide⟩
  | array element => exact ⟨'[', _, rfl, by decide, by decide⟩

theorem parameters_append_inj {xs ys : List TypeTree} {s t : List Char}
    (hx : ∀ x ∈ xs, x.Legal) (hy : ∀ y ∈ ys, y.Legal)
    (h : xs.flatMap TypeTree.chars ++ ')' :: s = ys.flatMap TypeTree.chars ++ ')' :: t) :
    xs = ys ∧ s = t := by
  induction xs generalizing ys with
  | nil =>
    cases ys with
    | nil => exact ⟨rfl, (List.cons.inj h).2⟩
    | cons y ys =>
      obtain ⟨c, cs, hchars, hclose, -⟩ := (hy y List.mem_cons_self).exists_cons
      rw [List.flatMap_cons, hchars] at h
      exact absurd (List.cons.inj h).1.symm hclose
  | cons x xs ih =>
    cases ys with
    | nil =>
      obtain ⟨c, cs, hchars, hclose, -⟩ := (hx x List.mem_cons_self).exists_cons
      rw [List.flatMap_cons, hchars] at h
      exact absurd (List.cons.inj h).1 hclose
    | cons y ys =>
      rw [List.flatMap_cons, List.flatMap_cons, List.append_assoc, List.append_assoc] at h
      obtain ⟨rfl, htail⟩ := TypeTree.chars_append_inj (hx x List.mem_cons_self)
        (hy y List.mem_cons_self) h
      obtain ⟨rfl, hst⟩ := ih (fun a ha => hx a (List.mem_cons_of_mem x ha))
        (fun a ha => hy a (List.mem_cons_of_mem x ha)) htail
      exact ⟨rfl, hst⟩

theorem SignatureTree.Derives.unique {x y : SignatureTree} {cs : List Char} (hx : x.Derives cs)
    (hy : y.Derives cs) : x = y := by
  obtain ⟨⟨hps, hresult⟩, hchars⟩ := hx
  obtain ⟨⟨hps', hresult'⟩, hchars'⟩ := hy
  obtain ⟨ps, result⟩ := x
  obtain ⟨ps', result'⟩ := y
  obtain ⟨rfl, hrest⟩ :=
    parameters_append_inj hps hps' (List.cons.inj (hchars.trans hchars'.symm)).2
  cases result with
  | none =>
    cases result' with
    | none => rfl
    | some r =>
      obtain ⟨c, cs, hr, -, hV⟩ := (hresult' r rfl).exists_cons
      exact absurd (List.cons.inj (hrest.trans hr)).1.symm hV
  | some r =>
    cases result' with
    | none =>
      obtain ⟨c, cs, hr, -, hV⟩ := (hresult r rfl).exists_cons
      exact absurd (List.cons.inj (hrest.symm.trans hr)).1.symm hV
    | some r' =>
      have hsame : r = r' := TypeTree.Derives.unique ⟨hresult r rfl, hrest⟩ ⟨hresult' r' rfl, rfl⟩
      rw [hsame]

/-! ## Trees and the grammar -/

theorem describes_iff_exists_tree {cs : List Char} {t : JvmType} :
    Describes cs t ↔ ∃ x : TypeTree, x.Derives cs ∧ x.type = t := by
  constructor
  · intro h
    induction h with
    | @primitive kind hkind => exact ⟨.primitive kind, ⟨hkind, rfl⟩, rfl⟩
    | @reference name hname => exact ⟨.reference name, ⟨hname, rfl⟩, rfl⟩
    | array _ ih =>
      obtain ⟨x, ⟨hx, rfl⟩, rfl⟩ := ih
      exact ⟨.array x, ⟨hx, rfl⟩, rfl⟩
  · intro h
    obtain ⟨x, ⟨hx, rfl⟩, rfl⟩ := h
    induction x with
    | primitive kind => exact .primitive hx
    | reference name => exact .reference hx
    | array element ih => exact .array (ih hx)

theorem describesAll_iff_exists_trees {cs : List Char} {ts : List JvmType} :
    DescribesAll cs ts ↔ ∃ xs : List TypeTree, (∀ x ∈ xs, x.Legal) ∧
      xs.flatMap TypeTree.chars = cs ∧ xs.map TypeTree.type = ts := by
  constructor
  · intro h
    induction h with
    | nil => exact ⟨[], nofun, rfl, rfl⟩
    | cons ht _ ih =>
      obtain ⟨x, ⟨hx, rfl⟩, rfl⟩ := describes_iff_exists_tree.mp ht
      obtain ⟨xs, hxs, rfl, rfl⟩ := ih
      exact ⟨x :: xs, List.forall_mem_cons.mpr ⟨hx, hxs⟩, rfl, rfl⟩
  · intro h
    obtain ⟨xs, hxs, rfl, rfl⟩ := h
    induction xs with
    | nil => exact .nil
    | cons x xs ih =>
      obtain ⟨hx, hxs⟩ := List.forall_mem_cons.mp hxs
      exact .cons (describes_iff_exists_tree.mpr ⟨x, ⟨hx, rfl⟩, rfl⟩) (ih hxs)

theorem describesSignature_iff_exists_tree {cs : List Char} {s : Signature} :
    DescribesSignature cs s ↔ ∃ x : SignatureTree, x.Derives cs ∧ x.signature = s := by
  constructor
  · intro h
    obtain ⟨hp, hr⟩ := h
    obtain ⟨parameters, result⟩ := s
    obtain ⟨xs, hxs, rfl, rfl⟩ := describesAll_iff_exists_trees.mp hp
    cases hr with
    | void => exact ⟨⟨xs, none⟩, ⟨⟨hxs, nofun⟩, rfl⟩, rfl⟩
    | type ht =>
      obtain ⟨r, ⟨hr, rfl⟩, rfl⟩ := describes_iff_exists_tree.mp ht
      refine ⟨⟨xs, some r⟩, ⟨⟨hxs, fun r' hr' => ?_⟩, rfl⟩, rfl⟩
      cases hr'
      exact hr
  · intro h
    obtain ⟨⟨xs, result⟩, ⟨⟨hxs, hresult⟩, rfl⟩, rfl⟩ := h
    refine .mk (describesAll_iff_exists_trees.mpr ⟨xs, hxs, rfl, rfl⟩) ?_
    cases result with
    | none => exact .void
    | some r => exact .type (describes_iff_exists_tree.mpr ⟨r, ⟨hresult r rfl, rfl⟩, rfl⟩)

/-! ## Reading along a grammar -/

/-- A reader that accepts what the trees of a grammar derive, each string as what its
only tree stands for.  All else is malformed, and never for a name that is no text. -/
structure Follows {ι α : Type} (read : String → Except DescriptorFault α)
    (Derives : ι → List Char → Prop) (meaning : ι → α) : Prop where
  unique : ∀ {x y : ι} {cs : List Char}, Derives x cs → Derives y cs → x = y
  ok_iff : ∀ {d : String} {a : α}, read d = .ok a ↔ ∃ x, Derives x d.toList ∧ meaning x = a
  error_iff : ∀ {d : String},
    (∃ fault, read d = .error fault ∧ fault ≠ .nameNotUtf8) ↔ ¬ ∃ x, Derives x d.toList

theorem Follows.of_ok_iff {ι α : Type} {read : String → Except DescriptorFault α}
    {Derives : ι → List Char → Prop} {meaning : ι → α}
    (hunique : ∀ {x y : ι} {cs : List Char}, Derives x cs → Derives y cs → x = y)
    (hok : ∀ {d : String} {a : α}, read d = .ok a ↔ ∃ x, Derives x d.toList ∧ meaning x = a)
    (htext : ∀ d, read d ≠ .error .nameNotUtf8) : Follows read Derives meaning := by
  refine ⟨hunique, hok, fun {d} => ⟨?_, ?_⟩⟩
  · intro hfault
    obtain ⟨fault, hfault, -⟩ := hfault
    intro htree
    obtain ⟨x, hx⟩ := htree
    have hread := hok.mpr ⟨x, hx, rfl⟩
    rw [hfault] at hread
    cases hread
  · intro hnone
    cases hread : read d with
    | ok a =>
      obtain ⟨x, hx, -⟩ := hok.mp hread
      exact absurd ⟨x, hx⟩ hnone
    | error fault =>
      refine ⟨fault, rfl, fun hname => htext d ?_⟩
      rw [hread, hname]

/-! ## A name that was cut out is a text -/

theorem readReference_ne_nameNotUtf8 (cs : List Char) :
    readReference (Utf8.encode cs) ≠ .error .nameNotUtf8 := by
  by_cases hsemi : ';' ∈ cs
  · obtain ⟨name, ds, rfl, hname⟩ := List.eq_append_cons_of_mem hsemi
    rw [Utf8.encode_append, Utf8.encode_ascii (by decide)]
    have hread := readReference_encode hname (Utf8.encode ds)
    intro h
    cases h.symm.trans hread
  · rw [readReference_of_not_mem hsemi]
    nofun

theorem readType_ne_nameNotUtf8 (cs : List Char) :
    readType (Utf8.encode cs) ≠ .error .nameNotUtf8 := by
  induction cs with
  | nil => nofun
  | cons c cs ih =>
    intro h
    cases hb : Utf8.encode (c :: cs) with
    | nil => rw [hb] at h; cases h
    | cons b bs =>
      rw [hb, readType] at h
      split at h
      · next htag =>
        obtain ⟨d, ds, hcs, -, rfl⟩ := Utf8.exists_of_encode_eq_cons hb (by rw [htag]; decide)
        exact readReference_ne_nameNotUtf8 ds h
      · split at h
        · next htag =>
          obtain ⟨d, ds, hcs, -, rfl⟩ := Utf8.exists_of_encode_eq_cons hb (by rw [htag]; decide)
          cases hcs
          split at h
          · cases h
          · next hfault =>
            cases h
            exact ih hfault
        · split at h <;> cases h

theorem readParameters_ne_nameNotUtf8 (cs : List Char) :
    readParameters (Utf8.encode cs) ≠ .error .nameNotUtf8 := by
  induction hn : cs.length using Nat.strongRecOn generalizing cs with
  | _ n ih =>
    intro h
    cases hb : Utf8.encode cs with
    | nil =>
      rw [hb, readParameters] at h
      cases h
    | cons b bs =>
      rw [hb, readParameters] at h
      split at h
      · cases h
      · split at h
        · next hfault =>
          cases h
          rw [← hb] at hfault
          exact readType_ne_nameNotUtf8 cs hfault
        · next t mid hread =>
          rw [← hb] at hread
          obtain ⟨ds, es, rfl, rfl, hdesc⟩ := exists_of_readType hread
          split at h
          · cases h
          · next hfault =>
            cases h
            exact ih es.length (hn ▸ hdesc.length_lt_append es) es rfl hfault

theorem readResult_ne_nameNotUtf8 (cs : List Char) :
    readResult (Utf8.encode cs) ≠ .error .nameNotUtf8 := by
  intro h
  cases hb : Utf8.encode cs with
  | nil => rw [hb] at h; cases h
  | cons b bs =>
    rw [hb, readResult] at h
    split at h
    · cases h
    · rw [← hb] at h
      exact readType_ne_nameNotUtf8 cs h

theorem expect_ne_nameNotUtf8 (byte : UInt8) (bs : List UInt8) :
    expect byte bs ≠ .error .nameNotUtf8 := by
  cases bs with
  | nil => nofun
  | cons b bs => by_cases hb : b = byte <;> simp [expect, hb]

theorem except_bind_eq_error {ε α β : Type} {r : Except ε α} {f : α → Except ε β} {fault : ε} :
    (r >>= f) = .error fault ↔ r = .error fault ∨ ∃ a, r = .ok a ∧ f a = .error fault := by
  cases r <;> simp [bind, Except.bind]

theorem fieldType_ne_nameNotUtf8 (d : String) : fieldType d ≠ .error .nameNotUtf8 := by
  unfold fieldType
  rw [Utf8.bytesOf_eq_encode]
  intro h
  rcases except_bind_eq_error.mp h with hread | ⟨x, -, h⟩
  · exact readType_ne_nameNotUtf8 _ hread
  · dsimp only at h
    split at h <;> cases h

theorem signature_ne_nameNotUtf8 (d : String) : signature d ≠ .error .nameNotUtf8 := by
  unfold signature
  rw [Utf8.bytesOf_eq_encode]
  generalize d.toList = cs
  intro h
  rcases except_bind_eq_error.mp h with hopen | ⟨rest₁, hopen, h⟩
  · exact expect_ne_nameNotUtf8 _ _ hopen
  obtain ⟨c, ds, rfl, -, rfl⟩ := Utf8.exists_of_encode_eq_cons (expect_eq_ok.mp hopen) (by decide)
  rcases except_bind_eq_error.mp h with hparams | ⟨⟨ts, rest₂⟩, hparams, h⟩
  · exact readParameters_ne_nameNotUtf8 ds hparams
  obtain ⟨ps, es, rfl, rfl, -⟩ := exists_of_readParameters hparams
  rcases except_bind_eq_error.mp h with hclose | ⟨rest₃, hclose, h⟩
  · exact expect_ne_nameNotUtf8 _ _ hclose
  obtain ⟨c', fs, -, -, rfl⟩ := Utf8.exists_of_encode_eq_cons (expect_eq_ok.mp hclose) (by decide)
  rcases except_bind_eq_error.mp h with hresult | ⟨x, -, h⟩
  · exact readResult_ne_nameNotUtf8 fs hresult
  · dsimp only at h
    split at h <;> cases h

theorem fieldType_follows : Follows fieldType TypeTree.Derives TypeTree.type :=
  .of_ok_iff TypeTree.Derives.unique
    (fieldType_eq_ok_iff.trans describes_iff_exists_tree) fieldType_ne_nameNotUtf8

theorem signature_follows : Follows signature SignatureTree.Derives SignatureTree.signature :=
  .of_ok_iff SignatureTree.Derives.unique
    (signature_eq_ok_iff.trans describesSignature_iff_exists_tree) signature_ne_nameNotUtf8

end Descriptor
end ClassIndex

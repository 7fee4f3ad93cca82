/-
The grammar of descriptors.

  Type       ::=  B | C | D | F | I | J | S | Z  |  L Name ;  |  [ Type
  Name       ::=  characters other than `;`
  Signature  ::=  ( Type* ) Result
  Result     ::=  V | Type

`Describes` and its companions are this grammar over characters, each rule with the
type it stands for.  The reader works on the UTF-8 bytes of a descriptor, which is
harmless because all punctuation is ASCII.  The main statements are
`fieldType_eq_ok_iff` and `signature_eq_ok_iff`: a descriptor is read exactly when
the grammar derives it, as the type of its derivation.

`Describes.descriptorChars_eq` and `DescribesSignature.descriptorChars_eq` lead
back: what a derivation stands for is written as the same characters, but for dots
in names, which are written as slashes.
-/
import ClassIndex.JvmType.Parser
import ClassIndex.Proofs.Text.Utf8

namespace ClassIndex
namespace Descriptor

/-- The characters of a type other than `void`. -/
inductive Describes : List Char → JvmType → Prop where
  | primitive {kind : Primitive} (h : kind ≠ .void) : Describes [kind.letter] (.primitive kind)
  | reference {name : List Char} (h : ';' ∉ name) :
    Describes ('L' :: name ++ [';']) (.reference (Name.dotted (String.ofList name)))
  | array {cs : List Char} {t : JvmType} (h : Describes cs t) : Describes ('[' :: cs) (.array t)

/-- The characters of several types, one after the other. -/
inductive DescribesAll : List Char → List JvmType → Prop where
  | nil : DescribesAll [] []
  | cons {cs ds : List Char} {t : JvmType} {ts : List JvmType} (h : Describes cs t)
    (hs : DescribesAll ds ts) : DescribesAll (cs ++ ds) (t :: ts)

/-- The characters of a result. -/
inductive DescribesResult : List Char → JvmType → Prop where
  | void : DescribesResult ['V'] (.primitive .void)
  | type {cs : List Char} {t : JvmType} (h : Describes cs t) : DescribesResult cs t

/-- The characters of a method's signature. -/
inductive DescribesSignature : List Char → Signature → Prop where
  | mk {ps rs : List Char} {s : Signature} (hp : DescribesAll ps s.parameters)
    (hr : DescribesResult rs s.result) : DescribesSignature ('(' :: ps ++ ')' :: rs) s

/-! ## Single bytes -/

theorem utf8EncodeChar_letter (kind : Primitive) :
    String.utf8EncodeChar kind.letter = [kind.tag] := by
  cases kind <;> decide

theorem tag_ne_referenceTag (kind : Primitive) : kind.tag ≠ referenceTag := by
  cases kind <;> decide

theorem tag_ne_arrayTag (kind : Primitive) : kind.tag ≠ arrayTag := by
  cases kind <;> decide

theorem tag_ne_closeParen (kind : Primitive) : kind.tag ≠ closeParen := by
  cases kind <;> decide

/-! ## Every derivation is read -/

theorem readReference_encode {name : List Char} (h : ';' ∉ name) (rest : List UInt8) :
    readReference (Utf8.encode name ++ semicolon :: rest) =
      .ok (.reference (Name.dotted (String.ofList name)), rest) := by
  have hsemi : semicolon ∉ Utf8.encode name := Utf8.not_mem_encode (c := ';') (by decide) h
  have hpos : ∀ b ∈ Utf8.encode name, decide (b ≠ semicolon) = true := by
    intro b hb
    exact decide_eq_true fun he => hsemi (he ▸ hb)
  unfold readReference
  rw [List.dropWhile_append_of_pos hpos, List.takeWhile_append_of_pos hpos,
    List.dropWhile_cons_of_neg (by simp), List.takeWhile_cons_of_neg (by simp), List.append_nil]
  simp only [Utf8.decode?_encode]

theorem Describes.readType_eq {cs : List Char} {t : JvmType} (h : Describes cs t)
    (rest : List UInt8) : readType (Utf8.encode cs ++ rest) = .ok (t, rest) := by
  induction h generalizing rest with
  | @primitive kind hv =>
    have he : Utf8.encode [kind.letter] = [kind.tag] := by
      rw [Utf8.encode_cons, utf8EncodeChar_letter]
      rfl
    rw [he, List.singleton_append, readType, if_neg (tag_ne_referenceTag kind),
      if_neg (tag_ne_arrayTag kind), Primitive.ofTag?_tag]
    cases kind <;> first | rfl | exact absurd rfl hv
  | @reference name hsemi =>
    have he : Utf8.encode ('L' :: name ++ [';']) ++ rest =
        referenceTag :: (Utf8.encode name ++ semicolon :: rest) := by
      rw [List.cons_append, Utf8.encode_ascii (by decide), Utf8.encode_append,
        Utf8.encode_ascii (by decide)]
      simp only [List.cons_append, List.append_assoc]
      rfl
    rw [he, readType, if_pos rfl]
    exact readReference_encode hsemi rest
  | @array cs t _ ih =>
    have he : Utf8.encode ('[' :: cs) ++ rest = arrayTag :: (Utf8.encode cs ++ rest) := by
      rw [Utf8.encode_ascii (by decide)]
      rfl
    rw [he, readType, if_neg (by decide), if_pos rfl, ih]

theorem Describes.exists_cons {cs : List Char} {t : JvmType} (h : Describes cs t) :
    ∃ b bs, Utf8.encode cs = b :: bs ∧ b ≠ closeParen ∧ b ≠ Primitive.void.tag := by
  cases h with
  | @primitive kind hv =>
    refine ⟨kind.tag, [], ?_, tag_ne_closeParen kind, ?_⟩
    · rw [Utf8.encode_cons, utf8EncodeChar_letter]
      rfl
    · cases kind <;> first | decide | exact absurd rfl hv
  | reference hsemi =>
    exact ⟨referenceTag, _, Utf8.encode_ascii (by decide) _, by decide, by decide⟩
  | array h =>
    exact ⟨arrayTag, _, Utf8.encode_ascii (by decide) _, by decide, by decide⟩

/-- A type is not empty, so fewer characters are left behind it. -/
theorem Describes.length_lt_append {cs : List Char} {t : JvmType} (h : Describes cs t)
    (ds : List Char) : ds.length < (cs ++ ds).length := by
  obtain ⟨b, bs, he, -⟩ := h.exists_cons
  cases cs with
  | nil => cases he
  | cons c cs =>
    rw [List.length_append, List.length_cons]
    omega

theorem DescribesAll.readParameters_eq {cs : List Char} {ts : List JvmType}
    (h : DescribesAll cs ts) (rest : List UInt8) :
    readParameters (Utf8.encode cs ++ closeParen :: rest) = .ok (ts, closeParen :: rest) := by
  induction h with
  | nil => rw [Utf8.encode_nil, List.nil_append, readParameters, if_pos rfl]
  | @cons cs ds t ts h hs ih =>
    obtain ⟨b, bs, he, hclose, -⟩ := h.exists_cons
    have hread := h.readType_eq (Utf8.encode ds ++ closeParen :: rest)
    rw [Utf8.encode_append, List.append_assoc]
    rw [he, List.cons_append] at hread ⊢
    rw [readParameters, if_neg hclose]
    split
    · next hfault => rw [hread] at hfault; cases hfault
    · next t' rest' hok =>
      rw [hread] at hok
      cases hok
      rw [ih]

theorem DescribesResult.readResult_eq {cs : List Char} {t : JvmType} (h : DescribesResult cs t)
    (rest : List UInt8) : readResult (Utf8.encode cs ++ rest) = .ok (t, rest) := by
  cases h with
  | void => rfl
  | type h =>
    obtain ⟨b, bs, he, -, hvoid⟩ := h.exists_cons
    have hread := h.readType_eq rest
    rw [he, List.cons_append] at hread ⊢
    rw [readResult, if_neg hvoid, hread]

/-! ## Nothing else is read -/

theorem readReference_of_not_mem {cs : List Char} (h : ';' ∉ cs) :
    readReference (Utf8.encode cs) = .error .unterminated := by
  have hsemi : semicolon ∉ Utf8.encode cs := Utf8.not_mem_encode (c := ';') (by decide) h
  have hpos : ∀ b ∈ Utf8.encode cs, decide (b ≠ semicolon) = true := by
    intro b hb
    exact decide_eq_true fun he => hsemi (he ▸ hb)
  have hnone : (Utf8.encode cs ++ []).dropWhile (· ≠ semicolon) = [] :=
    List.dropWhile_append_of_pos hpos
  rw [List.append_nil] at hnone
  unfold readReference
  rw [hnone]

theorem exists_of_readReference {cs : List Char} {rest : List UInt8} {t : JvmType}
    (h : readReference (Utf8.encode cs) = .ok (t, rest)) :
    ∃ name ds, cs = name ++ ';' :: ds ∧ ';' ∉ name ∧ rest = Utf8.encode ds ∧
      t = .reference (Name.dotted (String.ofList name)) := by
  by_cases hsemi : ';' ∈ cs
  · obtain ⟨name, ds, rfl, hname⟩ := List.eq_append_cons_of_mem hsemi
    rw [Utf8.encode_append, Utf8.encode_ascii (by decide)] at h
    have hread := readReference_encode hname (Utf8.encode ds)
    have heq := h.symm.trans hread
    cases heq
    exact ⟨name, ds, rfl, hname, rfl, rfl⟩
  · rw [readReference_of_not_mem hsemi] at h
    cases h

theorem exists_of_readType {cs : List Char} {rest : List UInt8} {t : JvmType}
    (h : readType (Utf8.encode cs) = .ok (t, rest)) :
    ∃ ds es, cs = ds ++ es ∧ rest = Utf8.encode es ∧ Describes ds t := by
  induction cs generalizing t with
  | nil => cases h
  | cons c cs ih =>
    cases hb : Utf8.encode (c :: cs) with
    | nil => rw [hb] at h; cases h
    | cons b bs =>
      rw [hb, readType] at h
      split at h
      · next htag =>
        obtain ⟨d, ds, hcs, hd, rfl⟩ := Utf8.exists_of_encode_eq_cons hb (by rw [htag]; decide)
        cases hcs
        obtain ⟨name, es, rfl, hname, rfl, rfl⟩ := exists_of_readReference h
        have hc : c = 'L' := Char.toNat_inj.mp (by rw [hd, htag]; rfl)
        exact ⟨'L' :: name ++ [';'], es, by simp [hc], rfl, .reference hname⟩
      · split at h
        · next htag =>
          obtain ⟨d, ds, hcs, hd, rfl⟩ := Utf8.exists_of_encode_eq_cons hb (by rw [htag]; decide)
          cases hcs
          have hc : c = '[' := Char.toNat_inj.mp (by rw [hd, htag]; rfl)
          split at h
          · next hread =>
            cases h
            obtain ⟨ds, es, rfl, rfl, hdesc⟩ := ih hread
            exact ⟨'[' :: ds, es, by rw [hc]; rfl, rfl, .array hdesc⟩
          · cases h
        · split at h
          · cases h
          · next kind hvoid hkind =>
            cases h
            have htag := Primitive.tag_of_ofTag? hkind
            obtain ⟨d, ds, hcs, hd, rfl⟩ := Utf8.exists_of_encode_eq_cons hb (by
              rw [← htag]
              cases kind <;> decide)
            cases hcs
            have hc : c = kind.letter := Char.toNat_inj.mp (by
              rw [hd, ← htag]
              cases kind <;> rfl)
            refine ⟨[c], cs, rfl, rfl, ?_⟩
            rw [hc]
            exact .primitive hvoid
          · cases h

theorem exists_of_readParameters {cs : List Char} {rest : List UInt8} {ts : List JvmType}
    (h : readParameters (Utf8.encode cs) = .ok (ts, rest)) :
    ∃ ds es, cs = ds ++ ')' :: es ∧ rest = Utf8.encode (')' :: es) ∧ DescribesAll ds ts := by
  induction hn : cs.length using Nat.strongRecOn generalizing cs ts with
  | _ n ih =>
    cases hb : Utf8.encode cs with
    | nil =>
      rw [hb, readParameters] at h
      cases h
    | cons b bs =>
      rw [hb, readParameters] at h
      split at h
      · next hclose =>
        cases h
        obtain ⟨c, ds, rfl, hc, rfl⟩ := Utf8.exists_of_encode_eq_cons hb (by rw [hclose]; decide)
        have hparen : c = ')' := Char.toNat_inj.mp (by rw [hc, hclose]; rfl)
        rw [hparen] at hb ⊢
        exact ⟨[], ds, rfl, hb.symm, .nil⟩
      · split at h
        · cases h
        · next t mid hread =>
          rw [← hb] at hread
          obtain ⟨ds, es, rfl, rfl, hdesc⟩ := exists_of_readType hread
          split at h
          · next ts' rest' hmore =>
            cases h
            have hlen : es.length < n := hn ▸ hdesc.length_lt_append es
            obtain ⟨fs, gs, rfl, rfl, hall⟩ := ih es.length hlen hmore rfl
            exact ⟨ds ++ fs, gs, by rw [List.append_assoc], rfl, .cons hdesc hall⟩
          · cases h

theorem exists_of_readResult {cs : List Char} {rest : List UInt8} {t : JvmType}
    (h : readResult (Utf8.encode cs) = .ok (t, rest)) :
    ∃ ds es, cs = ds ++ es ∧ rest = Utf8.encode es ∧ DescribesResult ds t := by
  cases hb : Utf8.encode cs with
  | nil => rw [hb] at h; cases h
  | cons b bs =>
    rw [hb, readResult] at h
    split at h
    · next hvoid =>
      cases h
      obtain ⟨c, ds, rfl, hc, rfl⟩ := Utf8.exists_of_encode_eq_cons hb (by rw [hvoid]; decide)
      have hV : c = 'V' := Char.toNat_inj.mp (by rw [hc, hvoid]; rfl)
      exact ⟨['V'], ds, by rw [hV]; rfl, rfl, .void⟩
    · rw [← hb] at h
      obtain ⟨ds, es, hcs, hrest, hdesc⟩ := exists_of_readType h
      exact ⟨ds, es, hcs, hrest, .type hdesc⟩

/-! ## Whole descriptors -/

theorem except_bind_eq_ok {ε α β : Type} {r : Except ε α} {f : α → Except ε β} {b : β} :
    (r >>= f) = .ok b ↔ ∃ a, r = .ok a ∧ f a = .ok b := by
  cases r <;> simp [bind, Except.bind]

/-- A type's descriptor is read exactly when the grammar derives it. -/
theorem fieldType_eq_ok_iff {d : String} {t : JvmType} :
    fieldType d = .ok t ↔ Describes d.toList t := by
  unfold fieldType
  rw [Utf8.bytesOf_eq_encode]
  constructor
  · intro h
    obtain ⟨⟨t', rest⟩, hread, h⟩ := except_bind_eq_ok.mp h
    obtain ⟨ds, es, hd, hrest, hdesc⟩ := exists_of_readType hread
    dsimp only at h
    split at h
    · next hnil =>
      cases h
      rw [hnil] at hrest
      rw [Utf8.encode_eq_nil_iff.mp hrest.symm, List.append_nil] at hd
      rwa [hd]
    · cases h
  · intro h
    have hread := h.readType_eq []
    rw [List.append_nil] at hread
    exact except_bind_eq_ok.mpr ⟨_, hread, rfl⟩

theorem expect_eq_ok {byte : UInt8} {bs rest : List UInt8} :
    expect byte bs = .ok rest ↔ bs = byte :: rest := by
  cases bs with
  | nil => simp [expect]
  | cons b bs =>
    by_cases hb : b = byte <;> simp [expect, hb]

/-- A method's descriptor is read exactly when the grammar derives it. -/
theorem signature_eq_ok_iff {d : String} {s : Signature} :
    signature d = .ok s ↔ DescribesSignature d.toList s := by
  unfold signature
  rw [Utf8.bytesOf_eq_encode]
  generalize d.toList = cs
  constructor
  · intro h
    obtain ⟨rest₁, hopen, h⟩ := except_bind_eq_ok.mp h
    obtain ⟨⟨ts, rest₂⟩, hparams, h⟩ := except_bind_eq_ok.mp h
    obtain ⟨rest₃, hclose, h⟩ := except_bind_eq_ok.mp h
    obtain ⟨⟨t, rest₄⟩, hresult, h⟩ := except_bind_eq_ok.mp h
    dsimp only at hclose h
    obtain ⟨c, ds, rfl, hc, rfl⟩ := Utf8.exists_of_encode_eq_cons (expect_eq_ok.mp hopen) (by decide)
    obtain ⟨ps, es, rfl, rfl, hall⟩ := exists_of_readParameters hparams
    obtain ⟨c', fs, hcons, -, rfl⟩ := Utf8.exists_of_encode_eq_cons (expect_eq_ok.mp hclose) (by decide)
    cases hcons
    obtain ⟨rs, gs, rfl, rfl, hres⟩ := exists_of_readResult hresult
    have hparen : c = '(' := Char.toNat_inj.mp hc
    split at h
    · next hnil =>
      cases h
      rw [Utf8.encode_eq_nil_iff.mp hnil, List.append_nil, hparen]
      exact .mk hall hres
    · cases h
  · intro h
    obtain ⟨hp, hr⟩ := h
    rename_i ps rs
    have he : Utf8.encode ('(' :: ps ++ ')' :: rs) =
        openParen :: (Utf8.encode ps ++ closeParen :: Utf8.encode rs) := by
      rw [List.cons_append, Utf8.encode_ascii (by decide), Utf8.encode_append,
        Utf8.encode_ascii (by decide)]
      rfl
    have hread := hr.readResult_eq []
    rw [List.append_nil] at hread
    rw [he]
    refine except_bind_eq_ok.mpr ⟨_, expect_eq_ok.mpr rfl, ?_⟩
    refine except_bind_eq_ok.mpr ⟨_, hp.readParameters_eq _, ?_⟩
    refine except_bind_eq_ok.mpr ⟨_, expect_eq_ok.mpr rfl, ?_⟩
    exact except_bind_eq_ok.mpr ⟨_, hread, rfl⟩

/-! ## Writing what was read -/

/-- A name as it is written after it was read. -/
theorem toList_slashed_dotted (name : List Char) :
    (Name.slashed (Name.dotted (String.ofList name))).toList =
      name.map fun c => if c = '.' then '/' else c := by
  unfold Name.slashed Name.dotted
  simp only [String.toList_ofList, List.map_map]
  apply List.map_congr_left
  intro c _
  by_cases hslash : c = '/'
  · subst hslash
    decide
  · simp [Function.comp, hslash]

/-- A derivation's type is written as the same characters, with slashes for dots. -/
theorem Describes.descriptorChars_eq {cs : List Char} {t : JvmType} (h : Describes cs t) :
    t.descriptorChars = cs.map fun c => if c = '.' then '/' else c := by
  induction h with
  | @primitive kind hv => cases kind <;> rfl
  | @reference name hsemi =>
    rw [JvmType.descriptorChars, toList_slashed_dotted]
    simp
  | @array cs t _ ih =>
    rw [JvmType.descriptorChars, ih]
    simp

theorem DescribesAll.descriptorChars_eq {cs : List Char} {ts : List JvmType}
    (h : DescribesAll cs ts) : ts.flatMap JvmType.descriptorChars =
      cs.map fun c => if c = '.' then '/' else c := by
  induction h with
  | nil => rfl
  | cons h hs ih => rw [List.flatMap_cons, h.descriptorChars_eq, ih, List.map_append]

theorem DescribesResult.descriptorChars_eq {cs : List Char} {t : JvmType}
    (h : DescribesResult cs t) :
    t.descriptorChars = cs.map fun c => if c = '.' then '/' else c := by
  cases h with
  | void => rfl
  | type h => exact h.descriptorChars_eq

theorem DescribesSignature.descriptorChars_eq {cs : List Char} {s : Signature}
    (h : DescribesSignature cs s) :
    s.descriptorChars = cs.map fun c => if c = '.' then '/' else c := by
  obtain ⟨hp, hr⟩ := h
  unfold Signature.descriptorChars
  rw [hp.descriptorChars_eq, hr.descriptorChars_eq]
  simp

end Descriptor

/-! ## Names without dots -/

theorem map_slash_of_not_mem {cs : List Char} (h : '.' ∉ cs) :
    cs.map (fun c => if c = '.' then '/' else c) = cs := by
  have hid : ∀ c ∈ cs, (if c = '.' then '/' else c) = id c := by
    intro c hc
    apply if_neg
    intro he
    exact h (he ▸ hc)
  rw [List.map_congr_left hid, List.map_id]

theorem Name.slashed_of_not_mem {s : String} (h : '.' ∉ s.toList) : slashed s = s := by
  unfold slashed
  rw [map_slash_of_not_mem h, String.ofList_toList]

/-- Dots for slashes and slashes for dots leave slashes only. -/
theorem Name.slashed_dotted (s : String) : slashed (dotted s) = slashed s := by
  have hs := Descriptor.toList_slashed_dotted s.toList
  rw [String.ofList_toList] at hs
  apply String.toList_inj.mp
  rw [hs, slashed, String.toList_ofList]

theorem Descriptor.DescribesSignature.descriptor_eq {d : String} {s : Signature}
    (h : DescribesSignature d.toList s) : s.descriptor = Name.slashed d := by
  unfold Signature.descriptor Name.slashed
  rw [h.descriptorChars_eq]

end ClassIndex

/-
Decoding reads class files, and nothing else.

Each reader is matched with the form it reads and with what that form denotes, from
the lines of debug tables up to the whole file.  `decode_eq_ok_iff` is the result:
decoding succeeds exactly on byte strings that start with a framed class file, and
yields the class that the file denotes.
-/
import ClassIndex.Proofs.ClassFormat.Pool

namespace ClassIndex
namespace ClassFormat

open ByteReader Reader

/-! ## Lists of records -/

/-- A counted list of records, each framed and with a meaning. -/
theorem counted_eq_ok {α γ : Type} {p : Reader α} {write : γ → List UInt8} {Framed : γ → Prop}
    {Denotes : γ → α → Prop} (h : Reads p write fun x a => Framed x ∧ Denotes x a)
    {bs rest : List UInt8} {as : List α} : counted p bs = .ok (as, rest) ↔
      ∃ xs, bs = countedBytes write xs ++ rest ∧ Counted Framed xs ∧
        List.Forall₂ Denotes xs as := by
  rw [(counted_reads h) _ _ _]
  simp only [List.forall₂_and_left, countedBytes, Counted, and_assoc]

theorem skipAttribute_reads :
    Reads skipAttribute AttributeForm.bytes (fun a _ => a.Framed ∧ True) := by
  intro bs u rest
  unfold skipAttribute
  simp only [bind_eq_ok, u2_eq_ok, u4_eq_ok, skip_eq_ok]
  constructor
  · intro hread
    obtain ⟨name, _, rfl, n, _, rfl, content, rfl, hlen⟩ := hread
    refine ⟨⟨name, content⟩, ?_, ?_, trivial⟩
    · simp [AttributeForm.bytes, hlen]
    · rw [AttributeForm.Framed, hlen]
      exact n.toNat_lt
  · intro hform
    obtain ⟨⟨name, content⟩, rfl, hframed, -⟩ := hform
    have hlen : (UInt32.ofNat content.length).toNat = content.length :=
      UInt32.toNat_ofNat_of_lt' hframed
    refine ⟨name, bytes4 content.length ++ (content ++ rest), ?_, UInt32.ofNat content.length,
      content ++ rest, by rw [hlen], content, rfl, hlen.symm⟩
    simp only [AttributeForm.bytes, List.append_assoc]

theorem exists_units (as : List AttributeForm) :
    ∃ us : List Unit, List.Forall₂ (fun _ _ => True) as us :=
  exists_forall₂ fun _ _ => ⟨(), trivial⟩

section Records

variable {pool : ConstantPool} {cs : List ConstantForm}

/-! ## Bodies -/

theorem readLine_reads (hpool : Agrees pool cs) : Reads (DebugTable.readLine pool) LineForm.bytes
    (fun x v => True ∧ x.Denotes cs v) := by
  intro bs v rest
  unfold DebugTable.readLine
  simp only [bind_eq_ok, u2_eq_ok, liftM_eq_ok, pure_eq_ok, hpool.text]
  constructor
  · intro hread
    obtain ⟨start, _, rfl, length, _, rfl, name, _, rfl, descriptor, _, rfl, slot, _, rfl, s, _,
      ⟨hs, rfl⟩, rfl, rfl⟩ := hread
    refine ⟨⟨start, length, name, descriptor, slot⟩, ?_, trivial, rfl, rfl, hs⟩
    simp only [LineForm.bytes, List.append_assoc]
  · intro hform
    obtain ⟨⟨start, length, name, descriptor, slot⟩, rfl, -, rfl, rfl, hs⟩ := hform
    simp only [LineForm.bytes, List.append_assoc]
    exact ⟨_, _, rfl, _, _, rfl, _, _, rfl, _, _, rfl, _, _, rfl, _, _, ⟨hs, rfl⟩, rfl, rfl⟩

/-- An attribute whose name decides between a record of its own and nothing. -/
theorem named_reads {α : Type} (hpool : Agrees pool cs) (wanted : String) (p : Reader α) :
    Reads (do
      let nameIndex ← u2
      let record ← take (← u4).toNat
      if (← pool.text nameIndex) = wanted then some <$> within record p else return none)
      AttributeForm.bytes (fun a o => a.Framed ∧ ∃ s, text? cs a.name = some s ∧
        ((s = wanted ∧ ∃ x left, p a.content = .ok (x, left) ∧ o = some x) ∨
          (s ≠ wanted ∧ o = none))) := by
  intro bs o rest
  simp only [bind_eq_ok, u2_eq_ok, u4_eq_ok, take_eq_ok, liftM_eq_ok, hpool.text]
  constructor
  · intro hread
    obtain ⟨name, _, rfl, n, _, rfl, content, _, ⟨rfl, hlen⟩, s, _, ⟨hs, rfl⟩, h⟩ := hread
    have hframed : content.length < 2 ^ 32 := hlen ▸ n.toNat_lt
    have hbytes (tail : List UInt8) : bytes2 name.toNat ++ (bytes4 n.toNat ++ (content ++ tail)) =
        AttributeForm.bytes ⟨name, content⟩ ++ tail := by
      simp only [AttributeForm.bytes, hlen, List.append_assoc]
    by_cases hwanted : s = wanted
    · rw [if_pos hwanted, map_eq_ok] at h
      obtain ⟨x, hwithin, rfl⟩ := h
      obtain ⟨⟨left, hp⟩, rfl⟩ := within_eq_ok.mp hwithin
      exact ⟨⟨name, content⟩, hbytes _, hframed, s, hs, .inl ⟨hwanted, x, left, hp, rfl⟩⟩
    · rw [if_neg hwanted, pure_eq_ok] at h
      obtain ⟨rfl, rfl⟩ := h
      exact ⟨⟨name, content⟩, hbytes _, hframed, s, hs, .inr ⟨hwanted, rfl⟩⟩
  · intro hform
    obtain ⟨⟨name, content⟩, rfl, hframed, s, hs, h⟩ := hform
    have hlen : (UInt32.ofNat content.length).toNat = content.length :=
      UInt32.toNat_ofNat_of_lt' hframed
    refine ⟨name, bytes4 content.length ++ (content ++ rest), ?_, UInt32.ofNat content.length,
      content ++ rest, by rw [hlen], content, rest, ⟨rfl, hlen.symm⟩, s, rest, ⟨hs, rfl⟩, ?_⟩
    · simp only [AttributeForm.bytes, List.append_assoc]
    · rcases h with ⟨hwanted, x, left, hp, rfl⟩ | ⟨hwanted, rfl⟩
      · rw [if_pos hwanted, map_eq_ok]
        exact ⟨x, within_eq_ok.mpr ⟨⟨left, hp⟩, rfl⟩, rfl⟩
      · rw [if_neg hwanted, pure_eq_ok]
        exact ⟨rfl, rfl⟩

theorem readAttribute_reads (hpool : Agrees pool cs) : Reads (DebugTable.readAttribute pool)
    AttributeForm.bytes (fun a o => a.Framed ∧ a.DenotesTable cs o) := by
  intro bs o rest
  refine (named_reads hpool _ _ bs o rest).trans (exists_congr fun a => ?_)
  refine and_congr_right fun _ => and_congr_right fun _ => ?_
  simp only [counted_eq_ok (readLine_reads hpool)]
  constructor
  · intro hread
    obtain ⟨s, hs, ⟨rfl, vs, left, ⟨lines, hcontent, ⟨hlen, -⟩, hvs⟩, rfl⟩ | ⟨hne, rfl⟩⟩ := hread
    · exact .table hs hcontent hlen hvs
    · exact .other hs hne
  · intro hform
    rcases hform with ⟨hs, hcontent, hlen, hvs⟩ | ⟨hs, hne⟩
    · exact ⟨_, hs, .inl ⟨rfl, _, _, ⟨_, hcontent, ⟨hlen, fun _ _ => trivial⟩, hvs⟩, rfl⟩⟩
    · exact ⟨_, hs, .inr ⟨hne, rfl⟩⟩

/-- Two bytes are the word of some number. -/
theorem exists_word {bs : List UInt8} (h : 2 ≤ bs.length) :
    ∃ (v : UInt16) (rest : List UInt8), bs = bytes2 v.toNat ++ rest ∧
      rest.length + 2 = bs.length := by
  have hlen : (bs.take 2).length = 2 := by
    rw [List.length_take]
    omega
  have hlt : bigEndian (bs.take 2) < 2 ^ 16 := by simpa [hlen] using bigEndian_lt (bs.take 2)
  have hword := toBigEndian_bigEndian (bs.take 2)
  rw [hlen] at hword
  refine ⟨UInt16.ofNat (bigEndian (bs.take 2)), bs.drop 2, ?_, ?_⟩
  · rw [UInt16.toNat_ofNat', Nat.mod_eq_of_lt hlt, bytes2, hword, List.take_append_drop]
  · rw [List.length_drop]
    omega

/-- An exception table is skipped in one go: any bytes of its length are one. -/
theorem exists_handlers {n : Nat} {bs : List UInt8} (h : bs.length = n * 8) :
    ∃ handlers : List HandlerForm, handlers.length = n ∧
      handlers.flatMap HandlerForm.bytes = bs := by
  induction n generalizing bs with
  | zero => exact ⟨[], rfl, (List.length_eq_zero_iff.mp (by omega)).symm⟩
  | succ n ih =>
    obtain ⟨start, rest₁, rfl, h₁⟩ := exists_word (by omega : 2 ≤ bs.length)
    obtain ⟨stop, rest₂, rfl, h₂⟩ := exists_word (by omega : 2 ≤ rest₁.length)
    obtain ⟨handler, rest₃, rfl, h₃⟩ := exists_word (by omega : 2 ≤ rest₂.length)
    obtain ⟨catchType, rest₄, rfl, h₄⟩ := exists_word (by omega : 2 ≤ rest₃.length)
    obtain ⟨handlers, hlen, rfl⟩ := ih (by omega : rest₄.length = n * 8)
    refine ⟨⟨start, stop, handler, catchType⟩ :: handlers, by rw [List.length_cons, hlen], ?_⟩
    simp only [List.flatMap_cons, HandlerForm.bytes, List.append_assoc]

theorem length_handlers (handlers : List HandlerForm) :
    (handlers.flatMap HandlerForm.bytes).length = handlers.length * 8 := by
  induction handlers with
  | nil => rfl
  | cons x handlers ih =>
    rw [List.flatMap_cons, List.length_append, ih, List.length_cons]
    simp only [HandlerForm.bytes, List.length_append, length_bytes2]
    omega

theorem debugTable_read_reads (hpool : Agrees pool cs) : Reads (DebugTable.read pool)
    BodyForm.bytes (fun b names => b.Framed ∧ b.Denotes cs names) := by
  intro bs names rest
  unfold DebugTable.read DebugTable.readTables
  simp only [map_eq_ok, bind_eq_ok, u2_eq_ok, u4_eq_ok, skip_eq_ok, pure_eq_ok,
    counted_eq_ok (readAttribute_reads hpool)]
  constructor
  · intro hread
    obtain ⟨_, ⟨maxStack, _, rfl, maxLocals, _, rfl, n, _, rfl, -, _, ⟨code, rfl, hcode⟩, k, _,
      rfl, -, _, ⟨table, rfl, htable⟩, tables, _, ⟨attributes, rfl, hattributes, htables⟩, rfl,
      rfl⟩, hnames⟩ := hread
    obtain ⟨handlers, hlen, rfl⟩ := exists_handlers htable
    refine ⟨⟨maxStack, maxLocals, code, handlers, attributes⟩, ?_, ⟨?_, ?_, hattributes⟩, tables,
      htables, namedBy_iff.mpr hnames⟩
    · simp only [BodyForm.bytes, countedBytes, hcode, hlen, List.append_assoc]
    · exact hcode ▸ n.toNat_lt
    · exact hlen ▸ k.toNat_lt
  · intro hform
    obtain ⟨⟨maxStack, maxLocals, code, handlers, attributes⟩, rfl, ⟨hcode, hlen, hattributes⟩,
      tables, htables, hnames⟩ := hform
    have hn : (UInt32.ofNat code.length).toNat = code.length :=
      UInt32.toNat_ofNat_of_lt' hcode
    have hk : (UInt16.ofNat handlers.length).toNat = handlers.length :=
      UInt16.toNat_ofNat_of_lt' hlen
    simp only [BodyForm.bytes, List.append_assoc]
    refine ⟨tables.filterMap id, ⟨maxStack, _, rfl, maxLocals, _, rfl, UInt32.ofNat code.length,
      _, by rw [hn], (), _, ⟨code, rfl, hn.symm⟩, UInt16.ofNat handlers.length,
      handlers.flatMap HandlerForm.bytes ++ _, ?_, (), _, ⟨_, rfl, ?_⟩, tables, rest,
      ⟨attributes, rfl, hattributes, htables⟩, rfl, rfl⟩, namedBy_iff.mp hnames⟩
    · rw [hk, countedBytes, List.append_assoc]
    · rw [hk, length_handlers]

theorem readMethodAttribute_reads (hpool : Agrees pool cs) : Reads (readMethodAttribute pool)
    AttributeForm.bytes (fun a o => a.Framed ∧ a.DenotesBody cs o) := by
  intro bs o rest
  refine (named_reads hpool _ _ bs o rest).trans (exists_congr fun a => ?_)
  refine and_congr_right fun _ => and_congr_right fun _ => ?_
  simp only [(debugTable_read_reads hpool) _ _ _]
  constructor
  · intro hread
    obtain ⟨s, hs, ⟨rfl, names, left, ⟨b, hcontent, hframed, hb⟩, rfl⟩ | ⟨hne, rfl⟩⟩ := hread
    · exact .body hs hcontent hframed hb
    · exact .other hs hne
  · intro hform
    rcases hform with ⟨hs, hcontent, hframed, hb⟩ | ⟨hs, hne⟩
    · exact ⟨_, hs, .inl ⟨rfl, _, _, ⟨_, hcontent, hframed, hb⟩, rfl⟩⟩
    · exact ⟨_, hs, .inr ⟨hne, rfl⟩⟩

/-! ## Members -/

theorem ofDescriptor_eq_ok {α : Type} {r : Except DescriptorFault α} {a : α} :
    ofDescriptor r = .ok a ↔ r = .ok a := by
  cases r <;> simp [ofDescriptor, Except.mapError]

theorem readClassName_reads (hpool : Agrees pool cs) : Reads (readClassName pool)
    (fun i : UInt16 => bytes2 i.toNat) (fun i name => True ∧ DenotesClass cs i name) := by
  intro bs name rest
  unfold readClassName
  simp only [bind_eq_ok, u2_eq_ok, liftM_eq_ok, pure_eq_ok, hpool.className]
  constructor
  · intro hread
    obtain ⟨i, _, rfl, s, _, ⟨hs, rfl⟩, rfl, rfl⟩ := hread
    exact ⟨i, rfl, trivial, s, hs, rfl⟩
  · intro hform
    obtain ⟨i, rfl, -, s, hs, rfl⟩ := hform
    exact ⟨i, rest, rfl, s, rest, ⟨hs, rfl⟩, rfl, rfl⟩

/-- A field or a method, with what is made of its name, its descriptor and its
attributes. -/
theorem member_reads {α β τ : Type} (hpool : Agrees pool cs) (parse : String → Except Fault τ)
    {q : Reader β} {Says : AttributeForm → β → Prop}
    (hq : Reads q AttributeForm.bytes fun a o => a.Framed ∧ Says a o)
    (build : UInt16 → String → τ → List β → α) :
    Reads (do
      let access ← u2
      let nameIndex ← u2
      let descriptorIndex ← u2
      let attributes ← u2
      let name ← pool.text nameIndex
      let t ← parse (← pool.text descriptorIndex)
      let os ← times q attributes.toNat
      return build access name t os) MemberForm.bytes
      (fun m i => m.Framed ∧ ∃ name d t os, text? cs m.name = some name ∧
        text? cs m.descriptor = some d ∧ parse d = .ok t ∧
        List.Forall₂ Says m.attributes os ∧ i = build m.access name t os) := by
  intro bs i rest
  simp only [bind_eq_ok, u2_eq_ok, liftM_eq_ok, pure_eq_ok, hpool.text, (hq.times _) _ _ _,
    List.forall₂_and_left]
  constructor
  · intro hread
    obtain ⟨access, _, rfl, name, _, rfl, descriptor, _, rfl, n, _, rfl, s, _, ⟨hs, rfl⟩, d, _,
      ⟨hd, rfl⟩, t, _, ⟨ht, rfl⟩, os, _, ⟨attributes, rfl, hlen, hattributes, hos⟩, rfl, rfl⟩ :=
      hread
    refine ⟨⟨access, name, descriptor, attributes⟩, ?_, ⟨hlen ▸ n.toNat_lt, hattributes⟩, s, d, t,
      os, hs, hd, ht, hos, rfl⟩
    simp only [MemberForm.bytes, countedBytes, hlen, List.append_assoc]
  · intro hform
    obtain ⟨⟨access, name, descriptor, attributes⟩, rfl, ⟨hlen, hattributes⟩, s, d, t, os, hs, hd,
      ht, hos, rfl⟩ := hform
    have hn : (UInt16.ofNat attributes.length).toNat = attributes.length :=
      UInt16.toNat_ofNat_of_lt' hlen
    simp only [MemberForm.bytes, countedBytes, List.append_assoc]
    exact ⟨_, _, rfl, _, _, rfl, _, _, rfl, UInt16.ofNat attributes.length, _, by rw [hn], s, _,
      ⟨hs, rfl⟩, d, _, ⟨hd, rfl⟩, t, _, ⟨ht, rfl⟩, os, rest,
      ⟨attributes, rfl, hn.symm, hattributes, hos⟩, rfl, rfl⟩

theorem readField_reads (hpool : Agrees pool cs) : Reads (readField pool) MemberForm.bytes
    (fun m i => m.Framed ∧ m.DenotesField cs i) := by
  intro bs i rest
  refine (member_reads hpool (fun d => ofDescriptor (Descriptor.fieldType d)) skipAttribute_reads
    (fun access name type _ => FieldInfo.mk name ⟨access⟩ type) bs i rest).trans ?_
  refine exists_congr fun m => and_congr_right fun _ => and_congr_right fun _ => ?_
  simp only [ofDescriptor_eq_ok, Descriptor.fieldType_eq_ok_iff]
  constructor
  · intro hread
    obtain ⟨name, d, t, us, hname, hd, ht, -, rfl⟩ := hread
    exact ⟨hname, rfl, d, hd, ht⟩
  · intro hform
    obtain ⟨hname, haccess, d, hd, ht⟩ := hform
    obtain ⟨us, hus⟩ := exists_units m.attributes
    refine ⟨i.name, d, i.type, us, hname, hd, ht, hus, ?_⟩
    rw [← haccess]

theorem readMethod_reads (hpool : Agrees pool cs) : Reads (readMethod pool) MemberForm.bytes
    (fun m i => m.Framed ∧ m.DenotesMethod cs i) := by
  intro bs i rest
  refine (member_reads hpool (fun d => ofDescriptor (Descriptor.signature d))
    (readMethodAttribute_reads hpool) (fun access name signature bodies =>
      MethodInfo.mk name ⟨access⟩ signature (bodies.filterMap id).getLast?.join) bs i rest).trans ?_
  refine exists_congr fun m => and_congr_right fun _ => and_congr_right fun _ => ?_
  simp only [ofDescriptor_eq_ok, Descriptor.signature_eq_ok_iff]
  constructor
  · intro hread
    obtain ⟨name, d, t, bodies, hname, hd, ht, hbodies, rfl⟩ := hread
    exact ⟨hname, rfl, ⟨d, hd, ht⟩, bodies, hbodies, rfl⟩
  · intro hform
    obtain ⟨hname, haccess, ⟨d, hd, ht⟩, bodies, hbodies, hlocals⟩ := hform
    refine ⟨i.name, d, i.signature, bodies, hname, hd, ht, hbodies, ?_⟩
    rw [← haccess, ← hlocals]

theorem superName_eq_ok (hpool : Agrees pool cs) {i : UInt16} {name : Option String} :
    superName pool i = .ok name ↔ (i = 0 ∧ name = none) ∨
      (i ≠ 0 ∧ ∃ s, name = some s ∧ DenotesClass cs i s) := by
  unfold superName
  by_cases hi : i = 0
  · subst hi
    simp [Except.pure, pure, eq_comm]
  · rw [if_neg hi]
    unfold DenotesClass
    simp only [← hpool.className]
    cases pool.className i <;> simp [hi, Except.pure, pure, bind, Except.bind, eq_comm]

end Records

/-! ## The file -/

theorem declared_eq (infos : List MethodInfo) :
    declared infos = infos.filter fun i => i.name ≠ "<clinit>" ∧ i.name ≠ "<init>" := by
  unfold declared
  simp only [Bool.decide_and]
  rfl

theorem exists_of_readClass {bs rest : List UInt8} {c : ClassInfo}
    (h : readClass bs = .ok (c, rest)) :
    ∃ f : ClassFile, bs = f.bytes ++ rest ∧ f.Framed ∧ f.Denotes c := by
  unfold readClass at h
  simp only [bind_eq_ok, u4_eq_ok] at h
  obtain ⟨m, _, rfl, h⟩ := h
  by_cases hm : m = magic
  · rw [if_neg (not_not.mpr hm)] at h
    simp only [bind_eq_ok, u2_eq_ok, liftM_eq_ok, pure_eq_ok, pool_read_eq_ok] at h
    obtain ⟨minor, _, rfl, major, _, rfl, _, _, ⟨count, pool, rfl, ⟨hfills, hpool⟩, rfl⟩, access,
      _, rfl, this, _, rfl, super, _, rfl, h⟩ := h
    have hagrees := agrees_poolOf pool
    simp only [counted_eq_ok (readClassName_reads hagrees),
      counted_eq_ok (readField_reads hagrees), counted_eq_ok (readMethod_reads hagrees),
      counted_eq_ok skipAttribute_reads, hagrees.className, superName_eq_ok hagrees] at h
    obtain ⟨interfaceNames, _, ⟨interfaces, rfl, ⟨hi, -⟩, hinterfaces⟩, fieldInfos, _,
      ⟨fields, rfl, hf, hfields⟩, infos, _, ⟨methods, rfl, hms, hmethods⟩, _, _,
      ⟨attributes, rfl, ha, -⟩, s, _, ⟨hs, rfl⟩, superName, _, ⟨hsuper, rfl⟩, rfl, rfl⟩ := h
    refine ⟨⟨minor, major, count, pool, access, this, super, interfaces, fields, methods,
      attributes⟩, ?_, ⟨hfills, fun k hk => (hpool k hk).1, hi, hf, hms, ha⟩, ?_⟩
    · rw [hm]
      simp only [ClassFile.bytes, List.append_assoc]
      rfl
    · exact ⟨fun k hk => (hpool k hk).2, ⟨s, hs, rfl⟩, rfl, hsuper, hinterfaces, hfields, infos,
        hmethods, declared_eq infos, rfl⟩
  · rw [if_pos hm] at h
    obtain ⟨_, _, h, -⟩ := bind_eq_ok.mp h
    exact (throw_eq_ok.mp h).elim

theorem ClassFile.Denotes.readClass_eq {f : ClassFile} {c : ClassInfo} (hf : f.Framed)
    (h : f.Denotes c) (rest : List UInt8) : readClass (f.bytes ++ rest) = .ok (c, rest) := by
  obtain ⟨s, hs, hname⟩ := h.name
  obtain ⟨infos, hmethods, hdeclared, hconstructors⟩ := h.methods
  obtain ⟨us, hus⟩ := exists_units f.attributes
  have hagrees := agrees_poolOf f.pool
  unfold readClass
  simp only [bind_eq_ok, u4_eq_ok, ClassFile.bytes, List.append_assoc]
  refine ⟨magic, _, rfl, ?_⟩
  rw [if_neg (not_not.mpr rfl)]
  simp only [bind_eq_ok, u2_eq_ok, liftM_eq_ok, pure_eq_ok, pool_read_eq_ok]
  refine ⟨f.minor, _, rfl, f.major, _, rfl, poolOf f.pool, _, ⟨f.poolCount, f.pool, rfl,
    ⟨hf.fills, fun k hk => ⟨hf.constants k hk, h.legible k hk⟩⟩, rfl⟩, f.access, _, rfl,
    f.thisClass, _, rfl, f.superClass, _, rfl, ?_⟩
  simp only [counted_eq_ok (readClassName_reads hagrees),
    counted_eq_ok (readField_reads hagrees), counted_eq_ok (readMethod_reads hagrees),
    counted_eq_ok skipAttribute_reads, hagrees.className, superName_eq_ok hagrees]
  refine ⟨c.interfaces, _, ⟨f.interfaces, rfl, ⟨hf.interfaces, fun _ _ => trivial⟩, h.interfaces⟩,
    c.fields, _, ⟨f.fields, rfl, hf.fields, h.fields⟩, infos, _,
    ⟨f.methods, rfl, hf.methods, hmethods⟩, us, rest, ⟨f.attributes, rfl, hf.attributes, hus⟩,
    s, rest, ⟨hs, rfl⟩, c.superName, rest, ⟨h.superName, rfl⟩, ?_, rfl⟩
  rw [declared_eq, ← hdeclared, ← hname, ← h.access]
  show ClassInfo.mk _ _ _ _ _ _ (infos.filter fun i => i.name = "<init>") = c
  rw [← hconstructors]

theorem readClass_reads :
    Reads readClass ClassFile.bytes (fun f c => f.Framed ∧ f.Denotes c) := by
  intro bs c rest
  constructor
  · exact exists_of_readClass
  · intro hform
    obtain ⟨f, rfl, hf, hc⟩ := hform
    exact hc.readClass_eq hf rest

/-- Decoding succeeds exactly on what starts with a framed class file, and gives the
class that the file denotes. -/
theorem decode_eq_ok_iff {bs : List UInt8} {c : ClassInfo} : decode bs = .ok c ↔
    ∃ (f : ClassFile) (rest : List UInt8), bs = f.bytes ++ rest ∧ f.Framed ∧ f.Denotes c := by
  unfold decode
  rw [runOn_eq_ok]
  simp only [readClass_reads _ _ _]
  exact exists_comm

/-- A framed file decodes to what it denotes, whatever follows it. -/
theorem decode_bytes_append_eq_ok_iff {f : ClassFile} (h : f.Framed) (rest : List UInt8)
    {c : ClassInfo} : decode (f.bytes ++ rest) = .ok c ↔ f.Denotes c := by
  rw [decode_eq_ok_iff]
  constructor
  · intro hread
    obtain ⟨g, rest', hbytes, hg, hc⟩ := hread
    obtain ⟨rfl, -⟩ := ClassFile.bytes_append_inj h hg hbytes
    exact hc
  · intro hc
    exact ⟨f, rest, rfl, h, hc⟩

end ClassFormat
end ClassIndex

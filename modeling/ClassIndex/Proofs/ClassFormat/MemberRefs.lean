/-
References to the members of a decoded class.

A reference is put together from what was decoded: the dotted name is written with
slashes again, and the types of a signature as a descriptor.  For a file without
dots in its own name and its descriptors this comes back to the texts in the file.
`memberRefs_of_decode` says so of all methods and constructors, in file order.

The descriptor of a constructor ends in `V` whatever the file says.  It is cut after
the parenthesis that closes the parameters, which the grammar finds: a class name
may contain another one.
-/
import ClassIndex.ClassInfo.MemberRef
import ClassIndex.Proofs.ClassFormat.RoundTrip

namespace ClassIndex
namespace ClassFormat

open Descriptor

/-! ## The references in a file -/

/-- A method as the file refers to it. -/
structure MemberForm.RefersToMethod (pool : List ConstantForm) (owner : String)
    (m : MemberForm) (r : MethodRef) : Prop where
  owner : r.owner = owner
  name : text? pool m.name = some r.name
  descriptor : text? pool m.descriptor = some r.descriptor
  isStatic : r.isStatic = decide (m.access &&& 0x0008 ≠ 0)

/-- A constructor as the file refers to it, without a result. -/
structure MemberForm.RefersToConstructor (pool : List ConstantForm) (owner : String)
    (m : MemberForm) (r : ConstructorRef) : Prop where
  owner : r.owner = owner
  descriptor : ∃ (d : String) (ps rs : List Char) (s : Signature),
    text? pool m.descriptor = some d ∧ d.toList = '(' :: ps ++ ')' :: rs ∧
    DescribesAll ps s.parameters ∧ DescribesResult rs s.result ∧
    r.descriptor.toList = '(' :: ps ++ [')', 'V']

/-- A file in which no dot could be taken for a slash. -/
structure ClassFile.Undotted (f : ClassFile) : Prop where
  name : ∀ s, className? f.pool f.thisClass = some s → '.' ∉ s.toList
  descriptors : ∀ m ∈ f.methods, ∀ d, text? f.pool m.descriptor = some d → '.' ∉ d.toList

namespace MemberForm

variable {pool : List ConstantForm} {m : MemberForm} {i : MethodInfo} {c : ClassInfo}
  {owner : String}

theorem DenotesMethod.refersToMethod (h : m.DenotesMethod pool i)
    (hd : ∀ d, text? pool m.descriptor = some d → '.' ∉ d.toList)
    (howner : Name.slashed c.name = owner) : m.RefersToMethod pool owner (c.methodRef i) where
  owner := howner
  name := h.name
  descriptor := by
    obtain ⟨d, hpool, hs⟩ := h.signature
    show text? pool m.descriptor = some i.signature.descriptor
    rw [hs.descriptor_eq, Name.slashed_of_not_mem (hd d hpool), hpool]
  isStatic := by
    show i.access.isStatic = _
    rw [h.access]
    rfl

theorem DenotesMethod.refersToConstructor (h : m.DenotesMethod pool i)
    (hd : ∀ d, text? pool m.descriptor = some d → '.' ∉ d.toList)
    (howner : Name.slashed c.name = owner) :
    m.RefersToConstructor pool owner (c.constructorRef i) where
  owner := howner
  descriptor := by
    obtain ⟨d, hpool, hs⟩ := h.signature
    have hdots := hd d hpool
    generalize hchars : d.toList = cs at hs hdots
    obtain ⟨hp, hr⟩ := hs
    rename_i ps rs
    have hps : '.' ∉ ps := by
      intro hmem
      exact hdots (by simp [hmem])
    refine ⟨d, ps, rs, i.signature, hpool, hchars, hp, hr, ?_⟩
    show (String.ofList i.constructorSignature.descriptorChars).toList = _
    rw [String.toList_ofList]
    show '(' :: i.signature.parameters.flatMap JvmType.descriptorChars ++ [')', 'V'] = _
    rw [hp.descriptorChars_eq, map_slash_of_not_mem hps]

end MemberForm

/-- Methods selected by their names in the file are those selected after decoding. -/
theorem forall₂_filter_name {pool : List ConstantForm} {ms : List MemberForm}
    {is : List MethodInfo} {R : MemberForm → MethodInfo → Prop} (h : List.Forall₂ R ms is)
    (hname : ∀ {m i}, R m i → text? pool m.name = some i.name) (p : Option String → Bool) :
    List.Forall₂ R (ms.filter fun m => p (text? pool m.name))
      (is.filter fun i => p (some i.name)) := by
  apply List.rel_filter _ h
  intro m i hR
  show p (text? pool m.name) = true ↔ p (some i.name) = true
  rw [hname hR]

/-- The references of a decoded class are those of its file: one for each method that
is no initialiser, one for each constructor, both in file order. -/
theorem memberRefs_of_decode {bs : List UInt8} {c : ClassInfo} (h : decode bs = .ok c) :
    ∃ (f : ClassFile) (rest : List UInt8), bs = f.bytes ++ rest ∧ f.Framed ∧
      (∀ g s, g.Framed → bs = g.bytes ++ s → g = f) ∧
      (f.Undotted → ∃ owner, className? f.pool f.thisClass = some owner ∧
        List.Forall₂ (MemberForm.RefersToMethod f.pool owner)
          (f.methods.filter fun m => text? f.pool m.name ≠ some "<clinit>" ∧
            text? f.pool m.name ≠ some "<init>") c.methodRefs ∧
        List.Forall₂ (MemberForm.RefersToConstructor f.pool owner)
          (f.methods.filter fun m => text? f.pool m.name = some "<init>") c.constructorRefs) := by
  obtain ⟨f, rest, hbytes, hframed, hc⟩ := decode_eq_ok_iff.mp h
  refine ⟨f, rest, hbytes, hframed, ?_, ?_⟩
  · intro g s hg hs
    exact (ClassFile.bytes_append_inj hg hframed (hs.symm.trans hbytes)).1
  · intro hdots
    obtain ⟨owner, howner, hname⟩ := hc.name
    obtain ⟨infos, hinfos, hdeclared, hconstructors⟩ := hc.methods
    have hslashed : Name.slashed c.name = owner := by
      rw [hname, Name.slashed_dotted, Name.slashed_of_not_mem (hdots.name owner howner)]
    have hall := (List.forall₂_and_left _ _).mpr ⟨hdots.descriptors, hinfos⟩
    refine ⟨owner, howner, ?_, ?_⟩
    · unfold ClassInfo.methodRefs
      rw [hdeclared, List.forall₂_map_right_iff]
      have hfiltered := forall₂_filter_name hall (fun hR => hR.2.name)
        (fun name => decide (name ≠ some "<clinit>" ∧ name ≠ some "<init>"))
      simp only [ne_eq, Option.some.injEq] at hfiltered
      exact hfiltered.imp fun m i hR => hR.2.refersToMethod hR.1 hslashed
    · unfold ClassInfo.constructorRefs
      rw [hconstructors, List.forall₂_map_right_iff]
      have hfiltered := forall₂_filter_name hall (fun hR => hR.2.name)
        (fun name => decide (name = some "<init>"))
      simp only [Option.some.injEq] at hfiltered
      exact hfiltered.imp fun m i hR => hR.2.refersToConstructor hR.1 hslashed

theorem areaClass_undotted : areaClass.Undotted where
  name := by
    intro s hs
    cases Option.some.inj (hs.symm.trans (by decide : _ = some "demo/Function_area"))
    decide
  descriptors := by
    intro m hm d hd
    rcases List.mem_cons.mp hm with rfl | hm
    · cases Option.some.inj (hd.symm.trans (by decide : _ = some "()V"))
      decide
    · obtain rfl := List.mem_singleton.mp hm
      cases Option.some.inj (hd.symm.trans (by decide : _ = some "(JI)D"))
      decide

/-- The area's class is called by the texts of its file. -/
theorem memberRefs_areaClass : ∃ c, decode areaClass.bytes = .ok c ∧
    c.methodRefs = [⟨"demo/Function_area", "invoke", "(JI)D", true⟩] ∧
    c.constructorRefs = [⟨"demo/Function_area", "()V"⟩] := by
  obtain ⟨c, -, hdecode⟩ := exists_decode_areaClass
  obtain ⟨f, rest, hbytes, hframed, hunique, hrefs⟩ := memberRefs_of_decode hdecode
  have hself : areaClass = f :=
    hunique areaClass [] areaClass_wellFormed.framed (List.append_nil _).symm
  subst hself
  obtain ⟨owner, howner, hmethods, hconstructors⟩ := hrefs areaClass_undotted
  cases Option.some.inj (howner.symm.trans (by decide : _ = some "demo/Function_area"))
  refine ⟨c, hdecode, ?_, ?_⟩
  · rw [show areaClass.methods.filter _ = [⟨0x0009, 9, 10, [⟨11, areaBody.bytes⟩]⟩] by decide]
      at hmethods
    obtain ⟨⟨_, n, d, _⟩, heq, ⟨rfl, hname, hdescriptor, rfl⟩⟩ :=
      exists_of_forall₂_singleton hmethods
    cases Option.some.inj (hname.symm.trans (by decide : _ = some "invoke"))
    cases Option.some.inj (hdescriptor.symm.trans (by decide : _ = some "(JI)D"))
    rw [heq]
    rfl
  · rw [show areaClass.methods.filter _ = [⟨0x0001, 7, 8, []⟩] by decide] at hconstructors
    obtain ⟨⟨_, d⟩, heq, ⟨rfl, text, ps, rs, s, htext, hcut, hps, hrs, hd⟩⟩ :=
      exists_of_forall₂_singleton hconstructors
    cases Option.some.inj (htext.symm.trans (by decide : _ = some "()V"))
    have hps : ps = [] := by
      have htail : ps ++ ')' :: rs = [')', 'V'] := (List.cons.inj hcut).2.symm
      rcases List.append_eq_cons_iff.mp htail with ⟨hnil, -⟩ | ⟨qs, -, hqs⟩
      · exact hnil
      · rcases List.append_eq_cons_iff.mp hqs.symm with ⟨-, hrs⟩ | ⟨qs', -, hqs'⟩
        · exact absurd (List.cons.inj hrs).1 (by decide)
        · simp at hqs'
    subst hps
    have hd' : d.toList = "()V".toList := hd
    rw [heq, String.toList_inj.mp hd']

end ClassFormat
end ClassIndex

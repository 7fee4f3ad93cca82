/-
Writing a class file and decoding it.

`decode_bytes_append` is the round trip: a well-formed class file denotes one class,
and its bytes decode to that class, whatever follows them.  `areaClass` is a file of
each kind of item, for which the statements about class files can be looked at.
-/
import ClassIndex.Proofs.ClassFormat.Decoding

namespace ClassIndex
namespace ClassFormat

/-- What a file denotes is determined by it. -/
theorem ClassFile.Denotes.unique {f : ClassFile} {c d : ClassInfo} (h : f.Framed)
    (hc : f.Denotes c) (hd : f.Denotes d) : c = d := by
  have hdecode := (decode_bytes_append_eq_ok_iff h []).mpr hc
  rw [(decode_bytes_append_eq_ok_iff h []).mpr hd] at hdecode
  exact (Except.ok.inj hdecode).symm

/-- A well-formed class file denotes exactly one class, and decodes to it. -/
theorem decode_bytes_append {f : ClassFile} (h : f.WellFormed) :
    ∃ c, f.Denotes c ∧ (∀ d, f.Denotes d → d = c) ∧
      ∀ rest, decode (f.bytes ++ rest) = .ok c := by
  obtain ⟨c, hc⟩ := h.exists_denotes
  refine ⟨c, hc, fun d hd => hd.unique h.framed hc, fun rest => ?_⟩
  exact (decode_bytes_append_eq_ok_iff h.framed rest).mpr hc

/-! ## A file with each kind of item -/

/-- The constant of a text, as plain UTF-8. -/
def ConstantForm.ofString (s : String) : ConstantForm :=
  text (Utf8.encode s.toList)

/-- Two parameters, the first of them in two slots, and a variable that takes over the
slot of the second. -/
def areaLines : List LineForm :=
  [⟨4, 2, 13, 15, 2⟩, ⟨0, 6, 14, 16, 2⟩, ⟨0, 6, 13, 15, 0⟩]

def areaBody : BodyForm where
  maxStack := 4
  maxLocals := 3
  code := [0x1E, 0x1C, 0x85, 0x69, 0x8A, 0xAF]
  handlers := [⟨0, 3, 5, 0⟩]
  attributes := [⟨12, countedBytes LineForm.bytes areaLines⟩]

/-- A class with a constructor and a function from a `long` and an `int` to a `double`. -/
def areaClass : ClassFile where
  minor := 0
  major := 52
  poolCount := 18
  pool := [.ofString "demo/Function_area", .classRef 1, .ofString "java/lang/Object", .classRef 3,
    .data .long [0, 0, 0, 0, 0, 0, 0, 1], .ofString "<init>", .ofString "()V",
    .ofString "invoke", .ofString "(JI)D", .ofString "Code", .ofString "LocalVariableTable",
    .ofString "width", .ofString "height", .ofString "J", .ofString "I", .ofString "unit"]
  access := 0x0031
  thisClass := 2
  superClass := 4
  interfaces := [4]
  fields := [⟨0x0019, 17, 15, [⟨7, [0, 5]⟩]⟩]
  methods := [⟨0x0001, 7, 8, []⟩, ⟨0x0009, 9, 10, [⟨11, areaBody.bytes⟩]⟩]
  attributes := []

theorem areaBody_framed : areaBody.Framed where
  code := by decide
  handlers := by decide
  attributes := by decide

theorem areaBody_wellFormed : ∀ a ∈ areaBody.attributes, a.WellFormedInBody areaClass.pool := by
  intro a ha
  rw [List.mem_singleton.mp ha]
  exact ⟨by decide, fun _ => ⟨areaLines, [], (List.append_nil _).symm, by decide, by decide⟩⟩

theorem areaClass_wellFormed : areaClass.WellFormed where
  framed := {
    fills := fills_sum areaClass.pool
    constants := by decide
    interfaces := by decide
    fields := by decide
    methods := by decide
    attributes := by decide }
  legible := by decide
  name := by decide
  superName := by decide
  interfaces := by
    intro i hi
    rw [List.mem_singleton.mp hi]
    decide
  fields := by
    intro m hm
    rw [List.mem_singleton.mp hm]
    exact ⟨by decide, "J", .primitive .long, by decide,
      .primitive (by decide : Primitive.long ≠ .void)⟩
  methods := by
    intro m hm
    rcases List.mem_cons.mp hm with rfl | hm
    · exact ⟨by decide, ⟨"()V", _, by decide, Descriptor.signature_eq_ok_iff.mp (by cbv)⟩, nofun⟩
    · rw [List.mem_singleton.mp hm]
      refine ⟨by decide, ⟨"(JI)D", _, by decide, Descriptor.signature_eq_ok_iff.mp (by cbv)⟩, ?_⟩
      intro a ha
      rw [List.mem_singleton.mp ha]
      exact ⟨by decide, fun _ => ⟨areaBody, [], (List.append_nil _).symm, areaBody_framed,
        areaBody_wellFormed⟩⟩

theorem exists_decode_areaClass : ∃ c, areaClass.Denotes c ∧ decode areaClass.bytes = .ok c := by
  obtain ⟨c, hc⟩ := areaClass_wellFormed.exists_denotes
  have hdecode := (decode_bytes_append_eq_ok_iff areaClass_wellFormed.framed []).mpr hc
  rw [List.append_nil] at hdecode
  exact ⟨c, hc, hdecode⟩

/-- The area's class decodes, whatever follows its file. -/
theorem decode_areaClass : areaClass.WellFormed ∧ ∃ c, areaClass.Denotes c ∧
    (∀ d, areaClass.Denotes d → d = c) ∧ ∀ rest, decode (areaClass.bytes ++ rest) = .ok c :=
  ⟨areaClass_wellFormed, decode_bytes_append areaClass_wellFormed⟩

end ClassFormat
end ClassIndex

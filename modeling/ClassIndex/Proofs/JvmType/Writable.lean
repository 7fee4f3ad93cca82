/-
Descriptors as the names of types.

A type can be told from its descriptor when it has no `void` inside and its class
names hold neither `;`, which would end the name early, nor `/`, which reading turns
into a dot.  These types are exactly the ones the grammar derives, so `readBack_iff`
is an equivalence: a type is read back from what is written for it when it is of
this kind, and otherwise it is not.  The same holds of signatures.

Nothing separates the parameters of a signature.  That they can be told apart comes
from the grammar, which derives the written form of each parameter by itself; names
may hold parentheses, brackets and letters of primitives.
-/
import ClassIndex.Proofs.JvmType.Grammar
import ClassIndex.Proofs.Name.Separators

namespace ClassIndex

/-- A type that its descriptor stands for. -/
def JvmType.IsWritable : JvmType → Prop
  | .primitive kind => kind ≠ .void
  | .array element => element.IsWritable
  | .reference name => ';' ∉ name.toList ∧ '/' ∉ name.toList

instance JvmType.decidableIsWritable : (t : JvmType) → Decidable t.IsWritable
  | .primitive kind => inferInstanceAs (Decidable (kind ≠ .void))
  | .array element => decidableIsWritable element
  | .reference name => inferInstanceAs (Decidable (';' ∉ name.toList ∧ '/' ∉ name.toList))

/-- A signature that its descriptor stands for; its result may be `void`. -/
structure Signature.IsWritable (s : Signature) : Prop where
  parameters : ∀ t ∈ s.parameters, t.IsWritable
  result : s.result = .primitive .void ∨ s.result.IsWritable

namespace Descriptor

/-! ## What is written is derived -/

theorem describes_descriptorChars {t : JvmType} (h : t.IsWritable) :
    Describes t.descriptorChars t := by
  induction t with
  | primitive kind => exact .primitive h
  | array element ih => exact .array (ih h)
  | reference name =>
    have hsemi : ';' ∉ (Name.slashed name).toList := fun hmem =>
      h.1 ((Name.mem_slashed_iff (by decide) (by decide)).mp hmem)
    have hderived := Describes.reference hsemi
    rw [String.ofList_toList, Name.dotted_slashed_of_not_mem h.2] at hderived
    exact hderived

theorem describesAll_descriptorChars {ts : List JvmType} (h : ∀ t ∈ ts, t.IsWritable) :
    DescribesAll (ts.flatMap JvmType.descriptorChars) ts := by
  induction ts with
  | nil => exact .nil
  | cons t ts ih =>
    rw [List.flatMap_cons]
    exact .cons (describes_descriptorChars (h t List.mem_cons_self))
      (ih fun u hu => h u (List.mem_cons_of_mem t hu))

theorem describesSignature_descriptorChars {s : Signature} (h : s.IsWritable) :
    DescribesSignature s.descriptorChars s := by
  have hresult : DescribesResult s.result.descriptorChars s.result := by
    rcases h.result with hvoid | hwritable
    · rw [hvoid]
      exact .void
    · exact .type (describes_descriptorChars hwritable)
  exact .mk (describesAll_descriptorChars h.parameters) hresult

/-! ## What is derived can be written -/

theorem Describes.isWritable {cs : List Char} {t : JvmType} (h : Describes cs t) :
    t.IsWritable := by
  induction h with
  | primitive hkind => exact hkind
  | @reference name hsemi =>
    refine ⟨fun hmem => hsemi ?_, Name.not_mem_dotted⟩
    have hmem' := (Name.mem_dotted_iff (by decide) (by decide)).mp hmem
    rwa [String.toList_ofList] at hmem'
  | array _ ih => exact ih

theorem DescribesAll.isWritable {cs : List Char} {ts : List JvmType} (h : DescribesAll cs ts) :
    ∀ t ∈ ts, t.IsWritable := by
  induction h with
  | nil => exact nofun
  | cons ht _ ih =>
    intro u hu
    rcases List.mem_cons.mp hu with rfl | hu
    · exact ht.isWritable
    · exact ih u hu

theorem DescribesSignature.isWritable {cs : List Char} {s : Signature}
    (h : DescribesSignature cs s) : s.IsWritable := by
  obtain ⟨hp, hr⟩ := h
  refine ⟨hp.isWritable, ?_⟩
  generalize s.result = result at hr
  cases hr with
  | void => exact Or.inl rfl
  | type ht => exact Or.inr ht.isWritable

/-! ## Reading back -/

theorem fieldType_descriptor_iff {t : JvmType} :
    fieldType t.descriptor = .ok t ↔ t.IsWritable := by
  rw [fieldType_eq_ok_iff, JvmType.descriptor, String.toList_ofList]
  exact ⟨Describes.isWritable, describes_descriptorChars⟩

theorem signature_descriptor_iff {s : Signature} :
    signature s.descriptor = .ok s ↔ s.IsWritable := by
  rw [signature_eq_ok_iff, Signature.descriptor, String.toList_ofList]
  exact ⟨DescribesSignature.isWritable, describesSignature_descriptorChars⟩

/-- Types and signatures are read back from their descriptors exactly when they are
writable, and no two such signatures have one descriptor. -/
theorem readBack_iff :
    (∀ t : JvmType, fieldType t.descriptor = .ok t ↔ t.IsWritable) ∧
    (∀ s : Signature, signature s.descriptor = .ok s ↔ s.IsWritable) ∧
    (∀ s s' : Signature, s.IsWritable → s'.IsWritable → s.descriptor = s'.descriptor →
      s.parameters = s'.parameters ∧ s.result = s'.result) := by
  refine ⟨fun t => fieldType_descriptor_iff, fun s => signature_descriptor_iff, ?_⟩
  intro s s' hs hs' heq
  have hread : signature s.descriptor = .ok s := signature_descriptor_iff.mpr hs
  have hread' : signature s'.descriptor = .ok s' := signature_descriptor_iff.mpr hs'
  rw [heq, hread'] at hread
  have hsame : s' = s := Except.ok.inj hread
  exact ⟨congrArg Signature.parameters hsame.symm, congrArg Signature.result hsame.symm⟩

/-- Parentheses, brackets and letters of primitives in a name are part of it; a name
with `;` has the descriptor of two types. -/
theorem readBack_punctuation :
    fieldType "[[La/é)V[(;" = .ok (.array (.array (.reference "a.é)V[("))) ∧
    signature "(J[La/é)V[(;I)V" =
      .ok ⟨[.primitive .long, .array (.reference "a.é)V[("), .primitive .int],
        .primitive .void⟩ ∧
    ¬ Signature.IsWritable ⟨[.reference "a;Lb"], .primitive .void⟩ := by
  refine ⟨?_, ?_, ?_⟩
  · exact (readBack_iff.1 (.array (.array (.reference "a.é)V[(")))).mpr (by decide)
  · exact (readBack_iff.2.1 ⟨[.primitive .long, .array (.reference "a.é)V[("), .primitive .int],
      .primitive .void⟩).mpr ⟨by decide, Or.inl rfl⟩
  · intro hone
    have htwo : Signature.IsWritable ⟨[.reference "a", .reference "b"], .primitive .void⟩ :=
      ⟨by decide, Or.inl rfl⟩
    have hsame := (readBack_iff.2.2 _ _ hone htwo (by decide)).1
    exact absurd hsame (by decide)

end Descriptor
end ClassIndex

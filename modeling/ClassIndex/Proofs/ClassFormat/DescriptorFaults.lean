/-
Descriptors inside class files.

The readers of descriptors follow the grammar, and no class file is ever refused for a
class name inside a descriptor that is no text.  A descriptor is a text by the time it is
read, whichever bytes stand for it in the file, and no reader of a class file has a
fault of this kind from elsewhere: each is confined to the other faults, along the
decoder from the words up to the whole file.
-/
import ClassIndex.Proofs.ClassFormat.Numbering
import ClassIndex.Proofs.JvmType.Derivations
import ClassIndex.ClassFormat.Decode

namespace ClassIndex
namespace ClassFormat

open ByteReader Reader

/-- A fault other than a class name inside a descriptor that is no text. -/
def Fault.NamesAreTexts (fault : Fault) : Prop :=
  fault ≠ .badDescriptor .nameNotUtf8

open Fault

section LookUps

variable {pool : ConstantPool} {i : UInt16} {fault : Fault}

theorem text_namesAreTexts (h : pool.text i = .error fault) : fault.NamesAreTexts := by
  obtain ⟨rfl, -⟩ := text_eq_error.mp h
  nofun

theorem className_namesAreTexts (h : pool.className i = .error fault) :
    fault.NamesAreTexts := by
  rcases className_eq_error.mp h with ⟨rfl, -⟩ | ⟨j, -, htext⟩
  · nofun
  · exact text_namesAreTexts htext

theorem superName_namesAreTexts (h : superName pool i = .error fault) :
    fault.NamesAreTexts := by
  unfold superName at h
  split at h
  · cases h
  · rcases Descriptor.except_bind_eq_error.mp h with hname | ⟨name, -, h⟩
    · exact className_namesAreTexts hname
    · cases h

theorem ofDescriptor_namesAreTexts {α : Type} {r : Except DescriptorFault α}
    (hr : r ≠ .error .nameNotUtf8) (h : ofDescriptor r = .error fault) :
    fault.NamesAreTexts := by
  cases r with
  | ok a => cases h
  | error reason =>
    cases h
    intro hname
    cases hname
    exact hr rfl

end LookUps

theorem skipAttribute_namesAreTexts : Confined NamesAreTexts skipAttribute :=
  (u2_confined nofun).bind fun _ => (u4_confined nofun).bind fun _ => skip_confined nofun _

theorem readLine_namesAreTexts (pool : ConstantPool) :
    Confined NamesAreTexts (DebugTable.readLine pool) :=
  (u2_confined nofun).bind fun _ => (u2_confined nofun).bind fun _ =>
    (u2_confined nofun).bind fun _ => (u2_confined nofun).bind fun _ =>
      (u2_confined nofun).bind fun _ =>
        (Confined.liftM fun _ => text_namesAreTexts).bind fun _ => .pure _

theorem readAttribute_namesAreTexts (pool : ConstantPool) :
    Confined NamesAreTexts (DebugTable.readAttribute pool) :=
  (u2_confined nofun).bind fun _ => (u4_confined nofun).bind fun _ =>
    (Confined.take nofun _).bind fun record =>
      (Confined.liftM fun _ => text_namesAreTexts).bind fun _ =>
        .ite (((counted_confined nofun (readLine_namesAreTexts pool)).within record).map some)
          (.pure none)

theorem debugTable_read_namesAreTexts (pool : ConstantPool) :
    Confined NamesAreTexts (DebugTable.read pool) := by
  refine Confined.map ?_ DebugTable.names
  refine (u2_confined nofun).bind fun _ => (u2_confined nofun).bind fun _ => ?_
  refine (u4_confined nofun).bind fun _ => (skip_confined nofun _).bind fun _ => ?_
  refine (u2_confined nofun).bind fun _ => (skip_confined nofun _).bind fun _ => ?_
  exact (counted_confined nofun (readAttribute_namesAreTexts pool)).bind fun _ => .pure _

theorem readMethodAttribute_namesAreTexts (pool : ConstantPool) :
    Confined NamesAreTexts (readMethodAttribute pool) :=
  (u2_confined nofun).bind fun _ => (u4_confined nofun).bind fun _ =>
    (Confined.take nofun _).bind fun record =>
      (Confined.liftM fun _ => text_namesAreTexts).bind fun _ =>
        .ite (((debugTable_read_namesAreTexts pool).within record).map some) (.pure none)

theorem readClassName_namesAreTexts (pool : ConstantPool) :
    Confined NamesAreTexts (readClassName pool) :=
  (u2_confined nofun).bind fun _ =>
    (Confined.liftM fun _ => className_namesAreTexts).bind fun _ => .pure _

/-- What fields and methods have in common: four words, a name, and a descriptor whose
reader has no fault of this kind. -/
theorem member_namesAreTexts {α β : Type} (pool : ConstantPool)
    {read : String → Except DescriptorFault α} (hread : ∀ d, read d ≠ .error .nameNotUtf8)
    {more : UInt16 → UInt16 → String → α → Reader β}
    (hmore : ∀ access attributes name a, Confined NamesAreTexts (more access attributes name a)) :
    Confined NamesAreTexts (do
      let access ← u2
      let nameIndex ← u2
      let descriptorIndex ← u2
      let attributes ← u2
      let name ← pool.text nameIndex
      let a ← ofDescriptor (read (← pool.text descriptorIndex))
      more access attributes name a) :=
  (u2_confined nofun).bind fun _ => (u2_confined nofun).bind fun _ =>
    (u2_confined nofun).bind fun _ => (u2_confined nofun).bind fun _ =>
      (Confined.liftM fun _ => text_namesAreTexts).bind fun _ =>
        (Confined.liftM fun _ => text_namesAreTexts).bind fun d =>
          (Confined.liftM fun _ => ofDescriptor_namesAreTexts (hread d)).bind fun _ =>
            hmore _ _ _ _

theorem readField_namesAreTexts (pool : ConstantPool) :
    Confined NamesAreTexts (readField pool) :=
  member_namesAreTexts pool Descriptor.fieldType_ne_nameNotUtf8 fun _ _ _ _ =>
    (skipAttribute_namesAreTexts.times _).bind fun _ => .pure _

theorem readMethod_namesAreTexts (pool : ConstantPool) :
    Confined NamesAreTexts (readMethod pool) :=
  member_namesAreTexts pool Descriptor.signature_ne_nameNotUtf8 fun _ _ _ _ =>
    ((readMethodAttribute_namesAreTexts pool).times _).bind fun _ => .pure _

theorem readClass_namesAreTexts : Confined NamesAreTexts readClass := by
  have hmagic : NamesAreTexts .badMagic := nofun
  -- what comes after a wrong magic number is not read, so that branch is the fault alone
  refine (u4_confined nofun).bind fun m => .ite (Confined.throw hmagic) ?_
  refine (u2_confined nofun).bind fun _ => (u2_confined nofun).bind fun _ => ?_
  refine (pool_read_confined nofun (fun _ => nofun) fun _ => nofun).bind fun pool => ?_
  refine (u2_confined nofun).bind fun _ => ?_
  refine (u2_confined nofun).bind fun this => (u2_confined nofun).bind fun super => ?_
  refine (counted_confined nofun (readClassName_namesAreTexts pool)).bind fun _ => ?_
  refine (counted_confined nofun (readField_namesAreTexts pool)).bind fun _ => ?_
  refine (counted_confined nofun (readMethod_namesAreTexts pool)).bind fun _ => ?_
  refine (counted_confined nofun skipAttribute_namesAreTexts).bind fun _ => ?_
  exact (Confined.liftM fun _ => className_namesAreTexts).bind fun _ =>
    (Confined.liftM fun _ => superName_namesAreTexts).bind fun _ => .pure _

/-- Descriptors are read as the grammar has them, every other string is malformed, and
no file is refused for a class name that was cut out of a descriptor. -/
theorem descriptors_follow_grammar :
    Descriptor.Follows Descriptor.fieldType Descriptor.TypeTree.Derives
      Descriptor.TypeTree.type ∧
    Descriptor.Follows Descriptor.signature Descriptor.SignatureTree.Derives
      Descriptor.SignatureTree.signature ∧
    ∀ bs, decode bs ≠ .error (.badDescriptor .nameNotUtf8) :=
  ⟨Descriptor.fieldType_follows, Descriptor.signature_follows,
    fun _ h => readClass_namesAreTexts.runOn h rfl⟩

/-- An array of a class whose name has a letter of two bytes, before a primitive. -/
theorem signature_of_accented :
    Descriptor.signature "([Lé/x;J)V" =
      .ok ⟨[.array (.reference "é.x"), .primitive .long], .primitive .void⟩ := by
  obtain ⟨-, hsignature, -⟩ := descriptors_follow_grammar
  refine hsignature.ok_iff.mpr
    ⟨⟨[.array (.reference ['é', '/', 'x']), .primitive .long], none⟩, ⟨⟨?_, nofun⟩, ?_⟩, ?_⟩
  · simp [Descriptor.TypeTree.Legal]
  · decide
  · decide

end ClassFormat
end ClassIndex

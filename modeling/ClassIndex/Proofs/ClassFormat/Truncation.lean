/-
Class files that are cut short.

Every reader of the decoder is steady.  So decoding depends on the bytes that the
class file takes and not on what follows them, a file cut short anywhere is reported
as such and as nothing else, and any other fault is there to stay.
-/
import ClassIndex.Proofs.ByteReader.Steady
import ClassIndex.Proofs.ClassFormat.RoundTrip

namespace ClassIndex
namespace ClassFormat

open ByteReader Reader

namespace Reader

theorem u1_steady : Steady u1 :=
  (Steady.take 1).bind fun _ => .pure _

theorem u2_steady : Steady u2 :=
  (Steady.take 2).bind fun _ => .pure _

theorem u4_steady : Steady u4 :=
  (Steady.take 4).bind fun _ => .pure _

theorem skip_steady (n : Nat) : Steady (skip n) :=
  (Steady.take n).bind fun _ => .pure _

theorem counted_steady {α : Type} {p : Reader α} (hp : Steady p) : Steady (counted p) :=
  u2_steady.bind fun _ => hp.times _

end Reader

theorem readContent_steady (tag : UInt8) : Steady (readContent tag) := by
  unfold readContent
  refine .ite ?_ (.ite ?_ ?_)
  · refine u2_steady.bind fun n => (Steady.take n.toNat).bind fun payload => ?_
    cases ModifiedUtf8.decode payload with
    | ok value => exact .pure _
    | error offset => exact .throw _
  · exact u2_steady.bind fun _ => .pure _
  · cases DataKind.ofTag? tag with
    | some kind => exact (skip_steady _).bind fun _ => .pure _
    | none => exact .throw _

theorem readConstant_steady : Steady ConstantPool.readConstant := by
  rw [readConstant_eq]
  exact u1_steady.bind readContent_steady

theorem readSlots_steady (n : Nat) : Steady (ConstantPool.readSlots n) := by
  induction n using Nat.strongRecOn with
  | ind n ih =>
    unfold ConstantPool.readSlots
    cases n with
    | zero => exact .pure []
    | succ n =>
      exact readConstant_steady.bind fun places => (ih _ (by omega)).bind fun _ => .pure _

theorem pool_read_steady : Steady ConstantPool.read :=
  u2_steady.bind fun _ => (readSlots_steady _).bind fun _ => .pure _

theorem skipAttribute_steady : Steady skipAttribute :=
  u2_steady.bind fun _ => u4_steady.bind fun _ => skip_steady _

/-- A body is not read before all of its bytes are there. -/
theorem readMethodAttribute_steady (pool : ConstantPool) : Steady (readMethodAttribute pool) :=
  u2_steady.bind fun _ => u4_steady.bind fun _ => (Steady.take _).bind fun _ =>
    (Steady.liftM _).bind fun _ => .ite ((Steady.within _ _).map some) (.pure none)

theorem readClassName_steady (pool : ConstantPool) : Steady (readClassName pool) :=
  u2_steady.bind fun _ => (Steady.liftM _).bind fun _ => .pure _

theorem readField_steady (pool : ConstantPool) : Steady (readField pool) :=
  u2_steady.bind fun _ => u2_steady.bind fun _ => u2_steady.bind fun _ => u2_steady.bind fun _ =>
    (Steady.liftM _).bind fun _ => (Steady.liftM _).bind fun _ => (Steady.liftM _).bind fun _ =>
      (skipAttribute_steady.times _).bind fun _ => .pure _

theorem readMethod_steady (pool : ConstantPool) : Steady (readMethod pool) :=
  u2_steady.bind fun _ => u2_steady.bind fun _ => u2_steady.bind fun _ => u2_steady.bind fun _ =>
    (Steady.liftM _).bind fun _ => (Steady.liftM _).bind fun _ => (Steady.liftM _).bind fun _ =>
      ((readMethodAttribute_steady pool).times _).bind fun _ => .pure _

theorem readClass_steady : Steady readClass := by
  -- what comes after a fault is not read, so that branch is the fault alone
  refine u4_steady.bind fun m => .ite (Steady.throw Fault.badMagic) ?_
  refine u2_steady.bind fun _ => u2_steady.bind fun _ => pool_read_steady.bind fun pool => ?_
  refine u2_steady.bind fun _ => u2_steady.bind fun this => u2_steady.bind fun super => ?_
  refine (counted_steady (readClassName_steady pool)).bind fun _ => ?_
  refine (counted_steady (readField_steady pool)).bind fun _ => ?_
  refine (counted_steady (readMethod_steady pool)).bind fun _ => ?_
  refine (counted_steady skipAttribute_steady).bind fun _ => ?_
  exact (Steady.liftM _).bind fun _ => (Steady.liftM _).bind fun _ => .pure _

/-- Decoding depends on a front of the bytes, of which every proper beginning is
reported as cut short; and a fault of another kind is not cured by further bytes. -/
theorem decode_front (bs : List UInt8) :
    (∀ c, decode bs = .ok c → ∃ n ≤ bs.length,
      (∀ bs' : List UInt8, bs'.take n = bs.take n → decode bs' = .ok c) ∧
      ∀ m < n, decode (bs.take m) = .error .unexpectedEnd) ∧
    ∀ fault, decode bs = .error fault → fault ≠ .unexpectedEnd →
      ∀ tail, decode (bs ++ tail) = .error fault :=
  ⟨fun _ hc => readClass_steady.runOn_ok hc,
    fun _ hfault hne tail => readClass_steady.runOn_error hfault hne tail⟩

/-- The area's class is cut short wherever its bytes are, and a wrong magic number is
wrong at once. -/
theorem decode_front_areaClass :
    (∃ c, decode areaClass.bytes = .ok c ∧ ∃ n ≤ areaClass.bytes.length,
      (∀ bs' : List UInt8, bs'.take n = areaClass.bytes.take n → decode bs' = .ok c) ∧
      ∀ m < n, decode (areaClass.bytes.take m) = .error .unexpectedEnd) ∧
    ∀ tail, decode ([0xCA, 0xFE, 0xD0, 0x0D] ++ tail) = .error .badMagic := by
  obtain ⟨c, -, hdecode⟩ := exists_decode_areaClass
  refine ⟨⟨c, hdecode, (decode_front areaClass.bytes).1 c hdecode⟩, ?_⟩
  exact (decode_front [0xCA, 0xFE, 0xD0, 0x0D]).2 .badMagic (by rfl) (by decide)

end ClassFormat
end ClassIndex

/-
Slots of parameters as numbers.

The slots of a method are words, and adding widths wraps around.  `frameSlots` lists
the slots as numbers, from the widths that a frame gives its values: two for `long`
and `double`, one for all others.  As long as the widths add up to no more than
65535, the words are these numbers, with a receiver in front or without one.

That bound is for the parameters alone.  With a receiver the slot after the last
parameter may be 65536, but no parameter starts there.
-/
import Mathlib
import ClassIndex.ClassInfo

namespace ClassIndex
namespace JvmType

/-- Slots that a value takes in a frame. -/
def frameWidth : JvmType → Nat
  | primitive .long | primitive .double => 2
  | _ => 1

theorem frameWidth_pos (t : JvmType) : 0 < t.frameWidth := by
  unfold frameWidth
  split <;> decide

theorem toNat_width {t : JvmType} (h : t ≠ primitive .void) : t.width.toNat = t.frameWidth := by
  cases t with
  | primitive kind =>
    cases kind with
    | void => exact absurd rfl h
    | _ => rfl
  | array element => rfl
  | reference name => rfl

end JvmType

namespace MethodInfo

/-- Where values lie that are put one after the other into the slots from `start` on. -/
def frameSlots : Nat → List JvmType → List Nat
  | _, [] => []
  | start, t :: ts => start :: frameSlots (start + t.frameWidth) ts

theorem map_toNat_slotsFrom {start : UInt16} {ts : List JvmType}
    (hvoid : ∀ t ∈ ts, t ≠ .primitive .void)
    (h : start.toNat + (ts.map JvmType.frameWidth).sum ≤ 65536) :
    (slotsFrom start ts).map UInt16.toNat = frameSlots start.toNat ts := by
  induction ts generalizing start with
  | nil => rfl
  | cons t ts ih =>
    rw [List.map_cons, List.sum_cons] at h
    have hwidth := JvmType.toNat_width (hvoid t List.mem_cons_self)
    rw [slotsFrom, frameSlots, List.map_cons]
    congr 1
    cases ts with
    | nil => rfl
    | cons u us =>
      -- a further parameter leaves room below the bound, so that adding does not wrap
      have hroom := u.frameWidth_pos
      rw [List.map_cons, List.sum_cons] at h
      have hnext : (start + t.width).toNat = start.toNat + t.frameWidth := by
        rw [UInt16.toNat_add, hwidth]
        omega
      rw [ih (fun v hv => hvoid v (List.mem_cons_of_mem t hv)), hnext]
      rw [hnext, List.map_cons, List.sum_cons]
      omega

/-- The slots of a method are those of the frame it is called with. -/
theorem map_toNat_slots {m : MethodInfo}
    (hvoid : ∀ t ∈ m.signature.parameters, t ≠ .primitive .void)
    (h : (m.signature.parameters.map JvmType.frameWidth).sum ≤ 65535) :
    m.slots.map UInt16.toNat =
      frameSlots (if m.isStatic then 0 else 1) m.signature.parameters := by
  have hstart : m.receiverWidth.toNat = if m.isStatic then 0 else 1 := by
    unfold receiverWidth
    split <;> rfl
  have hle : m.receiverWidth.toNat ≤ 1 := by
    rw [hstart]
    split <;> decide
  rw [slots, map_toNat_slotsFrom hvoid (by omega), hstart]

end MethodInfo
end ClassIndex

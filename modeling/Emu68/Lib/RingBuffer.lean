import Mathlib.Data.BitVec
import Mathlib.Data.List.Range
import Mathlib.Logic.Function.Basic
import Mathlib.Tactic.Common

/-!
A ring buffer whose counters run freely: they wrap at the end of the machine word, and are reduced
to a slot only where a slot is used. The number of slots divides the number of words, so that the
slots of a window of consecutive counters that is not longer than the buffer are different.
-/

set_option autoImplicit false
set_option relaxedAutoImplicit false

namespace Emu68.Lib

/-- The slots, the counter of what was put in, and the counter of what was taken out. -/
structure Ring (w : ℕ) (α : Type*) where
  slots : ℕ → α
  head : BitVec w
  tail : BitVec w

namespace Ring

variable {w size : ℕ} {α : Type*} {r : Ring w α} {x : α} {i j : ℕ}

def count (r : Ring w α) : ℕ := (r.head - r.tail).toNat

/-- The slot of the element that is `i` behind the oldest one. -/
def slotAt (size : ℕ) (r : Ring w α) (i : ℕ) : ℕ := (r.tail + BitVec.ofNat w i).toNat % size

/-- What is in the buffer, from the oldest element on. -/
def contents (size : ℕ) (r : Ring w α) : List α :=
  (List.range r.count).map fun i ↦ r.slots (r.slotAt size i)

theorem length_contents : (r.contents size).length = r.count := by
  rw [contents, List.length_map, List.length_range]

theorem count_eq_zero : r.count = 0 ↔ r.tail = r.head := by
  have hzero : (0#w).toNat = 0 := by simp
  rw [count, ← hzero, BitVec.toNat_inj, eq_comm (a := r.tail)]
  constructor
  · intro h
    rw [← BitVec.sub_add_cancel r.head r.tail, h, BitVec.zero_add]
  · rintro h
    rw [h, BitVec.sub_self]

/-- Different elements of a window have different slots. -/
theorem slotAt_ne (hdvd : size ∣ 2 ^ w) (hij : i < j) (hlt : j - i < size) :
    r.slotAt size i ≠ r.slotAt size j := by
  intro heq
  have hmod : ∀ k, r.slotAt size k = (r.tail.toNat + k) % size := by
    intro k
    rw [slotAt, BitVec.toNat_add, BitVec.toNat_ofNat, Nat.add_mod_mod, Nat.mod_mod_of_dvd _ hdvd]
  rw [hmod, hmod, show r.tail.toNat + j = r.tail.toNat + i + (j - i) by omega] at heq
  have hdiv := (Nat.modEq_iff_dvd' (Nat.le_add_right _ _)).mp heq
  rw [Nat.add_sub_cancel_left] at hdiv
  exact absurd (Nat.le_of_dvd (by omega) hdiv) (by omega)

theorem slotAt_count : r.slotAt size r.count = r.head.toNat % size := by
  rw [slotAt, count, BitVec.ofNat_toNat, BitVec.setWidth_eq, BitVec.add_comm, BitVec.sub_add_cancel]

/-- While there is room, the slot of the head belongs to no element. -/
theorem contents_update (hdvd : size ∣ 2 ^ w) (hroom : r.count < size) :
    ({ r with slots := Function.update r.slots (r.head.toNat % size) x } : Ring w α).contents size =
      r.contents size := by
  refine List.map_congr_left fun i hi ↦ Function.update_of_ne ?_ _ _
  rw [← slotAt_count]
  have hlt : i < r.count := List.mem_range.mp hi
  exact slotAt_ne hdvd hlt (by omega)

theorem toNat_one (h : 1 < 2 ^ w) : (1#w).toNat = 1 := by
  rw [BitVec.toNat_ofNat, Nat.mod_eq_of_lt h]

/-- The element in the slot of the head is added when the head advances. -/
theorem contents_advance (hcount : r.count + 1 < 2 ^ w) :
    ({ r with head := r.head + 1 } : Ring w α).contents size =
      r.contents size ++ [r.slots (r.head.toNat % size)] := by
  have hone : (1#w).toNat = 1 := toNat_one (by omega)
  have hnext : ({ r with head := r.head + 1 } : Ring w α).count = r.count + 1 := by
    show (r.head + 1 - r.tail).toNat = _
    rw [show r.head + 1 - r.tail = r.head - r.tail + 1 by
      rw [BitVec.sub_eq_add_neg, BitVec.sub_eq_add_neg, BitVec.add_assoc, BitVec.add_comm 1,
        ← BitVec.add_assoc], BitVec.toNat_add, show (1 : BitVec w).toNat = 1 from hone]
    exact Nat.mod_eq_of_lt hcount
  rw [contents, hnext, List.range_succ, List.map_append, List.map_singleton, ← slotAt_count]
  rfl

/-- The oldest element. -/
theorem contents_head (hne : r.tail ≠ r.head) :
    ∃ rest, r.contents size = r.slots (r.tail.toNat % size) :: rest ∧
      ({ r with tail := r.tail + 1 } : Ring w α).contents size = rest := by
  obtain ⟨n, hn⟩ := Nat.exists_eq_succ_of_ne_zero (mt count_eq_zero.mp hne)
  have hlt : r.count < 2 ^ w := (r.head - r.tail).isLt
  have hone : (1#w).toNat = 1 := toNat_one (by omega)
  have hnext : ({ r with tail := r.tail + 1 } : Ring w α).count = n := by
    show (r.head - (r.tail + 1)).toNat = n
    have hle : (1#w).toNat ≤ (r.head - r.tail).toNat := by
      rw [hone]
      show 1 ≤ r.count
      omega
    have hsub : r.head - (r.tail + 1) = r.head - r.tail - 1#w := (BitVec.sub_sub _ _ _).symm
    rw [hsub, BitVec.toNat_sub_of_le hle, hone]
    exact Nat.sub_eq_of_eq_add hn
  refine ⟨_, ?_, rfl⟩
  rw [contents, contents, hn, hnext, List.range_succ_eq_map, List.map_cons, List.map_map]
  refine congrArg₂ _ (by rw [slotAt, BitVec.add_zero]) (List.map_congr_left fun i _ ↦ ?_)
  show r.slots _ = r.slots ((r.tail + 1 + BitVec.ofNat w i).toNat % size)
  rw [slotAt, BitVec.add_assoc]
  congr 4
  rw [← Nat.add_one, Nat.add_comm, BitVec.ofNat_add]
  rfl

end Ring

end Emu68.Lib

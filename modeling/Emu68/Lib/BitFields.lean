import Mathlib.Data.BitVec
import Mathlib.Tactic.Common

/-!
Masks of one or two bit fields, as arithmetic: what a mask keeps of a number is a quotient, a
remainder and a product with powers of two, so that facts about packed words become linear.
-/

set_option autoImplicit false
set_option relaxedAutoImplicit false

namespace Emu68.Lib

/-- `len` ones from bit `lo` on. -/
def fieldMask (lo len : ℕ) : ℕ := (2 ^ len - 1) <<< lo

/-- The part of a number that a field mask keeps. -/
def field (lo len x : ℕ) : ℕ := x / 2 ^ lo % 2 ^ len * 2 ^ lo

variable {w lo len k : ℕ}

theorem and_fieldMask (x lo len : ℕ) : x &&& fieldMask lo len = field lo len x := by
  rw [field, ← Nat.shiftRight_eq_div_pow, ← Nat.and_two_pow_sub_one_eq_mod, ← Nat.shiftLeft_eq,
    fieldMask, Nat.shiftLeft_and_distrib]
  refine Nat.eq_of_testBit_eq fun i ↦ ?_
  simp only [Nat.testBit_and, Nat.testBit_shiftLeft, Nat.testBit_shiftRight]
  by_cases hi : lo ≤ i
  · rw [Nat.add_sub_cancel' hi]
    simp [hi]
  · simp [hi]

theorem field_lt (x : ℕ) : field lo len x < 2 ^ (lo + len) := by
  rw [field, pow_add, mul_comm]
  exact Nat.mul_lt_mul_of_pos_left (Nat.mod_lt _ (Nat.two_pow_pos _)) (Nat.two_pow_pos _)

theorem toNat_and_field (lo len : ℕ) {m : BitVec w} (hm : m.toNat = fieldMask lo len) (x : BitVec w) :
    (x &&& m).toNat = field lo len x.toNat := by
  rw [BitVec.toNat_and, hm, and_fieldMask]

/-- Numbers that share no bit are added. -/
theorem or_eq_add {a b : ℕ} (ha : 2 ^ k ∣ a) (hb : b < 2 ^ k) : a ||| b = a + b := by
  obtain ⟨q, rfl⟩ := ha
  exact (Nat.two_pow_add_eq_or_of_lt hb q).symm

theorem toNat_or_eq_add {a b : BitVec w} (ha : 2 ^ k ∣ a.toNat) (hb : b.toNat < 2 ^ k) :
    (a ||| b).toNat = a.toNat + b.toNat := by
  rw [BitVec.toNat_or, or_eq_add ha hb]

/-- A mask of two fields, the second one below the first. -/
theorem toNat_and_fields (lo len lo' len' : ℕ) {m : BitVec w}
    (hm : m.toNat = fieldMask lo len + fieldMask lo' len') (hbelow : lo' + len' ≤ lo) (x : BitVec w) :
    (x &&& m).toNat = field lo len x.toNat + field lo' len' x.toNat := by
  have hdvd : 2 ^ lo ∣ fieldMask lo len := by
    rw [fieldMask, Nat.shiftLeft_eq]
    exact Nat.dvd_mul_left _ _
  have hmask : fieldMask lo' len' < 2 ^ lo := by
    rw [← Nat.and_self (fieldMask lo' len'), and_fieldMask]
    exact (field_lt _).trans_le (Nat.pow_le_pow_right (by decide) hbelow)
  have hlow : field lo' len' x.toNat < 2 ^ lo :=
    (field_lt _).trans_le (Nat.pow_le_pow_right (by decide) hbelow)
  rw [BitVec.toNat_and, hm, ← or_eq_add hdvd hmask, Nat.and_or_distrib_left, and_fieldMask,
    and_fieldMask]
  exact or_eq_add (Nat.dvd_mul_left _ _) hlow

/-! ### The lowest bits -/

/-- The lowest bits are replaced. -/
def replaceLow {n w : ℕ} (old : BitVec n) (x : BitVec w) : BitVec n :=
  (old >>> w) <<< w ||| x.setWidth n

theorem getLsbD_replaceLow {n : ℕ} (old : BitVec n) (x : BitVec w) (i : ℕ) :
    (replaceLow old x).getLsbD i = if i < w then decide (i < n) && x.getLsbD i else old.getLsbD i := by
  rw [replaceLow, BitVec.getLsbD_or, BitVec.getLsbD_shiftLeft, BitVec.getLsbD_ushiftRight,
    BitVec.getLsbD_setWidth]
  by_cases hi : i < w
  · simp [hi]
  · have hx : x.getLsbD i = false := BitVec.getLsbD_of_ge x i (Nat.le_of_not_lt hi)
    have hold : i < n ∨ old.getLsbD i = false := by
      rcases Nat.lt_or_ge i n with hlt | hge
      · exact .inl hlt
      · exact .inr (BitVec.getLsbD_of_ge old i hge)
    rcases hold with hlt | hfalse
    · simp [hi, hx, hlt, Nat.add_sub_cancel' (Nat.le_of_not_lt hi)]
    · simp [hi, hx, hfalse, Nat.add_sub_cancel' (Nat.le_of_not_lt hi)]

end Emu68.Lib

import Mathlib.Data.BitVec

/-!
Ranges of machine integers. A range leads from its lower bound up to its upper one, possibly past the
greatest number, so that one notion serves bounds in the order of signed numbers and bounds in the
order of unsigned ones. Sign extension keeps it.
-/

set_option autoImplicit false
set_option relaxedAutoImplicit false

namespace Emu68.Lib

variable {w : ℕ}

/-- The number is not met on the way up from the lower bound to the upper one, which may lead past
the greatest number. -/
def outside (x lower upper : BitVec w) : Bool := decide (upper - lower < x - lower)

theorem toNat_sub_ite (x y : BitVec w) :
    (x - y).toNat = if y.toNat ≤ x.toNat then x.toNat - y.toNat else x.toNat + 2 ^ w - y.toNat := by
  have hx := x.isLt
  have hy := y.isLt
  rw [BitVec.toNat_sub]
  split_ifs with h
  · rw [show 2 ^ w - y.toNat + x.toNat = x.toNat - y.toNat + 2 ^ w by omega, Nat.add_mod_right,
      Nat.mod_eq_of_lt (by omega)]
  · rw [Nat.mod_eq_of_lt (by omega)]
    omega

/-- In terms of the order of unsigned numbers. -/
theorem outside_eq (x lower upper : BitVec w) :
    outside x lower upper =
      if upper < lower then decide (upper < x ∧ x < lower) else decide (upper < x ∨ x < lower) := by
  have hx := x.isLt
  have hlower := lower.isLt
  have hupper := upper.isLt
  simp only [outside, BitVec.lt_def, toNat_sub_ite]
  split_ifs <;> rw [decide_eq_decide] <;> omega

/-- A number that equals a bound is not outside. -/
theorem equal_outside (x lower upper : BitVec w) (h : x = lower ∨ x = upper) :
    outside x lower upper = false := by
  have hlt : ¬ lower < lower := Nat.lt_irrefl _
  have hlt' : ¬ upper < upper := Nat.lt_irrefl _
  rw [outside_eq]
  rcases h with rfl | rfl
  · split_ifs with hwrap
    · exact decide_eq_false fun h ↦ hlt h.2
    · exact decide_eq_false fun h ↦ h.elim hwrap hlt
  · split_ifs with hwrap
    · exact decide_eq_false fun h ↦ hlt' h.1
    · exact decide_eq_false fun h ↦ h.elim hlt' hwrap

/-- Bounds in the order of unsigned numbers. -/
theorem outside_unsigned {x lower upper : BitVec w} (h : lower ≤ upper) :
    outside x lower upper = decide (x < lower ∨ upper < x) := by
  rw [outside_eq, if_neg (BitVec.not_lt.mpr h), decide_eq_decide, or_comm]

/-- Bounds in the order of signed numbers. -/
theorem outside_signed {x lower upper : BitVec w} (h : lower.toInt ≤ upper.toInt) :
    outside x lower upper = decide (x.toInt < lower.toInt ∨ upper.toInt < x.toInt) := by
  have hx := x.isLt
  have hlower := lower.isLt
  have hupper := upper.isLt
  simp only [outside, BitVec.lt_def, toNat_sub_ite, BitVec.toInt_eq_toNat_cond] at h ⊢
  split_ifs at h ⊢ <;> rw [decide_eq_decide] <;> omega

theorem signExtend_lt_iff {n : ℕ} (hw : 0 < w) (hn : w ≤ n) (x y : BitVec w) :
    x.signExtend n < y.signExtend n ↔ x < y := by
  have hx := x.isLt
  have hy := y.isLt
  have hpow : 2 ^ w = 2 * 2 ^ (w - 1) := by rw [← Nat.pow_succ', Nat.succ_eq_add_one,
    Nat.sub_add_cancel hw]
  have hle : 2 ^ w ≤ 2 ^ n := Nat.pow_le_pow_right (by decide) hn
  rw [BitVec.lt_def, BitVec.lt_def, BitVec.toNat_signExtend, BitVec.toNat_signExtend,
    BitVec.toNat_setWidth, BitVec.toNat_setWidth, Nat.mod_eq_of_lt (by omega),
    Nat.mod_eq_of_lt (by omega), BitVec.msb_eq_decide, BitVec.msb_eq_decide]
  simp only [decide_eq_true_eq]
  split_ifs <;> omega

theorem outside_signExtend {n : ℕ} (hw : 0 < w) (hn : w ≤ n) (x lower upper : BitVec w) :
    outside (x.signExtend n) (lower.signExtend n) (upper.signExtend n) = outside x lower upper := by
  simp only [outside_eq, signExtend_lt_iff hw hn]

theorem signExtend_inj {n : ℕ} (hn : w ≤ n) {x y : BitVec w} :
    x.signExtend n = y.signExtend n ↔ x = y := by
  refine ⟨fun h ↦ ?_, congrArg _⟩
  have hint := congrArg BitVec.toInt h
  rw [BitVec.toInt_signExtend_of_le hn, BitVec.toInt_signExtend_of_le hn] at hint
  exact BitVec.toInt_inj.mp hint

end Emu68.Lib

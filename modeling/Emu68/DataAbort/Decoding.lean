import Emu68.DataAbort.Handlers

/-!
What the handlers read from the word of an instruction is what the word was made from.
-/

set_option autoImplicit false
set_option relaxedAutoImplicit false

namespace Emu68.DataAbort

open A64 Lib

variable {w : Word} {p i : ℕ}

/-! ### Fields -/

theorem regNr_eq (w : Word) (p : ℕ) : regNr w p = w.extractLsb' p 5 := by
  have hmask : ∀ i < 5, (31 : Word).getLsbD i = true := by decide
  refine BitVec.eq_of_getLsbD_eq fun i hi ↦ ?_
  unfold regNr
  rw [BitVec.getLsbD_setWidth, BitVec.getLsbD_and, BitVec.getLsbD_ushiftRight, hmask i hi,
    BitVec.getLsbD_extractLsb', decide_eq_true hi, Bool.and_true]

theorem and_31_eq (w : Word) (p : ℕ) : w >>> p &&& 31 = 31 ↔ w.extractLsb' p 5 = 31 := by
  have hwide : w >>> p &&& 31 = (regNr w p).setWidth 32 := by
    refine BitVec.eq_of_toNat_eq ?_
    unfold regNr
    rw [BitVec.toNat_setWidth, BitVec.toNat_setWidth, BitVec.toNat_and]
    have hlt : (w >>> p).toNat &&& (31 : Word).toNat < 32 :=
      Nat.and_lt_two_pow _ (by decide : 31 < 2 ^ 5)
    rw [Nat.mod_eq_of_lt (a := _ &&& _) (by omega), Nat.mod_eq_of_lt (by omega)]
  rw [hwide, regNr_eq, ← BitVec.toNat_inj, ← BitVec.toNat_inj, BitVec.toNat_setWidth]
  have hlt := (w.extractLsb' p 5).isLt
  rw [Nat.mod_eq_of_lt (by omega)]
  rfl

theorem offset9_eq (w : Word) : offset9 w = (w.extractLsb' 12 9).signExtend 16 := by
  refine BitVec.eq_of_getLsbD_eq fun i hi ↦ ?_
  unfold offset9
  rw [BitVec.getLsbD_sshiftRight, BitVec.getLsbD_signExtend]
  by_cases hlow : i < 9
  · simp [hlow, show 7 + i < 16 by omega, show ¬ 16 ≤ i by omega, hi]
    congr 1
    omega
  · simp [BitVec.msb_eq_getLsbD_last, hlow, hi, show ¬ 7 + i < 16 by omega]

theorem offset7_eq (w : Word) (size : ℕ) :
    offset7 w size = (w.extractLsb' 15 7).signExtend 16 * BitVec.ofNat 16 size := by
  unfold offset7
  congr 1
  refine BitVec.eq_of_getLsbD_eq fun i hi ↦ ?_
  rw [BitVec.getLsbD_sshiftRight, BitVec.getLsbD_signExtend]
  by_cases hlow : i < 7
  · simp [hlow, show 9 + i < 16 by omega, show ¬ 16 ≤ i by omega, hi]
    congr 1
    omega
  · simp [BitVec.msb_eq_getLsbD_last, hlow, hi, show ¬ 9 + i < 16 by omega]

theorem offset12_eq (w : Word) : offset12 w = (w.extractLsb' 10 12).setWidth 32 := by
  have hmask : ∀ i < 32, (0xfff : Word).getLsbD i = decide (i < 12) := by decide
  refine BitVec.eq_of_getLsbD_eq fun i hi ↦ ?_
  unfold offset12
  rw [BitVec.getLsbD_and, BitVec.getLsbD_ushiftRight, hmask i hi, BitVec.getLsbD_setWidth,
    BitVec.getLsbD_extractLsb', decide_eq_true hi, Bool.true_and, Bool.and_comm]

theorem option_eq (w : Word) : w >>> 13 &&& 7 = (w.extractLsb' 13 3).setWidth 32 := by
  have hmask : ∀ i < 32, (7 : Word).getLsbD i = decide (i < 3) := by decide
  refine BitVec.eq_of_getLsbD_eq fun i hi ↦ ?_
  rw [BitVec.getLsbD_and, BitVec.getLsbD_ushiftRight, hmask i hi, BitVec.getLsbD_setWidth,
    BitVec.getLsbD_extractLsb', decide_eq_true hi, Bool.true_and, Bool.and_comm]

/-- A test of one bit. -/
theorem and_bit {n : ℕ} (x : BitVec n) (hp : p < n) :
    x &&& place p 1#1 = 0 ↔ x.getLsbD p = false := by
  constructor
  · intro h
    have hbit := congrArg (BitVec.getLsbD · p) h
    simpa [BitVec.getLsbD_and, getLsbD_place _ hp] using hbit
  · intro h
    refine BitVec.eq_of_getLsbD_eq fun i hi ↦ ?_
    rw [BitVec.getLsbD_and, getLsbD_place _ hi]
    by_cases heq : i = p
    · rw [heq, h]
      simp
    · rcases Nat.lt_or_gt_of_ne heq with hlt | hgt
      · simp [show ¬ p ≤ i by omega]
      · simp [show i - p ≠ 0 by omega]

theorem getLsbD_eq_extract (x : Word) (p : ℕ) :
    BitVec.ofBool (x.getLsbD p) = x.extractLsb' p 1 := by
  refine BitVec.eq_of_getLsbD_eq fun i hi ↦ ?_
  rw [show i = 0 by omega]
  simp

theorem getOPsize_eq (w : Word) : getOPsize w = 2 ^ (w.extractLsb' 30 2).toNat := by
  have hsize : w &&& 0xc0000000 = place 30 (w.extractLsb' 30 2) := by
    have hmask : ∀ i < 32, (0xc0000000 : Word).getLsbD i = decide (30 ≤ i) := by decide
    refine BitVec.eq_of_getLsbD_eq fun i hi ↦ ?_
    rw [BitVec.getLsbD_and, hmask i hi, getLsbD_place _ hi, BitVec.getLsbD_extractLsb',
      Bool.and_comm]
    by_cases hhigh : 30 ≤ i
    · simp [hhigh, show i - 30 < 2 by omega]
    · simp [hhigh]
  unfold getOPsize
  rw [hsize]
  generalize w.extractLsb' 30 2 = x
  revert x
  decide

/-! ### Values -/

/-- The bits above a value are filled with its sign. -/
theorem fill_signExtend {b : ℕ} (y : BitVec b) (k : ℕ) (fill : BitVec 64) (hbk : b ≤ k)
    (hfill : ∀ i < 64, fill.getLsbD i = decide (b ≤ i ∧ i < k)) :
    (if y.getLsbD (b - 1) = true then y.setWidth 64 ||| fill else y.setWidth 64) =
      (y.signExtend k).setWidth 64 := by
  have hmsb : y.msb = y.getLsbD (b - 1) := BitVec.msb_eq_getLsbD_last y
  refine BitVec.eq_of_getLsbD_eq fun i hi ↦ ?_
  rw [BitVec.getLsbD_setWidth, BitVec.getLsbD_signExtend, hmsb, decide_eq_true hi, Bool.true_and]
  split_ifs with hsign hlow
  · rw [BitVec.getLsbD_or, BitVec.getLsbD_setWidth, hfill i hi]
    simp [hi, show i < k by omega, show ¬ b ≤ i by omega]
  · rw [BitVec.getLsbD_or, BitVec.getLsbD_setWidth, hfill i hi, BitVec.getLsbD_of_ge y i (by omega)]
    simp [hsign, show b ≤ i by omega]
  · rw [BitVec.getLsbD_setWidth]
    simp [hi, show i < k by omega]
  · rw [BitVec.getLsbD_setWidth, BitVec.getLsbD_of_ge y i (by omega)]
    simp [hsign]

theorem and_low (x : BitVec 64) : x &&& 0xffffffff = (x.setWidth 32).setWidth 64 := by
  have hmask : ∀ i < 64, (0xffffffff : BitVec 64).getLsbD i = decide (i < 32) := by decide
  refine BitVec.eq_of_getLsbD_eq fun i hi ↦ ?_
  rw [BitVec.getLsbD_and, hmask i hi, BitVec.getLsbD_setWidth, BitVec.getLsbD_setWidth,
    decide_eq_true hi, Bool.true_and, Bool.and_comm]

/-- SXTW, as the handlers compute it. -/
theorem sxtw_eq (x : BitVec 64) :
    (if x &&& 0x80000000 ≠ 0 then x ||| 0xffffffff00000000 else x &&& 0xffffffff) =
      (x.setWidth 32).signExtend 64 := by
  have hfill : ∀ i < 64, (0xffffffff00000000 : BitVec 64).getLsbD i = decide (32 ≤ i ∧ i < 64) := by
    decide
  have hbit : x &&& 0x80000000 = 0 ↔ x.getLsbD 31 = false := and_bit x (by decide : 31 < 64)
  have hsign : (x.setWidth 32).getLsbD (32 - 1) = x.getLsbD 31 := by
    rw [BitVec.getLsbD_setWidth]
    rfl
  have hfilled := fill_signExtend (x.setWidth 32) 64 _ (by decide) hfill
  rw [BitVec.setWidth_eq, hsign, ← and_low] at hfilled
  rw [← hfilled]
  by_cases hneg : x.getLsbD 31 = true
  · rw [if_pos fun h ↦ Bool.false_ne_true ((hbit.mp h).symm.trans hneg), if_pos hneg]
    refine BitVec.eq_of_getLsbD_eq fun i hi ↦ ?_
    have hmask : ∀ i < 64, (0xffffffff : BitVec 64).getLsbD i = decide (i < 32) := by decide
    rw [BitVec.getLsbD_or, BitVec.getLsbD_or, BitVec.getLsbD_and, hfill i hi, hmask i hi]
    by_cases hlow : i < 32
    · simp [hlow]
    · simp [show 32 ≤ i by omega, hi]
  · rw [if_neg (not_not.mpr (hbit.mpr (Bool.eq_false_iff.mpr hneg))), if_neg hneg]

/-- The bits up to 32 are filled first, and those above them if they are wanted. -/
theorem fill_twice {b : ℕ} (y : BitVec b) (sext64 : Bool) (fill : BitVec 64) (hb : b ≤ 32)
    (hfill : ∀ i < 64, fill.getLsbD i = decide (b ≤ i ∧ i < 32)) :
    let tmp := if y.getLsbD (b - 1) = true then y.setWidth 64 ||| fill else y.setWidth 64
    (if (y.getLsbD (b - 1) && sext64) = true then tmp ||| 0xffffffff00000000 else tmp) =
      (y.signExtend (if sext64 then 64 else 32)).setWidth 64 := by
  have hhigh : ∀ i < 64, (0xffffffff00000000 : BitVec 64).getLsbD i = decide (32 ≤ i) := by decide
  have hword := fill_signExtend y 32 fill hb hfill
  have hdouble := fill_signExtend y 64 (fill ||| 0xffffffff00000000) (by omega) fun i hi ↦ by
    rw [BitVec.getLsbD_or, hfill i hi, hhigh i hi, ← Bool.decide_or]
    exact decide_eq_decide.mpr (by omega)
  dsimp only
  cases sext64 with
  | false => rwa [Bool.and_false, if_neg Bool.false_ne_true]
  | true =>
    rw [Bool.and_true, if_pos rfl]
    split_ifs at hdouble ⊢ with hsign
    · rwa [BitVec.or_assoc]
    · exact hdouble

/-- The test of a sign bit. -/
theorem and_sign {b : ℕ} (y : BitVec b) (hb : b - 1 < 64) :
    y.setWidth 64 &&& place (b - 1) 1#1 ≠ 0 ↔ y.getLsbD (b - 1) = true := by
  rw [ne_eq, and_bit _ hb, BitVec.getLsbD_setWidth, decide_eq_true hb, Bool.true_and,
    Bool.not_eq_false]

theorem signExtended_byte (sext64 : Bool) (y : BitVec 8) : signExtended 1 sext64 (y.setWidth 64) =
    (y.signExtend (if sext64 then 64 else 32)).setWidth 64 := by
  have hsign : y.setWidth 64 &&& 0x80 ≠ 0 ↔ y.getLsbD 7 = true := and_sign y (by decide)
  unfold signExtended
  rw [if_pos rfl]
  simp only [hsign, Bool.decide_eq_true]
  exact fill_twice y sext64 _ (by decide) (by decide)

theorem signExtended_half (sext64 : Bool) (y : BitVec 16) :
    signExtended 2 sext64 (y.setWidth 64) =
      (y.signExtend (if sext64 then 64 else 32)).setWidth 64 := by
  have hsign : y.setWidth 64 &&& 0x8000 ≠ 0 ↔ y.getLsbD 15 = true := and_sign y (by decide)
  unfold signExtended
  rw [if_neg (by decide), if_pos rfl]
  simp only [hsign, Bool.decide_eq_true]
  exact fill_twice y sext64 _ (by decide) (by decide)

theorem signExtended_word (sext64 : Bool) (y : BitVec 32) :
    signExtended 4 sext64 (y.setWidth 64) =
      (y.signExtend (if sext64 then 64 else 32)).setWidth 64 := by
  have hsign : y.setWidth 64 &&& 0x80000000 ≠ 0 ↔ y.getLsbD 31 = true := and_sign y (by decide)
  have hfill := fill_twice y sext64 0#64 (by decide) (by decide)
  simp only [BitVec.or_zero, ite_self] at hfill
  unfold signExtended
  rw [if_neg (by decide), if_neg (by decide), if_pos rfl]
  simp only [hsign, Bool.decide_eq_true]
  exact hfill

end Emu68.DataAbort

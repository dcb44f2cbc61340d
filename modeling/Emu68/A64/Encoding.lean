import Mathlib.Data.BitVec
import Mathlib.Tactic.IntervalCases

/-!
Words of A64 code, as the big-endian host stores them, and the encodings of the branches that
leave a translation unit. `branchTarget` is the architecture's reading of a conditional branch;
the other definitions are those of `A64.h`.
-/

set_option autoImplicit false
set_option relaxedAutoImplicit false

namespace Emu68.A64

abbrev Word := BitVec 32

/-- `INSN_TO_LE`: instructions are little-endian in memory, so a word is stored byte-swapped. -/
def I32 (insn : Word) : Word :=
  insn.extractLsb' 0 8 ++ insn.extractLsb' 8 8 ++ insn.extractLsb' 16 8 ++ insn.extractLsb' 24 8

def bCc (cc : BitVec 8) (offset19 : Word) : Word :=
  I32 (0x54000000 ||| (cc.zeroExtend 32 &&& 15) ||| ((offset19 &&& 0x7ffff) <<< 5))

def tbnz (rt bit : BitVec 8) (offset : Word) : Word :=
  I32 (if bit &&& 32 ≠ 0 then 0xb7000000
    else 0x37000000 ||| ((bit.zeroExtend 32 &&& 31) <<< 19) ||| ((offset &&& 0x3fff) <<< 5) |||
      (rt.zeroExtend 32 &&& 31))

def tbz (rt bit : BitVec 8) (offset : Word) : Word :=
  I32 (if bit &&& 32 ≠ 0 then 0xb6000000
    else 0x36000000 ||| ((bit.zeroExtend 32 &&& 31) <<< 19) ||| ((offset &&& 0x3fff) <<< 5) |||
      (rt.zeroExtend 32 &&& 31))

/-- `ret`, by its other name. -/
def bxLr : Word := I32 (0xd65f0000 ||| (30 <<< 5))

/-- `b.cond`: the opcode in the top byte, bit 4 clear, a signed 19-bit offset in words. -/
def IsBCc (insn : Word) : Prop := insn.extractLsb' 24 8 = 0x54#8 ∧ insn.getLsbD 4 = false

/-- `tbz` or `tbnz`: a signed 14-bit offset in words. -/
def IsTbz (insn : Word) : Prop := insn.extractLsb' 25 6 = 0x1b#6

instance (insn : Word) : Decidable (IsBCc insn) := inferInstanceAs (Decidable (_ ∧ _))

instance (insn : Word) : Decidable (IsTbz insn) := inferInstanceAs (Decidable (_ = _))

/-- Where the conditional branch in a word at `position` leads, both counted in words. -/
def branchTarget (word : Word) (position : ℕ) : Option ℤ :=
  if IsBCc (I32 word) then some (position + ((I32 word).extractLsb' 5 19).toInt)
  else if IsTbz (I32 word) then some (position + ((I32 word).extractLsb' 5 14).toInt)
  else none

theorem getLsbD_I32 (insn : Word) (i : ℕ) (hi : i < 32) :
    (I32 insn).getLsbD i = insn.getLsbD (24 - i / 8 * 8 + i % 8) := by
  simp only [I32, BitVec.getLsbD_append, BitVec.getLsbD_extractLsb']
  interval_cases i <;> rfl

theorem I32_I32 (insn : Word) : I32 (I32 insn) = insn := by
  apply BitVec.eq_of_getLsbD_eq
  intro i hi
  rw [getLsbD_I32 _ i hi, getLsbD_I32 _ _ (by omega)]
  congr 1
  omega

/-! ### Replacing the offset of a branch -/

/-- The offset field, of the width of `mask`, is replaced. The rest of the word stays. -/
def setOffset (mask insn distance : Word) : Word :=
  (insn &&& ~~~(mask <<< 5)) ||| ((distance &&& mask) <<< 5)

variable {mask : Word} {width : ℕ} {insn distance : Word}

/-- `mask` has the `width` lowest bits. -/
def Covers (mask : Word) (width : ℕ) : Prop := ∀ i < 32, mask.getLsbD i = decide (i < width)

theorem covers_bCc : Covers 0x7ffff 19 := by
  intro i hi
  interval_cases i <;> rfl

theorem covers_tbz : Covers 0x3fff 14 := by
  intro i hi
  interval_cases i <;> rfl

theorem getLsbD_setOffset (hmask : Covers mask width) {i : ℕ} (hi : i < 32) :
    (setOffset mask insn distance).getLsbD i =
      if 5 ≤ i ∧ i < width + 5 then distance.getLsbD (i - 5) else insn.getLsbD i := by
  have hbit := hmask (i - 5) (by omega)
  simp only [setOffset, BitVec.getLsbD_or, BitVec.getLsbD_and, BitVec.getLsbD_not,
    BitVec.getLsbD_shiftLeft, hi, decide_true, Bool.true_and, hbit]
  by_cases hlow : i < 5
  · have hfield : ¬ (5 ≤ i ∧ i < width + 5) := by omega
    simp only [hlow, hfield, decide_true, if_false, Bool.not_true, Bool.false_and, Bool.not_false,
      Bool.and_true, Bool.or_false]
  · by_cases hfield : i - 5 < width
    · have hin : 5 ≤ i ∧ i < width + 5 := by omega
      simp only [hlow, hfield, hin, decide_true, decide_false, and_self, if_true, Bool.not_false,
        Bool.true_and, Bool.not_true, Bool.and_false, Bool.false_or, Bool.and_true]
    · have hout : ¬ (5 ≤ i ∧ i < width + 5) := by omega
      simp only [hlow, hfield, hout, decide_false, if_false, Bool.not_false, Bool.and_false,
        Bool.and_true, Bool.or_false]

/-- The new offset field holds the low bits of the distance. -/
theorem extract_setOffset (hmask : Covers mask width) (hwidth : width ≤ 27) :
    (setOffset mask insn distance).extractLsb' 5 width = distance.extractLsb' 0 width := by
  apply BitVec.eq_of_getLsbD_eq
  intro i hi
  rw [BitVec.getLsbD_extractLsb', BitVec.getLsbD_extractLsb',
    getLsbD_setOffset hmask (by omega), if_pos (by omega)]
  simp

/-- Two words that differ in the offset field of `mask` at most. -/
def SameBut (mask insn insn' : Word) : Prop :=
  insn' &&& ~~~(mask <<< 5) = insn &&& ~~~(mask <<< 5)

theorem sameBut_setOffset : SameBut mask insn (setOffset mask insn distance) := by
  apply BitVec.eq_of_getLsbD_eq
  intro i hi
  simp only [setOffset, BitVec.getLsbD_and, BitVec.getLsbD_or, BitVec.getLsbD_not,
    BitVec.getLsbD_shiftLeft, hi, decide_true, Bool.true_and]
  cases insn.getLsbD i <;> cases mask.getLsbD (i - 5) <;> cases decide (i < 5) <;> simp

theorem isBCc_setOffset (h : IsBCc insn) : IsBCc (setOffset 0x7ffff insn distance) := by
  refine ⟨?_, ?_⟩
  · rw [← h.1]
    apply BitVec.eq_of_getLsbD_eq
    intro i hi
    rw [BitVec.getLsbD_extractLsb', BitVec.getLsbD_extractLsb',
      getLsbD_setOffset covers_bCc (by omega), if_neg (by omega)]
  · rw [← h.2, getLsbD_setOffset covers_bCc (by decide), if_neg (by omega)]

theorem isTbz_setOffset (h : IsTbz insn) : IsTbz (setOffset 0x3fff insn distance) := by
  unfold IsTbz
  rw [← h]
  apply BitVec.eq_of_getLsbD_eq
  intro i hi
  rw [BitVec.getLsbD_extractLsb', BitVec.getLsbD_extractLsb',
    getLsbD_setOffset covers_tbz (by omega), if_neg (by omega)]

/-- The two kinds of branch exclude each other. -/
theorem IsTbz.not_isBCc (h : IsTbz insn) : ¬ IsBCc insn := by
  intro hbcc
  have hbit : (insn.extractLsb' 25 6).getLsbD 0 = (insn.extractLsb' 24 8).getLsbD 1 := by
    simp
  rw [h, hbcc.1] at hbit
  exact absurd hbit (by decide)

/-- A signed field of `w + 1` bits holds exactly the distances below `2 ^ w`. -/
theorem toInt_extract_eq_iff {d w : ℕ} (hd : d < 2 ^ 32) :
    (((BitVec.ofNat 32 d).extractLsb' 0 (w + 1)).toInt = d) ↔ d < 2 ^ w := by
  have hmod : ((BitVec.ofNat 32 d).extractLsb' 0 (w + 1)).toNat = d % 2 ^ (w + 1) := by
    rw [BitVec.extractLsb'_toNat, BitVec.toNat_ofNat, Nat.mod_eq_of_lt hd, Nat.shiftRight_zero]
  have hpow : 2 ^ (w + 1) = 2 * 2 ^ w := by rw [Nat.pow_succ, Nat.mul_comm]
  have hpos : 0 < 2 ^ w := Nat.pow_pos (by decide)
  rw [BitVec.toInt_eq_toNat_cond, hmod, hpow]
  constructor
  · intro heq
    have hrem : d % (2 * 2 ^ w) < 2 * 2 ^ w := Nat.mod_lt _ (by omega)
    generalize d % (2 * 2 ^ w) = r at heq hrem
    generalize 2 ^ w = half at heq hrem hpos ⊢
    split at heq <;> omega
  · intro hlt
    have hsmall : d % (2 * 2 ^ w) = d := Nat.mod_eq_of_lt (by omega)
    rw [hsmall, if_pos (by omega)]

/-- A patched `b.cond` leads `d` words on if `d` fits its 19-bit field. -/
theorem branchTarget_bCc {d : ℕ} (h : IsBCc insn) (hd : d < 2 ^ 18) (position : ℕ) :
    branchTarget (I32 (setOffset 0x7ffff insn (BitVec.ofNat 32 d))) position =
      some ((position + d : ℕ) : ℤ) := by
  have hfield : (BitVec.ofNat 32 d).extractLsb' 0 19 =
      (setOffset 0x7ffff insn (BitVec.ofNat 32 d)).extractLsb' 5 19 :=
    (extract_setOffset covers_bCc (by decide)).symm
  rw [branchTarget, I32_I32, if_pos (isBCc_setOffset h), ← hfield,
    (toInt_extract_eq_iff (w := 18) (by omega)).mpr hd]
  rfl

/-- A patched `tbz` leads `d` words on exactly if `d` fits its 14-bit field. -/
theorem branchTarget_tbz {d : ℕ} (h : IsTbz insn) (hd : d < 2 ^ 32) (position : ℕ) :
    branchTarget (I32 (setOffset 0x3fff insn (BitVec.ofNat 32 d))) position =
      some ((position + d : ℕ) : ℤ) ↔ d < 2 ^ 13 := by
  have hfield : (BitVec.ofNat 32 d).extractLsb' 0 14 =
      (setOffset 0x3fff insn (BitVec.ofNat 32 d)).extractLsb' 5 14 :=
    (extract_setOffset covers_tbz (by decide)).symm
  have htbz : IsTbz (setOffset 0x3fff insn (BitVec.ofNat 32 d)) := isTbz_setOffset h
  rw [branchTarget, I32_I32, if_neg htbz.not_isBCc, if_pos htbz, ← hfield,
    ← toInt_extract_eq_iff (w := 13) hd, Option.some.injEq]
  push_cast
  omega

end Emu68.A64

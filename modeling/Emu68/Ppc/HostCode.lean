import Emu68.A64.LoadImmediate

/-!
Straight code for PowerPC instructions: the instructions of the A64 machine and four more that the
emitters use. Each one puts a value into its destination.
-/

set_option autoImplicit false
set_option relaxedAutoImplicit false

namespace Emu68.Ppc.HostCode

open A64

inductive Insn where
  | op (o : A64.Op)
  | negReg (rd rm : Reg) (shift : Shift) (amount : ℕ)
  | eonReg (rd rn rm : Reg) (shift : Shift) (amount : ℕ)
  | rorv (rd rn rm : Reg)
  | addsImmed (rd rn : Reg) (imm12 : ℕ)

/-- The flags of an addition. -/
def addFlags (x y : BitVec 32) : Nzcv :=
  ⟨(x + y).msb, x + y == 0, (x + y).ult x, x.msb == y.msb && (x + y).msb != x.msb⟩

def step (s : Cpu) : Insn → Cpu
  | .op o => A64.step s o
  | .negReg rd rm shift amount => s.put rd (0 - shift.apply (s.get rm) amount)
  | .eonReg rd rn rm shift amount => s.put rd (s.get rn ^^^ ~~~shift.apply (s.get rm) amount)
  | .rorv rd rn rm => s.put rd ((s.get rn).rotateRight ((s.get rm).toNat % 32))
  | .addsImmed rd rn imm12 =>
    let y := BitVec.ofNat 32 (imm12 % 4096)
    { s.put rd (s.get rn + y) with flags := addFlags (s.get rn) y }

def run (code : List Insn) (s : Cpu) : Cpu := code.foldl step s

def lsr (rd rn : Reg) (lsb : ℕ) : Insn := .op (.ubfm rd rn lsb 31)

def lsl (rd rn : Reg) (lsb : ℕ) : Insn := .op (.ubfm rd rn ((32 - lsb) % 32) (31 - lsb))

def bfi (rd rn : Reg) (lsb width : ℕ) : Insn := .op (A64.bfi rd rn lsb width)

variable {s : Cpu} {rd rn rm : Reg}

theorem run_append (first second : List Insn) (s : Cpu) :
    run (first ++ second) s = run second (run first s) :=
  List.foldl_append

theorem run_cons (i : Insn) (code : List Insn) (s : Cpu) : run (i :: code) s = run code (step s i) :=
  rfl

/-! ### Bit fields -/

theorem getLsbD_insertBits (target source : BitVec 32) {lsb width i : ℕ} (hi : i < 32) :
    (insertBits target source lsb width).getLsbD i =
      if lsb ≤ i ∧ i < lsb + width then source.getLsbD (i - lsb) else target.getLsbD i := by
  rw [insertBits, BitVec.getLsbD_or, BitVec.getLsbD_and, BitVec.getLsbD_not, BitVec.getLsbD_shiftLeft,
    BitVec.getLsbD_shiftLeft, BitVec.getLsbD_and, getLsbD_lowMask]
  by_cases hlow : lsb ≤ i
  · by_cases hhigh : i < lsb + width
    · have hin : i - lsb < 32 ∧ i - lsb < width := ⟨by omega, by omega⟩
      rw [if_pos ⟨hlow, hhigh⟩]
      simp [hi, hin, Nat.not_lt.mpr hlow]
    · have hout : ¬ i - lsb < width := by omega
      rw [if_neg fun h ↦ hhigh h.2]
      simp [hi, hout]
  · rw [if_neg fun h ↦ hlow h.1]
    simp [hi, Nat.lt_of_not_le hlow]

theorem step_lsr {lsb : ℕ} (hlsb : lsb < 32) : step s (lsr rd rn lsb) = s.put rd (s.get rn >>> lsb) := by
  refine congrArg (s.put rd) ?_
  rw [if_pos (by omega)]
  refine BitVec.eq_of_getLsbD_eq fun i hi ↦ ?_
  rw [getLsbD_insertBits _ _ hi, BitVec.getLsbD_ushiftRight, Nat.sub_zero]
  split_ifs with hin
  · rw [BitVec.getLsbD_ushiftRight]
  · rw [BitVec.getLsbD_ushiftRight]
    exact BitVec.getLsbD_zero.trans (BitVec.getLsbD_of_ge _ _ (by omega)).symm

theorem step_lsl {lsb : ℕ} (hlsb : lsb < 32) : step s (lsl rd rn lsb) = s.put rd (s.get rn <<< lsb) := by
  refine congrArg (s.put rd) ?_
  refine BitVec.eq_of_getLsbD_eq fun i hi ↦ ?_
  rw [BitVec.getLsbD_shiftLeft]
  by_cases hzero : lsb = 0
  · subst hzero
    rw [if_pos (by decide), getLsbD_insertBits _ _ hi, if_pos (by omega)]
    simp [hi]
  · rw [if_neg (by omega), getLsbD_insertBits _ _ hi, Nat.mod_eq_of_lt (by omega)]
    split_ifs with hin
    · have hle : ¬ i < lsb := by omega
      simp [hi, hle, show i - (32 - (32 - lsb)) = i - lsb by omega]
    · have hlt : i < lsb := by omega
      simp [hlt]

theorem step_bfi {lsb width : ℕ} (hwidth : 0 < width) (hfits : lsb + width ≤ 32) :
    step s (bfi rd rn lsb width) = s.put rd (insertBits (s.get rd) (s.get rn) lsb width) := by
  refine congrArg (s.put rd) ?_
  by_cases hzero : lsb = 0
  · subst hzero
    rw [if_pos (by omega), show (32 - 0) % 32 = 0 from rfl, BitVec.ushiftRight_zero,
      show width - 1 - 0 + 1 = width by omega]
  · rw [Nat.mod_eq_of_lt (show 32 - lsb < 32 by omega), if_neg (by omega),
      show 32 - (32 - lsb) = lsb by omega, show width - 1 + 1 = width by omega]

end Emu68.Ppc.HostCode

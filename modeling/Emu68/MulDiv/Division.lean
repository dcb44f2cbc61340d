import Emu68.MulDiv.Multiplication

/-!
What the divisions have in common: the arithmetic of the host's division, the code that is run when
the divisor is zero, and the program counter there.
-/

set_option autoImplicit false
set_option relaxedAutoImplicit false

namespace Emu68.MulDiv

open A64 Alu Lib

/-! ### The division of the host -/

section Arithmetic

variable {n : ℕ} (signed : Bool) (x y : BitVec n)

def hostDiv : BitVec n := if signed then x.sdiv y else x / y

theorem ofInt_number : BitVec.ofInt n (number signed x) = x := by
  cases signed with
  | true => exact BitVec.ofInt_toInt
  | false =>
    show BitVec.ofInt n (x.toNat : ℤ) = x
    rw [BitVec.ofInt_natCast, BitVec.ofNat_toNat, BitVec.setWidth_eq]

theorem hostDiv_eq :
    hostDiv signed x y = BitVec.ofInt n ((number signed x).tdiv (number signed y)) := by
  cases signed with
  | true =>
    refine BitVec.eq_of_toInt_eq ?_
    show (x.sdiv y).toInt = (BitVec.ofInt n (x.toInt.tdiv y.toInt)).toInt
    rw [BitVec.toInt_sdiv, BitVec.toInt_ofInt]
  | false =>
    show x / y = BitVec.ofInt n ((x.toNat : ℤ).tdiv (y.toNat : ℤ))
    rw [← Int.ofNat_tdiv, BitVec.ofInt_natCast]
    refine BitVec.eq_of_toNat_eq ?_
    have hle : x.toNat / y.toNat < 2 ^ n := Nat.lt_of_le_of_lt (Nat.div_le_self _ _) x.isLt
    rw [BitVec.toNat_udiv, BitVec.toNat_ofNat, Nat.mod_eq_of_lt hle]

/-- The multiply-subtract behind the division. -/
theorem hostRem_eq : x - hostDiv signed x y * y =
    BitVec.ofInt n ((number signed x).tmod (number signed y)) := by
  have hrem : number signed x - (number signed x).tdiv (number signed y) * number signed y =
      (number signed x).tmod (number signed y) := by
    have := Int.tmod_add_mul_tdiv (number signed x) (number signed y)
    rw [Int.mul_comm] at this
    omega
  rw [hostDiv_eq, ← hrem, Int.sub_eq_add_neg, BitVec.ofInt_add, BitVec.ofInt_neg, BitVec.ofInt_mul,
    ofInt_number, ofInt_number, ← BitVec.sub_eq_add_neg]

end Arithmetic

theorem setWidth_ofInt {m n : ℕ} (h : m ≤ n) (t : ℤ) :
    (BitVec.ofInt n t).setWidth m = BitVec.ofInt m t := by
  have hdvd : ((2 ^ m : ℕ) : ℤ) ∣ ((2 ^ n : ℕ) : ℤ) := by
    exact_mod_cast Nat.pow_dvd_pow 2 h
  refine BitVec.eq_of_toInt_eq ?_
  rw [BitVec.toInt_setWidth, BitVec.toInt_ofInt, BitVec.toNat_ofInt, Int.toNat_of_nonneg,
    Int.bmod_def, Int.bmod_def, Int.emod_emod_of_dvd _ hdvd]
  exact Int.emod_nonneg _ (by positivity)

/-- The quotient is the extension of its lowest bits. -/
def extend {m n : ℕ} (signed : Bool) (x : BitVec m) : BitVec n :=
  if signed then x.signExtend n else x.setWidth n

theorem extend_word_iff (signed : Bool) (t : ℤ) (hlow : if signed then -2 ^ 31 ≤ t else 0 ≤ t)
    (hhigh : if signed then t ≤ 2 ^ 31 else t < 2 ^ 32) :
    extend signed ((BitVec.ofInt 32 t).setWidth 16) = BitVec.ofInt 32 t ↔ Fits signed 16 t := by
  cases signed with
  | true =>
    rw [if_pos rfl] at hlow hhigh
    rw [extend, if_pos rfl, Fits, if_pos rfl, setWidth_ofInt (by decide), ← BitVec.toInt_inj,
      BitVec.toInt_signExtend_of_le (by decide), BitVec.toInt_ofInt, BitVec.toInt_ofInt]
    simp only [Int.bmod_def]
    omega
  | false =>
    rw [if_neg Bool.false_ne_true] at hlow hhigh
    rw [extend, if_neg Bool.false_ne_true, Fits, if_neg Bool.false_ne_true,
      setWidth_ofInt (by decide), ← BitVec.toNat_inj, BitVec.toNat_setWidth, BitVec.toNat_ofInt,
      BitVec.toNat_ofInt]
    omega

theorem extend_long_iff (signed : Bool) (t : ℤ) (hlow : if signed then -2 ^ 63 ≤ t else 0 ≤ t)
    (hhigh : if signed then t ≤ 2 ^ 63 else t < 2 ^ 64) :
    extend signed ((BitVec.ofInt 64 t).setWidth 32) = BitVec.ofInt 64 t ↔ Fits signed 32 t := by
  cases signed with
  | true =>
    rw [if_pos rfl] at hlow hhigh
    rw [extend, if_pos rfl, Fits, if_pos rfl, setWidth_ofInt (by decide), ← BitVec.toInt_inj,
      BitVec.toInt_signExtend_of_le (by decide), BitVec.toInt_ofInt, BitVec.toInt_ofInt]
    simp only [Int.bmod_def]
    omega
  | false =>
    rw [if_neg Bool.false_ne_true] at hlow hhigh
    rw [extend, if_neg Bool.false_ne_true, Fits, if_neg Bool.false_ne_true,
      setWidth_ofInt (by decide), ← BitVec.toNat_inj, BitVec.toNat_setWidth, BitVec.toNat_ofInt,
      BitVec.toNat_ofInt]
    omega

/-- A quotient is not larger than the dividend. -/
theorem tdiv_range {n : ℕ} (signed : Bool) (x : BitVec n) (y : ℤ)
    (hy : signed = false → 0 ≤ y) :
    (if signed then -2 ^ (n - 1) ≤ (number signed x).tdiv y else 0 ≤ (number signed x).tdiv y) ∧
      if signed then (number signed x).tdiv y ≤ 2 ^ (n - 1) else (number signed x).tdiv y < 2 ^ n := by
  have habs := Int.natAbs_tdiv_le_natAbs (number signed x) y
  cases signed with
  | true =>
    have hlow := x.le_toInt
    have hhigh := x.toInt_lt
    rw [if_pos rfl, if_pos rfl]
    have habs' : ((number true x).tdiv y).natAbs ≤ x.toInt.natAbs := habs
    omega
  | false =>
    rw [if_neg Bool.false_ne_true, if_neg Bool.false_ne_true]
    have hlt := x.isLt
    have hnonneg : 0 ≤ (number false x).tdiv y := Int.tdiv_nonneg (Int.natCast_nonneg _) (hy rfl)
    have habs' : ((number false x).tdiv y).natAbs ≤ x.toNat := habs
    refine ⟨hnonneg, ?_⟩
    zify at hlt habs'
    rw [abs_of_nonneg hnonneg] at habs'
    omega

/-! ### The division by zero -/

/-- What `EMIT_Exception` gets for a division by zero. -/
def zeroDivideTrap (ctx : Context) (pc : BitVec 32) : Trap :=
  ⟨VECTOR_DIVIDE_BY_ZERO, 2, ctx.address, ctx.nextPC pc⟩

/-- The exception is raised with the address of the instruction and the program counter behind it,
and the unit is left. -/
theorem run_zeroDivide (ctx : Context) (s : WideCpu) (pc : BitVec 32) (rest : List TrapOp)
    (hpc : s.get Branch.regPC = pc + BitVec.ofInt 32 ctx.pcRel) :
    ∃ s', runForward TrapOp.effect 0 (zeroDivide ctx ++ rest) ⟨s, none, false⟩ =
        (⟨s', some (zeroDivideTrap ctx pc), true⟩, 0) ∧
      ∀ i, s'.get64 (dn i) = s.get64 (dn i) := by
  have hwords := ctx.extWords_le
  have hmod : 2 * (ctx.extWords + 1) % 4096 = 2 * (ctx.extWords + 1) :=
    Nat.mod_eq_of_lt (by omega)
  have hinsn : s.insn (.addImmed Branch.regPC Branch.regPC (2 * (ctx.extWords + 1))) =
      s.put Branch.regPC (ctx.nextPC pc) := by
    rw [WideCpu.insn_addImmed, hpc, hmod, Translation.nextPC, BitVec.ofInt_add, ← BitVec.add_assoc]
    congr 2
  refine ⟨s.put Branch.regPC (ctx.nextPC pc), ?_, fun i ↦ WideCpu.get64_put64_of_ne dn_ne_pc _⟩
  show runForward TrapOp.effect 0 rest
    ⟨s.insn (.addImmed Branch.regPC Branch.regPC (2 * (ctx.extWords + 1))), some ⟨_, _, _,
      (s.insn (.addImmed Branch.regPC Branch.regPC (2 * (ctx.extWords + 1)))).get Branch.regPC⟩,
      true⟩ = _
  rw [runForward_left, hinsn, WideCpu.get_put pc_ne_zero]
  rfl

/-! ### The result -/

/-- What the emitted code of a division leaves: the trap; the registers as they were; or the
quotient and the remainder where `stored` tells. -/
structure Divided {n : ℕ} (ctx : Context) (cc : Reg) (outcome : Quotient n) (pc : BitVec 32)
    (stored : BitVec n → BitVec n → Fin 8 → Option (BitVec 32)) (s : WideCpu) (s' : TrapState) :
    Prop where
  trap : s'.trap = match outcome with
    | .zeroDivide => some (zeroDivideTrap ctx pc)
    | _ => none
  left : s'.left = s'.trap.isSome
  registers : ∀ i, s'.cpu.get (dn i) = match outcome with
    | .done q r => (stored q r i).getD (s.get (dn i))
    | _ => s.get (dn i)
  ccr : match outcome with
    | .zeroDivide => True
    | .overflow => CcrCorrect ctx.mask overflowFlags (oldCcr ctx.ccLoaded cc s) (s'.cpu.get cc)
    | .done q _ => CcrCorrect ctx.mask (resultFlags q.msb (q == 0) false)
      (oldCcr ctx.ccLoaded cc s) (s'.cpu.get cc)

end Emu68.MulDiv

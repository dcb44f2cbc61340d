import Emu68.Alu.ConditionCodes

/-!
What the translator knows at an instruction, and code that may raise an exception. The exception is
recorded with what `EMIT_Exception` is given and the program counter at that place.
-/

set_option autoImplicit false
set_option relaxedAutoImplicit false

namespace Emu68.Alu

open A64 Lib

/-- The size of an operand. -/
inductive Size where
  | byte
  | word
  | long
deriving DecidableEq

def Size.bytes : Size → ℕ
  | .byte => 1
  | .word => 2
  | .long => 4

def Size.bits (size : Size) : ℕ := 8 * size.bytes

/-- Whether the condition codes are in their register, the pending offset of the program counter, the
number of extension words, and the address of the instruction. -/
structure Translation where
  ccLoaded : Bool
  pcRel : ℤ
  extWords : ℕ
  address : BitVec 32
  pcRel_ge : -127 ≤ pcRel
  pcRel_le : pcRel ≤ 127
  extWords_le : extWords ≤ 10

/-- `EMIT_AdvancePC` behind the instruction. -/
def Translation.advance (ctx : Translation) : List Op :=
  (Branch.advancePC ctx.pcRel (2 * (ctx.extWords + 1))).1

/-! ### Code that may raise an exception -/

/-- What `EMIT_Exception` is given, and the program counter at that place. -/
structure Trap where
  vector : BitVec 16
  format : ℕ
  address : BitVec 32
  pc : BitVec 32
deriving DecidableEq

structure TrapState where
  cpu : WideCpu
  trap : Option Trap
  left : Bool

/-- `leave` stores the registers that have to be stored, and returns. -/
inductive TrapOp where
  | wide (op : WideOp)
  | exception (vector : BitVec 16) (format : ℕ) (address : BitVec 32)
  | leave

def TrapOp.effect (op : TrapOp) (s : TrapState) : TrapState × ℕ :=
  if s.left then (s, 0)
  else match op with
    | .wide op =>
      let (cpu, skip) := op.effect s.cpu
      ({ s with cpu := cpu }, skip)
    | .exception vector format address =>
      ({ s with trap := some ⟨vector, format, address, s.cpu.get Branch.regPC⟩ }, 0)
    | .leave => ({ s with left := true }, 0)

/-- The state behind the code of an instruction. -/
def execTrap (code : List TrapOp) (cpu : WideCpu) : TrapState :=
  (runForward TrapOp.effect 0 code ⟨cpu, none, false⟩).1

def wides (code : List WideOp) : List TrapOp := code.map .wide

/-- Code without exceptions. -/
theorem runForward_wides (code : List WideOp) (k : ℕ) (cpu : WideCpu) (trap : Option Trap) :
    runForward TrapOp.effect k (wides code) ⟨cpu, trap, false⟩ =
      (⟨(runForward WideOp.effect k code cpu).1, trap, false⟩,
        (runForward WideOp.effect k code cpu).2) := by
  induction code generalizing k cpu with
  | nil => cases k <;> rfl
  | cons op code ih =>
    cases k with
    | zero => exact ih (op.effect cpu).2 (op.effect cpu).1
    | succ k => exact ih k cpu

/-- Nothing is run once the unit is left. -/
theorem runForward_left (code : List TrapOp) (cpu : WideCpu) (trap : Option Trap) :
    runForward TrapOp.effect 0 code ⟨cpu, trap, true⟩ = (⟨cpu, trap, true⟩, 0) := by
  induction code with
  | nil => rfl
  | cons op code ih => exact ih

/-- `EMIT_FlushPC` makes the pending offset real. -/
theorem run_flushPC (pcRel : ℤ) (hlow : -4095 ≤ pcRel) (hhigh : pcRel ≤ 4095) (s : WideCpu) :
    (execInsns (Branch.flushPC pcRel) s).get Branch.regPC =
      s.get Branch.regPC + BitVec.ofInt 32 pcRel := by
  unfold Branch.flushPC
  split_ifs with hpos hneg
  · show (s.insn (.addImmed Branch.regPC Branch.regPC pcRel.toNat)).get Branch.regPC = _
    have hmod : pcRel.toNat % 4096 = pcRel.toNat := Nat.mod_eq_of_lt (by omega)
    rw [WideCpu.insn_addImmed, WideCpu.get_put pc_ne_zero, hmod]
    congr 1
    rw [← BitVec.ofInt_natCast, Int.toNat_of_nonneg (by omega)]
  · show (s.insn (.subImmed _ _ _)).get Branch.regPC = _
    have hinsn : s.insn (.subImmed Branch.regPC Branch.regPC (-pcRel).toNat) =
        s.put Branch.regPC (s.get Branch.regPC - BitVec.ofNat 32 ((-pcRel).toNat % 4096)) :=
      WideCpu.insn_put rfl (by rw [step, WideCpu.get_low])
    have hmod : (-pcRel).toNat % 4096 = (-pcRel).toNat := Nat.mod_eq_of_lt (by omega)
    rw [hinsn, WideCpu.get_put pc_ne_zero, hmod, ← BitVec.ofInt_natCast,
      Int.toNat_of_nonneg (by omega), BitVec.ofInt_neg, BitVec.sub_eq_add_neg, BitVec.neg_neg]
  · have hzero : pcRel = 0 := by omega
    rw [hzero]
    exact (BitVec.add_zero _).symm

/-- The instruction behind this one. -/
def Translation.nextPC (ctx : Translation) (pc : BitVec 32) : BitVec 32 :=
  pc + BitVec.ofInt 32 (ctx.pcRel + 2 * (ctx.extWords + 1))

/-- With `EMIT_FlushPC` behind `EMIT_AdvancePC` the program counter is that of the next
instruction. -/
theorem run_advanceFlush (ctx : Translation) (s : WideCpu) :
    (execInsns (Branch.flushPC (Branch.advancePC ctx.pcRel (2 * (ctx.extWords + 1))).2)
      (execInsns ctx.advance s)).get Branch.regPC = ctx.nextPC (s.get Branch.regPC) := by
  have hlow := ctx.pcRel_ge
  have hhigh := ctx.pcRel_le
  have hwords := ctx.extWords_le
  have hflush := run_flushPC (ctx.pcRel + 2 * (ctx.extWords + 1)) (by omega) (by omega) s
  unfold Translation.advance Branch.advancePC Translation.nextPC
  dsimp only
  split_ifs with hfar hpos
  · rw [Branch.flushPC, if_pos hpos] at hflush
    exact hflush
  · rw [Branch.flushPC, if_neg hpos, if_pos (by omega)] at hflush
    exact hflush
  · exact hflush

end Emu68.Alu

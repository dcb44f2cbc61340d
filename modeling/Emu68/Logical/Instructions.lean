import Emu68.Alu.AfterOperation

/-!
AND (`M68k_LINEC.c`), OR (`M68k_LINE8.c`) and EOR (`M68k_LINEB.c`). The result goes into a data
register, or replaces an operand in memory. Of a byte or a word in a register the upper part stays,
and the flags are taken from the part that is left, shifted up.
-/

set_option autoImplicit false
set_option relaxedAutoImplicit false

namespace Emu68.Logical

open A64 Alu Lib MulDiv

inductive Logic where
  | and
  | or
  | eor
deriving DecidableEq

def Logic.apply {n : ℕ} (x y : BitVec n) : Logic → BitVec n
  | .and => x &&& y
  | .or => x ||| y
  | .eor => x ^^^ y

/-- `and_reg`, `orr_reg` and `eor_reg`. -/
def Logic.reg (rd rn rm : Reg) : Logic → Op
  | .and => .andReg rd rn rm .LSL 0
  | .or => .orrReg rd rn rm .LSL 0
  | .eor => .eorReg rd rn rm .LSL 0

/-- `src`, `tmp_reg` or `tmp`, and the register for the address of an operand in memory. -/
inductive LogicReg where
  | src
  | tmp
  | ea
deriving DecidableEq

/-- The address registers are no operands of these instructions. -/
def DataSource (e : Emission LogicReg) (size : Size) : Type :=
  { operand : Source e .src size false // ∀ i, operand ≠ .address i }

section Emitters

variable (e : Emission LogicReg) (size : Size)

def updateMask : Mask := e.mask srNZVC

def tmp : Reg := e.own.reg .tmp

/-- The flags, from the test register unless the operation has set those of the host. -/
def flagCode (tested : Bool) (testRegister : Reg) : List WideOp :=
  if updateMask e = 0 then []
  else
    (if tested then [] else [cmnReg 31 testRegister .LSL (32 - size.bits)]) ++
      insns (modifyCC e.ccLoaded e.cc ++
        Caller.logic.emitFlags e.cc (e.flag.reg .tmp) (e.flag.reg .tmp2) (updateMask e))

/-- `uxth` and `uxtb`. -/
def uxt (rd rn : Reg) : List Op :=
  match size with
  | .byte => [uxtb rd rn]
  | .word => [uxth rd rn]
  | .long => []

/-- A part of a register is computed beside it and inserted. -/
def insertResult (op : Logic) (src dest : Reg) : List Op :=
  [op.reg (tmp e) src dest, bfi dest (tmp e) 0 size.bits]

/-- `EMIT_AND_reg` with a destination register. -/
def emitAND (i : Fin 8) (operand : DataSource e size) : List WideOp :=
  let (load, src) := operand.val.load true
  let compute := match size with
    | .long =>
      [if updateMask e ≠ 0 then .andsReg (dn i) (dn i) src .LSL 0
        else Logic.and.reg (dn i) (dn i) src]
    | _ => insertResult e size .and src (dn i)
  load ++ insns compute ++ insns e.advance ++ flagCode e size (size = .long) (dn i)

/-- The source of `EMIT_OR_reg`: a part of a register is extended, as a value from memory is. -/
def orSource (src : Reg) : Source e .src size false → List Op × Reg
  | .data _ => if size = .long then ([], src) else (uxt size (tmp e) src, tmp e)
  | _ => ([], src)

/-- `EMIT_OR_reg` with a destination register. -/
def emitOR (i : Fin 8) (operand : DataSource e size) : List WideOp :=
  let (load, src) := operand.val.load true
  let (extend, src) := orSource e size src operand.val
  let compute :=
    if size = .long then [Logic.or.reg (dn i) (dn i) src] else [Logic.or.reg (dn i) src (dn i)]
  load ++ insns (extend ++ compute) ++ insns e.advance ++ flagCode e size false (dn i)

/-- `EMIT_EOR_reg` with a destination register; the source is a data register. -/
def emitEOR (i j : Fin 8) : List WideOp :=
  let compute := match size with
    | .long => [Logic.eor.reg (dn i) (dn i) (dn j)]
    | _ => insertResult e size .eor (dn j) (dn i)
  insns compute ++ insns e.advance ++ flagCode e size false (dn i)

/-- The three with a destination in memory. AND sets the host flags when it can. -/
def emitToMemory (op : Logic) (j : Fin 8) (target : Target (e.own.reg .ea) e.cc) : List WideOp :=
  let compute :=
    if op = .and ∧ size = .long ∧ updateMask e ≠ 0 then .andsReg (tmp e) (tmp e) (dn j) .LSL 0
    else op.reg (tmp e) (tmp e) (dn j)
  modify size .tmp target (insns [compute]) ++ insns e.advance ++
    flagCode e size (op = .and ∧ size = .long) (tmp e)

end Emitters

/-! ### What the instructions do -/

/-- With just V and C requested the flags stay, and have to be clear. -/
def StaleVC (e : Emission LogicReg) (old : BitVec 32) : Prop :=
  updateMask e = srVC → old.getLsbD Flag.v.bit = false ∧ old.getLsbD Flag.c.bit = false

/-- The machine behind the code; the condition codes are loaded when they were updated. -/
def viewAfter (e : Emission LogicReg) (s : WideCpu) : Machine :=
  view (e.ccLoaded || updateMask e != 0) e.cc s

/-- The code leaves the machine that the instruction leaves, and the flags of the result. -/
structure LogicRight (e : Emission LogicReg) {n : ℕ} (result : BitVec n) (expected : Machine)
    (s' : WideCpu) : Prop where
  machine : ∃ pc ccr, viewAfter e s' = { expected with pc := pc, ccr := ccr }
  ccr : CcrCorrect (updateMask e) (productFlags result false) expected.ccr (viewAfter e s').ccr

/-! ### Flags of a part of a register -/

def resultNzcv {n : ℕ} (result : BitVec n) : Nzcv := ⟨result.msb, result == 0, false, false⟩

/-- A part of a register that is shifted up has its flags. -/
theorem logicFlags_shifted (size : Size) (x : BitVec 32) :
    logicFlags (x <<< (32 - size.bits)) = resultNzcv (x.setWidth size.bits) := by
  unfold logicFlags resultNzcv
  rw [msb_shifted, zero_shifted]

variable {e : Emission LogicReg} {size : Size} {s : WideCpu}

/-! ### The code behind the operation -/

/-- The operation is done: its code leaves the machine it should, and the flags of the result are
those of the host, or the result is in the test register. -/
theorem logicRight_iff {code : List WideOp} {tested : Bool} {testRegister : Reg} {s₁ : WideCpu}
    {result : BitVec size.bits} {expected : Machine}
    (hrun : runForward WideOp.effect 0 code s = (s₁, 0)) (hview : e.view s₁ = expected)
    (htested : tested = true → updateMask e ≠ 0 → s₁.flags = resultNzcv result)
    (htest : tested = false → (s₁.get testRegister).setWidth size.bits = result)
    (hpc : testRegister ≠ Branch.regPC) :
    LogicRight e result expected
        (s.run (code ++ insns e.advance ++ flagCode e size tested testRegister)) ↔
      StaleVC e expected.ccr := by
  have hadvanced : e.view (execInsns e.advance s₁) =
      { e.view s₁ with pc := (execInsns e.advance s₁).get Branch.regPC } :=
    view_advance e.ccLoaded s₁
  have hflags := flags_advance e.pcRel (2 * (e.extWords + 1)) s₁
  have hkept : (execInsns e.advance s₁).get testRegister = s₁.get testRegister := by
    rw [WideCpu.get, Translation.advance, (quiet_advancePC _ _).get64 (by simpa using hpc),
      ← WideCpu.get]
  rw [WideCpu.run, List.append_assoc, runForward_piece hrun,
    runForward_piece (runForward_insns _ s₁)]
  by_cases h0 : updateMask e = 0
  · have hafter : viewAfter e (execInsns e.advance s₁) =
        { expected with pc := (execInsns e.advance s₁).get Branch.regPC } := by
      unfold viewAfter
      rw [h0, bne_self_eq_false, Bool.or_false, ← hview]
      exact hadvanced
    unfold flagCode
    rw [if_pos h0]
    refine iff_of_true ⟨⟨_, expected.ccr, hafter⟩, ?_⟩ fun hVC ↦ ?_
    · show CcrCorrect _ _ _ (viewAfter e (execInsns e.advance s₁)).ccr
      rw [hafter, h0]
      exact ccrCorrect_none _
    · rw [h0] at hVC
      exact absurd hVC (by decide)
  · -- the host flags are those of the result
    obtain ⟨s₂, hrun₂, hflags₂, hview₂⟩ : ∃ s₂, runForward WideOp.effect 0
        (if tested then [] else [cmnReg 31 testRegister .LSL (32 - size.bits)])
          (execInsns e.advance s₁) = (s₂, 0) ∧ s₂.flags = resultNzcv result ∧
        e.view s₂ = e.view (execInsns e.advance s₁) := by
      cases tested with
      | true => exact ⟨_, rfl, hflags.trans (htested rfl h0), rfl⟩
      | false =>
        refine ⟨(execInsns e.advance s₁).setFlags (logicFlags
          ((execInsns e.advance s₁).get testRegister <<< (32 - size.bits))), ?_, ?_,
          e.view_setFlags _⟩
        · refine runForward_step ?_
          rw [cmnReg, WideOp.effect]
          simp only [WideCpu.put_zero, WideCpu.get_zero, Shift.apply, addFlags_zero]
        · rw [WideCpu.flags_setFlags, logicFlags_shifted, hkept, htest rfl]
    obtain ⟨s', hrun', hview'⟩ := run_flagUpdate (e := e) .logic (updateMask e) s₂
    have hafter : viewAfter e s' = { expected with
        pc := (execInsns e.advance s₁).get Branch.regPC
        ccr := (Caller.logic.update (updateMask e) (resultNzcv result)).apply expected.ccr } := by
      unfold viewAfter
      rw [bne_iff_ne.mpr h0, Bool.or_true, hview', hflags₂, hview₂, hadvanced, hview]
    unfold flagCode
    rw [if_neg h0, runForward_piece hrun₂, hrun']
    have hmask : (updateMask e).toNat < 16 := Nat.lt_succ_of_le (mask_le srNZVC)
    have hiff := logic_ccr_iff hmask h0 (msb_and_eq_zero result) expected.ccr
    constructor
    · rintro ⟨-, hccr⟩
      rw [hafter] at hccr
      exact hiff.mp hccr
    · intro hstale
      refine ⟨⟨_, _, hafter⟩, ?_⟩
      show CcrCorrect _ _ _ (viewAfter e s').ccr
      rw [hafter]
      exact hiff.mpr hstale

end Emu68.Logical

import Emu68.A64.Machine
import Emu68.Lib.ForwardCode

/-!
The A64 machine with its 64-bit registers. An instruction of 32 bits does to the lower halves what
it does on the machine that has only these, and clears the upper half of its destination.
-/

set_option autoImplicit false
set_option relaxedAutoImplicit false

namespace Emu68.A64

open Lib (Bytes)

structure WideCpu where
  regs : Reg → BitVec 64
  flags : Nzcv
  memory : Bytes
  simd : Slot → BitVec 32

namespace WideCpu

/-- `Xn`. -/
def get64 (s : WideCpu) (r : Reg) : BitVec 64 := if r = 31 then 0 else s.regs r

/-- `Wn`. -/
def get (s : WideCpu) (r : Reg) : BitVec 32 := (s.get64 r).setWidth 32

def put64 (s : WideCpu) (r : Reg) (value : BitVec 64) : WideCpu :=
  if r = 31 then s else { s with regs := Function.update s.regs r value }

def put (s : WideCpu) (r : Reg) (value : BitVec 32) : WideCpu := s.put64 r (value.setWidth 64)

/-- The machine of the lower halves. -/
def low (s : WideCpu) : Cpu :=
  ⟨fun r ↦ (s.regs r).setWidth 32, s.flags, s.memory, s.simd⟩

variable {s : WideCpu} {r rd : Reg}

theorem get_low : s.low.get r = s.get r := by
  unfold Cpu.get get get64 low
  split_ifs
  · rfl
  · rfl

theorem get64_put64 (h : rd ≠ 31) (value : BitVec 64) : (s.put64 rd value).get64 rd = value := by
  simp [get64, put64, h]

theorem get64_put64_of_ne (h : r ≠ rd) (value : BitVec 64) :
    (s.put64 rd value).get64 r = s.get64 r := by
  by_cases hrd : rd = 31
  · rw [put64, if_pos hrd]
  · simp only [put64, get64, if_neg hrd, Function.update_of_ne h]

theorem get_put (h : rd ≠ 31) (value : BitVec 32) : (s.put rd value).get rd = value := by
  rw [get, put, get64_put64 h, BitVec.setWidth_setWidth_of_le _ (by decide), BitVec.setWidth_eq]

theorem get_put_of_ne (h : r ≠ rd) (value : BitVec 32) : (s.put rd value).get r = s.get r := by
  rw [get, put, get64_put64_of_ne h, get]

theorem flags_put64 (value : BitVec 64) : (s.put64 rd value).flags = s.flags := by
  unfold put64
  split_ifs <;> rfl

theorem low_put (value : BitVec 32) : (s.put rd value).low = s.low.put rd value := by
  unfold put put64 Cpu.put
  split_ifs
  · rfl
  · unfold low
    congr 1
    funext r
    dsimp only
    by_cases hr : r = rd
    · subst hr
      rw [Function.update_self, Function.update_self,
        BitVec.setWidth_setWidth_of_le _ (by decide), BitVec.setWidth_eq]
    · rw [Function.update_of_ne hr, Function.update_of_ne hr]

end WideCpu

/-! ### Instructions of 32 bits -/

/-- The register that an instruction writes. -/
def Op.dest : Op → Option Reg
  | .nop | .setNzcv _ | .movRegToSimd _ _ => none
  | .addImmed rd _ _ | .add64Immed rd _ _ | .subImmed rd _ _ | .subsImmed rd _ _ => some rd
  | .addReg rd _ _ _ _ | .andReg rd _ _ _ _ | .andsReg rd _ _ _ _ | .bicReg rd _ _ _ _
  | .orrReg rd _ _ _ _ | .ornReg rd _ _ _ _ | .eorReg rd _ _ _ _ => some rd
  | .andImmed rd _ _ _ | .andsImmed rd _ _ _ | .eorImmed rd _ _ _ | .orrImmed rd _ _ _ => some rd
  | .rbit rd _ | .bfm rd _ _ _ | .ubfm rd _ _ _ | .extr rd _ _ _ => some rd
  | .movImmedU16 rd _ _ | .movkImmedU16 rd _ _ | .movnImmedU16 rd _ _ => some rd
  | .csel rd _ _ _ | .csinc rd _ _ _ => some rd
  | .getNzcv rt | .ldrbOffset _ rt _ => some rt
  | .strOffsetPreindex rn _ _ => some rn
  | .movSimdToReg rd _ => some rd

/-- What the instruction leaves behind in the lower halves, with the upper half of its destination
cleared. -/
def WideCpu.insn (s : WideCpu) (op : Op) : WideCpu :=
  let t := step s.low op
  let s := match op.dest with
    | some rd => s.put rd (t.get rd)
    | none => s
  { s with flags := t.flags, memory := t.memory, simd := t.simd }

/-- An instruction changes the registers at its destination only. -/
theorem regs_step (op : Op) (s : Cpu) :
    (step s op).regs = match op.dest with
      | some rd => (s.put rd ((step s op).get rd)).regs
      | none => s.regs := by
  have hput : ∀ (rd : Reg) (value : BitVec 32),
      (s.put rd value).regs = (s.put rd ((s.put rd value).get rd)).regs := by
    intro rd value
    by_cases hrd : rd = 31
    · rw [Cpu.put, Cpu.put, if_pos hrd, if_pos hrd]
    · rw [Cpu.get_put s hrd]
  cases op <;> first | rfl | exact hput _ _

theorem low_insn (s : WideCpu) (op : Op) : (s.insn op).low = step s.low op := by
  have hregs := regs_step op s.low
  unfold WideCpu.insn
  cases hdest : op.dest with
  | none =>
    rw [hdest] at hregs
    dsimp only at hregs
    show (⟨s.low.regs, _, _, _⟩ : Cpu) = _
    rw [← hregs]
  | some rd =>
    rw [hdest] at hregs
    show (⟨(s.put rd _).low.regs, _, _, _⟩ : Cpu) = _
    rw [WideCpu.low_put]
    dsimp only at hregs
    rw [← hregs]

theorem get64_insn_of_ne {s : WideCpu} {op : Op} {r : Reg} (h : op.dest ≠ some r) :
    (s.insn op).get64 r = s.get64 r := by
  unfold WideCpu.insn
  cases hdest : op.dest with
  | none => rfl
  | some rd =>
    have hne : r ≠ rd := by
      rintro rfl
      exact h hdest
    exact WideCpu.get64_put64_of_ne hne _

/-- Code of 32 bits. -/
def execInsns (code : List Op) (s : WideCpu) : WideCpu := code.foldl WideCpu.insn s

theorem low_execInsns (code : List Op) (s : WideCpu) :
    (execInsns code s).low = exec code s.low := by
  induction code generalizing s with
  | nil => rfl
  | cons op code ih =>
    show (execInsns code (s.insn op)).low = exec code (step s.low op)
    rw [ih, low_insn]

theorem get64_execInsns_of_ne {code : List Op} {r : Reg} (h : ∀ op ∈ code, op.dest ≠ some r)
    (s : WideCpu) : (execInsns code s).get64 r = s.get64 r := by
  induction code generalizing s with
  | nil => rfl
  | cons op code ih =>
    show (execInsns code (s.insn op)).get64 r = s.get64 r
    rw [ih (fun op' hop' ↦ h op' (List.mem_cons_of_mem _ hop')),
      get64_insn_of_ne (h op List.mem_cons_self)]

end Emu68.A64

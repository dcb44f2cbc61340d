import Emu68.MulDiv.LongMultiplication
import Emu68.MulDiv.WordDivision

/-!
The multiplications and the divisions of words, together. They do what the 68040 does, except that a
multiplication whose only requested flags are V and C emits no code that clears them.
-/

set_option autoImplicit false
set_option relaxedAutoImplicit false

namespace Emu68.MulDiv

open A64 Alu Lib

/-- An instruction, with the registers that its emitter is given. -/
inductive Instruction where
  | mulsW (a : Alloc MulReg) (i : Fin 8) (operand : Operand 16 true (a.reg .src) (a.reg .cc))
  | muluW (a : Alloc MulReg) (i : Fin 8) (operand : Operand 16 false (a.reg .src) (a.reg .cc))
  | mulL (a : Alloc MulReg) (signed : Bool) (dl : Fin 8) (dh : Option (Fin 8))
      (operand : Operand 32 false (a.reg .src) (a.reg .cc))
  | divsW (b : Alloc DivReg) (i : Fin 8) (operand : Operand 16 true (b.reg .src) (b.reg .cc))
  | divuW (b : Alloc DivReg) (i : Fin 8) (operand : Operand 16 false (b.reg .src) (b.reg .cc))

namespace Instruction

/-- The emitted code leaves the result of the 68040. -/
def Architectural (ctx : Context) (s : WideCpu) : Instruction → Prop
  | mulsW a i operand =>
    WordProduct ctx (a.reg .cc) i
      (product true 32 ((s.get (dn i)).setWidth 16) (operand.value s)) s
      (s.run (emitMulsW a ctx i operand))
  | muluW a i operand =>
    WordProduct ctx (a.reg .cc) i
      (product false 32 ((s.get (dn i)).setWidth 16) (operand.value s)) s
      (s.run (emitMuluW a ctx i operand))
  | mulL a signed dl dh operand =>
    LongProduct ctx (a.reg .cc) signed dl dh (operand.value s) s
      (s.run (emitMulsL a ctx signed dl dh operand))
  | divsW b i operand =>
    Divided ctx (b.reg .cc)
      (divide true 16 (number true (s.get (dn i))) (number true (operand.value s)))
      ((operand.after s).get Branch.regPC) (storedWord i) s (execTrap (emitDivsW ctx b i operand) s)
  | divuW b i operand =>
    Divided ctx (b.reg .cc)
      (divide false 16 (number false (s.get (dn i))) (number false (operand.value s)))
      ((operand.after s).get Branch.regPC) (storedWord i) s (execTrap (emitDivuW ctx b i operand) s)

/-- Where just V and C are requested of a multiplication, those that its code leaves alone are
clear before it. -/
def StaleClear (ctx : Context) (s : WideCpu) : Instruction → Prop
  | mulsW a _ _ => Stale ctx (oldCcr ctx.ccLoaded (a.reg .cc) s)
  | muluW a _ _ => Stale ctx (oldCcr ctx.ccLoaded (a.reg .cc) s)
  | mulL a _ _ dh _ => LongStale ctx dh.isSome (oldCcr ctx.ccLoaded (a.reg .cc) s)
  | divsW _ _ _ => True
  | divuW _ _ _ => True

end Instruction

/-- V and C are requested; the condition codes are in their register. -/
def staleContext : Context where
  mask := srVC
  ccLoaded := true
  pcRel := 0
  extWords := 0
  address := 0
  mask_lt := by decide
  pcRel_ge := by decide
  pcRel_le := by decide
  extWords_le := by decide

def staleAlloc : Alloc MulReg where
  reg
    | .src => 4
    | .cc => 5
    | .tmp => 6
    | .tmp2 => 7
    | .dh => 8
  lower := fun x ↦ by cases x <;> decide
  upper := fun x ↦ by cases x <;> decide
  inj := fun x y h ↦ by cases x <;> cases y <;> first | rfl | exact absurd h (by decide)

/-- V is set before the instruction. -/
def staleCpu : WideCpu where
  regs := fun r ↦ if r = 5 then 1 else 0
  flags := ⟨false, false, false, false⟩
  memory := fun _ ↦ 0
  simd := fun _ ↦ 0

end Emu68.MulDiv

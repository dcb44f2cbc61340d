import Emu68.Branch.Emitters
import Mathlib.Logic.Function.Basic

/-!
The register allocator of `RegisterAllocator64.c`. The registers x4 to x11 are handed out; the
condition codes, FPCR, FPSR and the context pointer are kept in one of them once they are used, and
are written back to their lanes of the vector registers when they were modified. When no register is
left, FPCR, FPSR and the condition codes are flushed, in this order, until there is one.
-/

set_option autoImplicit false
set_option relaxedAutoImplicit false

namespace Emu68.A64

/-- The state that has its home in a lane: `REG_SR`, `REG_FPCR`, `REG_FPSR` and `CTX_POINTER`. -/
inductive Home where
  | cc
  | fpcr
  | fpsr
  | ctx
deriving DecidableEq

def Home.width : Home → ℕ
  | .cc | .fpcr => 16
  | .fpsr => 32
  | .ctx => 64

/-! ### The emitted moves -/

inductive Move where
  | movSimdToReg (rd : Reg) (h : Home)
  | movRegToSimd (h : Home) (rn : Reg)
  | movReg (rd rm : Reg)

structure Host where
  regs : Reg → BitVec 64
  lane : (h : Home) → BitVec h.width

namespace Host

def step (s : Host) : Move → Host
  | .movSimdToReg rd h => { s with regs := Function.update s.regs rd ((s.lane h).setWidth 64) }
  | .movRegToSimd h rn => { s with lane := Function.update s.lane h ((s.regs rn).setWidth h.width) }
  | .movReg rd rm =>
    { s with regs := Function.update s.regs rd (((s.regs rm).setWidth 32).setWidth 64) }

def exec (code : List Move) (s : Host) : Host := code.foldl step s

theorem exec_append (first second : List Move) (s : Host) :
    exec (first ++ second) s = exec second (exec first s) :=
  List.foldl_append

end Host

/-! ### The allocator -/

/-- The number that stands for no register. -/
def noReg : Reg := 0xff

/-- The variables of the allocator; `reg` and `mod` are `reg_CC`, `mod_CC` and so on. The context
pointer is never modified. -/
structure RegAlloc where
  registerPool : Reg → Bool
  lastAllocated : ℕ
  reg : Home → Reg
  mod : Home → Bool
  fpuAllocstate : ℕ → Bool

namespace RegAlloc

/-- `__int_arm_alloc_reg`, which searches from behind the register found last. -/
def intArmAllocReg (a : RegAlloc) : Option (RegAlloc × Reg) :=
  ((List.range' 1 12).map fun i ↦ (a.lastAllocated + i) % 12).find?
    (fun reg ↦ 4 ≤ reg && !a.registerPool reg) |>.map fun reg ↦
      ({ a with registerPool := Function.update a.registerPool reg true, lastAllocated := reg }, reg)

def freeARMRegister (a : RegAlloc) (armReg : Reg) : RegAlloc :=
  if 11 < armReg then a
  else { a with registerPool := Function.update a.registerPool armReg false }

/-- `RA_StoreCC` and its siblings. -/
def store (a : RegAlloc) (h : Home) : List Move :=
  if a.reg h ≠ noReg ∧ a.mod h = true then [.movRegToSimd h (a.reg h)] else []

/-- `RA_FlushCC` and its siblings. -/
def flush (a : RegAlloc) (h : Home) : RegAlloc × List Move :=
  let freed := if a.reg h ≠ noReg then a.freeARMRegister (a.reg h) else a
  ({ freed with
      reg := Function.update freed.reg h noReg
      mod := Function.update freed.mod h false }, a.store h)

/-- The attempts of `RA_AllocARMRegister`, with what is still there to be flushed. -/
def allocAfter (a : RegAlloc) : List Home → RegAlloc × List Move × Reg
  | [] =>
    match a.intArmAllocReg with
    | some (a, reg) => (a, [], reg)
    | none => (a, [], noReg)
  | h :: rest =>
    match a.intArmAllocReg with
    | some (a, reg) => (a, [], reg)
    | none =>
      let (a, code) := a.flush h
      let (a, code', reg) := a.allocAfter rest
      (a, code ++ code', reg)

def allocARMRegister (a : RegAlloc) : RegAlloc × List Move × Reg :=
  a.allocAfter [.fpcr, .fpsr, .cc]

/-- `RA_GetCC` and its siblings. -/
def get (a : RegAlloc) (h : Home) : RegAlloc × List Move × Reg :=
  if a.reg h = noReg then
    let (a, code, reg) := a.allocARMRegister
    ({ a with reg := Function.update a.reg h reg, mod := Function.update a.mod h false },
      code ++ [.movSimdToReg reg h], reg)
  else (a, [], a.reg h)

/-- `RA_ModifyCC` and its siblings. -/
def modify (a : RegAlloc) (h : Home) : RegAlloc × List Move × Reg :=
  let (a, code, reg) := a.get h
  ({ a with mod := Function.update a.mod h true }, code, reg)

def mapM68kRegister (m68kReg : ℕ) : Reg := Branch.mapM68kRegister m68kReg

def copyFromM68kRegister (a : RegAlloc) (m68kReg : ℕ) : RegAlloc × List Move × Reg :=
  let (a, code, reg) := a.allocARMRegister
  (a, code ++ [.movReg reg (mapM68kRegister m68kReg)], reg)

def allocFPURegister (a : RegAlloc) : RegAlloc × ℕ :=
  match (List.range' 2 6).find? (fun i ↦ !a.fpuAllocstate i) with
  | some i => ({ a with fpuAllocstate := Function.update a.fpuAllocstate i true }, i)
  | none => (a, noReg)

def freeFPURegister (a : RegAlloc) (armReg : ℕ) : RegAlloc :=
  if armReg < 8 ∧ a.fpuAllocstate armReg = true then
    { a with fpuAllocstate := Function.update a.fpuAllocstate armReg false }
  else a

def mapFPURegister (fpuReg : ℕ) : ℕ := fpuReg % 8 + 8

end RegAlloc

end Emu68.A64

import Emu68.Branch.Emitters
import Emu68.Lib.AddressSpace
import Emu68.Lib.ForwardCode
import Emu68.Supervisor.StatusRegister

/-!
The emitters that write the whole status register: `EMIT_ORI_TO_SR`, `EMIT_ANDI_TO_SR` and
`EMIT_EORI_TO_SR` (`M68k_LINE0.c`), `EMIT_MOVEtoSR`, `EMIT_STOP` and `EMIT_RTE` (`M68k_LINE4.c`), and
the two entries into an exception, `M68K_Exception` and the one of `MainLoop`. Addresses have 32
bits: the highest and the lowest 4 GiB of the host show the same memory.
-/

set_option autoImplicit false
set_option relaxedAutoImplicit false

namespace Emu68.Supervisor

open A64 (Reg Cpu Cond ccEQ ccNE ccGT movReg bfxil)
open Branch (regPC flushPC)

/-! ### The machine -/

/-- The processor, the banks in the vector registers, the interrupt mask of the host, and the vector
base in the context. -/
structure Machine where
  cpu : Cpu
  bank : Bank → BitVec 32
  daif : BitVec 4
  VBR : BitVec 32

def regA7 : Reg := 29

def Machine.stacks (m : Machine) : Stacks := ⟨m.cpu.get regA7, m.bank⟩

def Machine.put (m : Machine) (r : Reg) (value : BitVec 32) : Machine :=
  { m with cpu := m.cpu.put r value }

def Machine.load (m : Machine) (address : BitVec 32) (n : ℕ) : BitVec 32 :=
  BitVec.ofNat 32 (Lib.load m.cpu.memory address n)

def Machine.store (m : Machine) (address : BitVec 32) (n : ℕ) (value : BitVec 32) : Machine :=
  { m with cpu := { m.cpu with memory := Lib.store m.cpu.memory address n value.toNat } }

def SRB_IPL : BitVec 8 := 8
def SRB_M : ℕ := 12
def SRB_S : ℕ := 13

def SR_S : BitVec 32 := 0x2000
def SR_M : BitVec 32 := 0x1000
def SR_T : BitVec 32 := 0xc000
def SR_IPL : BitVec 32 := 0x0700

/-- The exchange of C and V where the source has the flags in a variable. -/
def exchangeCV {w : ℕ} (val : BitVec w) : BitVec w :=
  if val &&& 3#w ≠ 0 ∧ val &&& 3#w < 3 then val ^^^ 3#w else val

/-! ### The entries -/

/-- If the mode is not the supervisor's, A7 is changed for the stack pointer that M selects. -/
def enterSupervisor (m : Machine) (SR : BitVec 32) : Machine :=
  if SR &&& SR_S = 0 then
    let m := { m with bank := Function.update m.bank .usp (m.cpu.get regA7) }
    m.put regA7 (if SR &&& SR_M ≠ 0 then m.bank .msp else m.bank .isp)
  else m

/-- `strh %w1, [%0, #-8]!`, `str %w2, [%0, #2]` and `strh %w3, [%0, #6]`. -/
def pushFrame (m : Machine) (SR type : BitVec 32) : Machine :=
  let sp := m.cpu.get regA7 - 8
  (((m.put regA7 sp).store sp 2 SR).store (sp + 2) 4 (m.cpu.get regPC)).store (sp + 6) 2 type

/-- What a format has below the frame: the address, or the fault and the address. -/
def pushFormat (m : Machine) (type ea fault : BitVec 32) : Machine :=
  let sp := m.cpu.get regA7
  if type &&& 0xf000 = 0x2000 ∨ type &&& 0xf000 = 0x3000 then
    (m.put regA7 (sp - 4)).store (sp - 4) 4 ea
  else if type &&& 0xf000 = 0x4000 then
    ((m.put regA7 (sp - 8)).store (sp - 8) 4 fault).store (sp - 8 + 4) 4 ea
  else m

/-- The machine at the handler, and the status register as it is returned. -/
def m68kException (m : Machine) (SR type ea fault : BitVec 32) : Machine × BitVec 32 :=
  let m := pushFrame (pushFormat (enterSupervisor m SR) type ea fault) (exchangeCV SR) type
  (m.put regPC (m.load (m.VBR + (type &&& 0xfff)) 4), (SR ||| SR_S) &&& ~~~SR_T)

/-- The part of `MainLoop` behind the test of the interrupt mask, for an interrupt level. -/
def mainLoopInterrupt (m : Machine) (level : BitVec 3) : Machine :=
  let SR := ((m.cpu.simd .sr).setWidth 16).setWidth 32
  let vector := 0x60 + level.setWidth 32 <<< 2
  let m := pushFrame (enterSupervisor m SR) (exchangeCV SR) vector
  let SR := ((SR ||| SR_S) &&& ~~~SR_T &&& ~~~SR_IPL) ||| level.setWidth 32 <<< 8
  let m := { m with cpu := { m.cpu with simd := Function.update m.cpu.simd .sr SR } }
  m.put regPC (m.load (m.VBR + vector) 4)

/-! ### Emitted code -/

/-- The jumps have the distances that the source gives them. `operand` is the code of
`EMIT_LoadFromEffectiveAddress`; `hostStack` stands for an instruction that saves or restores the
link register or completes the address of `M68K_Exception`, and `blr` calls that function. -/
inductive SysOp where
  | insn (op : A64.Op)
  | movRegToSimd (bank : Bank) (rn : Reg)
  | movSimdToReg (rd : Reg) (bank : Bank)
  | ldrhOffset (rn rt : Reg) (offset12 : ℕ)
  | ldrhOffsetPostindex (rn rt : Reg) (offset9 : ℤ)
  | ldrOffsetPostindex (rn rt : Reg) (offset9 : ℤ)
  | b (offset : ℕ)
  | bCc (cond : Cond) (offset : ℕ)
  | tbz (rt : Reg) (bit : ℕ) (offset : ℕ)
  | tbnz (rt : Reg) (bit : ℕ) (offset : ℕ)
  | msrImm (op1 op2 imm : BitVec 4)
  | operand (run : Machine → Machine)
  | hostStack
  | blr

/-- How many instructions a jump skips. -/
def skipIf (taken : Bool) (offset : ℕ) : ℕ := if taken then offset - 1 else 0

/-- `DAIFSet` and `DAIFClr`. -/
def writeDaif (daif op2 imm : BitVec 4) : BitVec 4 :=
  if op2 = 6 then daif ||| imm else if op2 = 7 then daif &&& ~~~imm else daif

def SysOp.effect : SysOp → Machine → Machine × ℕ
  | .insn op, m => ({ m with cpu := A64.step m.cpu op }, 0)
  | .movRegToSimd bank rn, m => ({ m with bank := Function.update m.bank bank (m.cpu.get rn) }, 0)
  | .movSimdToReg rd bank, m => (m.put rd (m.bank bank), 0)
  | .ldrhOffset rn rt offset12, m =>
    (m.put rt (m.load (m.cpu.get rn + BitVec.ofNat 32 offset12) 2), 0)
  | .ldrhOffsetPostindex rn rt offset9, m =>
    ((m.put rt (m.load (m.cpu.get rn) 2)).put rn (m.cpu.get rn + BitVec.ofInt 32 offset9), 0)
  | .ldrOffsetPostindex rn rt offset9, m =>
    ((m.put rt (m.load (m.cpu.get rn) 4)).put rn (m.cpu.get rn + BitVec.ofInt 32 offset9), 0)
  | .b offset, m => (m, skipIf true offset)
  | .bCc cond offset, m => (m, skipIf (cond.holds m.cpu.flags) offset)
  | .tbz rt bit offset, m => (m, skipIf (!(m.cpu.get rt).getLsbD bit) offset)
  | .tbnz rt bit offset, m => (m, skipIf ((m.cpu.get rt).getLsbD bit) offset)
  | .msrImm _ op2 imm, m => ({ m with daif := writeDaif m.daif op2 imm }, 0)
  | .operand run, m => (run m, 0)
  | .hostStack, m => (m, 0)
  | .blr, m =>
    let (m, SR) := m68kException m (m.cpu.get 0) (m.cpu.get 1) 0 0
    (m.put 0 SR, 0)

/-- The machine behind the code. -/
def exec (code : List SysOp) (m : Machine) : Machine := (Lib.runForward SysOp.effect 0 code m).1

def insns (code : List A64.Op) : List SysOp := code.map .insn

/-- `eor_reg` without a shift. -/
def eorReg (rd rn rm : Reg) : A64.Op := .eorReg rd rn rm .LSL 0

def cmpImmed (rn : Reg) (imm12 : ℕ) : A64.Op := .subsImmed 31 rn imm12

def lsr (rd rn : Reg) (shift : ℕ) : A64.Op := .ubfm rd rn shift 31

/-! ### The translator -/

/-- The pending offset of the program counter, whether the condition codes are in a register, and
the registers that the allocator hands out. The lowest four are never among them. -/
structure Allocation where
  pcRel : ℤ
  ccLoaded : Bool
  cc : Reg
  immed : Reg
  orig : Reg
  changed : Reg
  src : Reg
  tmp : Reg
  lower : ∀ r ∈ [cc, immed, orig, changed, src, tmp], 4 ≤ r
  upper : ∀ r ∈ [cc, immed, orig, changed, src, tmp], r ≤ 11
  nodup : [cc, immed, orig, changed, src, tmp].Nodup

def VECTOR_PRIVILEGE_VIOLATION : BitVec 16 := 0x020
def VECTOR_FORMAT_ERROR : BitVec 16 := 0x038

/-- `EMIT_Exception` for format 0. -/
def emitException (cc : Reg) (exception : BitVec 16) : List SysOp :=
  [.insn (.movImmedU16 1 (exception &&& 0x0fff) 0), .hostStack, .insn (movReg 0 cc), .hostStack,
    .hostStack, .hostStack, .blr, .insn (movReg cc 0), .hostStack]

/-- `RA_ModifyCC`. -/
def modifyCC (a : Allocation) : List SysOp :=
  if a.ccLoaded then [] else [.insn (.movSimdToReg a.cc .sr)]

/-- The frame of a privileged instruction. The jumps lead past the code of the exception, and past
the code of the instruction. -/
def privileged (a : Allocation) (code : List SysOp) : List SysOp :=
  let exception := emitException a.cc VECTOR_PRIVILEGE_VIOLATION
  modifyCC a ++ insns (flushPC a.pcRel) ++ [SysOp.tbnz a.cc SRB_S (exception.length + 2)] ++ exception ++
    [SysOp.b (code.length + 1)] ++ code

/-- The lines that ANDI, EORI, MOVE, STOP and RTE have in common. -/
def switchStack (changed orig cc : Reg) : List SysOp :=
  [ -- If neither S nor M changed, go further
    .insn (.andsImmed 31 changed 2 20),
    .bCc ccEQ 12,
    .tbz orig SRB_M 3,
    .movRegToSimd .msp regA7,
    .b 2,
    .movRegToSimd .isp regA7,
    -- Check if changing mode to user
    .tbz changed SRB_S 3,
    .movSimdToReg regA7 .usp,
    .b 5,
    .tbz cc SRB_M 3,
    .movSimdToReg regA7 .msp,
    .b 2,
    .movSimdToReg regA7 .isp ]

/-- Interrupts are enabled if the mask is less than 6. -/
def maskInterrupts (changed cc : Reg) : List SysOp :=
  [ .insn (.andImmed changed cc 3 24),
    .insn (cmpImmed changed 0x500),
    .bCc ccGT 3,
    .msrImm 3 7 7,
    .b 2,
    .msrImm 3 6 7 ]

def advance (bytes : ℕ) : SysOp := .insn (.addImmed regPC regPC bytes)

def emitOriToSR (a : Allocation) (val : BitVec 16) : List SysOp :=
  privileged a <|
    [ SysOp.insn (.movImmedU16 a.immed (exchangeCV val &&& 0xf71f) 0),
      .insn (movReg a.changed a.cc),
      .insn (.orrReg a.cc a.cc a.immed .LSL 0),
      .insn (eorReg a.changed a.changed a.cc),
      -- Skip switching ISP/MSP if not changed
      .tbz a.changed SRB_M 7,
      .tbz a.cc SRB_M 4,
      .movRegToSimd .msp regA7,
      .movSimdToReg regA7 .isp,
      .b 3,
      .movRegToSimd .isp regA7,
      .movSimdToReg regA7 .msp,
      advance 4 ] ++ maskInterrupts a.changed a.cc

def emitAndiToSR (a : Allocation) (val : BitVec 16) : List SysOp :=
  privileged a <|
    [ SysOp.insn (.movImmedU16 a.immed (exchangeCV val &&& 0xf71f) 0),
      .insn (movReg a.orig a.cc),
      .insn (.andReg a.cc a.cc a.immed .LSL 0),
      .insn (eorReg a.changed a.orig a.cc) ] ++
    switchStack a.changed a.orig a.cc ++ [advance 4] ++ maskInterrupts a.changed a.cc

/-- What has changed is what the operand says. -/
def emitEoriToSR (a : Allocation) (val : BitVec 16) : List SysOp :=
  privileged a <|
    [ SysOp.insn (.movImmedU16 a.immed (exchangeCV val &&& 0xf71f) 0),
      .insn (movReg a.orig a.cc),
      .insn (eorReg a.cc a.cc a.immed) ] ++
    switchStack a.immed a.orig a.cc ++ [advance 4] ++ maskInterrupts a.immed a.cc

/-- Where MOVE to SR has its operand: in a data register, or behind an effective address. Then the
code of `EMIT_LoadFromEffectiveAddress` brings it to a register that the allocator gave, and leaves
the lowest registers and the banks alone. -/
inductive Source where
  | dataRegister (r : Fin 8)
  | fetched (run : Machine → Machine)
      (keeps : ∀ m, (run m).bank = m.bank ∧ ∀ r < 4, (run m).cpu.get r = m.cpu.get r)

/-- The operand ends up in a register that may be changed. -/
def Source.code (src : Reg) : Source → List SysOp
  | .dataRegister r => [.insn (movReg src (Branch.mapM68kRegister r))]
  | .fetched run _ => [.operand run]

def emitMoveToSR (a : Allocation) (source : Source) (extWords : ℕ) : List SysOp :=
  let orig : Reg := 1
  let changed : Reg := 2
  privileged a <|
    [SysOp.insn (movReg orig a.cc), .insn (.movImmedU16 changed 0xf71f 0)] ++ source.code a.src ++
    [ SysOp.insn (.rbit 0 a.src),
      .insn (bfxil a.src 0 30 2),
      .insn (.andReg a.cc changed a.src .LSL 0),
      .insn (eorReg changed orig a.cc) ] ++
    switchStack changed orig a.cc ++ [advance (2 * (extWords + 1))] ++ maskInterrupts changed a.cc

/-- The code up to the instruction that waits. -/
def emitStop (a : Allocation) (word : BitVec 16) : List SysOp :=
  let newSR := exchangeCV (word &&& 0xf71f)
  privileged a <|
    [ SysOp.insn (movReg a.orig a.cc),
      .insn (.movImmedU16 a.cc newSR 0),
      .insn (eorReg a.changed a.orig a.cc) ] ++
    switchStack a.changed a.orig a.cc ++ [advance 4] ++ maskInterrupts a.changed a.cc

/-- The machines that wait for an interrupt, and those that wait for an event and look at `INT64` in
the context, which others write. -/
inductive Wait where
  | wfi
  | wfe

/-- The code of STOP behind `emitStop`: `INT64` is read until it is not zero. -/
inductive Wait.Ends (tmp : Reg) : Wait → Machine → Machine → Prop where
  | interrupt (m : Machine) : Ends tmp .wfi m m
  | pending (m : Machine) (INT64 : BitVec 64) (h : INT64 ≠ 0) :
    Ends tmp .wfe m (m.put tmp (INT64.setWidth 32))
  | event (m m' : Machine) (h : Ends tmp .wfe (m.put tmp 0) m') : Ends tmp .wfe m m'

/-- The formats with a longword or none behind the frame go on; others raise an exception. -/
def emitRTE (a : Allocation) : List SysOp :=
  let tmp : Reg := 1
  let changed : Reg := 2
  let orig : Reg := 3
  let exception := emitException a.cc VECTOR_FORMAT_ERROR
  let code : List SysOp :=
    [ -- Fetch sr from stack, reverse C and V
      SysOp.ldrhOffsetPostindex regA7 changed 2,
      .insn (.rbit orig changed),
      .insn (bfxil changed orig 30 2),
      -- Fetch PC from stack, advance sp so that format word is skipped
      .ldrOffsetPostindex regA7 regPC 6,
      .insn (cmpImmed tmp 2),
      .bCc ccNE 2,
      .insn (.addImmed regA7 regA7 4),
      -- Use two EORs to generate changed mask and update SR
      .insn (movReg orig a.cc),
      .insn (eorReg changed changed a.cc),
      .insn (eorReg a.cc changed a.cc) ] ++
    switchStack changed orig a.cc ++ maskInterrupts changed a.cc
  privileged a <|
    [ SysOp.ldrhOffset regA7 tmp 6,
      .insn (lsr tmp tmp 12),
      .insn (cmpImmed tmp 2),
      .bCc ccEQ (exception.length + 4),
      .insn (cmpImmed tmp 0),
      .bCc ccEQ (exception.length + 2) ] ++
    exception ++ [SysOp.b (code.length + 1)] ++ code

end Emu68.Supervisor

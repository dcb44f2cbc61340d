import Emu68.Ppc.BranchCode

/-!
How the PPC emulation enters an exception and returns from it: the code that is emitted for `sc`,
for traps and for programs without a privilege, the code of `rfi` and `mtmsr`, and the interrupt
entry of `MainLoop`. The program counter is in a host register, the machine state is in the context.
-/

set_option autoImplicit false
set_option relaxedAutoImplicit false

namespace Emu68.Ppc

open A64 (Reg Cpu bicImmed)

def MSR_IP : Word := 0x000040
def MSR_PR : Word := 0x004000
def MSR_EE : Word := 0x008000
def MSR_ILE : Word := 0x010000
def MSR_POW : Word := 0x040000

/-- The part of `PPCState` that exceptions concern. `otherInt` stands for the bytes of `INT` that
the main loop does not look at one by one. -/
structure PPCState where
  MSR : Word
  SRR0 : Word
  SRR1 : Word
  EXT : BitVec 8
  DEC : BitVec 8
  otherInt : BitVec 24

inductive Field where
  | MSR
  | SRR0
  | SRR1

def PPCState.load (s : PPCState) : Field → Word
  | .MSR => s.MSR
  | .SRR0 => s.SRR0
  | .SRR1 => s.SRR1

def PPCState.store (s : PPCState) (field : Field) (value : Word) : PPCState :=
  match field with
  | .MSR => { s with MSR := value }
  | .SRR0 => { s with SRR0 := value }
  | .SRR1 => { s with SRR1 := value }

structure Machine where
  cpu : Cpu
  ctx : PPCState

def Machine.PC (m : Machine) : Word := m.cpu.get regPC

/-- Emitted code with `ldr_offset` and `str_offset` on the context. -/
inductive CtxOp where
  | insn (op : A64.Op)
  | ldr (rt : Reg) (field : Field)
  | str (rt : Reg) (field : Field)

def ctxStep (m : Machine) : CtxOp → Machine
  | .insn op => { m with cpu := A64.step m.cpu op }
  | .ldr rt field => { m with cpu := m.cpu.put rt (m.ctx.load field) }
  | .str rt field => { m with ctx := m.ctx.store field (m.cpu.get rt) }

def ctxExec (code : List CtxOp) (m : Machine) : Machine := code.foldl ctxStep m

/-! ### Emitted code -/

/-- The offset by which the program counter lags behind. -/
structure PcRel where
  val : ℤ
  small : val.natAbs ≤ 120

def PcRel.zero : PcRel := ⟨0, Nat.zero_le 120⟩

/-- The program counter is brought forward by an offset. -/
def flushPC (rel : ℤ) : List CtxOp :=
  if 0 < rel then [.insn (.addImmed regPC regPC rel.natAbs)]
  else if rel < 0 then [.insn (.subImmed regPC regPC rel.natAbs)]
  else []

/-- The code of `advancePC`, and the offset that is pending behind it. -/
def advancePC (rel : PcRel) (offset : ℕ) : List CtxOp × PcRel :=
  if h : 120 < rel.val + offset ∨ rel.val + offset < -120 then
    (flushPC (rel.val + offset), .zero)
  else ([], ⟨rel.val + offset, by omega⟩)

/-- The stores of dirty registers before it, and the count of instructions behind it, concern
neither these fields nor the program counter. -/
def exceptionCode (rel : PcRel) (type : BitVec 16) (tmp : Fin 12) : List CtxOp :=
  flushPC rel.val ++
    [CtxOp.ldr tmp .MSR, .str tmp .SRR1, .str regPC .SRR0, .insn (bicImmed tmp tmp 1 18),
      .str tmp .MSR, .insn (.movImmedU16 regPC type 0), .insn (.movkImmedU16 regPC 0xfff0 1)]

def scCode (rel : PcRel) (tmp : Fin 12) : List CtxOp :=
  (advancePC rel 4).1 ++ flushPC (advancePC rel 4).2.val ++
    [CtxOp.ldr tmp .MSR, .str tmp .SRR1, .str regPC .SRR0, .insn (bicImmed tmp tmp 1 18),
      .insn (.movImmedU16 regPC 0xc00 0), .insn (.movkImmedU16 regPC 0xfff0 1), .str tmp .MSR]

def rfiCode (tmp : Fin 12) : List CtxOp :=
  [.ldr tmp .SRR1, .insn (bicImmed tmp tmp 1 14), .str tmp .MSR, .ldr regPC .SRR0,
    .insn (bicImmed regPC regPC 2 0)]

def mtmsrCode (rs : Reg) (tmp : Fin 12) : List CtxOp :=
  [.insn (bicImmed tmp rs 16 16), .insn (bicImmed tmp tmp 8 0), .insn (.orrImmed tmp tmp 1 26),
    .str tmp .MSR]

/-- Privileged code behind `SupervisorCheck`: the exit block raises a program exception. -/
def supervised (code : List CtxOp) (tmp : Fin 12) (m : Machine) : Machine :=
  if m.ctx.MSR.getLsbD 14 then ctxExec (exceptionCode .zero 0x700 tmp) m
  else ctxExec code m

/-! ### The main loop -/

/-- The vector of the interrupt that is accepted, zero for none, and the flags without it. -/
def pendingVector (s : PPCState) : Word × PPCState :=
  if s.EXT = 0 ∧ s.DEC = 0 ∧ s.otherInt = 0 then (0, s)
  else
    let (vector, s) : Word × PPCState :=
      if s.EXT ≠ 0 then (if s.MSR &&& MSR_EE ≠ 0 then 0x500 else 0, s)
      else if s.DEC ≠ 0 then
        if s.MSR &&& MSR_EE ≠ 0 then (0x900, { s with DEC := 0 }) else (0, s)
      else (0, s)
    (vector, if vector = 0x500 then { s with EXT := 0 } else s)

/-- What the main loop does before it looks for a unit. -/
def checkInterrupts (m : Machine) : Machine :=
  let (vector, s) := pendingVector m.ctx
  if vector = 0 then { m with ctx := s }
  else
    let target := if s.MSR &&& MSR_IP ≠ 0 then vector ||| 0xfff00000 else vector
    { cpu := m.cpu.put regPC target
      ctx := { s with SRR0 := m.PC, SRR1 := s.MSR, MSR := s.MSR &&& (MSR_IP ||| MSR_ILE) } }

/-! ### The system -/

/-- The two interrupts. -/
inductive Interrupt where
  | ext
  | dec
deriving DecidableEq

def PPCState.flag (s : PPCState) : Interrupt → BitVec 8
  | .ext => s.EXT
  | .dec => s.DEC

def PPCState.setFlag (s : PPCState) (value : BitVec 8) : Interrupt → PPCState
  | .ext => { s with EXT := value }
  | .dec => { s with DEC := value }

/-- What can happen to the machine. `other` is any instruction that does not concern the machine
state register; it may write the registers that `rfi` reads. `raise` is `PPCReportInterrupt`, which
stores one, or the request of the 68k side, which stores 255. -/
inductive Action where
  | other (cpu : Cpu) (SRR0 SRR1 : Word)
  | mtmsr (rs : Reg) (tmp : Fin 12)
  | rfi (tmp : Fin 12)
  | exception (rel : PcRel) (type : BitVec 16) (tmp : Fin 12)
  | sc (rel : PcRel) (tmp : Fin 12)
  | raise (interrupt : Interrupt) (value : BitVec 8) (value_ne : value ≠ 0)
  | check

def act (m : Machine) : Action → Machine
  | .other cpu SRR0 SRR1 => { cpu := cpu, ctx := { m.ctx with SRR0 := SRR0, SRR1 := SRR1 } }
  | .mtmsr rs tmp => supervised (mtmsrCode rs tmp) tmp m
  | .rfi tmp => supervised (rfiCode tmp) tmp m
  | .exception rel type tmp => ctxExec (exceptionCode rel type tmp) m
  | .sc rel tmp => ctxExec (scCode rel tmp) m
  | .raise interrupt value _ => { m with ctx := m.ctx.setFlag value interrupt }
  | .check => checkInterrupts m

/-- The interrupt that the main loop accepts if it looks now. -/
def accepted (m : Machine) : Option Interrupt :=
  if (pendingVector m.ctx).1 = 0x500 then some .ext
  else if (pendingVector m.ctx).1 = 0x900 then some .dec
  else none

end Emu68.Ppc

import Mathlib

/-!
The branches of the 68040: when each is taken, where it leads, and what it does beside. This is the
abstract side; nothing here is taken from the translator.
-/

set_option autoImplicit false
set_option relaxedAutoImplicit false

namespace Emu68.M68k

/-- The condition codes that branches look at. -/
structure Ccr where
  n : Bool
  z : Bool
  v : Bool
  c : Bool

abbrev Condition := BitVec 4

def Ccr.holds (f : Ccr) (condition : Condition) : Bool :=
  match condition.toNat with
  | 0x0 => true
  | 0x1 => false
  | 0x2 => !f.c && !f.z
  | 0x3 => f.c || f.z
  | 0x4 => !f.c
  | 0x5 => f.c
  | 0x6 => !f.z
  | 0x7 => f.z
  | 0x8 => !f.v
  | 0x9 => f.v
  | 0xa => !f.n
  | 0xb => f.n
  | 0xc => f.n == f.v
  | 0xd => f.n != f.v
  | 0xe => !f.z && f.n == f.v
  | _ => f.z || f.n != f.v

/-- The floating-point condition codes. -/
structure Fpcc where
  n : Bool
  z : Bool
  nan : Bool

/-- The sixteen predicates; the signalling ones, with bit 4 set, are true for the same codes. -/
def Fpcc.holds (f : Fpcc) (predicate : BitVec 4) : Bool :=
  match predicate.toNat with
  | 0x0 => false
  | 0x1 => f.z
  | 0x2 => !(f.nan || f.z || f.n)
  | 0x3 => f.z || !(f.nan || f.n)
  | 0x4 => f.n && !(f.nan || f.z)
  | 0x5 => f.z || f.n && !f.nan
  | 0x6 => !(f.nan || f.z)
  | 0x7 => !f.nan
  | 0x8 => f.nan
  | 0x9 => f.nan || f.z
  | 0xa => f.nan || !(f.n || f.z)
  | 0xb => f.nan || f.z || !f.n
  | 0xc => f.nan || f.n && !f.z
  | 0xd => f.nan || f.z || f.n
  | 0xe => !f.z
  | _ => true

inductive Branch where
  | bra
  | bsr
  | bcc (condition : Condition)
  | dbcc (condition : Condition) (counter : Fin 8)
  | fbcc (predicate : BitVec 4)
deriving DecidableEq

/-- The size of the displacement. -/
inductive Size where
  | byte
  | word
  | long
deriving DecidableEq

/-- The size is told from the lowest byte of the opcode. -/
def branchSize (opcode : BitVec 16) : Size :=
  if opcode.setWidth 8 = 0x00 then .word else if opcode.setWidth 8 = 0xff then .long else .byte

def decode (opcode : BitVec 16) : Option (Branch × Size) :=
  let condition := (opcode >>> 8).setWidth 4
  if opcode >>> 12 = 6 then
    if condition = 0 then some (.bra, branchSize opcode)
    else if condition = 1 then some (.bsr, branchSize opcode)
    else some (.bcc condition, branchSize opcode)
  else if opcode >>> 12 = 5 ∧ (opcode >>> 3).setWidth 5 = 0x19 then
    some (.dbcc condition ⟨(opcode.setWidth 3).toNat, (opcode.setWidth 3).isLt⟩, .word)
  else if opcode >>> 7 = 0x1e5 ∧ (opcode >>> 5).setWidth 1 = 0 then
    some (.fbcc (opcode.setWidth 4), if opcode.getLsbD 6 then .long else .word)
  else none

/-- The words that follow the opcode. -/
structure CodeMemory where
  read16 : BitVec 32 → BitVec 16
  read32 : BitVec 32 → BitVec 32
  read32_eq : ∀ a, read32 a = read16 a ++ read16 (a + 2)

variable (memory : CodeMemory) (opcode : BitVec 16) (pc : BitVec 32)

def displacement : Size → BitVec 32
  | .byte => (opcode.setWidth 8).signExtend 32
  | .word => (memory.read16 (pc + 2)).signExtend 32
  | .long => memory.read32 (pc + 2)

def Size.length : Size → BitVec 32
  | .byte => 2
  | .word => 4
  | .long => 6

def target (size : Size) : BitVec 32 := pc + 2 + displacement memory opcode pc size

def next (size : Size) : BitVec 32 := pc + size.length

/-- The registers, D0 to D7 and A0 to A7, the program counter and the condition codes. -/
structure Cpu where
  regs : Fin 16 → BitVec 32
  pc : BitVec 32
  ccr : Ccr
  fpcc : Fpcc

def Branch.taken (s : Cpu) : Branch → Bool
  | .bra => true
  | .bsr => true
  | .bcc condition => s.ccr.holds condition
  | .dbcc condition counter =>
    !s.ccr.holds condition && (s.regs (counter.castLE (by decide))).setWidth 16 != 0
  | .fbcc predicate => s.fpcc.holds predicate

/-- The address at which the program continues. -/
def continueAt (s : Cpu) (branch : Branch) (size : Size) : BitVec 32 :=
  if branch.taken s then target memory opcode s.pc size else next s.pc size

/-- DBcc counts down in the low word if its condition is false, and BSR makes room for the return
address. -/
def Branch.regsAfter (s : Cpu) : Branch → Fin 16 → BitVec 32
  | .dbcc condition counter => fun r ↦
    if r = counter.castLE (by decide) ∧ s.ccr.holds condition = false then
      (s.regs r).extractLsb' 16 16 ++ ((s.regs r).setWidth 16 - 1#16)
    else s.regs r
  | .bsr => fun r ↦ if r = 15 then s.regs r - 4 else s.regs r
  | _ => s.regs

theorem regsAfter_bsr (s : Cpu) (r : Fin 16) :
    Branch.bsr.regsAfter s r = if r = 15 then s.regs r - 4 else s.regs r := rfl

theorem regsAfter_dbcc (s : Cpu) (condition : Condition) (counter : Fin 8) (r : Fin 16) :
    (Branch.dbcc condition counter).regsAfter s r =
      if r = counter.castLE (by decide) ∧ s.ccr.holds condition = false then
        (s.regs r).extractLsb' 16 16 ++ ((s.regs r).setWidth 16 - 1#16)
      else s.regs r := rfl

end Emu68.M68k

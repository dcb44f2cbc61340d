import Emu68.Alu.AfterOperation

/-!
ADD (`M68k_LINED.c`), SUB (`M68k_LINE9.c`) and CMP (`M68k_LINEB.c`). A part of a register is shifted
up, so that the host has the flags of the part. When no flag is wanted, or just Z or just N, it
stays where it is, and the flag is tested for in the result.
-/

set_option autoImplicit false
set_option relaxedAutoImplicit false

namespace Emu68.Arithmetic

open A64 Alu Lib MulDiv

inductive Arith where
  | add
  | sub
deriving DecidableEq

namespace Arith

def apply {n : ℕ} (x y : BitVec n) : Arith → BitVec n
  | .add => x + y
  | .sub => x - y

/-- `add_reg` and `sub_reg`. -/
def reg (rd rn rm : Reg) : Arith → WideOp
  | .add => .insn (.addReg rd rn rm .LSL 0)
  | .sub => .subReg rd rn rm .LSL 0

/-- `adds_reg` and `subs_reg`. -/
def regs (rd rn rm : Reg) (amount : ℕ) : Arith → WideOp
  | .add => .addsReg rd rn rm .LSL amount
  | .sub => .subsReg rd rn rm .LSL amount

def caller : Arith → Caller
  | .add => .add
  | .sub => .sub

def carry {n : ℕ} (x y : BitVec n) : Arith → Bool
  | .add => x.uaddOverflow y
  | .sub => x.usubOverflow y

def overflow {n : ℕ} (x y : BitVec n) : Arith → Bool
  | .add => x.saddOverflow y
  | .sub => x.ssubOverflow y

/-- The flags of the host. -/
def hostFlags (x y : BitVec 32) : Arith → Nzcv
  | .add => addFlags x y
  | .sub => subFlags x y

end Arith

/-- `src`, `tmp`, and the register `dest` for the address of an operand in memory. -/
inductive ArithReg where
  | src
  | tmp
  | ea
deriving DecidableEq

def srCCR : Mask := 0x1f

section Emitters

variable (e : Emission ArithReg) (size : Size)

def updateMask : Mask := e.mask srCCR

def tmp : Reg := e.own.reg .tmp

/-- Just Z or just N of a part is wanted. -/
def Single : Prop := size ≠ .long ∧ (updateMask e = srZ ∨ updateMask e = srN)

instance : Decidable (Single e size) := inferInstanceAs (Decidable (_ ∧ _))

/-- The host does not set its flags. -/
def Unflagged : Prop := updateMask e = 0 ∨ Single e size

instance : Decidable (Unflagged e size) := inferInstanceAs (Decidable (_ ∨ _))

def oneFlag (flag : Mask) (width ror : BitVec 8) (cond : Cond) (dest : Reg) : List Op :=
  modifyCC e.ccLoaded e.cc ++ emitClearFlags e.cc (e.flag.reg .tmp) flag ++
    [.andsImmed 31 dest width ror] ++ emitSetFlagsConditional e.cc (e.flag.reg .tmp) flag cond

/-- The test of the result for a single flag. -/
def flagOfPart (dest : Reg) : List Op :=
  if ¬ Single e size then []
  else if updateMask e = srZ then oneFlag e srZ (BitVec.ofNat 8 size.bits) 0 ccEQ dest
  else oneFlag e srN 1 (BitVec.ofNat 8 (33 - size.bits)) ccNE dest

def flagCode (caller : Caller) (mask : Mask) : List WideOp :=
  if mask = 0 then []
  else insns (modifyCC e.ccLoaded e.cc ++
    caller.emitFlags e.cc (e.flag.reg .tmp) (e.flag.reg .tmp2) mask)

/-- What follows on the operation, with the result in a register. -/
def finish (op : Arith) (dest : Reg) : List WideOp :=
  insns (flagOfPart e size dest) ++ insns e.advance ++
    flagCode e op.caller (if Single e size then 0 else updateMask e)

def computeInRegister (op : Arith) (src : Reg) (i : Fin 8) : List WideOp :=
  if size = .long then
    [if updateMask e = 0 then op.reg (dn i) (dn i) src else op.regs (dn i) (dn i) src 0]
  else if Unflagged e size then
    [op.reg (tmp e) (dn i) src, .insn (bfxil (dn i) (tmp e) 0 size.bits)]
  else
    [.insn (lsl (tmp e) (dn i) (32 - size.bits)), op.regs src (tmp e) src (32 - size.bits),
      .insn (bfxil (dn i) src (32 - size.bits) size.bits)]

/-- `EMIT_ADD_reg` and `EMIT_SUB_reg` with a destination register. -/
def emitIntoRegister (op : Arith) (i : Fin 8) (operand : Source e .src size false) : List WideOp :=
  let (load, src) := operand.load (size = .long ∨ Unflagged e size)
  load ++ computeInRegister e size op src i ++ finish e size op (dn i)

def computeInMemory (op : Arith) (j : Fin 8) : List WideOp :=
  if size = .long then
    [if updateMask e = 0 then op.reg (tmp e) (tmp e) (dn j) else op.regs (tmp e) (tmp e) (dn j) 0]
  else if Unflagged e size then [op.reg (tmp e) (tmp e) (dn j)]
  else
    [.insn (lsl (tmp e) (tmp e) (32 - size.bits)), op.regs (tmp e) (tmp e) (dn j) (32 - size.bits),
      .insn (lsr (tmp e) (tmp e) (32 - size.bits))]

/-- The two with a destination in memory. -/
def emitIntoMemory (op : Arith) (j : Fin 8) (target : Target (e.own.reg .ea) e.cc) : List WideOp :=
  modify size .tmp target (computeInMemory e size op j) ++ finish e size op (tmp e)

/-- `EMIT_CMP_reg`. -/
def emitCMP (i : Fin 8) (operand : Source e .src size false) : List WideOp :=
  let (load, src) := operand.load true
  let compare :=
    if size = .long then [cmpReg (dn i) src .LSL 0]
    else [.insn (lsl (tmp e) (dn i) (32 - size.bits)), cmpReg (tmp e) src .LSL (32 - size.bits)]
  load ++ compare ++ insns e.advance ++ flagCode e .cmp (e.mask srNZVC)

end Emitters

/-! ### What the instructions do -/

def arithFlags {n : ℕ} (op : Arith) (x y : BitVec n) : Flag → FlagValue
  | .n => .set (op.apply x y).msb
  | .z => .set (op.apply x y == 0)
  | .v => .set (op.overflow x y)
  | .c => .set (op.carry x y)
  | .x => .set (op.carry x y)

/-- A comparison leaves X alone. -/
def cmpFlags {n : ℕ} (x y : BitVec n) : Flag → FlagValue
  | .x => .unaffected
  | flag => arithFlags .sub x y flag

/-- The machine behind the code; the condition codes are loaded when they were updated. -/
def viewAfter (e : Emission ArithReg) (sets : Mask) (s : WideCpu) : Machine :=
  Alu.view (e.ccLoaded || e.mask sets != 0) e.cc s

/-- The code leaves the machine that the instruction leaves, and the flags that are wanted. -/
structure ArithRight (e : Emission ArithReg) (sets : Mask) (value : Flag → FlagValue)
    (expected : Machine) (s' : WideCpu) : Prop where
  machine : ∃ pc ccr, viewAfter e sets s' = { expected with pc := pc, ccr := ccr }
  ccr : CcrCorrect (e.mask sets) value expected.ccr (viewAfter e sets s').ccr

/-- The instructions with their operands. A single flag is tested for while the register with the
result of an operation in memory is in use. -/
inductive Insn (e : Emission ArithReg) (size : Size) where
  | intoRegister (op : Arith) (i : Fin 8) (operand : Source e .src size false)
  | intoMemory (op : Arith) (j : Fin 8) (target : Target (e.own.reg .ea) e.cc)
      (held : Single e size → ∀ x, e.flag.reg x ≠ tmp e)
  | compare (i : Fin 8) (operand : Source e .src size false)

namespace Insn

variable {e : Emission ArithReg} {size : Size}

def emit : Insn e size → List WideOp
  | intoRegister op i operand => emitIntoRegister e size op i operand
  | intoMemory op j target _ => emitIntoMemory e size op j target
  | compare i operand => emitCMP e size i operand

def sets : Insn e size → Mask
  | compare _ _ => srNZVC
  | _ => srCCR

/-- The two operands. -/
def operands (s : WideCpu) : Insn e size → BitVec size.bits × BitVec size.bits
  | intoRegister _ i operand => ((s.get (dn i)).setWidth size.bits, operand.value s)
  | intoMemory _ j target _ => (target.value size s, (s.get (dn j)).setWidth size.bits)
  | compare i operand => ((s.get (dn i)).setWidth size.bits, operand.value s)

def flags (s : WideCpu) (insn : Insn e size) : Flag → FlagValue :=
  let (x, y) := insn.operands s
  match insn with
  | intoRegister op _ _ => arithFlags op x y
  | intoMemory op _ _ _ => arithFlags op x y
  | compare _ _ => cmpFlags x y

/-- What the instruction leaves of the machine, but for the program counter and the flags. -/
def after (s : WideCpu) (insn : Insn e size) : Machine :=
  let (x, y) := insn.operands s
  match insn with
  | intoRegister op i operand =>
    (operand.after s).setD i (replaceLow (s.get (dn i)) (op.apply x y))
  | intoMemory op _ target _ => (target.after size s).setMemory
    (Lib.store s.memory (target.address size s) size.bytes (op.apply x y).toNat)
  | compare _ operand => operand.after s

end Insn

end Emu68.Arithmetic

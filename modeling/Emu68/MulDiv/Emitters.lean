import Emu68.Alu.Trapping

/-!
The emitters of `M68k_MULDIV.c`. A word operand of MULS and DIVS is extended when it is loaded; a
data register is read in its place by the others. The code of the division by zero leaves the unit.
-/

set_option autoImplicit false
set_option relaxedAutoImplicit false

namespace Emu68.MulDiv

open A64 Alu Lib

/-! ### The operand -/

/-- What the code of `EMIT_LoadFromEffectiveAddress` does for a memory operand or an immediate one:
the operand is in its register, extended to 32 bits, and the data registers and the condition codes
are left alone. -/
structure Fetches {bits : ℕ} (signed : Bool) (src cc : Reg) (run : WideCpu → WideCpu)
    (value : WideCpu → BitVec bits) : Prop where
  operand : ∀ s, (run s).get64 src =
    (if signed then (value s).signExtend 32 else (value s).setWidth 32).setWidth 64
  dn : ∀ s i, (run s).get64 (dn i) = s.get64 (dn i)
  cc : ∀ s loaded, oldCcr loaded cc (run s) = oldCcr loaded cc s

inductive Operand (bits : ℕ) (signed : Bool) (src cc : Reg) where
  | dataRegister (i : Fin 8)
  | fetched (run : WideCpu → WideCpu) (value : WideCpu → BitVec bits)
      (fetches : Fetches signed src cc run value)

namespace Operand

variable {bits : ℕ} {signed : Bool} {src cc : Reg}

def value (s : WideCpu) : Operand bits signed src cc → BitVec bits
  | .dataRegister i => (s.get (dn i)).setWidth bits
  | .fetched _ value _ => value s

/-- The code with `read_only`, and the register that the operand is in. -/
def read : Operand bits signed src cc → List WideOp × Reg
  | .dataRegister i => ([], dn i)
  | .fetched run _ _ => ([.operand run], src)

/-- The code with the operand extended from a word. -/
def readExtended : Operand bits signed src cc → List WideOp × Reg
  | .dataRegister i => ([sxth src (dn i)], src)
  | .fetched run _ _ => ([.operand run], src)

/-- The state behind the code. -/
def after (s : WideCpu) : Operand bits signed src cc → WideCpu
  | .dataRegister _ => s
  | .fetched run _ _ => run s

def isDataRegister : Operand bits signed src cc → Bool
  | .dataRegister _ => true
  | .fetched _ _ _ => false

end Operand

/-! ### The translator -/

/-- The requested flags. X is not among the flags of these instructions. -/
structure Context extends Translation where
  mask : Mask
  mask_lt : mask.toNat < 16

/-! ### Multiplications -/

inductive MulReg where
  | src
  | cc
  | tmp
  | tmp2
  | dh
deriving DecidableEq

variable (a : Alloc MulReg) (ctx : Context)

/-- The flags of MULS.W and MULU.W. -/
def wordFlags (reg : Reg) : List WideOp :=
  if ctx.mask = 0 then []
  else insns (modifyCC ctx.ccLoaded (a.reg .cc)) ++ [cmnReg 31 reg .LSL 0] ++
    insns (Caller.logic.emitFlags (a.reg .cc) (a.reg .tmp) (a.reg .tmp2) ctx.mask)

def emitMulsW (i : Fin 8) (operand : Operand 16 true (a.reg .src) (a.reg .cc)) : List WideOp :=
  let reg := dn i
  let (load, src) := operand.readExtended
  load ++ [sxth reg reg, .mul reg reg src] ++ insns ctx.advance ++ wordFlags a ctx reg

def emitMuluW (i : Fin 8) (operand : Operand 16 false (a.reg .src) (a.reg .cc)) : List WideOp :=
  let reg := dn i
  let (load, src) := operand.read
  let multiply : List WideOp :=
    if operand.isDataRegister then
      [ .insn (uxth (a.reg .tmp) src), .insn (uxth reg reg), .mul reg reg (a.reg .tmp) ]
    else [.insn (uxth reg reg), .mul reg reg src]
  load ++ multiply ++ insns ctx.advance ++ wordFlags a ctx reg

/-- The overflow of a product of 32 bits. -/
def longOverflow (signed : Bool) (dl : Reg) : List WideOp :=
  insns (emitClearFlags (a.reg .cc) (a.reg .tmp2) srValt) ++
    (if signed then [cmnReg dl 31 .LSL 0, csetm (a.reg .tmp) ccMI]
    else [.insn (.movImmedU16 (a.reg .tmp) 0 0)]) ++
    [cmp64Reg (a.reg .tmp) dl .LSR 32] ++
    insns (emitSetFlagsConditional (a.reg .cc) (a.reg .tmp2) srValt ccNE)

/-- MULS.L and MULU.L; `dh` is given where the product has 64 bits. -/
def emitMulsL (signed : Bool) (dl : Fin 8) (dh : Option (Fin 8))
    (operand : Operand 32 false (a.reg .src) (a.reg .cc)) : List WideOp :=
  let regDl := dn dl
  let (load, src) := operand.read
  let multiply : List WideOp :=
    [if signed then .smull regDl regDl src else .umull regDl regDl src] ++
      match dh with
      | some dh => if dn dh ≠ regDl then [.add64Reg (dn dh) 31 regDl .LSR 32] else []
      | none => []
  let flags : List WideOp :=
    if ctx.mask = 0 then []
    else
      -- V is left to the end
      insns (modifyCC ctx.ccLoaded (a.reg .cc)) ++
        [if dh.isSome then cmn64Reg 31 regDl .LSL 0 else cmnReg 31 regDl .LSL 0] ++
        insns (Caller.logic.emitFlags (a.reg .cc) (a.reg .tmp) (a.reg .tmp2) ctx.mask) ++
        if ctx.mask &&& srV ≠ 0 ∧ dh = none then longOverflow a signed regDl else []
  load ++ multiply ++ insns ctx.advance ++ flags

/-! ### Divisions -/

def VECTOR_DIVIDE_BY_ZERO : BitVec 16 := 0x014

/-- The code that is run when the divisor is zero. -/
def zeroDivide : List TrapOp :=
  [ .wide (.insn (.addImmed Branch.regPC Branch.regPC (2 * (ctx.extWords + 1)))),
    .exception VECTOR_DIVIDE_BY_ZERO 2 ctx.address,
    .leave ]

inductive DivReg where
  | src
  | cc
  | quot
  | rem
  | tmp
  | tmp2
deriving DecidableEq

variable (b : Alloc DivReg)

/-- The test for zero, and the way around the exception. -/
def testWord (q : Reg) : List TrapOp :=
  [.wide (.insn (.andsImmed 31 q 16 0)), .wide (.bCc ccNE ((zeroDivide ctx).length + 1))] ++
    zeroDivide ctx

/-- The quotient and the remainder are moved to the register if the quotient is a word, which
`extend` tells. -/
def moveWords (reg : Reg) (extend : WideOp) : List WideOp :=
  [ extend, cmpReg (b.reg .tmp) (b.reg .quot) .LSL 0, .bCc ccNE 3,
    .insn (movReg reg (b.reg .quot)), .insn (bfi reg (b.reg .rem) 16 16) ]

/-- The flags of DIVS.W and DIVU.W. -/
def wordQuotientFlags : List WideOp :=
  if ctx.mask = 0 then []
  else
    insns (modifyCC true (b.reg .cc)) ++
      insns (emitClearFlags (b.reg .cc) (b.reg .tmp2) (swapVC ctx.mask)) ++
      insns (if ctx.mask &&& srV ≠ 0 then
        emitSetFlagsConditional (b.reg .cc) (b.reg .tmp) srValt ccNE else []) ++
      if ctx.mask &&& (srZ ||| srN) ≠ 0 then
        [cmnReg 31 (b.reg .quot) .LSL 16] ++
          insns (Caller.divide.emitFlags (b.reg .cc) (b.reg .tmp) (b.reg .tmp2) ctx.mask)
      else []

def emitDivsW (i : Fin 8) (operand : Operand 16 true (b.reg .src) (b.reg .cc)) : List TrapOp :=
  let reg := dn i
  let (load, q) := operand.readExtended
  wides (load ++ insns (Branch.flushPC ctx.pcRel) ++ insns (modifyCC ctx.ccLoaded (b.reg .cc))) ++
    testWord ctx q ++
    wides ([.sdiv (b.reg .quot) reg q, .msub (b.reg .rem) reg (b.reg .quot) q] ++
      moveWords b reg (sxth (b.reg .tmp) (b.reg .quot)) ++ wordQuotientFlags ctx b ++
      insns (Branch.advancePC 0 (2 * (ctx.extWords + 1))).1)

def emitDivuW (i : Fin 8) (operand : Operand 16 false (b.reg .src) (b.reg .cc)) : List TrapOp :=
  let reg := dn i
  let (load, q) := operand.read
  let division : List WideOp :=
    -- a data register is not extended yet
    if operand.isDataRegister then
      [ .insn (uxth (b.reg .rem) q), .udiv (b.reg .quot) reg (b.reg .rem),
        .msub (b.reg .rem) reg (b.reg .quot) (b.reg .rem) ]
    else [.udiv (b.reg .quot) reg q, .msub (b.reg .rem) reg (b.reg .quot) q]
  wides (load ++ insns (Branch.flushPC ctx.pcRel) ++ insns (modifyCC ctx.ccLoaded (b.reg .cc))) ++
    testWord ctx q ++
    wides (division ++ moveWords b reg (.insn (uxth (b.reg .tmp) (b.reg .quot))) ++
      wordQuotientFlags ctx b ++ insns (Branch.advancePC 0 (2 * (ctx.extWords + 1))).1)

inductive LongDivReg where
  | src
  | cc
  | tmp
  | result
  | tmp2
  | qExt
deriving DecidableEq

variable (c : Alloc LongDivReg)

/-- The division of a dividend of 64 bits. In case of overflow the registers remain unchanged. -/
def divide64 (signed : Bool) (dq dr q : Reg) : List WideOp :=
  let tmp := c.reg .tmp
  let result := c.reg .result
  let tmp2 := c.reg .tmp2
  let qExt := c.reg .qExt
  let moves : List WideOp :=
    [WideOp.insn (movReg dq result)] ++ if dr ≠ dq then [WideOp.insn (movReg dr tmp)] else []
  [WideOp.insn (movReg tmp2 dq), bfi64 tmp2 dr 32 32] ++
    (if signed then
      [sxtw64 qExt q, .sdiv64 result tmp2 qExt] ++
        if dr ≠ dq then [WideOp.msub64 tmp tmp2 result qExt] else []
    else [WideOp.udiv64 result tmp2 q] ++
      if dr ≠ dq then [WideOp.msub64 tmp tmp2 result q] else []) ++
    [if signed then sxtw64 tmp2 result else .insn (movReg tmp2 result),
      cmp64Reg tmp2 result .LSL 0, .bCc ccNE (moves.length + 1)] ++ moves

def divide32 (signed : Bool) (dq dr q : Reg) : List WideOp :=
  let div : Reg → Reg → Reg → WideOp := if signed then .sdiv else .udiv
  if dr = dq then [div dq dq q]
  else [div (c.reg .tmp) dq q, .msub dr dq (c.reg .tmp) q, .insn (movReg dq (c.reg .tmp))]

/-- The flags of DIVS.L and DIVU.L. -/
def longQuotientFlags (wide : Bool) (dq : Reg) : List WideOp :=
  let cc := c.reg .cc
  let tmp := c.reg .tmp
  if ctx.mask = 0 then []
  else
    (if ctx.mask &&& srVC ≠ 0 then
      insns (emitClearFlags cc tmp (srValt ||| srCalt)) ++
        if wide then insns (emitSetFlagsConditional cc tmp srValt ccNE) else []
    else []) ++
    if ctx.mask &&& srNZ ≠ 0 then
      [cmnReg 31 dq .LSL 0] ++
        insns (if ctx.mask &&& srNZ = srZ then
          [bicImmed cc cc 1 30] ++ emitSetFlagsConditional cc tmp srZ ccEQ
        else if ctx.mask &&& srNZ = srN then
          [bicImmed cc cc 1 29] ++ emitSetFlagsConditional cc tmp srN ccMI
        else (emitGetNZxx cc tmp ctx.mask).code)
    else []

/-- DIVS.L and DIVU.L, where `wide` is the dividend of 64 bits. -/
def emitDivusL (signed wide : Bool) (dq dr : Fin 8)
    (operand : Operand 32 false (c.reg .src) (c.reg .cc)) : List TrapOp :=
  let (load, q) := operand.read
  wides (load ++ insns (Branch.flushPC ctx.pcRel) ++ insns (modifyCC ctx.ccLoaded (c.reg .cc))) ++
    [.wide (.cbnz q ((zeroDivide ctx).length + 1))] ++ zeroDivide ctx ++
    wides ((if wide then divide64 c signed (dn dq) (dn dr) q
        else divide32 c signed (dn dq) (dn dr) q) ++
      longQuotientFlags ctx c wide (dn dq) ++
      insns (Branch.advancePC 0 (2 * (ctx.extWords + 1))).1)

end Emu68.MulDiv

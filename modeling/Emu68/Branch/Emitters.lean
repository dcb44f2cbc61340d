import Mathlib
import Emu68.A64.LoadImmediate
import Emu68.Branch.Semantics

/-!
The emitters of the branches: `EMIT_BRA`, `EMIT_Bcc` (`M68k_LINE6.c`), `EMIT_DBcc`
(`M68k_LINE5.c`) and the FBcc part of `EMIT_FPU` (`M68k_LINEF.c`), with what they use of
`M68k_CC.c`, `M68k_Translator.c` and the register allocator. A branch whose fixup is an exit block
leaves the straight code for it (`exitIf`); that the block ends up where the branch points is the
subject of `Jit.ExitPlacement`.
-/

set_option autoImplicit false
set_option relaxedAutoImplicit false

namespace Emu68.Branch

open A64 M68k

/-! ### Emitted code -/

inductive Item where
  | op (op : Op)
  /-- `b_cc` within the code of an instruction. -/
  | bCc (cond : Cond) (distance : ℕ)
  /-- A `b_cc` that gets the exit block for its target. -/
  | exitIf (cond : Cond)
  /-- A `tbz` or `tbnz` that gets the exit block for its target. -/
  | exitIfBit (rt : Reg) (bit : ℕ) (value : Bool)
  | udf

inductive Marker where
  | stop
  | breakLoop
deriving DecidableEq

/-- What an emitter leaves behind: the straight code, the exit block up to its return, the code
pointer `tc_M68kCodePtr`, the pending offset `_pc_rel`, and the choice `take_branch`. -/
structure Emission where
  code : List Item
  exitBlock : List Op
  m68kCodePtr : BitVec 64
  pcRel : ℤ
  takeBranch : Bool
  marker : Option Marker

inductive Outcome where
  | fallsThrough (s : A64.Cpu)
  | exits (s : A64.Cpu)
  | undefinedInsn

/-- The first argument is the number of instructions to skip. -/
def run : ℕ → List Item → A64.Cpu → Outcome
  | _, [], s => .fallsThrough s
  | skip + 1, _ :: rest, s => run skip rest s
  | 0, .op op :: rest, s => run 0 rest (step s op)
  | 0, .bCc cond distance :: rest, s =>
    run (if cond.holds s.flags then distance - 1 else 0) rest s
  | 0, .exitIf cond :: rest, s => if cond.holds s.flags then .exits s else run 0 rest s
  | 0, .exitIfBit rt bit value :: rest, s =>
    if (s.get rt).getLsbD bit = value then .exits s else run 0 rest s
  | 0, .udf :: _, _ => .undefinedInsn

/-- Where the code ends, and whether it went through the exit block. -/
def Emission.final (e : Emission) (s : A64.Cpu) : Option (Bool × A64.Cpu) :=
  match run 0 e.code s with
  | .fallsThrough s' => some (false, s')
  | .exits s' => some (true, exec e.exitBlock s')
  | .undefinedInsn => none

/-! ### The translator -/

def regPC : Reg := 18

def regMap : List Reg := [19, 20, 21, 22, 23, 24, 25, 26, 13, 14, 15, 16, 17, 27, 28, 29]

/-- The ARM register of an m68k register. -/
def mapM68kRegister (r : ℕ) : Reg := regMap.getD (r % 16) 0

/-- `EMU68_DEF_BRANCH_AUTO` and `EMU68_DEF_BRANCH_TAKEN`. -/
inductive DefBranch where
  | auto
  | taken
  | notTaken

def defBranchAutoRange : BitVec 64 := 128

/-- The value that `host_flags` was once meant to have after a floating-point instruction. -/
def fpFlags : Mask := 0x80

/-- The state of the translator: the pointers, `_pc_rel`, `host_flags`, the registers for the
condition codes with what the allocator knows about them, and the next free registers. -/
structure Context where
  m68kCodePtr : BitVec 64
  m68kCodeStart : BitVec 64
  pcRel : ℤ
  hostFlags : Mask
  cc : Reg
  ccLoaded : Bool
  ccModified : Bool
  fpsr : Reg
  fpsrLoaded : Bool
  fpsrModified : Bool
  fpcrModified : Option Reg
  tmp : Reg
  tmp2 : Reg
  valFPIAR : Option (BitVec 32)
  insnCount : ℕ
  inlineDistance : ℤ
  dbfSlowdown : Bool
  defBranch : DefBranch

/-- The code that the pending offset needs, if any, and the new offset. -/
def getOffsetPC (pcRel offset : ℤ) : List Op × ℤ :=
  let newOffset := pcRel + offset
  if newOffset > 127 ∨ newOffset < -127 then
    (if pcRel > 0 then [.addImmed regPC regPC pcRel.toNat]
      else [.subImmed regPC regPC (-pcRel).toNat], offset)
  else ([], newOffset)

def advancePC (pcRel offset : ℤ) : List Op × ℤ :=
  let pcRel := pcRel + offset
  if pcRel > 120 ∨ pcRel < -120 then
    (if pcRel > 0 then [.addImmed regPC regPC pcRel.toNat]
      else [.subImmed regPC regPC (-pcRel).toNat], 0)
  else ([], pcRel)

def flushPC (pcRel : ℤ) : List Op :=
  if pcRel > 0 then [.addImmed regPC regPC pcRel.toNat]
  else if pcRel < 0 then [.subImmed regPC regPC (-pcRel).toNat]
  else []

/-- `rd` becomes the program counter plus an offset. The bounds are those of the immediate forms at
the place of use. -/
def addOffset (rd tmp : Reg) (above below offset : ℤ) : List Op :=
  if 0 < offset ∧ offset < above then [.addImmed rd regPC offset.toNat]
  else if -below < offset ∧ offset < 0 then [.subImmed rd regPC (-offset).toNat]
  else if offset ≠ 0 then
    emitLoadImmediate tmp (BitVec.ofInt 32 offset) ++ [.addReg rd regPC tmp .LSL 0]
  else []

def getCC (ctx : Context) : List Op := if ctx.ccLoaded then [] else [.movSimdToReg ctx.cc .sr]

def getFPSR (ctx : Context) : List Op :=
  if ctx.fpsrLoaded then [] else [.movSimdToReg ctx.fpsr .fpsr]

/-- The pending offset is zero where the branches end. -/
def localExit (ctx : Context) (insnFixup : ℕ) : List Op :=
  [Op.movSimdToReg 0 .insnCount] ++
    (if ctx.ccLoaded && ctx.ccModified then [Op.movRegToSimd .sr ctx.cc] else []) ++
    (match ctx.fpcrModified with
      | some fpcr => [Op.movRegToSimd .fpcr fpcr]
      | none => []) ++
    (if ctx.fpsrLoaded && ctx.fpsrModified then [Op.movRegToSimd .fpsr ctx.fpsr] else []) ++
    [Op.add64Immed 0 0 ((ctx.insnCount + insnFixup) % 4096), .movRegToSimd .insnCount 0] ++
    (match ctx.valFPIAR with
      | some value => emitLoadImmediate 0 value ++ [Op.movRegToSimd .fpiar 0]
      | none => [])

def ops (code : List Op) : List Item := code.map .op

/-! ### Conditions -/

/-- The conditions of one flag look at the host flag where it is valid, else at the bit. -/
def exitOnFlag (ctx : Context) (flag : Mask) (cond : Cond) (bit : ℕ) (value : Bool) : List Item :=
  if ctx.hostFlags &&& flag ≠ 0 then [.exitIf cond] else [.exitIfBit ctx.cc bit value]

/-- The conditions of several flags copy all of them if one is not valid. -/
def exitOnCopy (ctx : Context) (flags : Mask) (cond : Cond) : List Item :=
  if ctx.hostFlags &&& flags = flags then [.exitIf cond]
  else [.op (ror ctx.tmp ctx.cc 4), .op (.setNzcv ctx.tmp), .exitIf cond]

def srNV : Mask := 0x0a

def jumpOnCondition (ctx : Context) (condition : Condition) : List Item :=
  match condition.toNat with
  | 0x7 => exitOnFlag ctx srZ ccEQ 2 true
  | 0x6 => exitOnFlag ctx srZ ccNE 2 false
  | 0x5 => exitOnFlag ctx srC ccCS 1 true
  | 0x4 => exitOnFlag ctx srC ccCC 1 false
  | 0xa => exitOnFlag ctx srN ccPL 3 false
  | 0xb => exitOnFlag ctx srN ccMI 3 true
  | 0x9 => exitOnFlag ctx srV ccVS 0 true
  | 0x8 => exitOnFlag ctx srV ccVC 0 false
  | 0x3 => [.op (tstImmed ctx.cc 2 31), .exitIf ccNE]
  | 0x2 => [.op (tstImmed ctx.cc 2 31), .exitIf ccEQ]
  | 0xc => exitOnCopy ctx srNV ccGE
  | 0xd => exitOnCopy ctx srNV ccLT
  | 0xe => exitOnCopy ctx srNZV ccGT
  | 0xf => exitOnCopy ctx srNZV ccLE
  | _ => [.udf]

def fpsrbN : BitVec 8 := 27
def fpsrbZ : BitVec 8 := 26
def fpsrbI : BitVec 8 := 25
def fpsrbNAN : BitVec 8 := 24

/-- The rotation that brings the lowest bit to a place. -/
def rorTo (bit : BitVec 8) : BitVec 8 := 31 &&& (32 - bit)

/-- The test of a predicate, and the host condition on which it is true. -/
def fpuTest (ctx : Context) (predicate : BitVec 4) : List Item × Cond :=
  let fpsr := ctx.fpsr
  let tmp := ctx.tmp
  let host := ctx.hostFlags = fpFlags
  match predicate.toNat with
  | 0x1 => if host then ([], ccEQ) else ([.op (tstImmed fpsr 1 (rorTo fpsrbZ))], ccNE)
  | 0xe => if host then ([], ccNE) else ([.op (tstImmed fpsr 1 (rorTo fpsrbZ))], ccEQ)
  | 0x2 =>
    if host then ([], ccGT)
    else ([.op (.movImmedU16 tmp 0x0d00 1), .op (tstReg fpsr tmp .LSL 0)], ccEQ)
  | 0xd => ([.op (.movImmedU16 tmp 0x0d00 1), .op (tstReg fpsr tmp .LSL 0)], ccNE)
  | 0x3 =>
    if host then ([], ccGE)
    else ([.op (tstImmed fpsr 1 (rorTo fpsrbZ)), .bCc ccNE 4,
      .op (.orrReg tmp fpsr fpsr .LSL 3), .op (.eorImmed tmp tmp 1 (rorTo fpsrbN)),
      .op (tstImmed tmp 1 (rorTo fpsrbN))], ccNE)
  | 0xc =>
    ([.op (tstImmed fpsr 1 (rorTo fpsrbNAN)), .bCc ccNE 4,
      .op (.eorImmed tmp fpsr 1 (rorTo fpsrbZ)), .op (.andReg tmp tmp tmp .LSL 1),
      .op (tstImmed tmp 1 (rorTo fpsrbN))], ccNE)
  | 0x4 =>
    if host then ([], ccLT)
    else ([.op (bicImmed tmp fpsr 1 (rorTo fpsrbI)), .op (.orrReg tmp tmp tmp .LSL 2),
      .op (.eorImmed tmp tmp 1 (rorTo fpsrbN)), .op (tstImmed tmp 2 (rorTo fpsrbZ))], ccEQ)
  | 0xb =>
    ([.op (.eorImmed tmp fpsr 1 (rorTo fpsrbN)), .op (bicImmed tmp tmp 1 (rorTo fpsrbI)),
      .op (tstImmed tmp 4 (rorTo fpsrbNAN))], ccNE)
  | 0x5 =>
    if host then ([], ccLE)
    else ([.op (tstImmed fpsr 1 (rorTo fpsrbZ)), .bCc ccNE 4,
      .op (.eorImmed tmp fpsr 1 (rorTo fpsrbNAN)), .op (.andReg tmp tmp tmp .LSL 3),
      .op (tstImmed tmp 1 (rorTo fpsrbN))], ccNE)
  | 0xa =>
    ([.op (tstImmed fpsr 1 (rorTo fpsrbNAN)), .bCc ccNE 4,
      .op (.orrReg tmp fpsr fpsr .LSR 1), .op (mvnReg tmp tmp .LSL 0),
      .op (tstImmed tmp 1 (rorTo fpsrbZ))], ccNE)
  | 0x6 => ([.op (.movImmedU16 tmp 0x0500 1), .op (tstReg fpsr tmp .LSL 0)], ccEQ)
  | 0x9 => ([.op (.movImmedU16 tmp 0x0500 1), .op (tstReg fpsr tmp .LSL 0)], ccNE)
  | 0x7 => if host then ([], ccVC) else ([.op (tstImmed fpsr 1 (rorTo fpsrbNAN))], ccEQ)
  | 0x8 => if host then ([], ccVS) else ([.op (tstImmed fpsr 1 (rorTo fpsrbNAN))], ccNE)
  | 0x0 => ([], ccNV)
  | _ => ([], ccAL)

/-! ### The emitters

The opcode has been read, so `tc_M68kCodePtr` is behind it. -/

variable (ctx : Context) (icache : CodeMemory) (opcode : BitVec 16)

/-- The words of the displacement, its value, and the pointer behind it. -/
def readOffset : ℤ × ℤ × BitVec 64 :=
  if opcode &&& 0xff = 0 then
    (2, (icache.read16 (ctx.m68kCodePtr.setWidth 32)).toInt, ctx.m68kCodePtr + 2)
  else if opcode &&& 0xff = 0xff then
    (4, (icache.read32 (ctx.m68kCodePtr.setWidth 32)).toInt, ctx.m68kCodePtr + 4)
  else (0, (opcode.setWidth 8).toInt, ctx.m68kCodePtr)

/-- BSR pushes the address of the next instruction. -/
def pushReturn (returnOff : ℤ) : List Op :=
  addOffset ctx.tmp2 ctx.tmp2 256 256 returnOff ++
    [.strOffsetPreindex (mapM68kRegister 15) (if returnOff ≠ 0 then ctx.tmp2 else regPC) (-4)]

/-- BRA and BSR. Offsets are added as 32-bit numbers. -/
def emitBRA : Emission :=
  let (flush, currentPcOff) := getOffsetPC ctx.pcRel 2
  let (addend, braOff, codePtr) := readOffset ctx icache opcode
  let push := if opcode &&& 0x100 ≠ 0 then pushReturn ctx (addend + currentPcOff) else []
  let absOff := (currentPcOff + braOff).bmod (2 ^ 32)
  let inlined := (0x00f00000 : BitVec 64) ≤ codePtr ∧ -ctx.inlineDistance ≤ braOff ∧
    braOff ≤ ctx.inlineDistance
  { code := ops (flush ++ push ++ addOffset regPC ctx.tmp 4096 4096 absOff)
    exitBlock := []
    m68kCodePtr := if inlined then ctx.m68kCodePtr + BitVec.ofInt 64 braOff else codePtr
    pcRel := 0
    takeBranch := true
    marker := if inlined then none else some .stop }

/-- `take_branch`, where the automatic choice depends on the emitter. -/
def DefBranch.takes (auto : Bool) : DefBranch → Bool
  | .auto => auto
  | .taken => true
  | .notTaken => false

/-- A branch and a fall-through of which one goes to the exit block. -/
def emitExits (test : List Item) (takeBranch : Bool) (notTakenOff branchOff : ℤ) :
    List Item × List Op :=
  let notTaken := addOffset regPC 0 255 256 notTakenOff
  let taken := addOffset regPC 0 4096 4096 branchOff
  (test ++ ops (if takeBranch then taken else notTaken),
    (if takeBranch then notTaken else taken) ++ localExit ctx 1)

def emitBcc : Emission :=
  let condition : Condition := (opcode >>> 8).setWidth 4
  let (flush, localPcOff) := getOffsetPC ctx.pcRel 2
  let (addend, offset, codePtr) := readOffset ctx icache opcode
  let branchTarget := ctx.m68kCodePtr + BitVec.ofInt 64 offset
  let takeBranch := ctx.defBranch.takes
    (branchTarget.slt codePtr && (codePtr - branchTarget).slt defBranchAutoRange)
  let condition := if takeBranch then condition ^^^ 1 else condition
  let (code, exitBlock) := emitExits ctx
    (ops (flush ++ getCC ctx) ++ jumpOnCondition ctx condition)
    takeBranch (localPcOff - 2 + (addend + 2)) (offset + localPcOff)
  { code := code
    exitBlock := exitBlock
    m68kCodePtr := if takeBranch then branchTarget else codePtr
    pcRel := 0
    takeBranch := takeBranch
    marker := none }

def emitDBcc : Emission :=
  let counter := mapM68kRegister (opcode &&& 7).toNat
  let condition : Condition := (opcode >>> 8).setWidth 4
  let branchOffset := 2 + (icache.read16 (ctx.m68kCodePtr.setWidth 32)).toInt
  let codePtr := ctx.m68kCodePtr + 2
  let braRelPtr := codePtr - 4
  if condition = 0 then
    let (advance, pcRel) := advancePC ctx.pcRel 4
    { code := ops (.nop :: advance)
      exitBlock := []
      m68kCodePtr := codePtr
      pcRel := pcRel
      takeBranch := false
      marker := none }
  else
    let slowdown :=
      if ctx.dbfSlowdown ∧ condition = 1 ∧ branchOffset = 0 ∧ codePtr < (0x200000 : BitVec 64) then
        [.movImmedU16 ctx.tmp 0 0, .ldrbOffset ctx.tmp ctx.tmp2 0,
          .ldrbOffset ctx.tmp ctx.tmp2 0, .ldrbOffset ctx.tmp ctx.tmp2 0]
      else []
    let (flush, off8) := getOffsetPC ctx.pcRel 0
    let exitOnTrue :=
      if condition ≠ 1 then ops (getCC ctx) ++ jumpOnCondition ctx condition else []
    let count := [uxth ctx.tmp counter, .subsImmed ctx.tmp ctx.tmp 1, bfi counter ctx.tmp 0 16]
    let target := braRelPtr + BitVec.ofInt 64 branchOffset
    { code := ops (slowdown ++ flush) ++ exitOnTrue ++ ops count ++ [.exitIf ccMI] ++
        ops (addOffset regPC ctx.tmp 4096 4096 (branchOffset + off8))
      exitBlock := .addImmed regPC regPC (4 + off8).toNat :: localExit ctx 1
      m68kCodePtr := target
      pcRel := 0
      takeBranch := true
      marker := if target < ctx.m68kCodeStart then some .breakLoop else none }

/-- FNOP is FBF with a word. -/
def emitFNOP : Emission :=
  let (advance, pcRel) := advancePC ctx.pcRel 4
  { code := ops (advance ++ flushPC pcRel)
    exitBlock := []
    m68kCodePtr := ctx.m68kCodePtr + 2
    pcRel := 0
    takeBranch := false
    marker := none }

def emitFBcc : Emission :=
  let (test, successCondition) := fpuTest ctx (opcode.setWidth 4)
  let (flush, localPcOff) := getOffsetPC ctx.pcRel 2
  let address := ctx.m68kCodePtr.setWidth 32
  let (addend, offset, codePtr) : ℤ × ℤ × BitVec 64 :=
    if opcode &&& 0x40 = 0 then (2, (icache.read16 address).toInt, ctx.m68kCodePtr + 2)
    else
      let hi := icache.read16 address
      let lo := icache.read16 (address + 2)
      (4, ((lo.zeroExtend 32 ||| hi.zeroExtend 32 <<< 16).toInt), ctx.m68kCodePtr + 4)
  let takeBranch := ctx.defBranch.takes (offset < 0)
  let successCondition := if takeBranch then successCondition ^^^ 1 else successCondition
  let branchTarget := ctx.m68kCodePtr + BitVec.ofInt 64 offset
  let (code, exitBlock) := emitExits ctx
    (ops (getFPSR ctx) ++ test ++ ops flush ++ [.exitIf successCondition])
    takeBranch (localPcOff - 2 + (addend + 2)) (offset + localPcOff)
  { code := code
    exitBlock := exitBlock
    m68kCodePtr := if takeBranch then branchTarget else codePtr
    pcRel := 0
    takeBranch := takeBranch
    marker := none }

/-- The emitter of a branch. -/
def emitBranch : M68k.Branch → Emission
  | .bra => emitBRA ctx icache opcode
  | .bsr => emitBRA ctx icache opcode
  | .bcc _ => emitBcc ctx icache opcode
  | .dbcc _ _ => emitDBcc ctx icache opcode
  | .fbcc _ => if opcode = 0xf280 then emitFNOP ctx else emitFBcc ctx icache opcode

end Emu68.Branch

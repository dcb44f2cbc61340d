import Emu68.Ppc.BranchCode

/-!
The decoders of the PPC translator that concern the code pointer, the return stack, the program
counter or the link register. All other decoders emit code of their own and advance by one word.
-/

set_option autoImplicit false
set_option relaxedAutoImplicit false

namespace Emu68.Ppc

open A64 (Reg emitLoadImmediate movReg bicImmed cset cinc tstImmed ccEQ ccNE ccHI ccCC ccGT ccLT)

/-- The part of `PPCTranslatorContext` that the decoders here use, with the return stack. -/
structure Context where
  codePtr : CodePtr
  pcRel : ℤ
  insnCount : ℕ
  supervisorChecked : Bool
  returnStack : ReturnStack
  code : List Op

/-- What the register allocator answers while one instruction is translated. -/
structure Allocation where
  tmp : Fin 12
  tmp₂ : Fin 12
  cr : Reg
  source : Reg

/-- Answers of an allocator whose registers are free. -/
def firstRegs : Allocation := ⟨1, 2, 3, 4⟩

/-- The decoders that are not modelled: which instruction words they accept. -/
structure Others where
  accepts : Word → Bool

/-- `JIT_CONTROL`: how far a branch is followed. -/
def inlineRange (control : Word) : ℤ := ((control >>> 8) &&& 0xffff).toNat

/-- `JIT_CONTROL`: how many instructions a unit has. -/
def insnDepth (control : Word) : ℕ :=
  let depth := ((control >>> 24) &&& 0xff).toNat
  if depth = 0 then 256 else depth

/-- `JIT_CONTROL`: how often a loop is unrolled. -/
def maxLoopCount (control : Word) : ℕ :=
  let count := ((control >>> 4) &&& 0xf).toNat
  if count = 0 then 16 else count

namespace Context

def emit (tc : Context) (ops : List Op) : Context := { tc with code := tc.code ++ ops }

def emitStop (tc : Context) : Context := tc.emit [.stop]

def setPC (tc : Context) (pc : CodePtr) : Context := { tc with codePtr := pc }

def resetOffsetPC (tc : Context) : Context := { tc with pcRel := 0 }

def setReturnStack (tc : Context) (stack : ReturnStack) : Context :=
  { tc with returnStack := stack }

def push (tc : Context) (retAddr : CodePtr) : Context :=
  tc.setReturnStack (tc.returnStack.push retAddr)

/-- `add_immed` or `sub_immed` of a small distance. -/
def addSmall (rd rn : Reg) (delta : ℤ) : List Op :=
  if 0 ≤ delta then [.insn (.addImmed rd rn delta.natAbs)]
  else [.insn (.subImmed rd rn delta.natAbs)]

/-- The program counter is brought forward by an offset that is not zero. -/
def adjustPC (rel : ℤ) : List Op :=
  if 0 < rel then [.insn (.addImmed regPC regPC rel.natAbs)]
  else [.insn (.subImmed regPC regPC rel.natAbs)]

/-- The offset behind the instruction, with the program counter brought forward if the offset would
not fit into a signed byte. -/
def getOffsetPC (tc : Context) (offset : ℤ) : Context × ℤ :=
  if 127 < tc.pcRel + offset ∨ tc.pcRel + offset < -127 then
    ((tc.emit (adjustPC tc.pcRel)).resetOffsetPC, offset)
  else (tc, tc.pcRel + offset)

def advancePC (tc : Context) (offset : ℕ) : Context :=
  let tc := { tc with codePtr := tc.codePtr + BitVec.ofNat 64 offset, pcRel := tc.pcRel + offset }
  if 120 < tc.pcRel.natAbs then (tc.emit (adjustPC tc.pcRel)).resetOffsetPC else tc

def flushPC (tc : Context) : Context :=
  (tc.emit (if tc.pcRel = 0 then [] else adjustPC tc.pcRel)).resetOffsetPC

end Context

/-- `emitLoadImmediate` into the stream. -/
def loadImmediate (rd : Reg) (immed : Word) : List Op := (emitLoadImmediate rd immed).map .insn

/-- `emitAddImmediate`, and the same lines in `EMIT_bx`. -/
def addImmediate (rd tmp : Reg) (delta : ℤ) : List Op :=
  let distance := BitVec.ofNat 32 delta.natAbs
  if delta < 0 then
    if distance &&& 0xfffff000 = 0 then [.insn (.subImmed rd rd distance.toNat)]
    else if distance &&& 0xff000fff = 0 then [.subImmedLsl12 rd rd (distance >>> 12).toNat]
    else loadImmediate tmp distance ++ [.subReg rd rd tmp]
  else if 0 < delta then
    if distance &&& 0xfffff000 = 0 then [.insn (.addImmed rd rd distance.toNat)]
    else if distance &&& 0xff000fff = 0 then [.addImmedLsl12 rd rd (distance >>> 12).toNat]
    else loadImmediate tmp distance ++ [.insn (.addReg rd rd tmp .LSL 0)]
  else []

/-- The link register takes the address behind the instruction. -/
def emitLink (pcOffset : ℤ) : List Op := Context.addSmall regLR regPC pcOffset

/-- The supervisor check before privileged code, and its exit block after it. Only the first one
of a unit emits anything. -/
def withSupervisorCheck (tc : Context) (tmp : Reg) (emitRest : Context → Context) : Context :=
  if tc.supervisorChecked then emitRest tc
  else
    (emitRest { (tc.flushPC.emit [.body, .tbnz tmp 14]) with supervisorChecked := true }).emit
      [.exitBlock]

/-- The part of an exception that changes the program counter. -/
def emitException (type : BitVec 16) : List Op :=
  [.body, .insn (.movImmedU16 regPC type 0), .insn (.movkImmedU16 regPC 0xfff0 1), .body]

/-! ### Branches -/

/-- How far a branch goes; the difference of the pointers counts words. -/
def branchDistance (oldPc : CodePtr) (tc : Context) : ℤ :=
  4 * ((tc.codePtr - oldPc).sshiftRight 2).toInt

/-- A branch out of the range in which branches are followed ends the unit. -/
def stopIfFar (control : Word) (oldPc : CodePtr) (tc : Context) : Context :=
  let distance := branchDistance oldPc tc
  if distance > inlineRange control ∨ distance < -inlineRange control then tc.emitStop else tc

def emitBx (control : Word) (regs : Allocation) (opcode : Word) (tc : Context) : Context :=
  let offset : Word :=
    if (opcode &&& 0x03fffffc) &&& 0x02000000 ≠ 0 then (opcode &&& 0x03fffffc) ||| 0xfc000000
    else opcode &&& 0x03fffffc
  let oldPc := tc.codePtr
  let (tc, pcOffset) := tc.getOffsetPC 4
  let tc := if opcode &&& 1 ≠ 0 then (tc.push (tc.codePtr + 4)).emit (emitLink pcOffset) else tc
  let tc := tc.resetOffsetPC
  let tc :=
    if opcode &&& 2 ≠ 0 then (tc.setPC (offset.setWidth 64)).emit (loadImmediate regPC offset)
    else
      (tc.setPC (tc.codePtr + offset.signExtend 64)).emit
        (addImmediate regPC regs.tmp (pcOffset + offset.toInt - 4))
  let tc' := stopIfFar control oldPc tc
  if branchDistance oldPc tc = 0 then tc'.emit [.insn .nop, .softBreak] else tc'

/-- The fields `BO` and `BI` of a conditional branch. -/
def fieldBO (opcode : Word) : Word := (opcode >>> 21) &&& 31
def fieldBI (opcode : Word) : Word := (opcode >>> 16) &&& 31

/-- The code that decrements the counter and tests the condition, and the condition under which the
branch is taken. -/
def testBranch (regs : Allocation) (bo bi : Word) : List Op × A64.Cond :=
  let conditionTrue := bo &&& 8 ≠ 0
  if bo &&& 4 = 0 then
    let counted : A64.Cond := if bo &&& 2 ≠ 0 then ccEQ else ccNE
    if bo &&& 16 = 0 then
      ([.insn (.subsImmed regCTR regCTR 1), .insn (cset regs.tmp counted), .body,
        .insn (tstImmed regs.cr 1 (((1 + bi) &&& 31).setWidth 8)),
        .insn (cinc regs.tmp regs.tmp (if conditionTrue then ccNE else ccEQ)),
        .insn (tstImmed regs.tmp 1 31)], ccNE)
    else ([.insn (.subsImmed regCTR regCTR 1)], counted)
  else ([], if conditionTrue then ccNE else ccEQ)

def emitBcx (control : Word) (regs : Allocation) (opcode : Word) (tc : Context) : Context :=
  let bo := fieldBO opcode
  let bi := fieldBI opcode
  let sign := opcode &&& 0x8000 ≠ 0
  let takeBranch := (bo &&& 1 = 0 ∧ sign) ∨ (bo &&& 1 ≠ 0 ∧ ¬ sign)
  let offset : Word :=
    if sign then (opcode &&& 0x0000fffc) ||| 0xffff0000 else opcode &&& 0x0000fffc
  let isAbsolute := opcode &&& 2 ≠ 0
  let oldPc := tc.codePtr
  let branchTarget : Word := if isAbsolute then offset else oldPc.setWidth 32 + offset
  let (tc, pcOffset) := tc.getOffsetPC 4
  let tc := if opcode &&& 1 ≠ 0 then (tc.push (tc.codePtr + 4)).emit (emitLink pcOffset) else tc
  let tc := tc.resetOffsetPC
  let jump :=
    if isAbsolute then loadImmediate regPC offset
    else addImmediate regPC regs.tmp₂ (pcOffset + offset.toInt - 4)
  let tc :=
    if bo &&& 0b10100 = 0b10100 then
      (tc.setPC (if isAbsolute then offset.setWidth 64 else tc.codePtr + offset.signExtend 64)).emit
        jump
    else
      let (test, success) := testBranch regs bo bi
      let leave := if takeBranch then success ^^^ 1 else success
      let tc := (tc.emit test).setPC
        (if takeBranch then branchTarget.setWidth 64 else tc.codePtr + 4)
      let tc := tc.emit
        (if bo &&& 4 ≠ 0 then
          [.body, (if leave = ccEQ then Op.tbz else Op.tbnz) regs.cr (31 - bi.toNat)]
        else [.bCc leave])
      (tc.emit (if takeBranch then jump else addImmediate regPC regs.tmp₂ pcOffset)).emit [.exitBlock]
  stopIfFar control oldPc tc

/-- The program counter takes the link register, which takes the address behind the instruction if
the branch is a call. -/
def emitReturn (regs : Allocation) (opcode : Word) (pcOffset : ℤ) : List Op :=
  if opcode &&& 1 ≠ 0 then
    .insn (bicImmed regs.tmp₂ regLR 2 0) :: emitLink pcOffset ++ [.insn (movReg regPC regs.tmp₂)]
  else [.insn (bicImmed regPC regLR 2 0)]

/-- Goes on at the address that was popped, if there was one. -/
def followReturn (lastPc : Option CodePtr) (tc : Context) : Context :=
  match lastPc with
  | some pc => tc.setPC pc
  | none => tc.emitStop

def emitBclrx (regs : Allocation) (opcode : Word) (tc : Context) : Option Context :=
  if opcode &&& 0x0000f800 ≠ 0 then none
  else
    let bo := fieldBO opcode
    let updateLR := opcode &&& 1 ≠ 0
    let (lastPc, stack) := tc.returnStack.pop
    let tc := tc.setReturnStack stack
    if bo &&& 0b10100 = 0b10100 then
      let (tc, pcOffset) := if updateLR then tc.getOffsetPC 4 else (tc, 4)
      let tc := if updateLR then tc.push (tc.codePtr + 4) else tc
      let tc := followReturn lastPc (tc.emit (emitReturn regs opcode pcOffset))
      some tc.resetOffsetPC
    else
      let tc := tc.setReturnStack .reset
      let (tc, pcOffset) := tc.getOffsetPC 4
      let tc := tc.resetOffsetPC
      let takeBranch := bo &&& 1 ≠ 0
      let (test, success) := testBranch regs bo (fieldBI opcode)
      let test := if bo &&& 4 ≠ 0 then
        [.body, .insn (tstImmed regs.cr 1 (((1 + fieldBI opcode) &&& 31).setWidth 8))] else test
      let tc := tc.emit (test ++ [.bCc (if takeBranch then success ^^^ 1 else success)])
      if takeBranch then
        let tc := if updateLR then tc.push (tc.codePtr + 4) else tc
        let tc := followReturn lastPc (tc.emit (emitReturn regs opcode pcOffset))
        some (tc.emit [.exitBlock])
      else
        let tc := (tc.emit (addImmediate regPC regs.tmp pcOffset)).setPC (tc.codePtr + 4)
        let tc := if updateLR then tc.push (tc.codePtr + 4) else tc
        some (tc.emit [.exitBlock])

def emitBcctrx (opcode : Word) (tc : Context) : Option Context :=
  if opcode &&& 0x0000f800 ≠ 0 then none
  else if fieldBO opcode &&& 0b10100 = 0b10100 then
    let (tc, pcOffset) := if opcode &&& 1 ≠ 0 then tc.getOffsetPC 4 else (tc, 4)
    let tc := if opcode &&& 1 ≠ 0 then tc.emit (emitLink pcOffset) else tc
    some ((tc.emit [.insn (bicImmed regPC regCTR 2 0)]).emitStop.resetOffsetPC)
  else none

/-! ### System instructions -/

def emitSc (opcode : Word) (tc : Context) : Option Context :=
  if opcode ≠ 0x44000002 then none
  else some (((tc.advancePC 4).flushPC.emit (emitException 0xc00)).emitStop)

def emitRfi (regs : Allocation) (opcode : Word) (tc : Context) : Option Context :=
  if opcode ≠ 0x4c000064 then none
  else some (withSupervisorCheck tc regs.tmp fun tc ↦
    ((tc.emit [.body, .loadOffset regPC, .insn (bicImmed regPC regPC 2 0)]).resetOffsetPC).emitStop)

/-- The conditions under which a trap instruction leaves. -/
def trapCases (TO : Word) : List Op :=
  (if TO &&& 1 ≠ 0 then [Op.bCc ccHI] else []) ++ (if TO &&& 2 ≠ 0 then [Op.bCc ccCC] else []) ++
  (if TO &&& 4 ≠ 0 then [Op.bCc ccEQ] else []) ++ (if TO &&& 8 ≠ 0 then [Op.bCc ccGT] else []) ++
  (if TO &&& 16 ≠ 0 then [Op.bCc ccLT] else [])

def emitTrap (opcode : Word) (tc : Context) : Context :=
  let TO := (opcode >>> 21) &&& 31
  if TO = 0 then (tc.emit [.insn .nop]).advancePC 4
  else if TO = 31 then (tc.flushPC.emit (emitException 0x700)).emitStop
  else (((tc.flushPC.emit [.body]).emit (trapCases TO)).emit [.exitBlock]).advancePC 4

def emitTw (opcode : Word) (tc : Context) : Option Context :=
  if opcode &&& 1 ≠ 0 then none else some (emitTrap opcode tc)

def emitTwi (opcode : Word) (tc : Context) : Option Context := some (emitTrap opcode tc)

/-- The number of a special purpose register, whose halves are exchanged. -/
def fieldSpr (opcode : Word) : Word :=
  let spr := (opcode >>> 11) &&& 0x3ff
  ((spr >>> 5) &&& 0x1f) ||| ((spr &&& 0x1f) <<< 5)

def emitMtspr (regs : Allocation) (opcode : Word) (tc : Context) : Option Context :=
  if opcode &&& 1 ≠ 0 then none
  else
    let spr := fieldSpr opcode
    let tc := tc.emit [.body]
    if spr &&& 0x10 ≠ 0 then
      some (withSupervisorCheck tc regs.tmp fun tc ↦ (tc.emit [.body]).advancePC 4)
    else if spr = 8 then
      some (((tc.emit [.insn (movReg regLR regs.source)]).setReturnStack .reset).advancePC 4)
    else if spr = 1 ∨ spr = 9 then some ((tc.emit [.body]).advancePC 4)
    else none

def emitMfspr (regs : Allocation) (opcode : Word) (tc : Context) : Option Context :=
  if opcode &&& 1 ≠ 0 then none
  else
    let spr := fieldSpr opcode
    if spr &&& 0x10 ≠ 0 then
      some (withSupervisorCheck tc regs.tmp fun tc ↦ (tc.emit [.body]).advancePC 4)
    else if spr ∈ ([1, 8, 9, 900, 901, 902, 903, 904] : List Word) then
      some ((tc.emit [.body]).advancePC 4)
    else none

def emitMfmsr (regs : Allocation) (opcode : Word) (tc : Context) : Option Context :=
  if opcode &&& 0x001ff801 ≠ 0 then none
  else some (withSupervisorCheck tc regs.tmp fun tc ↦ (tc.emit [.body]).advancePC 4)

def emitMtmsr (regs : Allocation) (opcode : Word) (tc : Context) : Option Context :=
  if opcode &&& 0x001ff801 ≠ 0 then none
  else some (withSupervisorCheck tc regs.tmp fun tc ↦ ((tc.emit [.body]).advancePC 4).emitStop)

def emitDcbi (regs : Allocation) (opcode : Word) (tc : Context) : Option Context :=
  if opcode &&& 0x03e00001 ≠ 0 then none
  else some (withSupervisorCheck tc regs.tmp fun tc ↦ (tc.emit [.body]).advancePC 4)

/-- The marker is in front of what `advancePC` emits. -/
def emitIsync (opcode : Word) (tc : Context) : Option Context :=
  if opcode &&& 0x03fff801 ≠ 0 then none else some ((tc.emit [.body, .stop]).advancePC 4)

/-- The next instruction word belongs to the constant too if it loads the lower half. -/
def fusesAddis (opcode opcode₂ : Word) : Bool :=
  let rd := (opcode >>> 21) &&& 31
  let expected := (rd <<< 21) ||| (rd <<< 16)
  decide (opcode₂ &&& (0xffff0000 : Word) = expected ||| (24 : Word) <<< 26) ||
    decide (opcode₂ &&& (0xffff8000 : Word) = expected ||| (14 : Word) <<< 26)

def emitAddis (opcode opcode₂ : Word) (tc : Context) : Context × ℕ :=
  if (opcode >>> 16) &&& 31 = 0 ∧ fusesAddis opcode opcode₂ then
    ((tc.emit [.body]).advancePC 8, 2)
  else ((tc.emit [.body]).advancePC 4, 1)

/-! ### All instructions -/

def emitOther (others : Others) (opcode : Word) (tc : Context) : Option Context :=
  if others.accepts opcode then some ((tc.emit [.body]).advancePC 4) else none

def emitGroup19 (others : Others) (regs : Allocation) (opcode : Word) (tc : Context) :
    Option Context :=
  match ((opcode >>> 1) &&& 0x3ff).toNat with
  | 0b0000010000 => emitBclrx regs opcode tc
  | 0b0000110010 => emitRfi regs opcode tc
  | 0b0010010110 => emitIsync opcode tc
  | 0b1000010000 => emitBcctrx opcode tc
  | _ => emitOther others opcode tc

def emitGroup31 (others : Others) (regs : Allocation) (opcode : Word) (tc : Context) :
    Option Context :=
  match ((opcode >>> 1) &&& 0x3ff).toNat with
  | 0b0000000100 => emitTw opcode tc
  | 0b0001010011 => emitMfmsr regs opcode tc
  | 0b0010010010 => emitMtmsr regs opcode tc
  | 0b0101010011 => emitMfspr regs opcode tc
  | 0b0111010011 => emitMtspr regs opcode tc
  | 0b0111010110 => emitDcbi regs opcode tc
  | _ => emitOther others opcode tc

/-- What a translation depends on: the instruction words as the instruction cache shows them, the
settings, and the decoders that are not modelled. -/
structure Environment where
  image : Word → Word
  control : Word
  others : Others

/-- One instruction, and the number of words it takes. The translator hangs on an instruction that
no decoder accepts. -/
def emitINSN (env : Environment) (regs : Allocation) (tc : Context) : Option (Context × ℕ) :=
  let opcode := env.image (tc.codePtr.setWidth 32)
  match (opcode >>> 26).toNat with
  | 0b000011 => (emitTwi opcode tc).map (·, 1)
  | 0b001111 => some (emitAddis opcode (env.image ((tc.codePtr + 4).setWidth 32)) tc)
  | 0b010000 => some (emitBcx env.control regs opcode tc, 1)
  | 0b010001 => (emitSc opcode tc).map (·, 1)
  | 0b010010 => some (emitBx env.control regs opcode tc, 1)
  | 0b010011 => (emitGroup19 env.others regs opcode tc).map (·, 1)
  | 0b011111 => (emitGroup31 env.others regs opcode tc).map (·, 1)
  | _ => (emitOther env.others opcode tc).map (·, 1)

end Emu68.Ppc

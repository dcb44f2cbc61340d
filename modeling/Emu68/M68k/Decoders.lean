import Emu68.Ppc.ReturnStack

/-!
The decoders of the m68k translator as far as they move the code pointer. A decoder advances over
the words of its instruction; branches that are followed then set the pointer to their target.
-/

set_option autoImplicit false
set_option relaxedAutoImplicit false

namespace Emu68.M68k

open Ppc (ReturnStack)

/-- A `uint16_t *` to m68k code: 64 bits wide, unlike m68k addresses. -/
abbrev CodePtr := BitVec 64

abbrev Address := BitVec 32

abbrev Opcode := BitVec 16

/-- The part of `TranslatorContext` that the decoders here use, with the return stack. -/
structure Context where
  codePtr : CodePtr
  codeStart : CodePtr
  returnStack : ReturnStack

/-- What a decoder did: the words that it advanced over and the words that it read, from the opcode
on, the address at which the translation goes on if that is not behind the words it advanced over,
its result, and the markers at the end of its code. -/
structure Decoded where
  advance : ℕ
  consumed : ℕ
  followed : Option CodePtr
  returnStack : ReturnStack
  insns : ℕ
  stop : Bool
  softBreak : Bool

/-- What a decoder that follows no branch did. Such decoders can translate several instructions at
once, and can raise an exception for words that they do not advance over. -/
structure Straight where
  advance : ℕ
  consumed : ℕ
  insns : ℕ
  insns_pos : 0 < insns
  stop : Bool

/-- What a translation depends on: the words as the instruction cache shows them, `JIT_CONTROL`,
and whether floating point instructions are left to the system. -/
structure Environment where
  image : Address → Opcode
  control : BitVec 32
  disableFPU : Bool

variable (env : Environment)

def Environment.cacheRead16 (pc : CodePtr) : Opcode := env.image (pc.setWidth 32)

def Environment.cacheRead32 (pc : CodePtr) : BitVec 32 :=
  env.cacheRead16 pc ++ env.cacheRead16 (pc + 2)

/-- `JIT_CONTROL`: how far `bra` and `bsr` are followed. -/
def inlineRange (control : BitVec 32) : ℤ := ((control >>> 8) &&& 0xffff).toNat

/-- `JIT_CONTROL`: how many instructions a unit has. -/
def insnDepth (control : BitVec 32) : ℕ :=
  let depth := ((control >>> 24) &&& 0xff).toNat
  if depth = 0 then 256 else depth

/-- `JIT_CONTROL`: how often a loop is unrolled. -/
def maxLoopCount (control : BitVec 32) : ℕ :=
  let count := ((control >>> 4) &&& 0xf).toNat
  if count = 0 then 16 else count

def branchAutoRange : ℤ := 128

def Context.straight (tc : Context) (s : Straight) : Decoded :=
  ⟨s.advance, s.consumed, none, tc.returnStack, s.insns, s.stop, false⟩

/-! ### Branches -/

/-- The offset of `bra`, `bsr` or a conditional branch, and the extension words it takes. The
pointer is behind the opcode. -/
def lineOffset (opcode : Opcode) (pc : CodePtr) : CodePtr × ℕ :=
  if opcode &&& 0x00ff = 0 then ((env.cacheRead16 pc).signExtend 64, 1)
  else if opcode &&& 0x00ff = 0xff then ((env.cacheRead32 pc).signExtend 64, 2)
  else ((opcode.setWidth 8).signExtend 64, 0)

/-- `EMIT_BRA`, and `EMIT_BSR`, which is the same function. -/
def emitBRA (opcode : Opcode) (tc : Context) : Decoded :=
  let braRelPtr := tc.codePtr + 2
  let (braOff, ext) := lineOffset env opcode braRelPtr
  let behind := braRelPtr + BitVec.ofNat 64 (2 * ext)
  if 0x00f00000 ≤ behind ∧ -inlineRange env.control ≤ braOff.toInt ∧
      braOff.toInt ≤ inlineRange env.control then
    let stack :=
      if opcode &&& 0x0100 ≠ 0 then tc.returnStack.push behind else tc.returnStack
    ⟨1 + ext, 1 + ext, some (braRelPtr + braOff), stack, 1, false, false⟩
  else ⟨1 + ext, 1 + ext, none, tc.returnStack, 1, true, false⟩

/-- A branch backwards over a short distance is predicted to be taken. -/
def emitBcc (opcode : Opcode) (tc : Context) : Decoded :=
  let (branchOffset, ext) := lineOffset env opcode (tc.codePtr + 2)
  let behind := tc.codePtr + 2 + BitVec.ofNat 64 (2 * ext)
  let branchTarget := tc.codePtr + 2 + branchOffset
  let takeBranch :=
    branchTarget.slt behind && decide ((behind - branchTarget).toInt < branchAutoRange)
  ⟨1 + ext, 1 + ext, if takeBranch then some branchTarget else none, tc.returnStack, 1, false, false⟩

/-- The target is relative to the word behind the opcode. A loop that goes back before the start
of the unit is not followed further. -/
def emitDBcc (opcode : Opcode) (tc : Context) : Decoded :=
  if (opcode >>> 8) &&& 0x0f = 0 then ⟨2, 2, none, tc.returnStack, 1, false, false⟩
  else
    let branchOffset := 2 + (env.cacheRead16 (tc.codePtr + 2)).signExtend 64
    let target := tc.codePtr + branchOffset
    ⟨2, 2, some target, tc.returnStack, 1, false, decide (target < tc.codeStart)⟩

/-- The branch case of `EMIT_FPU`. Every branch backwards is predicted to be taken. -/
def emitFBcc (opcode : Opcode) (tc : Context) : Decoded :=
  let pc := tc.codePtr + 2
  let (branchOffset, ext) : CodePtr × ℕ :=
    if opcode &&& 0x0040 = 0 then ((env.cacheRead16 pc).signExtend 64, 1)
    else ((env.cacheRead16 pc ++ env.cacheRead16 (pc + 2)).signExtend 64, 2)
  let takeBranch := branchOffset.msb
  ⟨1 + ext, 1 + ext, if takeBranch then some (pc + branchOffset) else none, tc.returnStack, 1,
    false, false⟩

/-- `M68K_PopReturnAddress`, with its answer on an empty stack. -/
def popReturnAddress (stack : ReturnStack) : CodePtr × ReturnStack :=
  (stack.pop.1.getD 0xffffffff, stack.pop.2)

def emitRTS (tc : Context) : Decoded :=
  let (retAddr, stack) := popReturnAddress tc.returnStack
  if retAddr ≠ 0xffffffff then ⟨1, 1, some retAddr, stack, 1, false, false⟩
  else ⟨1, 1, none, stack, 1, true, false⟩

/-- The word behind the opcode is read, but not advanced over. -/
def emitRTD (tc : Context) : Decoded := ⟨1, 2, none, tc.returnStack, 1, true, false⟩

/-! ### All instructions -/

/-- `EmitINSN` with `line_array` and the tables of lines 4, 5, 6 and F; the other decoders answer
`others`. -/
def emitINSN (others : Straight) (tc : Context) : Decoded :=
  let opcode := env.cacheRead16 tc.codePtr
  match (opcode >>> 12).toNat with
  | 4 =>
    if opcode &&& 0xfff = 0xe74 then emitRTD tc
    else if opcode &&& 0xfff = 0xe75 then emitRTS tc
    else tc.straight others
  | 5 => if opcode &&& 0xf8 = 0xc8 then emitDBcc env opcode tc else tc.straight others
  | 6 =>
    if ((opcode >>> 8) &&& 15).toNat ≤ 1 then emitBRA env opcode tc else emitBcc env opcode tc
  | 15 =>
    if env.disableFPU = false ∧ opcode ≠ 0xf280 ∧ opcode &&& 0xff80 = 0xf280 then
      emitFBcc env opcode tc
    else tc.straight others
  | _ => tc.straight others

/-- The context behind a decoder. -/
def Context.after (tc : Context) (d : Decoded) : Context where
  codePtr := d.followed.getD (tc.codePtr + BitVec.ofNat 64 (2 * d.advance))
  codeStart := tc.codeStart
  returnStack := d.returnStack

end Emu68.M68k

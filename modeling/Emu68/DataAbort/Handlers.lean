import Emu68.DataAbort.Accesses

/-!
The handlers of `vectors.c` for accesses to places that are not mapped. They decode the instruction
once more and reach the bus through `SYSReadValFromAddr` and `SYSWriteValToAddr`, which are given.
The forms for the registers of floating point are left out.
-/

set_option autoImplicit false
set_option relaxedAutoImplicit false

namespace Emu68.DataAbort

open A64 Lib

/-- The bus; `none` and `false` are accesses that are not handled. -/
structure Bus where
  sysWriteValToAddr : BitVec 64 → BitVec 64 → ℕ → BitVec 64 → Bytes → Bytes × Bool
  sysReadValFromAddr : ℕ → BitVec 64 → Bytes → Option (BitVec 64 × BitVec 64)

/-- The bus without a PiStorm, a window that shows the memory. One address is a console. -/
def windowBus : Bus where
  sysWriteValToAddr value value2 size far m :=
    if far = 0xdeadbeef ∧ size = 1 then (m, true)
    else
      match size with
      | 1 | 2 | 4 | 8 => (store m far size value.toNat, true)
      | 16 => (store (store m far 8 value.toNat) (far + 8) 8 value2.toNat, true)
      | _ => (m, true)
  sysReadValFromAddr size far m :=
    match size with
    | 1 | 2 | 4 | 8 => some (BitVec.ofNat 64 (load m far size), 0)
    | 16 => some (BitVec.ofNat 64 (load m far 8), BitVec.ofNat 64 (load m (far + 8) 8))
    | _ => some (0, 0)

/-! ### Fields of the instruction -/

def getOPsize (opcode : Word) : ℕ :=
  if opcode &&& 0xc0000000 = 0 then 1
  else if opcode &&& 0xc0000000 = 0x40000000 then 2
  else if opcode &&& 0xc0000000 = 0x80000000 then 4
  else 8

/-- `(opcode >> lsb) & 31`. -/
def regNr (opcode : Word) (lsb : ℕ) : Reg := (opcode >>> lsb &&& 31).setWidth 5

/-- `((int16_t)(opcode >> 5)) >> 7`. -/
def offset9 (opcode : Word) : BitVec 16 := ((opcode >>> 5).setWidth 16).sshiftRight 7

/-- `((int16_t)(opcode >> 6)) >> 9`, times the size. -/
def offset7 (opcode : Word) (size : ℕ) : BitVec 16 :=
  ((opcode >>> 6).setWidth 16).sshiftRight 9 * BitVec.ofNat 16 size

/-- `(opcode >> 10) & 0xfff`. -/
def offset12 (opcode : Word) : Word := opcode >>> 10 &&& 0xfff

/-- The index register, extended and shifted. -/
def index (opcode : Word) (size : ℕ) (c : Context) : BitVec 64 :=
  let option := opcode >>> 13 &&& 7
  let rm := c.regs (regNr opcode 16)
  let rm :=
    if option = 0b010 then rm &&& 0xffffffff
    else if option = 0b110 then
      if rm &&& 0x80000000 ≠ 0 then rm ||| 0xffffffff00000000 else rm &&& 0x00000000ffffffff
    else rm
  if opcode &&& 0x1000 ≠ 0 then
    if size = 2 then rm <<< 1
    else if size = 4 then rm <<< 2
    else if size = 8 then rm <<< 3
    else rm
  else rm

/-- The pair is one of 64-bit registers. -/
def pairSize (opcode : Word) : ℕ := if opcode &&& 0x80000000 ≠ 0 then 8 else 4

/-! ### Stores -/

section Handlers

variable (bus : Bus)

def write (value value2 : BitVec 64) (size : ℕ) (far : BitVec 64) (c : Context) : Bool × Context :=
  let (memory, handled) := bus.sysWriteValToAddr value value2 size far c.memory
  (handled, { c with memory := memory })

/-- A register to store, unless it is the zero register. -/
def stored (opcode : Word) (lsb : ℕ) (c : Context) : BitVec 64 :=
  if opcode >>> lsb &&& 31 = 31 then 0 else c.regs (regNr opcode lsb)

def writePair (opcode : Word) (ptr : BitVec 64) (c : Context) : Bool × Context :=
  if pairSize opcode = 4 then
    let value := stored opcode 0 c <<< 32
    let value :=
      if opcode >>> 10 &&& 31 ≠ 31 then value ||| c.regs (regNr opcode 10) &&& 0xffffffff else value
    write bus value 0 8 ptr c
  else write bus (stored opcode 0 c) (stored opcode 10 c) 16 ptr c

/-- A register is written when the access is done. -/
def thenPut (r : Reg) (value : BitVec 64) (result : Bool × Context) : Bool × Context :=
  (result.1, result.2.put r value)

/-- The four forms of floating point. -/
def StoresFloat (opcode : Word) : Prop :=
  opcode &&& 0xbfe00c00 = 0xbc000000 ∨ opcode &&& 0xbfe00400 = 0xbc000400 ∨
  opcode &&& 0xbfc00000 = 0xbd000000 ∨ opcode &&& 0xbfe04c00 = 0xbc204800

instance (opcode : Word) : Decidable (StoresFloat opcode) :=
  inferInstanceAs (Decidable (_ ∨ _ ∨ _ ∨ _))

/-- `SYSPageFaultWriteHandler`; `none` is a form of floating point. -/
def sysPageFaultWriteHandler (word : Word) (c : Context) : Option (Bool × Context) :=
  let opcode := I32 word
  let size := getOPsize opcode
  let rn := regNr opcode 5
  let ptr := c.regs rn
  let offset := (offset9 opcode).signExtend 64
  if StoresFloat opcode then none
  else
    let (handled, c) :=
      if opcode &&& 0x3fe00c00 = 0x38000000 then
        write bus (stored opcode 0 c) 0 size (ptr + offset) c
      else if opcode &&& 0x3fe00400 = 0x38000400 then
        let preIndex := opcode &&& 0x800 ≠ 0
        thenPut rn (ptr + offset)
          (write bus (stored opcode 0 c) 0 size (if preIndex then ptr + offset else ptr) c)
      else if opcode &&& 0x3fc00000 = 0x39000000 then
        let offset := (offset12 opcode * BitVec.ofNat 32 size).setWidth 16
        write bus (stored opcode 0 c) 0 size (ptr + offset.setWidth 64) c
      else if opcode &&& 0x3fe00c00 = 0x38200800 then
        write bus (stored opcode 0 c) 0 size (ptr + index opcode size c) c
      else if opcode &&& 0x3fe07c00 = 0x08007c00 then
        -- the store is marked as successful before it is tried
        write bus (stored opcode 0 c) 0 size ptr (c.put (regNr opcode 16) 0)
      else if opcode &&& 0x7fc00000 = 0x29000000 then
        writePair bus opcode (ptr + (offset7 opcode (pairSize opcode)).signExtend 64) c
      else if opcode &&& 0x7fc00000 = 0x28800000 then
        thenPut rn (ptr + (offset7 opcode (pairSize opcode)).signExtend 64)
          (writePair bus opcode ptr c)
      else if opcode &&& 0x7fc00000 = 0x29800000 then
        let ptr := ptr + (offset7 opcode (pairSize opcode)).signExtend 64
        thenPut rn ptr (writePair bus opcode ptr c)
      else
        -- the flush of a cache line is ignored
        (opcode &&& 0xffffffe0 == 0xd50b7e20, c)
    some (handled, c.next)

/-! ### Loads -/

/-- A value is read, and used if it could be. -/
def read (size : ℕ) (far : BitVec 64) (c : Context) (use : BitVec 64 → Context) : Bool × Context :=
  match bus.sysReadValFromAddr size far c.memory with
  | some (value, _) => (true, use value)
  | none => (false, c)

def readPair (opcode : Word) (far : BitVec 64) (c : Context) : Bool × Context :=
  let rt1 := regNr opcode 0
  let rt2 := regNr opcode 10
  if pairSize opcode = 4 then
    read bus 8 far c fun tmp ↦ (c.put rt1 (tmp >>> 32)).put rt2 (tmp &&& 0xffffffff)
  else
    match bus.sysReadValFromAddr 16 far c.memory with
    | some (tmp1, tmp2) => (true, (c.put rt1 tmp1).put rt2 tmp2)
    | none => (false, c)

/-- LDPSW extends both words. -/
def readSigned (opcode : Word) (far : BitVec 64) (c : Context) : Bool × Context :=
  let extended := fun tmp : BitVec 64 ↦
    if tmp &&& 0x80000000 ≠ 0 then tmp ||| 0xffffffff00000000 else tmp
  read bus 8 far c fun tmp ↦ (c.put (regNr opcode 0) (extended (tmp >>> 32))).put (regNr opcode 10)
    (extended (tmp &&& 0xffffffff))

/-- A byte, half word or word extended with its sign, to 64 bits or to 32. -/
def signExtended (size : ℕ) (sext64 : Bool) (tmp : BitVec 64) : BitVec 64 :=
  let (sext, tmp) :=
    if size = 1 then
      (decide (tmp &&& 0x80 ≠ 0), if tmp &&& 0x80 ≠ 0 then tmp ||| 0xffffff00 else tmp)
    else if size = 2 then
      (decide (tmp &&& 0x8000 ≠ 0), if tmp &&& 0x8000 ≠ 0 then tmp ||| 0xffff0000 else tmp)
    else if size = 4 then (decide (tmp &&& 0x80000000 ≠ 0), tmp)
    else (false, tmp)
  if sext && sext64 then tmp ||| 0xffffffff00000000 else tmp

/-- The forms of floating point; two of the nine have one test. -/
def LoadsFloat (opcode : Word) : Prop :=
  opcode &&& 0xfee00c00 = 0xbc400000 ∨ opcode &&& 0xff400000 = 0xbd400000 ∨
  opcode &&& 0xfee00c00 = 0xbc400400 ∨ opcode &&& 0xfee00c00 = 0xbc400c00 ∨
  opcode &&& 0xfee00c00 = 0xfc400000 ∨ opcode &&& 0xff400000 = 0xfd400000 ∨
  opcode &&& 0xfee00c00 = 0xfc600800 ∨ opcode &&& 0xfee00c00 = 0xfc400400

instance (opcode : Word) : Decidable (LoadsFloat opcode) :=
  inferInstanceAs (Decidable (_ ∨ _ ∨ _ ∨ _ ∨ _ ∨ _ ∨ _ ∨ _))

/-- The first chain of tests ends with LDP. -/
def loadPair (opcode : Word) (c : Context) : Bool × Context :=
  let rn := regNr opcode 5
  let ptr := c.regs rn
  let offset := (offset7 opcode (pairSize opcode)).signExtend 64
  if opcode &&& 0x7fc00000 = 0x29400000 then readPair bus opcode (ptr + offset) c
  else if opcode &&& 0x7ec00000 = 0x28c00000 then
    thenPut rn (ptr + offset)
      (readPair bus opcode (if opcode &&& 0x01000000 ≠ 0 then ptr + offset else ptr) c)
  else (false, c)

/-- The second one begins with LDPSW, and keeps what the first one did if none of its own apply. -/
def loadSingle (opcode : Word) (far : BitVec 64) (handled : Bool) (c : Context) : Bool × Context :=
  let size := getOPsize opcode
  let rn := regNr opcode 5
  let rt := regNr opcode 0
  let ptr := c.regs rn
  let offset := (offset9 opcode).signExtend 64
  let sext64 := opcode &&& 0x400000 == 0
  if opcode &&& 0xffc00000 = 0x69400000 then
    readSigned bus opcode (ptr + (offset7 opcode 4).signExtend 64) c
  else if opcode &&& 0xffc00000 = 0x68c00000 then
    thenPut rn (ptr + (offset7 opcode 4).signExtend 64) (readSigned bus opcode ptr c)
  else if opcode &&& 0xffc00000 = 0x69c00000 then
    let ptr := ptr + (offset7 opcode 4).signExtend 64
    thenPut rn ptr (readSigned bus opcode ptr c)
  else if opcode &&& 0xbf000000 = 0x18000000 ∨ opcode &&& 0xff000000 = 0x98000000 then
    -- without the extension the value is dropped
    read bus (if opcode &&& 0x40000000 ≠ 0 then 8 else 4) far c fun tmp ↦
      if opcode &&& 0x80000000 ≠ 0 then
        c.put rt (if tmp &&& 0x80000000 ≠ 0 then tmp ||| 0xffffffff00000000 else tmp)
      else c
  else if opcode &&& 0x3fe00c00 = 0x38600800 then
    read bus size (ptr + index opcode size c) c fun tmp ↦ c.put rt tmp
  else if opcode &&& 0x3ffffc00 = 0x085f7c00 then
    read bus size far c fun tmp ↦ c.put rt tmp
  else if opcode &&& 0x3fc00000 = 0x39400000 then
    read bus size (ptr + (offset12 opcode).setWidth 64 * BitVec.ofNat 64 size) c
      fun tmp ↦ c.put rt tmp
  else if opcode &&& 0x3fe00c00 = 0x38400000 then
    read bus size (ptr + offset) c fun tmp ↦ c.put rt tmp
  else if opcode &&& 0x3fe00400 = 0x38400400 then
    read bus size (if opcode &&& 0x800 ≠ 0 then ptr + offset else ptr) c
      fun tmp ↦ (c.put rt tmp).put rn (ptr + offset)
  else if opcode &&& 0x3fa00c00 = 0x38a00800 then
    read bus size (ptr + index opcode size c) c fun tmp ↦ c.put rt (signExtended size sext64 tmp)
  else if opcode &&& 0x3f800000 = 0x39800000 then
    read bus size (ptr + (offset12 opcode * BitVec.ofNat 32 size).setWidth 64) c
      fun tmp ↦ c.put rt (signExtended size sext64 tmp)
  else if opcode &&& 0x3fa00c00 = 0x38800000 then
    read bus size (ptr + offset) c fun tmp ↦ c.put rt (signExtended size sext64 tmp)
  else if opcode &&& 0x3fa00400 = 0x38800400 then
    read bus size (if opcode &&& 0x800 ≠ 0 then ptr + offset else ptr) c
      fun tmp ↦ (c.put rt (signExtended size sext64 tmp)).put rn (ptr + offset)
  else (handled, c)

/-- `SYSPageFaultReadHandler`; `none` is a form of floating point. -/
def sysPageFaultReadHandler (word : Word) (far : BitVec 64) (c : Context) :
    Option (Bool × Context) :=
  let opcode := I32 word
  if LoadsFloat opcode then none
  else
    let (handled, c) := loadPair bus opcode c
    let (handled, c) := loadSingle bus opcode far handled c
    some (handled, c.next)

/-- `SYSHandler`, the branch of a data abort; `none` is another exception, too. -/
def sysHandler (vector : Word) (esr far : BitVec 64) (word : Word) (c : Context) :
    Option (Bool × Context) :=
  if vector &&& 0x1ff = 0 ∧ esr &&& 0xf8000000 = 0x90000000 then
    let writeFault := esr &&& 0x40 ≠ 0
    if writeFault then sysPageFaultWriteHandler bus word c
    else sysPageFaultReadHandler bus word far c
  else none

end Handlers

end Emu68.DataAbort

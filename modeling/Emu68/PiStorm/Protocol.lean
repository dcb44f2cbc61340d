import Emu68.Lib.Interference
import Mathlib.Data.BitVec

/-!
The two-slot bus protocol of the PiStorm32 (`pistorm/ps_protocol.c`): the accesses of the software
as lists of register operations, and the FPGA that executes started transactions in the order in
which they were started, alternating between its two slots. The FPGA is not part of the source; of
what lies behind it only a deterministic device is assumed. The direction of the GPIO pins
(`set_output`, `set_input`) is left out.
-/

set_option autoImplicit false
set_option relaxedAutoImplicit false

namespace Emu68.PiStorm

open Lib

/-! ### Transactions -/

/-- `SIZE_BYTE`, `SIZE_WORD` and `SIZE_LONG`. -/
inductive Size where
  | byte
  | word
  | long
deriving DecidableEq

def Size.code : Size → BitVec 16
  | .byte => 0
  | .word => 1
  | .long => 3

def txnSizeShift : ℕ := 8
def txnFcShift : ℕ := 11

/-- `TXN_READ` and `TXN_WRITE`. -/
def txnRead : BitVec 16 := 1 <<< 10
def txnWrite : BitVec 16 := 0 <<< 10

/-- `g_fc`, which is never set. -/
def gFc : BitVec 16 := 0

/-- The registers of a slot. -/
structure SlotRegs where
  dataLo : BitVec 16
  dataHi : BitVec 16
  addrLo : BitVec 16
  addrHi : BitVec 16

/-- A transfer on the bus of the Amiga, which has 24 address lines. The data of a write are those
that its size uses. -/
structure Txn where
  read : Bool
  fc : BitVec 5
  size : BitVec 2
  address : BitVec 24
  data : BitVec 32
deriving DecidableEq

/-- The data that a transfer of a size uses. -/
def usedData (size : BitVec 2) (data : BitVec 32) : BitVec 32 :=
  if size = 0 then (data.setWidth 8).setWidth 32
  else if size = 1 then (data.setWidth 16).setWidth 32
  else data

/-- What the registers of a slot tell the FPGA to do. -/
def SlotRegs.txn (r : SlotRegs) : Txn :=
  let read := r.addrHi.getLsbD 10
  let size := r.addrHi.extractLsb' 8 2
  { read := read
    fc := r.addrHi.extractLsb' 11 5
    size := size
    address := r.addrHi.setWidth 8 ++ r.addrLo
    data := if read then 0 else usedData size (r.dataHi ++ r.dataLo) }

/-- What lies behind the FPGA. -/
structure Device (σ : Type*) where
  transfer : σ → Txn → σ × BitVec 32

/-! ### The state -/

/-- Slots 0 and 1. -/
abbrev Slot := Bool

/-- The variables of the software, the FPGA with the device, the history of started transactions,
and what the software has read: the words of the access that goes on, and the values of those that
are finished. -/
structure State (σ : Type*) where
  nextSlot : Slot
  slotActive : Slot → Bool
  regSlot : Slot
  regs : Slot → SlotRegs
  running : Slot → Bool
  execSlot : Slot
  device : σ
  started : List Txn
  words : List (BitVec 16)
  results : List (BitVec 128)

inductive DataReg where
  | dataLo
  | dataHi
  | addrLo

def SlotRegs.write (r : SlotRegs) (value : BitVec 16) : DataReg → SlotRegs
  | .dataLo => { r with dataLo := value }
  | .dataHi => { r with dataHi := value }
  | .addrLo => { r with addrLo := value }

def SlotRegs.read (r : SlotRegs) : DataReg → BitVec 16
  | .dataLo => r.dataLo
  | .dataHi => r.dataHi
  | .addrLo => r.addrLo

/-- The widths of reads. -/
inductive Width where
  | bits (size : Size)
  | bits64
  | bits128

/-- The value of a read from the words in the order in which they are read. -/
def assemble (width : Width) (words : List (BitVec 16)) : BitVec 128 :=
  match width, words with
  | .bits .byte, [lo] => (lo.setWidth 8).setWidth 128
  | .bits .word, [lo] => lo.setWidth 128
  | .bits .long, [lo, hi] => (hi ++ lo).setWidth 128
  | .bits64, [w₃, w₂, w₁, w₀] => (w₃ ++ w₂ ++ w₁ ++ w₀).setWidth 128
  | .bits128, [w₇, w₆, w₅, w₄, w₃, w₂, w₁, w₀] => w₇ ++ w₆ ++ w₅ ++ w₄ ++ w₃ ++ w₂ ++ w₁ ++ w₀
  | _, _ => 0

inductive Instr where
  /-- `write_ps_reg_ps32(REG_SLOT, next_slot)` -/
  | selectSlot
  /-- `if (slot_active[next_slot]) wait_txn()` -/
  | waitIfActive
  /-- `wait_txn()` -/
  | waitTxn
  | writeReg (reg : DataReg) (value : BitVec 16)
  /-- A write to `REG_ADDR_HI`, which starts the transaction. -/
  | start (value : BitVec 16)
  /-- `slot_active[next_slot] = active` -/
  | setActive (active : Bool)
  /-- `next_slot = (next_slot + 1) & 1` -/
  | toggle
  | readReg (reg : DataReg)
  /-- The words become the value of a read. -/
  | result (width : Width)
  /-- The words are not used. -/
  | discard

variable {σ : Type*}

/-- `wait_txn` returns when the transaction of the selected slot has completed. -/
def Instr.enabled (i : Instr) (s : State σ) : Prop :=
  match i with
  | .waitIfActive => s.slotActive s.nextSlot = true → s.running s.regSlot = false
  | .waitTxn => s.running s.regSlot = false
  | _ => True

def Instr.exec (i : Instr) (s : State σ) : State σ :=
  match i with
  | .selectSlot => { s with regSlot := s.nextSlot }
  | .waitIfActive => s
  | .waitTxn => s
  | .writeReg reg value =>
    { s with regs := Function.update s.regs s.regSlot ((s.regs s.regSlot).write value reg) }
  | .start value =>
    let r := { s.regs s.regSlot with addrHi := value }
    { s with
      regs := Function.update s.regs s.regSlot r
      running := Function.update s.running s.regSlot true
      started := s.started ++ [r.txn] }
  | .setActive active => { s with slotActive := Function.update s.slotActive s.nextSlot active }
  | .toggle => { s with nextSlot := !s.nextSlot }
  | .readReg reg => { s with words := s.words ++ [(s.regs s.regSlot).read reg] }
  | .result width => { s with words := [], results := s.results ++ [assemble width s.words] }
  | .discard => { s with words := [] }

/-- The FPGA executes the transaction of the slot that is due, and turns to the other slot. A read
leaves its value in the data registers. -/
inductive Fpga (d : Device σ) : State σ → State σ → Prop
  | complete (s : State σ) (due : s.running s.execSlot = true) : Fpga d s
    (let r := s.regs s.execSlot
     let (device, value) := d.transfer s.device r.txn
     { s with
       regs := if r.txn.read then Function.update s.regs s.execSlot
           { r with dataLo := value.setWidth 16, dataHi := value.extractLsb' 16 16 }
         else s.regs
       running := Function.update s.running s.execSlot false
       execSlot := !s.execSlot
       device := device })

def protocol (d : Device σ) : Thread Instr (State σ) where
  enabled := Instr.enabled
  exec := Instr.exec
  env := Fpga d

/-- After the reset nothing runs, and software and FPGA are at slot 0. -/
def resetState (device : σ) (regSlot : Slot) (regs : Slot → SlotRegs) : State σ where
  nextSlot := false
  slotActive _ := false
  regSlot := regSlot
  regs := regs
  running _ := false
  execSlot := false
  device := device
  started := []
  words := []
  results := []

/-! ### The accesses -/

/-- The calls of `ps32_read_access`, `ps32_write_access` and their wide forms. -/
inductive Access where
  | read (address : BitVec 32) (size : Size)
  | read64 (address : BitVec 32)
  | read128 (address : BitVec 32)
  | write (address : BitVec 32) (data : BitVec 32) (size : Size)
  | write64 (address : BitVec 32) (data : BitVec 64)
  | write128 (address : BitVec 32) (hi lo : BitVec 64)

/-- `TXN_READ | (g_fc << TXN_FC_SHIFT) | (size << TXN_SIZE_SHIFT) | ((address >> 16) & 0xff)`, and
the same with `TXN_WRITE`. -/
def addrHi (txn : BitVec 16) (address : BitVec 32) (size : Size) : BitVec 16 :=
  txn ||| gFc <<< txnFcShift ||| size.code <<< txnSizeShift |||
    ((address >>> 16) &&& 0xff).setWidth 16

/-- `address >= 0x00bf0000 && address <= 0x00dfffff` -/
def isChipset (address : BitVec 32) : Bool := 0x00bf0000#32 ≤ address ∧ address ≤ 0x00dfffff#32

/-- `address >= 0x00dff000 && address <= 0x00dfffff` -/
def isCustom (address : BitVec 32) : Bool := 0x00dff000#32 ≤ address ∧ address ≤ 0x00dfffff#32

/-- The slot is selected, and waited for if it is active. -/
def takeSlot : List Instr := [.selectSlot, .waitIfActive]

/-- Address and start of a transaction of which the data are set. -/
def startAt (txn : BitVec 16) (address : BitVec 32) (size : Size) : List Instr :=
  [.writeReg .addrLo (address.setWidth 16), .start (addrHi txn address size)]

def doReadAccess (address : BitVec 32) (size : Size) : List Instr :=
  takeSlot ++ startAt txnRead address size ++ [.waitTxn, .readReg .dataLo] ++
    (if size = .long then [.readReg .dataHi] else []) ++ [.setActive false, .toggle]

/-- A part of a wide read behind the selection of its slot, with the registers read before the
slot is given up. -/
def readPart (address : BitVec 32) : List Instr :=
  startAt txnRead address .long ++
    [.waitTxn, .readReg .dataHi, .readReg .dataLo, .setActive false, .toggle]

def doReadAccess64 (address : BitVec 32) : List Instr :=
  takeSlot ++ readPart address ++
    [.selectSlot] ++ startAt txnRead (address + 4) .long ++
    [.waitTxn, .setActive false, .toggle, .readReg .dataHi, .readReg .dataLo]

def doReadAccess128 (address : BitVec 32) : List Instr :=
  takeSlot ++ readPart address ++
    [.selectSlot] ++ readPart (address + 4) ++
    [.selectSlot] ++ readPart (address + 4 + 4) ++
    [.selectSlot] ++ readPart (address + 4 + 4 + 4)

/-- The end of a write: a write to the chipset is waited for, and one to a custom register is
followed by a read. -/
def endWrite (address : BitVec 32) : List Instr :=
  (if isChipset address then [.waitTxn, .setActive false] else [.setActive true]) ++ [.toggle] ++
    if isCustom address then doReadAccess 0x00f80000 .long ++ [.discard] else []

def doWriteAccess (address data : BitVec 32) (size : Size) : List Instr :=
  takeSlot ++ [.writeReg .dataLo (data.setWidth 16)] ++
    (if size = .long then [.writeReg .dataHi (data.extractLsb' 16 16)] else []) ++
    startAt txnWrite address size ++ endWrite address

/-- A part of a wide write. -/
def writePart (address data : BitVec 32) : List Instr :=
  takeSlot ++ [.writeReg .dataLo (data.setWidth 16), .writeReg .dataHi (data.extractLsb' 16 16)] ++
    startAt txnWrite address .long

def doWriteAccess64 (address : BitVec 32) (data : BitVec 64) : List Instr :=
  writePart address (data.extractLsb' 32 32) ++ [.setActive true, .toggle] ++
    writePart (address + 4) (data.setWidth 32) ++ endWrite (address + 4)

def doWriteAccess128 (address : BitVec 32) (hi lo : BitVec 64) : List Instr :=
  writePart address (hi.extractLsb' 32 32) ++ [.setActive true, .toggle] ++
    writePart (address + 4) (hi.setWidth 32) ++ [.setActive true, .toggle] ++
    writePart (address + 4 + 4) (lo.extractLsb' 32 32) ++ [.setActive true, .toggle] ++
    writePart (address + 4 + 4 + 4) (lo.setWidth 32) ++ endWrite (address + 4 + 4 + 4)

def Access.program : Access → List Instr
  | .read address size => doReadAccess address size ++ [.result (.bits size)]
  | .read64 address => doReadAccess64 address ++ [.result .bits64]
  | .read128 address => doReadAccess128 address ++ [.result .bits128]
  | .write address data size => doWriteAccess address data size
  | .write64 address data => doWriteAccess64 address data
  | .write128 address hi lo => doWriteAccess128 address hi lo

/-- The program of a sequence of accesses. -/
def program (accesses : List Access) : List Instr := accesses.flatMap Access.program

end Emu68.PiStorm

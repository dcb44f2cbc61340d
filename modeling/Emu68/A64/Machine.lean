import Emu68.Lib.ByteMemory
import Mathlib.Data.BitVec
import Mathlib.Logic.Function.Basic

/-!
The part of the A64 machine that the emitted code of flags and branches runs on: 32-bit registers,
the condition flags and a byte memory. An instruction is named after the function of `A64.h` that
encodes it and takes the same operands. Code without branches is a list that runs from left to
right.
-/

set_option autoImplicit false
set_option relaxedAutoImplicit false

namespace Emu68.A64

open Lib

/-- A register number; 31 is the zero register. -/
abbrev Reg := ℕ

structure Nzcv where
  n : Bool
  z : Bool
  c : Bool
  v : Bool
deriving DecidableEq

/-- The parts of the vector registers that keep the m68k state that has no register of its own. -/
inductive Slot where
  | sr
  | fpcr
  | fpsr
  | fpiar
  | insnCount
deriving DecidableEq

structure Cpu where
  regs : Reg → BitVec 32
  flags : Nzcv
  memory : Bytes
  simd : Slot → BitVec 32

/-! ### Conditions -/

/-- A condition code, and its meaning. The last two codes are both "always". -/
abbrev Cond := BitVec 4

def ccEQ : Cond := 0x0
def ccNE : Cond := 0x1
def ccCS : Cond := 0x2
def ccCC : Cond := 0x3
def ccMI : Cond := 0x4
def ccPL : Cond := 0x5
def ccVS : Cond := 0x6
def ccVC : Cond := 0x7
def ccHI : Cond := 0x8
def ccLS : Cond := 0x9
def ccGE : Cond := 0xa
def ccLT : Cond := 0xb
def ccGT : Cond := 0xc
def ccLE : Cond := 0xd
def ccAL : Cond := 0xe
def ccNV : Cond := 0xf

def Cond.holds (cond : Cond) (f : Nzcv) : Bool :=
  match cond.toNat with
  | 0 => f.z
  | 1 => !f.z
  | 2 => f.c
  | 3 => !f.c
  | 4 => f.n
  | 5 => !f.n
  | 6 => f.v
  | 7 => !f.v
  | 8 => f.c && !f.z
  | 9 => !(f.c && !f.z)
  | 10 => f.n == f.v
  | 11 => f.n != f.v
  | 12 => !f.z && f.n == f.v
  | 13 => !(!f.z && f.n == f.v)
  | _ => true

/-! ### Instructions -/

inductive Shift where
  | LSL
  | LSR

/-- The operands are in the order of the encoding functions. Of `add64_immed` only the lower half
is modelled. -/
inductive Op where
  | nop
  | addImmed (rd rn : Reg) (imm12 : ℕ)
  | add64Immed (rd rn : Reg) (imm12 : ℕ)
  | subImmed (rd rn : Reg) (imm12 : ℕ)
  | subsImmed (rd rn : Reg) (imm12 : ℕ)
  | addReg (rd rn rm : Reg) (shift : Shift) (amount : ℕ)
  | andImmed (rd rn : Reg) (width ror : BitVec 8)
  | andsImmed (rd rn : Reg) (width ror : BitVec 8)
  | eorImmed (rd rn : Reg) (width ror : BitVec 8)
  | orrImmed (rd rn : Reg) (width ror : BitVec 8)
  | andReg (rd rn rm : Reg) (shift : Shift) (amount : ℕ)
  | andsReg (rd rn rm : Reg) (shift : Shift) (amount : ℕ)
  | bicReg (rd rn rm : Reg) (shift : Shift) (amount : ℕ)
  | orrReg (rd rn rm : Reg) (shift : Shift) (amount : ℕ)
  | ornReg (rd rn rm : Reg) (shift : Shift) (amount : ℕ)
  | eorReg (rd rn rm : Reg) (shift : Shift) (amount : ℕ)
  | rbit (rd rn : Reg)
  | bfm (rd rn : Reg) (immr imms : ℕ)
  | ubfm (rd rn : Reg) (immr imms : ℕ)
  | extr (rd rn rm : Reg) (lsb : ℕ)
  | movImmedU16 (rd : Reg) (val : BitVec 16) (shift16 : ℕ)
  | movkImmedU16 (rd : Reg) (val : BitVec 16) (shift16 : ℕ)
  | movnImmedU16 (rd : Reg) (val : BitVec 16) (shift16 : ℕ)
  | csel (rd rn rm : Reg) (cond : Cond)
  | csinc (rd rn rm : Reg) (cond : Cond)
  | getNzcv (rt : Reg)
  | setNzcv (rt : Reg)
  | strOffsetPreindex (rn rt : Reg) (offset9 : ℤ)
  | ldrbOffset (rn rt : Reg) (offset12 : ℕ)
  | movSimdToReg (rd : Reg) (slot : Slot)
  | movRegToSimd (slot : Slot) (rn : Reg)

def Cpu.get (s : Cpu) (r : Reg) : BitVec 32 := if r = 31 then 0 else s.regs r

def Cpu.put (s : Cpu) (r : Reg) (value : BitVec 32) : Cpu :=
  if r = 31 then s else { s with regs := Function.update s.regs r value }

theorem Cpu.get_of_ne {s : Cpu} {r : Reg} (h : r ≠ 31) : s.get r = s.regs r := if_neg h

theorem Cpu.put_of_ne {s : Cpu} {r : Reg} {value : BitVec 32} (h : r ≠ 31) :
    s.put r value = { s with regs := Function.update s.regs r value } :=
  if_neg h

theorem Cpu.get_zero (s : Cpu) : s.get 31 = 0#32 := if_pos rfl

theorem Cpu.put_put (s : Cpu) (rd : Reg) (x y : BitVec 32) : (s.put rd x).put rd y = s.put rd y := by
  unfold Cpu.put
  split
  · rfl
  · simp only [Function.update_idem]

theorem Cpu.get_put (s : Cpu) {rd : Reg} (h : rd ≠ 31) (x : BitVec 32) : (s.put rd x).get rd = x := by
  simp [Cpu.get, Cpu.put, h]

theorem Cpu.get_put_of_ne (s : Cpu) {rd r : Reg} (h : r ≠ rd) (x : BitVec 32) :
    (s.put rd x).get r = s.get r := by
  by_cases hrd : rd = 31
  · rw [Cpu.put, if_pos hrd]
  · simp only [Cpu.put, Cpu.get, if_neg hrd, Function.update_of_ne h]

def Shift.apply (x : BitVec 32) (amount : ℕ) : Shift → BitVec 32
  | .LSL => x <<< amount
  | .LSR => x >>> amount

/-- The lowest `width` bits. -/
def lowMask (width : ℕ) : BitVec 32 := BitVec.ofNat 32 (2 ^ width - 1)

theorem getLsbD_lowMask (n i : ℕ) : (lowMask n).getLsbD i = decide (i < 32 ∧ i < n) := by
  rw [lowMask, BitVec.getLsbD_ofNat, Nat.testBit_two_pow_sub_one]
  by_cases hi : i < 32 <;> simp [hi]

/-- The number of bits of the element that a logical immediate repeats, from its field `imms`. -/
def elementSize (imms : ℕ) : ℕ :=
  if imms < 32 then 32 else if imms < 48 then 16 else if imms < 56 then 8 else if imms < 60 then 4
  else 2

/-- A logical immediate. The operands are encoded as `imms = (width - 1) & 0x3f` and
`immr = ror & 0x3f`: a run of ones in an element, rotated right within it, and repeated. -/
def bitmask (width ror : BitVec 8) : BitVec 32 :=
  let imms := ((width - 1) &&& 0x3f).toNat
  let immr := (ror &&& 0x3f).toNat
  (BitVec.ofBoolListLE ((List.range 32).map fun i ↦
    decide ((i + immr) % elementSize imms ≤ imms % elementSize imms))).setWidth 32

/-- The low `width` bits of `source` replace those of `target` from `lsb` on. -/
def insertBits (target source : BitVec 32) (lsb width : ℕ) : BitVec 32 :=
  (target &&& ~~~(lowMask width <<< lsb)) ||| ((source &&& lowMask width) <<< lsb)

/-- The flags of a logical operation. -/
def logicFlags (result : BitVec 32) : Nzcv :=
  ⟨result.msb, result == 0, false, false⟩

/-- The flags of a subtraction. -/
def subFlags (x y : BitVec 32) : Nzcv :=
  ⟨(x - y).msb, x == y, y.ule x, x.msb != y.msb && (x - y).msb != x.msb⟩

def nzcvWord (f : Nzcv) : BitVec 32 :=
  BitVec.ofBool f.n ++ BitVec.ofBool f.z ++ BitVec.ofBool f.c ++ BitVec.ofBool f.v ++ 0#28

@[grind =] def step (s : Cpu) : Op → Cpu
  | .nop => s
  | .add64Immed rd rn imm12 => s.put rd (s.get rn + BitVec.ofNat 32 (imm12 % 4096))
  | .addImmed rd rn imm12 => s.put rd (s.get rn + BitVec.ofNat 32 (imm12 % 4096))
  | .subImmed rd rn imm12 => s.put rd (s.get rn - BitVec.ofNat 32 (imm12 % 4096))
  | .subsImmed rd rn imm12 =>
    let y := BitVec.ofNat 32 (imm12 % 4096)
    { s.put rd (s.get rn - y) with flags := subFlags (s.get rn) y }
  | .addReg rd rn rm shift amount => s.put rd (s.get rn + shift.apply (s.get rm) amount)
  | .andImmed rd rn width ror => s.put rd (s.get rn &&& bitmask width ror)
  | .andsImmed rd rn width ror =>
    let result := s.get rn &&& bitmask width ror
    { s.put rd result with flags := logicFlags result }
  | .eorImmed rd rn width ror => s.put rd (s.get rn ^^^ bitmask width ror)
  | .orrImmed rd rn width ror => s.put rd (s.get rn ||| bitmask width ror)
  | .andReg rd rn rm shift amount => s.put rd (s.get rn &&& shift.apply (s.get rm) amount)
  | .andsReg rd rn rm shift amount =>
    let result := s.get rn &&& shift.apply (s.get rm) amount
    { s.put rd result with flags := logicFlags result }
  | .bicReg rd rn rm shift amount => s.put rd (s.get rn &&& ~~~shift.apply (s.get rm) amount)
  | .orrReg rd rn rm shift amount => s.put rd (s.get rn ||| shift.apply (s.get rm) amount)
  | .ornReg rd rn rm shift amount => s.put rd (s.get rn ||| ~~~shift.apply (s.get rm) amount)
  | .eorReg rd rn rm shift amount => s.put rd (s.get rn ^^^ shift.apply (s.get rm) amount)
  | .rbit rd rn => s.put rd (s.get rn).reverse
  | .bfm rd rn immr imms =>
    s.put rd
      (if immr ≤ imms then insertBits (s.get rd) (s.get rn >>> immr) 0 (imms - immr + 1)
      else insertBits (s.get rd) (s.get rn) (32 - immr) (imms + 1))
  | .ubfm rd rn immr imms =>
    s.put rd
      (if immr ≤ imms then insertBits 0 (s.get rn >>> immr) 0 (imms - immr + 1)
      else insertBits 0 (s.get rn) (32 - immr) (imms + 1))
  | .extr rd rn rm lsb => s.put rd ((s.get rm >>> lsb) ||| (s.get rn <<< (32 - lsb)))
  | .movImmedU16 rd val shift16 => s.put rd (val.zeroExtend 32 <<< (16 * shift16))
  | .movkImmedU16 rd val shift16 =>
    s.put rd (insertBits (s.get rd) (val.zeroExtend 32) (16 * shift16) 16)
  | .movnImmedU16 rd val shift16 => s.put rd (~~~(val.zeroExtend 32 <<< (16 * shift16)))
  | .csel rd rn rm cond => s.put rd (if cond.holds s.flags then s.get rn else s.get rm)
  | .csinc rd rn rm cond => s.put rd (if cond.holds s.flags then s.get rn else s.get rm + 1)
  | .getNzcv rt => s.put rt (nzcvWord s.flags)
  | .setNzcv rt =>
    let x := s.get rt
    { s with flags := ⟨x.getLsbD 31, x.getLsbD 30, x.getLsbD 29, x.getLsbD 28⟩ }
  | .strOffsetPreindex rn rt offset9 =>
    let address := s.get rn + BitVec.ofInt 32 offset9
    { s.put rn address with
      memory := storeBytes s.memory address.toNat 4 (byteOf 4 (s.get rt).toNat) }
  | .ldrbOffset rn rt offset12 =>
    s.put rt (BitVec.ofNat 32 (s.memory ((s.get rn).toNat + offset12)).toNat)
  | .movSimdToReg rd slot => s.put rd (s.simd slot)
  | .movRegToSimd slot rn => { s with simd := Function.update s.simd slot (s.get rn) }

/-- Code that runs from left to right. -/
def exec (code : List Op) (s : Cpu) : Cpu := code.foldl step s

theorem exec_append (first second : List Op) (s : Cpu) :
    exec (first ++ second) s = exec second (exec first s) :=
  List.foldl_append

/-! ### Instructions that are encoded as others -/

def bicImmed (rd rn : Reg) (width ror : BitVec 8) : Op := .andImmed rd rn (32 - width) (ror - width)

def bfi (rd rn : Reg) (lsb width : ℕ) : Op := .bfm rd rn ((32 - lsb) % 32) (width - 1)

def bfxil (rd rn : Reg) (lsb width : ℕ) : Op := .bfm rd rn lsb (lsb + width - 1)

def cset (rd : Reg) (cond : Cond) : Op := .csinc rd 31 31 (cond ^^^ 1)

def cinc (rd rn : Reg) (cond : Cond) : Op := .csinc rd rn rn (cond ^^^ 1)

def tstImmed (rn : Reg) (width ror : BitVec 8) : Op := .andsImmed 31 rn width ror

def tstReg (rn rm : Reg) (shift : Shift) (amount : ℕ) : Op := .andsReg 31 rn rm shift amount

def movReg (rd rm : Reg) : Op := .orrReg rd 31 rm .LSL 0

def mvnReg (rd rm : Reg) (shift : Shift) (amount : ℕ) : Op := .ornReg rd 31 rm shift amount

def uxth (rd rn : Reg) : Op := .ubfm rd rn 0 15

def ror (rd rn : Reg) (lsb : ℕ) : Op := .extr rd rn rn lsb

end Emu68.A64

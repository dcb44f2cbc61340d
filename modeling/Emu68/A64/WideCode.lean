import Emu68.A64.WideMachine
import Emu68.A64.FlagHelpers
import Emu68.Lib.AddressSpace
import Emu68.Lib.BitFields

/-!
Code of the whole machine: the 32-bit instructions that carry no result of their own in
`Machine`, the 64-bit ones, and the branches, all of which go forward. An instruction is named after
the function of `A64.h` that encodes it.
-/

set_option autoImplicit false
set_option relaxedAutoImplicit false

namespace Emu68.A64

open Lib

/-! ### Bit fields -/

/-- The low `width` bits of `source` replace those of `target` from `lsb` on. -/
def insertField {w : ℕ} (target source : BitVec w) (lsb width : ℕ) : BitVec w :=
  (target &&& ~~~(BitVec.ofNat w (2 ^ width - 1) <<< lsb)) |||
    ((source &&& BitVec.ofNat w (2 ^ width - 1)) <<< lsb)

/-- What `bfm` puts in its destination. -/
def fieldMove {w : ℕ} (target source : BitVec w) (immr imms : ℕ) : BitVec w :=
  if immr ≤ imms then insertField target (source >>> immr) 0 (imms - immr + 1)
  else insertField target source (w - immr) (imms + 1)

/-- What `sbfm` puts in its destination. -/
def signedField {w : ℕ} (source : BitVec w) (immr imms : ℕ) : BitVec w :=
  if immr ≤ imms then (source <<< (w - 1 - imms)).sshiftRight (w - 1 - imms + immr)
  else (source <<< (w - 1 - imms)).sshiftRight (immr - imms - 1)

/-- A logical immediate of 64 bits whose element is the whole register. -/
def bitmask64 (width ror : BitVec 8) : BitVec 64 :=
  let imms := ((width - 1) &&& 0x3f).toNat
  let immr := (ror &&& 0x3f).toNat
  (BitVec.ofNat 64 (2 ^ (imms + 1) - 1)).rotateRight immr

/-! ### Flags -/

/-- The flags of an addition. -/
def addFlags {w : ℕ} (x y : BitVec w) : Nzcv :=
  ⟨(x + y).msb, x + y == 0, decide (2 ^ w ≤ x.toNat + y.toNat), x.msb == y.msb && (x + y).msb != x.msb⟩

/-- The flags of an addition with carry. -/
def adcFlags {w : ℕ} (x y : BitVec w) (c : Bool) : Nzcv :=
  let sum := x + y + (BitVec.ofBool c).setWidth w
  ⟨sum.msb, sum == 0, decide (2 ^ w ≤ x.toNat + y.toNat + c.toNat), x.msb == y.msb && sum.msb != x.msb⟩

/-- The flags of a subtraction of 64 bits. -/
def subFlags64 (x y : BitVec 64) : Nzcv :=
  ⟨(x - y).msb, x == y, y.ule x, x.msb != y.msb && (x - y).msb != x.msb⟩

/-- The flags of a logical operation of 64 bits. -/
def logicFlags64 (result : BitVec 64) : Nzcv :=
  ⟨result.msb, result == 0, false, false⟩

/-- The four bits that a conditional comparison sets when its condition fails. -/
def nzcvOf (nibble : BitVec 4) : Nzcv :=
  ⟨nibble.getLsbD 3, nibble.getLsbD 2, nibble.getLsbD 1, nibble.getLsbD 0⟩

theorem addFlags_zero (x : BitVec 32) : addFlags 0#32 x = logicFlags x := by
  have hlt : ¬ 2 ^ 32 ≤ (0#32).toNat + x.toNat := by
    have := x.isLt
    rw [BitVec.toNat_ofNat]
    omega
  rw [addFlags, logicFlags, BitVec.zero_add, decide_eq_false hlt]
  cases x.msb <;> rfl

theorem addFlags_zero64 (x : BitVec 64) : addFlags 0#64 x = logicFlags64 x := by
  have hlt : ¬ 2 ^ 64 ≤ (0#64).toNat + x.toNat := by
    have := x.isLt
    rw [BitVec.toNat_ofNat]
    omega
  rw [addFlags, logicFlags64, BitVec.zero_add, decide_eq_false hlt]
  cases x.msb <;> rfl

/-! ### Instructions -/

/-- How a load or store gets its address. -/
inductive Indexing where
  | offset
  | preindex
  | postindex
deriving DecidableEq

/-- The operands are in the order of the encoding functions. The multiply-subtract
`msub rd ra rn rm` is `ra - rn * rm`. `operand` stands for the code that
`EMIT_LoadFromEffectiveAddress` emits. -/
inductive WideOp where
  | insn (op : Op)
  | operand (run : WideCpu → WideCpu)
  -- the other instructions of 32 bits
  | addsImmed (rd rn : Reg) (imm12 : ℕ)
  | addImmedLsl12 (rd rn : Reg) (imm12 : ℕ)
  | subImmedLsl12 (rd rn : Reg) (imm12 : ℕ)
  | addsReg (rd rn rm : Reg) (shift : Shift) (amount : ℕ)
  | adcs (rd rn rm : Reg)
  | subReg (rd rn rm : Reg) (shift : Shift) (amount : ℕ)
  | subsReg (rd rn rm : Reg) (shift : Shift) (amount : ℕ)
  | ccmpReg (rn rm : Reg) (alt : BitVec 4) (cond : Cond)
  | csinv (rd rn rm : Reg) (cond : Cond)
  | mul (rd rn rm : Reg)
  | sdiv (rd rn rm : Reg)
  | udiv (rd rn rm : Reg)
  | msub (rd ra rn rm : Reg)
  | lslv (rd rn rm : Reg)
  | lsrv (rd rn rm : Reg)
  | asrv (rd rn rm : Reg)
  | rorv (rd rn rm : Reg)
  | sbfm (rd rn : Reg) (immr imms : ℕ)
  -- the instructions of 64 bits
  | smull (rd rn rm : Reg)
  | umull (rd rn rm : Reg)
  | sdiv64 (rd rn rm : Reg)
  | udiv64 (rd rn rm : Reg)
  | msub64 (rd ra rn rm : Reg)
  | add64Reg (rd rn rm : Reg) (shift : Shift) (amount : ℕ)
  | sub64Immed (rd rn : Reg) (imm12 : ℕ)
  | adds64Reg (rd rn rm : Reg) (shift : Shift) (amount : ℕ)
  | subs64Reg (rd rn rm : Reg) (shift : Shift) (amount : ℕ)
  | ands64Reg (rd rn rm : Reg)
  | and64Immed (rd rn : Reg) (width ror : BitVec 8)
  | ands64Immed (rd rn : Reg) (width ror : BitVec 8)
  | orr64Immed (rd rn : Reg) (width ror : BitVec 8)
  | mov64ImmedU16 (rd : Reg) (val : BitVec 16) (shift16 : ℕ)
  | bfm64 (rd rn : Reg) (immr imms : ℕ)
  | ubfm64 (rd rn : Reg) (immr imms : ℕ)
  | sbfm64 (rd rn : Reg) (immr imms : ℕ)
  | extr64 (rd rn rm : Reg) (lsb : ℕ)
  | lslv64 (rd rn rm : Reg)
  | lsrv64 (rd rn rm : Reg)
  | asrv64 (rd rn rm : Reg)
  | rorv64 (rd rn rm : Reg)
  -- loads and stores of a number of bytes
  | ldr (bytes : ℕ) (signed : Bool) (mode : Indexing) (rn rt : Reg) (offset : ℤ)
  | str (bytes : ℕ) (mode : Indexing) (rn rt : Reg) (offset : ℤ)
  | ldp (rn rt1 rt2 : Reg) (offset : ℤ)
  -- the branches
  | b (offset : ℕ)
  | bCc (cond : Cond) (offset : ℕ)
  | cbz (rt : Reg) (offset : ℕ)
  | cbnz (rt : Reg) (offset : ℕ)
  | tbz (rt : Reg) (bit offset : ℕ)

def Shift.apply64 (x : BitVec 64) (amount : ℕ) : Shift → BitVec 64
  | .LSL => x <<< amount
  | .LSR => x >>> amount

/-- A branch of the offset `n` skips `n - 1` instructions. -/
def skipIf (condition : Bool) (offset : ℕ) : ℕ := if condition then offset - 1 else 0

namespace WideCpu

def setFlags (s : WideCpu) (flags : Nzcv) : WideCpu := { s with flags := flags }

/-- The address of an access, and the register behind it. The upper halves of the addresses that the
host has for the memory of the m68k are all alike. -/
def access (s : WideCpu) (mode : Indexing) (rn : Reg) (offset : ℤ) : BitVec 32 × BitVec 64 :=
  let base := s.get64 rn
  let moved := base + BitVec.ofInt 64 offset
  match mode with
  | .offset => (moved.setWidth 32, base)
  | .preindex => (moved.setWidth 32, moved)
  | .postindex => (base.setWidth 32, moved)

/-- What is loaded, in a register of 32 bits, or of 64 if there are eight bytes. -/
def loaded (s : WideCpu) (address : BitVec 32) (bytes : ℕ) (signed : Bool) : BitVec 64 :=
  let value := Lib.load s.memory address bytes
  if signed then ((BitVec.ofNat (8 * bytes) value).signExtend 32).setWidth 64
  else BitVec.ofNat 64 value

end WideCpu

/-- The state behind the instruction, and how many instructions are skipped. -/
def WideOp.effect (op : WideOp) (s : WideCpu) : WideCpu × ℕ :=
  match op with
  | .insn op => (s.insn op, 0)
  | .operand run => (run s, 0)
  | .addsImmed rd rn imm12 =>
    let y := BitVec.ofNat 32 (imm12 % 4096)
    ((s.put rd (s.get rn + y)).setFlags (addFlags (s.get rn) y), 0)
  | .addImmedLsl12 rd rn imm12 =>
    (s.put rd (s.get rn + BitVec.ofNat 32 (imm12 % 4096) <<< 12), 0)
  | .subImmedLsl12 rd rn imm12 =>
    (s.put rd (s.get rn - BitVec.ofNat 32 (imm12 % 4096) <<< 12), 0)
  | .addsReg rd rn rm shift amount =>
    let y := shift.apply (s.get rm) amount
    ((s.put rd (s.get rn + y)).setFlags (addFlags (s.get rn) y), 0)
  | .adcs rd rn rm =>
    let c := s.flags.c
    ((s.put rd (s.get rn + s.get rm + (BitVec.ofBool c).setWidth 32)).setFlags
      (adcFlags (s.get rn) (s.get rm) c), 0)
  | .subReg rd rn rm shift amount => (s.put rd (s.get rn - shift.apply (s.get rm) amount), 0)
  | .subsReg rd rn rm shift amount =>
    let y := shift.apply (s.get rm) amount
    ((s.put rd (s.get rn - y)).setFlags (subFlags (s.get rn) y), 0)
  | .ccmpReg rn rm alt cond =>
    (s.setFlags (if cond.holds s.flags then subFlags (s.get rn) (s.get rm) else nzcvOf alt), 0)
  | .csinv rd rn rm cond =>
    (s.put rd (if cond.holds s.flags then s.get rn else ~~~s.get rm), 0)
  | .mul rd rn rm => (s.put rd (s.get rn * s.get rm), 0)
  | .sdiv rd rn rm => (s.put rd ((s.get rn).sdiv (s.get rm)), 0)
  | .udiv rd rn rm => (s.put rd (s.get rn / s.get rm), 0)
  | .msub rd ra rn rm => (s.put rd (s.get ra - s.get rn * s.get rm), 0)
  | .lslv rd rn rm => (s.put rd (s.get rn <<< ((s.get rm).toNat % 32)), 0)
  | .lsrv rd rn rm => (s.put rd (s.get rn >>> ((s.get rm).toNat % 32)), 0)
  | .asrv rd rn rm => (s.put rd ((s.get rn).sshiftRight ((s.get rm).toNat % 32)), 0)
  | .rorv rd rn rm => (s.put rd ((s.get rn).rotateRight ((s.get rm).toNat % 32)), 0)
  | .sbfm rd rn immr imms => (s.put rd (signedField (s.get rn) immr imms), 0)
  | .smull rd rn rm =>
    (s.put64 rd ((s.get rn).signExtend 64 * (s.get rm).signExtend 64), 0)
  | .umull rd rn rm => (s.put64 rd ((s.get rn).setWidth 64 * (s.get rm).setWidth 64), 0)
  | .sdiv64 rd rn rm => (s.put64 rd ((s.get64 rn).sdiv (s.get64 rm)), 0)
  | .udiv64 rd rn rm => (s.put64 rd (s.get64 rn / s.get64 rm), 0)
  | .msub64 rd ra rn rm => (s.put64 rd (s.get64 ra - s.get64 rn * s.get64 rm), 0)
  | .add64Reg rd rn rm shift amount =>
    (s.put64 rd (s.get64 rn + shift.apply64 (s.get64 rm) amount), 0)
  | .sub64Immed rd rn imm12 => (s.put64 rd (s.get64 rn - BitVec.ofNat 64 (imm12 % 4096)), 0)
  | .adds64Reg rd rn rm shift amount =>
    let y := shift.apply64 (s.get64 rm) amount
    ((s.put64 rd (s.get64 rn + y)).setFlags (addFlags (s.get64 rn) y), 0)
  | .subs64Reg rd rn rm shift amount =>
    let y := shift.apply64 (s.get64 rm) amount
    ((s.put64 rd (s.get64 rn - y)).setFlags (subFlags64 (s.get64 rn) y), 0)
  | .ands64Reg rd rn rm =>
    let result := s.get64 rn &&& s.get64 rm
    ((s.put64 rd result).setFlags (logicFlags64 result), 0)
  | .and64Immed rd rn width ror => (s.put64 rd (s.get64 rn &&& bitmask64 width ror), 0)
  | .ands64Immed rd rn width ror =>
    let result := s.get64 rn &&& bitmask64 width ror
    ((s.put64 rd result).setFlags (logicFlags64 result), 0)
  | .orr64Immed rd rn width ror => (s.put64 rd (s.get64 rn ||| bitmask64 width ror), 0)
  | .mov64ImmedU16 rd val shift16 => (s.put64 rd (val.zeroExtend 64 <<< (16 * shift16)), 0)
  | .bfm64 rd rn immr imms => (s.put64 rd (fieldMove (s.get64 rd) (s.get64 rn) immr imms), 0)
  | .ubfm64 rd rn immr imms => (s.put64 rd (fieldMove 0 (s.get64 rn) immr imms), 0)
  | .sbfm64 rd rn immr imms => (s.put64 rd (signedField (s.get64 rn) immr imms), 0)
  | .extr64 rd rn rm lsb =>
    (s.put64 rd ((s.get64 rm >>> lsb) ||| (s.get64 rn <<< (64 - lsb))), 0)
  | .lslv64 rd rn rm => (s.put64 rd (s.get64 rn <<< ((s.get64 rm).toNat % 64)), 0)
  | .lsrv64 rd rn rm => (s.put64 rd (s.get64 rn >>> ((s.get64 rm).toNat % 64)), 0)
  | .asrv64 rd rn rm => (s.put64 rd ((s.get64 rn).sshiftRight ((s.get64 rm).toNat % 64)), 0)
  | .rorv64 rd rn rm => (s.put64 rd ((s.get64 rn).rotateRight ((s.get64 rm).toNat % 64)), 0)
  | .ldr bytes signed mode rn rt offset =>
    let (address, base) := s.access mode rn offset
    ((s.put64 rn base).put64 rt (s.loaded address bytes signed), 0)
  | .str bytes mode rn rt offset =>
    let (address, base) := s.access mode rn offset
    let memory := Lib.store s.memory address bytes (s.get64 rt).toNat
    ({ s.put64 rn base with memory := memory }, 0)
  | .ldp rn rt1 rt2 offset =>
    let (address, _) := s.access .offset rn offset
    ((s.put64 rt1 (s.loaded address 4 false)).put64 rt2 (s.loaded (address + 4) 4 false), 0)
  | .b offset => (s, skipIf true offset)
  | .bCc cond offset => (s, skipIf (cond.holds s.flags) offset)
  | .cbz rt offset => (s, skipIf (s.get rt == 0) offset)
  | .cbnz rt offset => (s, skipIf (s.get rt != 0) offset)
  | .tbz rt bit offset => (s, skipIf (!(s.get rt).getLsbD bit) offset)

/-! ### Instructions that are encoded as others -/

def cmnReg (rn rm : Reg) (shift : Shift) (amount : ℕ) : WideOp := .addsReg 31 rn rm shift amount

def cmn64Reg (rn rm : Reg) (shift : Shift) (amount : ℕ) : WideOp := .adds64Reg 31 rn rm shift amount

def cmpReg (rn rm : Reg) (shift : Shift) (amount : ℕ) : WideOp := .subsReg 31 rn rm shift amount

def cmp64Reg (rn rm : Reg) (shift : Shift) (amount : ℕ) : WideOp := .subs64Reg 31 rn rm shift amount

def csetm (rd : Reg) (cond : Cond) : WideOp := .csinv rd 31 31 (cond ^^^ 1)

def sxtb (rd rn : Reg) : WideOp := .sbfm rd rn 0 7

def sxth (rd rn : Reg) : WideOp := .sbfm rd rn 0 15

def asr (rd rn : Reg) (lsb : ℕ) : WideOp := .sbfm rd rn lsb 31

def bfi64 (rd rn : Reg) (lsb width : ℕ) : WideOp := .bfm64 rd rn ((64 - lsb) % 64) (width - 1)

def bfxil64 (rd rn : Reg) (lsb width : ℕ) : WideOp := .bfm64 rd rn lsb (lsb + width - 1)

def sxtw64 (rd rn : Reg) : WideOp := .sbfm64 rd rn 0 31

def uxtb (rd rn : Reg) : Op := .ubfm rd rn 0 7

def lsl (rd rn : Reg) (lsb : ℕ) : Op := .ubfm rd rn ((32 - lsb) % 32) (31 - lsb)

def lsr (rd rn : Reg) (lsb : ℕ) : Op := .ubfm rd rn lsb 31

/-! ### Registers behind an instruction -/

/-- The lowest bits of a register. -/
theorem insertBits_zero (x : BitVec 32) {n : ℕ} (hn : n < 32) :
    insertBits 0 (x >>> 0) 0 n = (x.setWidth n).setWidth 32 := by
  rw [insertBits, show (0 : BitVec 32) = 0#32 from rfl, BitVec.zero_and, BitVec.zero_or,
    BitVec.shiftLeft_zero, BitVec.ushiftRight_zero]
  refine BitVec.eq_of_toNat_eq ?_
  have hpow : 2 ^ n ≤ 2 ^ 31 := Nat.pow_le_pow_right (by decide) (Nat.le_of_lt_succ hn)
  have hpos : 0 < 2 ^ n := Nat.two_pow_pos n
  have hmask : (lowMask n).toNat = 2 ^ n - 1 := by
    rw [lowMask, BitVec.toNat_ofNat, Nat.mod_eq_of_lt (by omega)]
  have hlt := Nat.mod_lt x.toNat hpos
  rw [BitVec.toNat_and, hmask, Nat.and_two_pow_sub_one_eq_mod, BitVec.toNat_setWidth,
    BitVec.toNat_setWidth]
  exact (Nat.mod_eq_of_lt (by omega)).symm

/-- The lowest bits of the target are replaced. -/
theorem insertBits_low_eq (target source : BitVec 32) (n : ℕ) :
    insertBits target source 0 n = replaceLow target (source.setWidth n) := by
  refine BitVec.eq_of_getLsbD_eq fun i hi ↦ ?_
  rw [insertBits, BitVec.shiftLeft_zero, BitVec.shiftLeft_zero, BitVec.getLsbD_or, BitVec.getLsbD_and,
    BitVec.getLsbD_and, BitVec.getLsbD_not, getLsbD_lowMask, getLsbD_replaceLow,
    BitVec.getLsbD_setWidth]
  by_cases hin : i < n
  · simp [hi, hin]
  · simp [hi, hin]

/-- Sign extension from the lowest bits. -/
theorem signedField_low {w : ℕ} (x : BitVec w) {n : ℕ} (h0 : 0 < n) (hn : n ≤ w) :
    signedField x 0 (n - 1) = (x.setWidth n).signExtend w := by
  unfold signedField
  rw [if_pos (Nat.zero_le _), Nat.add_zero, show w - 1 - (n - 1) = w - n by omega]
  ext i hi
  rw [BitVec.getElem_sshiftRight, BitVec.getElem_signExtend]
  split_ifs with h₁ h₂ h₂
  · rw [BitVec.getElem_shiftLeft, BitVec.getElem_setWidth]
    simp [show ¬ w - n + i < w - n by omega]
    exact (BitVec.getLsbD_eq_getElem hi).symm
  · omega
  · omega
  · have hlast : w - 1 - (w - n) = n - 1 := by omega
    simp [BitVec.msb_eq_getLsbD_last, hlast, show 0 < w by omega, h0,
      show ¬ w - 1 < w - n by omega]
    exact (BitVec.getLsbD_eq_getElem (by omega)).symm

namespace WideCpu

variable {s : WideCpu} {r rd : Reg}

@[simp] theorem get64_zero (s : WideCpu) : s.get64 31 = 0#64 := if_pos rfl

@[simp] theorem get_zero (s : WideCpu) : s.get 31 = 0#32 := by
  rw [get, get64_zero]
  rfl

@[simp] theorem put64_zero (s : WideCpu) (value : BitVec 64) : s.put64 31 value = s := if_pos rfl

@[simp] theorem put_zero (s : WideCpu) (value : BitVec 32) : s.put 31 value = s := put64_zero s _

@[simp] theorem get64_setFlags (flags : Nzcv) : (s.setFlags flags).get64 r = s.get64 r := rfl

@[simp] theorem get_setFlags (flags : Nzcv) : (s.setFlags flags).get r = s.get r := rfl

@[simp] theorem flags_setFlags (flags : Nzcv) : (s.setFlags flags).flags = flags := rfl

@[simp] theorem memory_setFlags (flags : Nzcv) : (s.setFlags flags).memory = s.memory := rfl

@[simp] theorem flags_put (value : BitVec 32) : (s.put rd value).flags = s.flags :=
  flags_put64 _

@[simp] theorem memory_put64 (value : BitVec 64) : (s.put64 rd value).memory = s.memory := by
  unfold put64
  split_ifs <;> rfl

@[simp] theorem memory_put (value : BitVec 32) : (s.put rd value).memory = s.memory :=
  memory_put64 _

theorem get64_put64_ite (h : rd ≠ 31) (value : BitVec 64) :
    (s.put64 rd value).get64 r = if r = rd then value else s.get64 r := by
  split_ifs with hr
  · rw [hr, get64_put64 h]
  · exact get64_put64_of_ne hr value

theorem get_put64_ite (h : rd ≠ 31) (value : BitVec 64) :
    (s.put64 rd value).get r = if r = rd then value.setWidth 32 else s.get r := by
  rw [get, get64_put64_ite h]
  split_ifs <;> rfl

theorem get64_put_ite (h : rd ≠ 31) (value : BitVec 32) :
    (s.put rd value).get64 r = if r = rd then value.setWidth 64 else s.get64 r :=
  get64_put64_ite h _

theorem get_put_ite (h : rd ≠ 31) (value : BitVec 32) :
    (s.put rd value).get r = if r = rd then value else s.get r := by
  split_ifs with hr
  · rw [hr, get_put h]
  · exact get_put_of_ne hr value

theorem put64_get64 (s : WideCpu) (r : Reg) : s.put64 r (s.get64 r) = s := by
  unfold put64 get64
  split_ifs
  · rfl
  · rw [Function.update_eq_self]

/-- A load without an update of the address. -/
theorem effect_ldr (bytes : ℕ) (signed : Bool) (rn rt : Reg) (offset : ℤ) (s : WideCpu) :
    WideOp.effect (.ldr bytes signed .offset rn rt offset) s =
      (s.put64 rt (s.loaded ((s.get64 rn + BitVec.ofInt 64 offset).setWidth 32) bytes signed), 0) := by
  show ((s.put64 rn (s.get64 rn)).put64 rt _, 0) = _
  rw [put64_get64]

/-- The address of an access in 32 bits. -/
theorem access_low (rn : Reg) (offset : ℤ) :
    (s.get64 rn + BitVec.ofInt 64 offset).setWidth 32 =
      s.get rn + (BitVec.ofInt 64 offset).setWidth 32 :=
  BitVec.setWidth_add _ _ (by decide)

/-- An instruction of 32 bits that writes one register. -/
theorem insn_put {op : Op} {value : BitVec 32} (hdest : op.dest = some rd)
    (hstep : step s.low op = s.low.put rd value) : s.insn op = s.put rd value := by
  unfold insn
  rw [hdest, hstep]
  by_cases hrd : rd = 31
  · subst hrd
    rfl
  · dsimp only
    rw [Cpu.get_put _ hrd, Cpu.put, if_neg hrd]
    unfold put put64
    rw [if_neg hrd]
    rfl

/-- An instruction of 32 bits that sets the flags, too. -/
theorem insn_put_flags {op : Op} {value : BitVec 32} {flags : Nzcv} (hdest : op.dest = some rd)
    (hstep : step s.low op = { s.low.put rd value with flags := flags }) :
    s.insn op = (s.put rd value).setFlags flags := by
  unfold insn
  rw [hdest, hstep]
  by_cases hrd : rd = 31
  · subst hrd
    rfl
  · dsimp only
    have hget : ({ s.low.put rd value with flags := flags } : Cpu).get rd = value :=
      Cpu.get_put _ hrd value
    rw [hget, Cpu.put, if_neg hrd]
    unfold put put64 setFlags
    rw [if_neg hrd]
    rfl

@[simp] theorem insn_movReg (rm : Reg) : s.insn (movReg rd rm) = s.put rd (s.get rm) := by
  refine insn_put rfl ?_
  rw [movReg, step, Cpu.get_zero, BitVec.zero_or, get_low]
  exact congrArg (s.low.put rd) (BitVec.shiftLeft_zero _)

@[simp] theorem insn_addImmed (rn : Reg) (imm12 : ℕ) :
    s.insn (.addImmed rd rn imm12) = s.put rd (s.get rn + BitVec.ofNat 32 (imm12 % 4096)) :=
  insn_put rfl (by rw [step, get_low])

@[simp] theorem insn_andsImmed (rn : Reg) (width ror : BitVec 8) :
    s.insn (.andsImmed rd rn width ror) =
      (s.put rd (s.get rn &&& bitmask width ror)).setFlags
        (logicFlags (s.get rn &&& bitmask width ror)) :=
  insn_put_flags rfl (by rw [step, get_low])

@[simp] theorem insn_csel (rn rm : Reg) (cond : Cond) :
    s.insn (.csel rd rn rm cond) =
      s.put rd (if cond.holds s.flags then s.get rn else s.get rm) :=
  insn_put rfl (by rw [step, get_low, get_low]; rfl)

@[simp] theorem insn_orrImmed (rn : Reg) (width ror : BitVec 8) :
    s.insn (.orrImmed rd rn width ror) = s.put rd (s.get rn ||| bitmask width ror) :=
  insn_put rfl (by rw [step, get_low])

@[simp] theorem insn_andImmed (rn : Reg) (width ror : BitVec 8) :
    s.insn (.andImmed rd rn width ror) = s.put rd (s.get rn &&& bitmask width ror) :=
  insn_put rfl (by rw [step, get_low])

@[simp] theorem insn_movImmedU16 (val : BitVec 16) (shift16 : ℕ) :
    s.insn (.movImmedU16 rd val shift16) = s.put rd (val.zeroExtend 32 <<< (16 * shift16)) :=
  insn_put rfl rfl

@[simp] theorem insn_subImmed (rn : Reg) (imm12 : ℕ) :
    s.insn (.subImmed rd rn imm12) = s.put rd (s.get rn - BitVec.ofNat 32 (imm12 % 4096)) :=
  insn_put rfl (by rw [step, get_low])

@[simp] theorem insn_subsImmed (rn : Reg) (imm12 : ℕ) :
    s.insn (.subsImmed rd rn imm12) =
      (s.put rd (s.get rn - BitVec.ofNat 32 (imm12 % 4096))).setFlags
        (subFlags (s.get rn) (BitVec.ofNat 32 (imm12 % 4096))) :=
  insn_put_flags rfl (by rw [step, get_low])

@[simp] theorem insn_addReg (rn rm : Reg) (shift : Shift) (amount : ℕ) :
    s.insn (.addReg rd rn rm shift amount) =
      s.put rd (s.get rn + shift.apply (s.get rm) amount) :=
  insn_put rfl (by rw [step, get_low, get_low])

@[simp] theorem insn_andReg (rn rm : Reg) (shift : Shift) (amount : ℕ) :
    s.insn (.andReg rd rn rm shift amount) =
      s.put rd (s.get rn &&& shift.apply (s.get rm) amount) :=
  insn_put rfl (by rw [step, get_low, get_low])

@[simp] theorem insn_orrReg (rn rm : Reg) (shift : Shift) (amount : ℕ) :
    s.insn (.orrReg rd rn rm shift amount) =
      s.put rd (s.get rn ||| shift.apply (s.get rm) amount) :=
  insn_put rfl (by rw [step, get_low, get_low])

@[simp] theorem insn_eorReg (rn rm : Reg) (shift : Shift) (amount : ℕ) :
    s.insn (.eorReg rd rn rm shift amount) =
      s.put rd (s.get rn ^^^ shift.apply (s.get rm) amount) :=
  insn_put rfl (by rw [step, get_low, get_low])

@[simp] theorem insn_andsReg (rn rm : Reg) (shift : Shift) (amount : ℕ) :
    s.insn (.andsReg rd rn rm shift amount) =
      (s.put rd (s.get rn &&& shift.apply (s.get rm) amount)).setFlags
        (logicFlags (s.get rn &&& shift.apply (s.get rm) amount)) :=
  insn_put_flags rfl (by rw [step, get_low, get_low])

/-- The field from bit `lsb` on replaces the lowest bits. -/
theorem insn_bfxil (rn : Reg) (lsb : ℕ) {width : ℕ} (hwidth : 0 < width) :
    s.insn (bfxil rd rn lsb width) =
      s.put rd (replaceLow (s.get rd) ((s.get rn >>> lsb).setWidth width)) := by
  refine insn_put rfl ?_
  rw [bfxil, step, get_low, get_low, if_pos (by omega),
    show lsb + width - 1 - lsb + 1 = width by omega, insertBits_low_eq]

theorem insn_bfi_low (rn : Reg) {width : ℕ} (hwidth : 0 < width) :
    s.insn (bfi rd rn 0 width) =
      s.put rd (replaceLow (s.get rd) ((s.get rn).setWidth width)) := by
  refine insn_put rfl ?_
  rw [bfi, step, get_low, get_low, Nat.sub_zero, Nat.mod_self, if_pos (Nat.zero_le _),
    BitVec.ushiftRight_zero, insertBits_low_eq, Nat.sub_zero, Nat.sub_add_cancel hwidth]

@[simp] theorem insn_uxtb (rn : Reg) :
    s.insn (uxtb rd rn) = s.put rd (((s.get rn).setWidth 8).setWidth 32) := by
  refine insn_put rfl ?_
  rw [uxtb, step, get_low]
  refine congrArg (s.low.put rd) ?_
  rw [if_pos (Nat.zero_le _)]
  exact insertBits_zero _ (by decide)

theorem insn_lsl (rn : Reg) {lsb : ℕ} (h0 : 0 < lsb) (hlsb : lsb < 32) :
    s.insn (lsl rd rn lsb) = s.put rd (s.get rn <<< lsb) := by
  refine insn_put rfl ?_
  rw [lsl, step, get_low, Nat.mod_eq_of_lt (by omega), if_neg (by omega),
    show 32 - (32 - lsb) = lsb by omega, show 31 - lsb + 1 = 32 - lsb by omega]
  refine congrArg (s.low.put rd) ?_
  refine BitVec.eq_of_getLsbD_eq fun i hi ↦ ?_
  rw [insertBits, show (0 : BitVec 32) = 0#32 from rfl, BitVec.zero_and, BitVec.zero_or,
    BitVec.getLsbD_shiftLeft, BitVec.getLsbD_shiftLeft, BitVec.getLsbD_and, getLsbD_lowMask]
  by_cases hlow : i < lsb
  · simp [hlow]
  · simp [hi, hlow, show i - lsb < 32 ∧ i - lsb < 32 - lsb by omega]

theorem insn_lsr (rn : Reg) {lsb : ℕ} (hlsb : lsb < 32) :
    s.insn (lsr rd rn lsb) = s.put rd (s.get rn >>> lsb) := by
  refine insn_put rfl ?_
  rw [lsr, step, get_low, if_pos (by omega)]
  refine congrArg (s.low.put rd) ?_
  refine BitVec.eq_of_getLsbD_eq fun i hi ↦ ?_
  rw [insertBits, show (0 : BitVec 32) = 0#32 from rfl, BitVec.zero_and, BitVec.zero_or,
    BitVec.shiftLeft_zero, BitVec.getLsbD_and, BitVec.getLsbD_ushiftRight, getLsbD_lowMask]
  by_cases hin : i < 31 - lsb + 1
  · simp [hi, hin]
  · rw [BitVec.getLsbD_of_ge (s.get rn) (lsb + i) (by omega), Bool.false_and]

@[simp] theorem insn_uxth (rn : Reg) :
    s.insn (uxth rd rn) = s.put rd (((s.get rn).setWidth 16).setWidth 32) := by
  refine insn_put rfl ?_
  rw [uxth, step, get_low]
  refine congrArg (s.low.put rd) ?_
  rw [if_pos (Nat.zero_le _)]
  exact insertBits_zero _ (by decide)

end WideCpu

/-- The state behind the code. -/
def WideCpu.run (code : List WideOp) (s : WideCpu) : WideCpu :=
  (Lib.runForward WideOp.effect 0 code s).1

def insns (code : List Op) : List WideOp := code.map .insn

theorem runForward_insns (code : List Op) (s : WideCpu) :
    Lib.runForward WideOp.effect 0 (insns code) s = (execInsns code s, 0) := by
  induction code generalizing s with
  | nil => rfl
  | cons op code ih => exact ih (s.insn op)

end Emu68.A64

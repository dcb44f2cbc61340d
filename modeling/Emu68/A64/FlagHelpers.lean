import Emu68.A64.Machine

/-!
The flag helpers of `A64.h`. They move the host flags into the register that holds the m68k
condition codes, where C is bit 1 and V is bit 0 (`SR_Calt`, `SR_Valt`). A helper gets the mask of
the flags to update, in the m68k order, and returns the flags that it leaves to its caller. A
register that the source allocates for a while is a parameter.
-/

set_option autoImplicit false
set_option relaxedAutoImplicit false

namespace Emu68.A64

abbrev Mask := BitVec 8

def srC : Mask := 0x01
def srV : Mask := 0x02
def srVC : Mask := 0x03
def srZ : Mask := 0x04
def srN : Mask := 0x08
def srNZ : Mask := 0x0c
def srNZV : Mask := 0x0e
def srNZVC : Mask := 0x0f
def srX : Mask := 0x10
def srXC : Mask := 0x11

def srCalt : Mask := 0x02
def srValt : Mask := 0x01

def popcount {w : ℕ} (mask : BitVec w) : ℕ := (List.range w).countP mask.getLsbD

/-- C and V change places where just one of them is in the mask. -/
def swapVC (mask : Mask) : Mask :=
  if mask &&& 3 ≠ 0 ∧ (mask &&& 3).toNat < 3 then mask ^^^ 3 else mask

/-- Width and rotation of the flags that are a run of ones in the lowest five bits; the table of
`EMIT_ClearFlags`, `EMIT_SetFlags` and `EMIT_SetFlagsConditional`. -/
def flagRun (flags : Mask) : Option (BitVec 8 × BitVec 8) :=
  match flags.toNat with
  | 1 => some (1, 0)
  | 3 => some (2, 0)
  | 7 => some (3, 0)
  | 15 => some (4, 0)
  | 31 => some (5, 0)
  | 2 => some (1, 31)
  | 6 => some (2, 31)
  | 14 => some (3, 31)
  | 30 => some (4, 31)
  | 4 => some (1, 30)
  | 12 => some (2, 30)
  | 28 => some (3, 30)
  | 8 => some (1, 29)
  | 24 => some (2, 29)
  | 16 => some (1, 28)
  | _ => none

def emitClearFlags (cc tmp : Reg) (flags : Mask) : List Op :=
  if flags = 0 then []
  else match flagRun flags with
    | some (width, ror) => [bicImmed cc cc width ror]
    | none => [.movImmedU16 tmp (flags.zeroExtend 16) 0, .bicReg cc cc tmp .LSL 0]

def emitSetFlags (cc tmp : Reg) (flags : Mask) : List Op :=
  if flags = 0 then []
  else match flagRun flags with
    | some (width, ror) => [.orrImmed cc cc width ror]
    | none => [.movImmedU16 tmp (flags.zeroExtend 16) 0, .orrReg cc cc tmp .LSL 0]

/-- Here the entry for all five flags has a run of four ones. -/
def emitSetFlagsConditional (cc tmp : Reg) (flags : Mask) (cond : Cond) : List Op :=
  if flags = 0 then []
  else if flags = 31 then [.orrImmed tmp cc 4 0, .csel cc tmp cc cond]
  else match flagRun flags with
    | some (width, ror) => [.orrImmed tmp cc width ror, .csel cc tmp cc cond]
    | none => [.movImmedU16 tmp (flags.zeroExtend 16) 0, .csel tmp tmp 31 cond,
        .orrReg cc cc tmp .LSL 0]

/-- The code of a helper, the flags it leaves to its caller, and the flags that the host holds. -/
structure Transfer where
  code : List Op
  notDone : Mask
  hostFlags : Mask

/-- The bit `lsb` of the condition codes becomes the truth of a condition. -/
def copyCond (cc tmp : Reg) (cond : Cond) (lsb : ℕ) : List Op :=
  [cset tmp cond, bfi cc tmp lsb 1]

/-- Z and N together, from the number of the conditions LE and MI that hold. -/
def copyNZ (cc tmp : Reg) : List Op :=
  [cinc tmp 31 ccLE, cinc tmp tmp ccMI, bfi cc tmp 2 2]

def emitGetNZ00 (cc tmp : Reg) (mask : Mask) : Transfer :=
  let hostFlags := mask &&& srNZ
  if mask = 0 then ⟨[], mask, hostFlags⟩
  else if popcount mask = 1 then
    match mask.toNat with
    | 1 => ⟨[bicImmed cc cc 1 31], 0, hostFlags⟩
    | 2 => ⟨[bicImmed cc cc 1 0], 0, hostFlags⟩
    | 4 => ⟨copyCond cc tmp ccEQ 2, 0, hostFlags⟩
    | 8 => ⟨copyCond cc tmp ccMI 3, 0, hostFlags⟩
    | _ => ⟨[], mask, hostFlags⟩
  else
    let code :=
      if mask &&& srNZ = srNZ then
        (if mask &&& srVC ≠ 0 then [bicImmed cc cc 4 0] else []) ++ copyNZ cc tmp
      else if mask &&& srNZ = srZ then
        [bicImmed cc cc 4 0, .orrImmed tmp cc 1 30, .csel cc tmp cc ccEQ]
      else if mask &&& srNZ = srN then
        [bicImmed cc cc 4 0, .orrImmed tmp cc 1 29, .csel cc tmp cc ccMI]
      -- without N and Z nothing is emitted, and V and C count as done
      else []
    ⟨code, mask &&& srX, hostFlags⟩

def emitGetNZxx (cc tmp : Reg) (mask : Mask) : Transfer :=
  let hostFlags := mask &&& srNZ
  if mask = 0 then ⟨[], mask, hostFlags⟩
  else if popcount mask = 1 then
    match mask.toNat with
    | 4 => ⟨copyCond cc tmp ccEQ 2, 0, hostFlags⟩
    | 8 => ⟨copyCond cc tmp ccMI 3, 0, hostFlags⟩
    | _ => ⟨[], mask, hostFlags⟩
  else ⟨copyNZ cc tmp, mask &&& 0x13, hostFlags⟩

/-- The flags that a helper has not done are cleared, for the caller to set. -/
def Transfer.clearRest (t : Transfer) (cc tmp : Reg) : Transfer :=
  { t with code :=
      t.code ++ if t.notDone ≠ 0 then emitClearFlags cc tmp (swapVC t.notDone) else [] }

/-- One flag: V, Z and N are copied, C and X are the carry condition. X is not every helper's. -/
def copyOne (cc tmp : Reg) (carry : Cond) (withX : Bool) (mask hostFlags : Mask) : Transfer :=
  match mask.toNat with
  | 1 => ⟨copyCond cc tmp carry 1, 0, hostFlags⟩
  | 2 => ⟨copyCond cc tmp ccVS 0, 0, hostFlags⟩
  | 4 => ⟨copyCond cc tmp ccEQ 2, 0, hostFlags⟩
  | 8 => ⟨copyCond cc tmp ccMI 3, 0, hostFlags⟩
  | 16 => if withX then ⟨copyCond cc tmp carry 4, 0, hostFlags⟩ else ⟨[], mask, hostFlags⟩
  | _ => ⟨[], mask, hostFlags⟩

def emitGetNZCV (cc tmp tmp2 : Reg) (mask : Mask) : Transfer :=
  let hostFlags := mask &&& srNZVC
  if mask = 0 then ⟨[], mask, hostFlags⟩
  else if popcount mask = 1 then (copyOne cc tmp ccCS false mask hostFlags).clearRest cc tmp2
  else
    Transfer.clearRest ⟨[.getNzcv tmp, bfxil cc tmp 28 4], mask &&& srX, hostFlags⟩ cc tmp2

def emitGetNZCVX (cc tmp tmp2 : Reg) (mask : Mask) : Transfer :=
  let hostFlags := mask &&& srNZVC
  if mask = 0 then ⟨[], mask, hostFlags⟩
  else if popcount mask = 1 then (copyOne cc tmp ccCS true mask hostFlags).clearRest cc tmp2
  else if popcount mask > 2 then
    let x := if mask &&& srX ≠ 0 then copyCond cc tmp ccCS 4 else []
    Transfer.clearRest ⟨[.getNzcv tmp, bfxil cc tmp 28 4] ++ x, 0, hostFlags⟩ cc tmp2
  else Transfer.clearRest ⟨[], mask, hostFlags⟩ cc tmp2

def emitGetNZnCV (cc tmp tmp2 : Reg) (mask : Mask) : Transfer :=
  let hostFlags := mask &&& srNZV
  if mask = 0 then ⟨[], mask, hostFlags⟩
  else if popcount mask = 1 then (copyOne cc tmp ccCC false mask hostFlags).clearRest cc tmp2
  else
    let invert := if mask &&& srC ≠ 0 then [.eorImmed tmp tmp 1 3] else []
    Transfer.clearRest
      ⟨[.getNzcv tmp] ++ invert ++ [bfxil cc tmp 28 4], mask &&& srX, hostFlags⟩ cc tmp2

def emitGetNZnCVX (cc tmp tmp2 : Reg) (mask : Mask) : Transfer :=
  let hostFlags := mask &&& srNZV
  if mask = 0 then ⟨[], mask, hostFlags⟩
  else if popcount mask = 1 then (copyOne cc tmp ccCC true mask hostFlags).clearRest cc tmp2
  else if popcount mask > 2 then
    let invert := if mask &&& srXC ≠ 0 then [.eorImmed tmp tmp 1 3] else []
    let x := if mask &&& srX ≠ 0 then copyCond cc tmp ccCC 4 else []
    Transfer.clearRest
      ⟨[.getNzcv tmp] ++ invert ++ [bfxil cc tmp 28 4] ++ x, 0, hostFlags⟩ cc tmp2
  else Transfer.clearRest ⟨[], mask, hostFlags⟩ cc tmp2

/-! ### The callers

What the emitters of the arithmetic and logical instructions do with the flags that are left. -/

def setIf (condition : Prop) [Decidable condition] (code : List Op) : List Op :=
  if condition then code else []

def restNZ (cc tmp : Reg) (rest : Mask) : List Op :=
  setIf (rest &&& srZ ≠ 0) (emitSetFlagsConditional cc tmp srZ ccEQ) ++
    setIf (rest &&& srN ≠ 0) (emitSetFlagsConditional cc tmp srN ccMI)

/-- `carry` is the condition of C and X. -/
def restXNZVC (cc tmp : Reg) (carry : Cond) (rest : Mask) : List Op :=
  restNZ cc tmp rest ++
    setIf (rest &&& srV ≠ 0) (emitSetFlagsConditional cc tmp srValt ccVS) ++
    setIf (rest &&& srXC ≠ 0)
      (if rest &&& srXC = srX then emitSetFlagsConditional cc tmp srX carry
      else if rest &&& srXC = srC then emitSetFlagsConditional cc tmp srCalt carry
      else emitSetFlagsConditional cc tmp (srCalt ||| srX) carry)

/-- The kinds of instruction whose emitters share their flag code. -/
inductive Caller where
  /-- AND, EOR, OR, MOVE, CLR, TST, the shifts and others: V and C are cleared. -/
  | logic
  /-- DIVU and DIVS: V and C are done before. -/
  | divide
  /-- ADD, ADDI, ADDQ. -/
  | add
  /-- SUB, SUBI, SUBQ: the host's carry is the inverse of the borrow. -/
  | sub
  /-- NEG: the borrow is told from the zero flag. -/
  | neg
  /-- CMP, CMPI, CMPM: X is not among the flags. -/
  | cmp
deriving DecidableEq

def Caller.emitFlags (cc tmp tmp2 : Reg) (mask : Mask) : Caller → List Op
  | .logic =>
    let t := emitGetNZ00 cc tmp mask
    t.code ++ restNZ cc tmp t.notDone
  | .divide =>
    let t := emitGetNZxx cc tmp mask
    t.code ++ restNZ cc tmp t.notDone
  | .add =>
    let t := if mask &&& srX ≠ 0 then emitGetNZCVX cc tmp tmp2 mask
      else emitGetNZCV cc tmp tmp2 mask
    t.code ++ restXNZVC cc tmp ccCS t.notDone
  | .sub =>
    let t := if mask &&& srX ≠ 0 then emitGetNZnCVX cc tmp tmp2 mask
      else emitGetNZnCV cc tmp tmp2 mask
    t.code ++ restXNZVC cc tmp ccCC t.notDone
  | .neg =>
    let t := if mask &&& srX ≠ 0 then emitGetNZnCVX cc tmp tmp2 mask
      else emitGetNZnCV cc tmp tmp2 mask
    t.code ++ restXNZVC cc tmp ccNE t.notDone
  | .cmp =>
    let t := emitGetNZnCV cc tmp tmp2 mask
    t.code ++ restNZ cc tmp t.notDone ++
      setIf (t.notDone &&& srV ≠ 0) (emitSetFlagsConditional cc tmp srValt ccVS) ++
      setIf (t.notDone &&& srC ≠ 0) (emitSetFlagsConditional cc tmp srCalt ccCC)

end Emu68.A64

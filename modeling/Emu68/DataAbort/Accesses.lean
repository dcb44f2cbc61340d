import Emu68.A64.Encoding
import Emu68.Lib.AddressSpace
import Emu68.Lib.WordFields

/-!
Loads and stores of integer registers: the words that `A64.h` has for them, and what the host does.
A register with the number 31 is zero as an operand; as a base it would be the stack pointer, which
the emitted code does not use.
-/

set_option autoImplicit false
set_option relaxedAutoImplicit false

namespace Emu68.DataAbort

open A64 Lib

abbrev Reg := BitVec 5

/-- `reg_extend_t`, the members that loads and stores allow. -/
inductive Extend where
  | uxtw
  | uxtx
  | sxtw
  | sxtx
deriving DecidableEq

def Extend.code : Extend → BitVec 3
  | .uxtw => 2
  | .uxtx => 3
  | .sxtw => 6
  | .sxtx => 7

/-! ### Words -/

/-- With an index register. -/
def regoffset (insn : Word) (rn rt rm : Reg) (ext : Extend) (lsl : Bool) : Word :=
  I32 (insn ||| (place 0 rt ||| place 5 rn ||| (place 16 rm ||| place 12 (BitVec.ofBool lsl) |||
    place 13 ext.code)))

/-- With an offset that is counted in units of the access. -/
def scaled (insn : Word) (shift : ℕ) (rn rt : Reg) (offset : BitVec 16) : Word :=
  I32 (insn ||| (place 0 rt ||| place 5 rn ||| place 10 ((offset >>> shift).setWidth 12)))

/-- With an offset in bytes. -/
def unscaled (insn : Word) (rn rt : Reg) (offset9 : BitVec 16) : Word :=
  I32 (insn ||| (place 0 rt ||| place 5 rn ||| place 12 (offset9.setWidth 9)))

/-- Of two registers. -/
def pair (insn : Word) (size : BitVec 16) (rn rt1 rt2 : Reg) (imm : BitVec 16) : Word :=
  I32 (insn ||| (place 0 rt1 ||| place 10 rt2 ||| place 5 rn |||
    place 15 ((imm.sdiv size).setWidth 7)))

def ldrRegoffset : Reg → Reg → Reg → Extend → Bool → Word := regoffset 0xb8600800

def ldr64Regoffset : Reg → Reg → Reg → Extend → Bool → Word := regoffset 0xf8600800

def ldrbRegoffset (rn rt rm : Reg) (ext : Extend) : Word := regoffset 0x38600800 rn rt rm ext false

def ldrsbRegoffset (rn rt rm : Reg) (ext : Extend) : Word := regoffset 0x38e00800 rn rt rm ext false

def ldrsb64Regoffset (rn rt rm : Reg) (ext : Extend) : Word :=
  regoffset 0x38a00800 rn rt rm ext false

def ldrhRegoffset : Reg → Reg → Reg → Extend → Bool → Word := regoffset 0x78600800

def ldrshRegoffset : Reg → Reg → Reg → Extend → Bool → Word := regoffset 0x78e00800

def ldrsh64Regoffset : Reg → Reg → Reg → Extend → Bool → Word := regoffset 0x78a00800

def ldrswRegoffset : Reg → Reg → Reg → Extend → Bool → Word := regoffset 0xb8a00800

def strRegoffset : Reg → Reg → Reg → Extend → Bool → Word := regoffset 0xb8200800

def str64Regoffset : Reg → Reg → Reg → Extend → Bool → Word := regoffset 0xf8200800

def strbRegoffset (rn rt rm : Reg) (ext : Extend) : Word := regoffset 0x38200800 rn rt rm ext false

def strhRegoffset : Reg → Reg → Reg → Extend → Bool → Word := regoffset 0x78200800

def ldrOffset : Reg → Reg → BitVec 16 → Word := scaled 0xb9400000 2

def ldr64Offset : Reg → Reg → BitVec 16 → Word := scaled 0xf9400000 3

def ldrbOffset : Reg → Reg → BitVec 16 → Word := scaled 0x39400000 0

def ldrsbOffset : Reg → Reg → BitVec 16 → Word := scaled 0x39c00000 0

def ldrsb64Offset : Reg → Reg → BitVec 16 → Word := scaled 0x39800000 0

def ldrhOffset : Reg → Reg → BitVec 16 → Word := scaled 0x79400000 1

def ldrshOffset : Reg → Reg → BitVec 16 → Word := scaled 0x79c00000 1

def ldrsh64Offset : Reg → Reg → BitVec 16 → Word := scaled 0x79800000 1

def ldrswOffset : Reg → Reg → BitVec 16 → Word := scaled 0xb9800000 2

def strOffset : Reg → Reg → BitVec 16 → Word := scaled 0xb9000000 2

def str64Offset : Reg → Reg → BitVec 16 → Word := scaled 0xf9000000 3

def strhOffset : Reg → Reg → BitVec 16 → Word := scaled 0x79000000 1

def strbOffset : Reg → Reg → BitVec 16 → Word := scaled 0x39000000 0

def ldrOffsetPostindex : Reg → Reg → BitVec 16 → Word := unscaled 0xb8400400

def ldr64OffsetPostindex : Reg → Reg → BitVec 16 → Word := unscaled 0xf8400400

def ldrbOffsetPostindex : Reg → Reg → BitVec 16 → Word := unscaled 0x38400400

def ldrsbOffsetPostindex : Reg → Reg → BitVec 16 → Word := unscaled 0x38c00400

def ldrsb64OffsetPostindex : Reg → Reg → BitVec 16 → Word := unscaled 0x38800400

def ldrhOffsetPostindex : Reg → Reg → BitVec 16 → Word := unscaled 0x78400400

def ldrshOffsetPostindex : Reg → Reg → BitVec 16 → Word := unscaled 0x78c00400

def ldrsh64OffsetPostindex : Reg → Reg → BitVec 16 → Word := unscaled 0x78800400

def ldrswOffsetPostindex : Reg → Reg → BitVec 16 → Word := unscaled 0xb8800400

def strOffsetPostindex : Reg → Reg → BitVec 16 → Word := unscaled 0xb8000400

def str64OffsetPostindex : Reg → Reg → BitVec 16 → Word := unscaled 0xf8000400

def strhOffsetPostindex : Reg → Reg → BitVec 16 → Word := unscaled 0x78000400

def strbOffsetPostindex : Reg → Reg → BitVec 16 → Word := unscaled 0x38000400

def ldrOffsetPreindex : Reg → Reg → BitVec 16 → Word := unscaled 0xb8400c00

def ldr64OffsetPreindex : Reg → Reg → BitVec 16 → Word := unscaled 0xf8400c00

def ldrbOffsetPreindex : Reg → Reg → BitVec 16 → Word := unscaled 0x38400c00

def ldrsbOffsetPreindex : Reg → Reg → BitVec 16 → Word := unscaled 0x38c00c00

def ldrsb64OffsetPreindex : Reg → Reg → BitVec 16 → Word := unscaled 0x38800c00

def ldrhOffsetPreindex : Reg → Reg → BitVec 16 → Word := unscaled 0x78400c00

def ldrshOffsetPreindex : Reg → Reg → BitVec 16 → Word := unscaled 0x78c00c00

def ldrsh64OffsetPreindex : Reg → Reg → BitVec 16 → Word := unscaled 0x78800c00

def ldrswOffsetPreindex : Reg → Reg → BitVec 16 → Word := unscaled 0xb8800c00

def strOffsetPreindex : Reg → Reg → BitVec 16 → Word := unscaled 0xb8000c00

def str64OffsetPreindex : Reg → Reg → BitVec 16 → Word := unscaled 0xf8000c00

def strhOffsetPreindex : Reg → Reg → BitVec 16 → Word := unscaled 0x78000c00

def strbOffsetPreindex : Reg → Reg → BitVec 16 → Word := unscaled 0x38000c00

def ldurOffset : Reg → Reg → BitVec 16 → Word := unscaled 0xb8400000

def ldur64Offset : Reg → Reg → BitVec 16 → Word := unscaled 0xf8400000

def ldurbOffset : Reg → Reg → BitVec 16 → Word := unscaled 0x38400000

def ldursbOffset : Reg → Reg → BitVec 16 → Word := unscaled 0x38c00000

def ldursb64Offset : Reg → Reg → BitVec 16 → Word := unscaled 0x38800000

def ldurhOffset : Reg → Reg → BitVec 16 → Word := unscaled 0x78400000

def ldurshOffset : Reg → Reg → BitVec 16 → Word := unscaled 0x78c00000

def ldursh64Offset : Reg → Reg → BitVec 16 → Word := unscaled 0x78800000

def ldurswOffset : Reg → Reg → BitVec 16 → Word := unscaled 0xb8800000

def sturOffset : Reg → Reg → BitVec 16 → Word := unscaled 0xb8000000

def stur64Offset : Reg → Reg → BitVec 16 → Word := unscaled 0xf8000000

def sturbOffset : Reg → Reg → BitVec 16 → Word := unscaled 0x38000000

def sturhOffset : Reg → Reg → BitVec 16 → Word := unscaled 0x78000000

def ldp : Reg → Reg → Reg → BitVec 16 → Word := pair 0x29400000 4

def ldpsw : Reg → Reg → Reg → BitVec 16 → Word := pair 0x69400000 4

def ldp64 : Reg → Reg → Reg → BitVec 16 → Word := pair 0xa9400000 8

def ldpPostindex : Reg → Reg → Reg → BitVec 16 → Word := pair 0x28c00000 4

def ldpswPostindex : Reg → Reg → Reg → BitVec 16 → Word := pair 0x68c00000 4

def ldp64Postindex : Reg → Reg → Reg → BitVec 16 → Word := pair 0xa8c00000 8

def ldpPreindex : Reg → Reg → Reg → BitVec 16 → Word := pair 0x29c00000 4

def ldpswPreindex : Reg → Reg → Reg → BitVec 16 → Word := pair 0x69c00000 4

def ldp64Preindex : Reg → Reg → Reg → BitVec 16 → Word := pair 0xa9c00000 8

def stp : Reg → Reg → Reg → BitVec 16 → Word := pair 0x29000000 4

def stp64 : Reg → Reg → Reg → BitVec 16 → Word := pair 0xa9000000 8

def stpPostindex : Reg → Reg → Reg → BitVec 16 → Word := pair 0x28800000 4

def stp64Postindex : Reg → Reg → Reg → BitVec 16 → Word := pair 0xa8800000 8

def stpPreindex : Reg → Reg → Reg → BitVec 16 → Word := pair 0x29800000 4

def stp64Preindex : Reg → Reg → Reg → BitVec 16 → Word := pair 0xa9800000 8

/-! ### Instructions -/

inductive Kind where
  | ldr
  | ldr64
  | ldrb
  | ldrsb
  | ldrsb64
  | ldrh
  | ldrsh
  | ldrsh64
  | ldrsw
  | str
  | str64
  | strb
  | strh
deriving DecidableEq

inductive Mode where
  | scaled (offset : BitVec 16)
  | unscaled (offset9 : BitVec 16)
  | postindex (offset9 : BitVec 16)
  | preindex (offset9 : BitVec 16)
  | regoffset (rm : Reg) (ext : Extend) (lsl : Bool)

inductive PairKind where
  | ldp
  | ldp64
  | ldpsw
  | stp
  | stp64
deriving DecidableEq

inductive PairMode where
  | offset
  | postindex
  | preindex
deriving DecidableEq

inductive Insn where
  | single (kind : Kind) (mode : Mode) (rn rt : Reg)
  | pair (kind : PairKind) (mode : PairMode) (rn rt1 rt2 : Reg) (imm : BitVec 16)

def Kind.code (rn rt : Reg) : Kind → Mode → Word
  | .ldr, .scaled offset => ldrOffset rn rt offset
  | .ldr, .unscaled offset9 => ldurOffset rn rt offset9
  | .ldr, .postindex offset9 => ldrOffsetPostindex rn rt offset9
  | .ldr, .preindex offset9 => ldrOffsetPreindex rn rt offset9
  | .ldr, .regoffset rm ext lsl => ldrRegoffset rn rt rm ext lsl
  | .ldr64, .scaled offset => ldr64Offset rn rt offset
  | .ldr64, .unscaled offset9 => ldur64Offset rn rt offset9
  | .ldr64, .postindex offset9 => ldr64OffsetPostindex rn rt offset9
  | .ldr64, .preindex offset9 => ldr64OffsetPreindex rn rt offset9
  | .ldr64, .regoffset rm ext lsl => ldr64Regoffset rn rt rm ext lsl
  | .ldrb, .scaled offset => ldrbOffset rn rt offset
  | .ldrb, .unscaled offset9 => ldurbOffset rn rt offset9
  | .ldrb, .postindex offset9 => ldrbOffsetPostindex rn rt offset9
  | .ldrb, .preindex offset9 => ldrbOffsetPreindex rn rt offset9
  | .ldrb, .regoffset rm ext _ => ldrbRegoffset rn rt rm ext
  | .ldrsb, .scaled offset => ldrsbOffset rn rt offset
  | .ldrsb, .unscaled offset9 => ldursbOffset rn rt offset9
  | .ldrsb, .postindex offset9 => ldrsbOffsetPostindex rn rt offset9
  | .ldrsb, .preindex offset9 => ldrsbOffsetPreindex rn rt offset9
  | .ldrsb, .regoffset rm ext _ => ldrsbRegoffset rn rt rm ext
  | .ldrsb64, .scaled offset => ldrsb64Offset rn rt offset
  | .ldrsb64, .unscaled offset9 => ldursb64Offset rn rt offset9
  | .ldrsb64, .postindex offset9 => ldrsb64OffsetPostindex rn rt offset9
  | .ldrsb64, .preindex offset9 => ldrsb64OffsetPreindex rn rt offset9
  | .ldrsb64, .regoffset rm ext _ => ldrsb64Regoffset rn rt rm ext
  | .ldrh, .scaled offset => ldrhOffset rn rt offset
  | .ldrh, .unscaled offset9 => ldurhOffset rn rt offset9
  | .ldrh, .postindex offset9 => ldrhOffsetPostindex rn rt offset9
  | .ldrh, .preindex offset9 => ldrhOffsetPreindex rn rt offset9
  | .ldrh, .regoffset rm ext lsl => ldrhRegoffset rn rt rm ext lsl
  | .ldrsh, .scaled offset => ldrshOffset rn rt offset
  | .ldrsh, .unscaled offset9 => ldurshOffset rn rt offset9
  | .ldrsh, .postindex offset9 => ldrshOffsetPostindex rn rt offset9
  | .ldrsh, .preindex offset9 => ldrshOffsetPreindex rn rt offset9
  | .ldrsh, .regoffset rm ext lsl => ldrshRegoffset rn rt rm ext lsl
  | .ldrsh64, .scaled offset => ldrsh64Offset rn rt offset
  | .ldrsh64, .unscaled offset9 => ldursh64Offset rn rt offset9
  | .ldrsh64, .postindex offset9 => ldrsh64OffsetPostindex rn rt offset9
  | .ldrsh64, .preindex offset9 => ldrsh64OffsetPreindex rn rt offset9
  | .ldrsh64, .regoffset rm ext lsl => ldrsh64Regoffset rn rt rm ext lsl
  | .ldrsw, .scaled offset => ldrswOffset rn rt offset
  | .ldrsw, .unscaled offset9 => ldurswOffset rn rt offset9
  | .ldrsw, .postindex offset9 => ldrswOffsetPostindex rn rt offset9
  | .ldrsw, .preindex offset9 => ldrswOffsetPreindex rn rt offset9
  | .ldrsw, .regoffset rm ext lsl => ldrswRegoffset rn rt rm ext lsl
  | .str, .scaled offset => strOffset rn rt offset
  | .str, .unscaled offset9 => sturOffset rn rt offset9
  | .str, .postindex offset9 => strOffsetPostindex rn rt offset9
  | .str, .preindex offset9 => strOffsetPreindex rn rt offset9
  | .str, .regoffset rm ext lsl => strRegoffset rn rt rm ext lsl
  | .str64, .scaled offset => str64Offset rn rt offset
  | .str64, .unscaled offset9 => stur64Offset rn rt offset9
  | .str64, .postindex offset9 => str64OffsetPostindex rn rt offset9
  | .str64, .preindex offset9 => str64OffsetPreindex rn rt offset9
  | .str64, .regoffset rm ext lsl => str64Regoffset rn rt rm ext lsl
  | .strb, .scaled offset => strbOffset rn rt offset
  | .strb, .unscaled offset9 => sturbOffset rn rt offset9
  | .strb, .postindex offset9 => strbOffsetPostindex rn rt offset9
  | .strb, .preindex offset9 => strbOffsetPreindex rn rt offset9
  | .strb, .regoffset rm ext _ => strbRegoffset rn rt rm ext
  | .strh, .scaled offset => strhOffset rn rt offset
  | .strh, .unscaled offset9 => sturhOffset rn rt offset9
  | .strh, .postindex offset9 => strhOffsetPostindex rn rt offset9
  | .strh, .preindex offset9 => strhOffsetPreindex rn rt offset9
  | .strh, .regoffset rm ext lsl => strhRegoffset rn rt rm ext lsl

def PairKind.code (rn rt1 rt2 : Reg) (imm : BitVec 16) : PairKind → PairMode → Word
  | .ldp, .offset => DataAbort.ldp rn rt1 rt2 imm
  | .ldp, .postindex => ldpPostindex rn rt1 rt2 imm
  | .ldp, .preindex => ldpPreindex rn rt1 rt2 imm
  | .ldp64, .offset => DataAbort.ldp64 rn rt1 rt2 imm
  | .ldp64, .postindex => ldp64Postindex rn rt1 rt2 imm
  | .ldp64, .preindex => ldp64Preindex rn rt1 rt2 imm
  | .ldpsw, .offset => DataAbort.ldpsw rn rt1 rt2 imm
  | .ldpsw, .postindex => ldpswPostindex rn rt1 rt2 imm
  | .ldpsw, .preindex => ldpswPreindex rn rt1 rt2 imm
  | .stp, .offset => DataAbort.stp rn rt1 rt2 imm
  | .stp, .postindex => stpPostindex rn rt1 rt2 imm
  | .stp, .preindex => stpPreindex rn rt1 rt2 imm
  | .stp64, .offset => DataAbort.stp64 rn rt1 rt2 imm
  | .stp64, .postindex => stp64Postindex rn rt1 rt2 imm
  | .stp64, .preindex => stp64Preindex rn rt1 rt2 imm

def Insn.code : Insn → Word
  | .single kind mode rn rt => kind.code rn rt mode
  | .pair kind mode rn rt1 rt2 imm => kind.code rn rt1 rt2 imm mode

/-! ### What the host does -/

/-- The registers, the memory and the place of the instruction. -/
structure Context where
  regs : Reg → BitVec 64
  memory : Bytes
  elr : BitVec 64

def Context.put (c : Context) (r : Reg) (value : BitVec 64) : Context :=
  { c with regs := Function.update c.regs r value }

def Context.get (c : Context) (r : Reg) : BitVec 64 := if r = 31 then 0 else c.regs r

def Context.next (c : Context) : Context := { c with elr := c.elr + 4 }

def Extend.apply (x : BitVec 64) : Extend → BitVec 64
  | .uxtw => (x.setWidth 32).setWidth 64
  | .uxtx => x
  | .sxtw => (x.setWidth 32).signExtend 64
  | .sxtx => x

/-- The size of the access is `2 ^ log`. -/
def Kind.log : Kind → ℕ
  | .ldrb | .ldrsb | .ldrsb64 | .strb => 0
  | .ldrh | .ldrsh | .ldrsh64 | .strh => 1
  | .ldr | .ldrsw | .str => 2
  | .ldr64 | .str64 => 3

def Kind.bytes (kind : Kind) : ℕ := 2 ^ kind.log

def Kind.isStore : Kind → Bool
  | .str | .str64 | .strb | .strh => true
  | _ => false

/-- The width that the value is extended to with its sign. -/
def Kind.signed : Kind → Option ℕ
  | .ldrsb | .ldrsh => some 32
  | .ldrsb64 | .ldrsh64 | .ldrsw => some 64
  | _ => none

def Kind.value (kind : Kind) (data : ℕ) : BitVec 64 :=
  match kind.signed with
  | some width => ((BitVec.ofNat (8 * kind.bytes) data).signExtend width).setWidth 64
  | none => BitVec.ofNat 64 data

def Mode.offset (log : ℕ) (c : Context) : Mode → BitVec 64
  | .scaled offset => ((offset >>> log).setWidth 12).setWidth 64 <<< log
  | .unscaled offset9 | .postindex offset9 | .preindex offset9 => (offset9.setWidth 9).signExtend 64
  | .regoffset rm ext lsl => ext.apply (c.get rm) <<< if lsl then log else 0

def Mode.isPostindex : Mode → Bool
  | .postindex _ => true
  | _ => false

def Mode.writesBack : Mode → Bool
  | .postindex _ | .preindex _ => true
  | _ => false

def Mode.address (log : ℕ) (rn : Reg) (c : Context) (mode : Mode) : BitVec 64 :=
  if mode.isPostindex then c.regs rn else c.regs rn + mode.offset log c

def Mode.writeBack (log : ℕ) (rn : Reg) (before : Context) (mode : Mode) (c : Context) : Context :=
  if mode.writesBack then c.put rn (before.regs rn + mode.offset log before) else c

def Kind.exec (kind : Kind) (mode : Mode) (rn rt : Reg) (c : Context) : Context :=
  let address := mode.address kind.log rn c
  let accessed :=
    if kind.isStore then
      { c with memory := store c.memory address kind.bytes (c.get rt).toNat }
    else c.put rt (kind.value (load c.memory address kind.bytes))
  (mode.writeBack kind.log rn c accessed).next

def PairKind.log : PairKind → ℕ
  | .ldp | .ldpsw | .stp => 2
  | .ldp64 | .stp64 => 3

def PairKind.bytes (kind : PairKind) : ℕ := 2 ^ kind.log

def PairKind.isStore : PairKind → Bool
  | .stp | .stp64 => true
  | _ => false

def PairKind.value (kind : PairKind) (data : ℕ) : BitVec 64 :=
  if kind = .ldpsw then (BitVec.ofNat 32 data).signExtend 64 else BitVec.ofNat 64 data

def PairKind.offset (imm : BitVec 16) (kind : PairKind) : BitVec 64 :=
  ((imm.sdiv (BitVec.ofNat 16 kind.bytes)).setWidth 7).signExtend 64 <<< kind.log

def PairMode.address (rn : Reg) (offset : BitVec 64) (c : Context) : PairMode → BitVec 64
  | .postindex => c.regs rn
  | .offset | .preindex => c.regs rn + offset

def PairKind.exec (kind : PairKind) (mode : PairMode) (rn rt1 rt2 : Reg) (imm : BitVec 16)
    (c : Context) : Context :=
  let address := mode.address rn (kind.offset imm) c
  let second := address + BitVec.ofNat 64 kind.bytes
  let accessed :=
    if kind.isStore then
      { c with
        memory := store (store c.memory address kind.bytes (c.get rt1).toNat) second kind.bytes
          (c.get rt2).toNat }
    else
      (c.put rt1 (kind.value (load c.memory address kind.bytes))).put rt2
        (kind.value (load c.memory second kind.bytes))
  (if mode = .offset then accessed else accessed.put rn (c.regs rn + kind.offset imm)).next

def Insn.exec (c : Context) : Insn → Context
  | .single kind mode rn rt => kind.exec mode rn rt c
  | .pair kind mode rn rt1 rt2 imm => kind.exec mode rn rt1 rt2 imm c

/-- The place of the access, and how many bytes it has. -/
def Insn.place (c : Context) : Insn → BitVec 64 × ℕ
  | .single kind mode rn _ => (mode.address kind.log rn c, kind.bytes)
  | .pair kind mode rn _ _ imm => (mode.address rn (kind.offset imm) c, 2 * kind.bytes)

def Insn.isStore : Insn → Bool
  | .single kind _ _ _ => kind.isStore
  | .pair kind _ _ _ _ _ => kind.isStore

/-- The architecture says what the instruction does, and the emitters have no other use of the
number 31 than the zero to store. -/
def Insn.Defined : Insn → Prop
  | .single kind mode rn rt => rn ≠ 31 ∧ (kind.isStore = false → rt ≠ 31) ∧
      (mode.writesBack = true → rt ≠ rn) ∧ ∀ rm ext lsl, mode = .regoffset rm ext lsl → rm ≠ 31
  | .pair kind mode rn rt1 rt2 _ => rn ≠ 31 ∧
      (kind.isStore = false → rt1 ≠ 31 ∧ rt2 ≠ 31 ∧ rt1 ≠ rt2) ∧
      (mode ≠ .offset → rt1 ≠ rn ∧ rt2 ≠ rn)

end Emu68.DataAbort

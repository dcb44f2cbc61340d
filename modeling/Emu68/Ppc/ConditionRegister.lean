import Emu68.Ppc.HostCode

/-!
The condition-register instructions of the PowerPC (`PPC_Translator.cpp`: `EMIT_crand` and its
siblings, `EMIT_mcrf`, `EMIT_mcrxr` and `EMIT_mtcrf`). The host registers that the register cache
gives are parameters. Bit 0 of CR is the most significant one.
-/

set_option autoImplicit false
set_option relaxedAutoImplicit false

namespace Emu68.Ppc.ConditionRegister

open A64 hiding bfi step
open HostCode

/-! ### The emitters -/

/-- The host registers of CR, XER and rS, and the temporary ones in the order of allocation. -/
structure Registers where
  cr : Reg
  xer : Reg
  rs : Reg
  tmp : Reg
  imm : Reg

def field (opcode : BitVec 32) (lsb len : ℕ) : ℕ := opcode.toNat / 2 ^ lsb % 2 ^ len

def crd (opcode : BitVec 32) : ℕ := field opcode 21 5

def cra (opcode : BitVec 32) : ℕ := field opcode 16 5

def crb (opcode : BitVec 32) : ℕ := field opcode 11 5

/-- The immediate of one bit, with its rotation. -/
def oneBit (opcode : BitVec 32) : BitVec 8 := BitVec.ofNat 8 ((crd opcode + 1) % 32)

variable (r : Registers) (opcode : BitVec 32)

def emitMcrf : List Insn :=
  let dst := field opcode 23 3
  let src := field opcode 18 3
  [lsr r.tmp r.cr ((7 - src) * 4), bfi r.cr r.tmp ((7 - dst) * 4) 4]

def emitCrandc : List Insn :=
  [.negReg r.tmp r.cr .LSR (31 - crb opcode), .op (.andReg r.tmp r.tmp r.cr .LSR (31 - cra opcode)),
    bfi r.cr r.tmp (31 - crd opcode) 1]

def emitCreqv : List Insn :=
  if cra opcode = crb opcode then [.op (.orrImmed r.cr r.cr 1 (oneBit opcode))]
  else
    [lsr r.tmp r.cr (31 - cra opcode), .eonReg r.tmp r.tmp r.cr .LSR (31 - crb opcode),
      bfi r.cr r.tmp (31 - crd opcode) 1]

/-- The bit move of `EMIT_crand` and `EMIT_cror`. -/
def bitMove : List Insn :=
  [lsr r.tmp r.cr (31 - cra opcode), bfi r.cr r.tmp (31 - crd opcode) 1]

def emitCrand : List Insn :=
  if cra opcode = crb opcode then bitMove r opcode
  else
    [lsr r.tmp r.cr (31 - cra opcode), .op (.andReg r.tmp r.tmp r.cr .LSR (31 - crb opcode)),
      bfi r.cr r.tmp (31 - crd opcode) 1]

def emitCrnand : List Insn :=
  [lsr r.tmp r.cr (31 - cra opcode), .op (.andReg r.tmp r.tmp r.cr .LSR (31 - crb opcode)),
    .negReg r.tmp r.tmp .LSL 0, bfi r.cr r.tmp (31 - crd opcode) 1]

def emitCrnor : List Insn :=
  if cra opcode = crb opcode then [.op (.eorImmed r.cr r.cr 1 (oneBit opcode))]
  else
    [lsr r.tmp r.cr (31 - cra opcode), .op (.orrReg r.tmp r.tmp r.cr .LSR (31 - crb opcode)),
      .negReg r.tmp r.tmp .LSL 0, bfi r.cr r.tmp (31 - crd opcode) 1]

def emitCror : List Insn :=
  if cra opcode = crb opcode then bitMove r opcode
  else
    [lsr r.tmp r.cr (31 - cra opcode), .op (.orrReg r.tmp r.tmp r.cr .LSR (31 - crb opcode)),
      bfi r.cr r.tmp (31 - crd opcode) 1]

def emitCrorc : List Insn :=
  if cra opcode = crb opcode then [.op (.orrImmed r.cr r.cr 1 (oneBit opcode))]
  else
    [lsr r.tmp r.cr (31 - cra opcode), .op (.ornReg r.tmp r.tmp r.cr .LSR (31 - crb opcode)),
      bfi r.cr r.tmp (31 - crd opcode) 1]

def emitCrxor : List Insn :=
  if cra opcode = crb opcode then [.op (bicImmed r.cr r.cr 1 (oneBit opcode))]
  else
    [lsr r.tmp r.cr (31 - cra opcode), .op (.orrReg r.tmp r.tmp r.cr .LSR (31 - crb opcode)),
      bfi r.cr r.tmp (31 - crd opcode) 1]

def emitMcrxr : List Insn :=
  [lsr r.tmp r.xer 28, bfi r.cr r.tmp (4 * (7 - field opcode 23 3)) 4,
    .op (bicImmed r.xer r.xer 4 4)]

/-- The bits of the selected fields. -/
def mask32 (mask : BitVec 8) : BitVec 32 :=
  (List.range 8).foldl (fun m i ↦ if mask.getLsbD i then m ||| (15 <<< (4 * i)) else m) 0

def fxm : BitVec 8 := BitVec.ofNat 8 (field opcode 12 8)

def width (mask : BitVec 32) : BitVec 8 := ((numberToMask mask >>> 16) &&& 0x3f).setWidth 8

def rotation (mask : BitVec 32) : BitVec 8 := (numberToMask mask &&& 0x3f).setWidth 8

def emitMtcrf : List Insn :=
  let mask := fxm opcode
  if mask = 0xff then [.op (movReg r.cr r.rs)]
  else if mask = 0 then [.op (movReg r.cr 31)]
  else if numberToMask (mask32 mask) = 0 then
    (emitLoadImmediate r.imm (mask32 mask)).map Insn.op ++
      [.op (.bicReg r.cr r.cr r.imm .LSL 0), .op (.andReg r.tmp r.tmp r.imm .LSL 0),
        .op (.orrReg r.cr r.cr r.tmp .LSL 0)]
  else
    [.op (bicImmed r.cr r.cr (width (mask32 mask)) (rotation (mask32 mask))),
      .op (.andImmed r.tmp r.tmp (width (mask32 mask)) (rotation (mask32 mask))),
      .op (.orrReg r.cr r.cr r.tmp .LSL 0)]

inductive Kind where
  | crand
  | crandc
  | creqv
  | crnand
  | crnor
  | cror
  | crorc
  | crxor
  | mcrf
  | mcrxr
  | mtcrf
deriving DecidableEq

/-- The bits that the sanity checks want to be zero. -/
def Kind.reserved : Kind → BitVec 32
  | .mcrf => 0x63f801
  | .mcrxr => 0x007ff801
  | .mtcrf => 0x00100801
  | _ => 1

def Kind.body : Kind → List Insn
  | .crand => emitCrand r opcode
  | .crandc => emitCrandc r opcode
  | .creqv => emitCreqv r opcode
  | .crnand => emitCrnand r opcode
  | .crnor => emitCrnor r opcode
  | .cror => emitCror r opcode
  | .crorc => emitCrorc r opcode
  | .crxor => emitCrxor r opcode
  | .mcrf => emitMcrf r opcode
  | .mcrxr => emitMcrxr r opcode
  | .mtcrf => emitMtcrf r opcode

def Kind.emit (k : Kind) : Option (List Insn) :=
  if opcode &&& k.reserved ≠ 0 then none else some (k.body r opcode)

/-! ### The architecture -/

/-- The Boolean function of an instruction with three bits. -/
def Kind.function : Kind → Option (Bool → Bool → Bool)
  | .crand => some fun a b ↦ a && b
  | .crandc => some fun a b ↦ a && !b
  | .creqv => some fun a b ↦ a == b
  | .crnand => some fun a b ↦ !(a && b)
  | .crnor => some fun a b ↦ !(a || b)
  | .cror => some fun a b ↦ a || b
  | .crorc => some fun a b ↦ a || !b
  | .crxor => some fun a b ↦ a != b
  | _ => none

/-- Bit `i` of CR after the instruction. -/
def Kind.newBit (k : Kind) (cr xer rs : BitVec 32) (i : ℕ) : Bool :=
  match k.function with
  | some f =>
    if i = crd opcode then f (cr.getMsbD (cra opcode)) (cr.getMsbD (crb opcode)) else cr.getMsbD i
  | none =>
    match k with
    | .mcrf =>
      if i / 4 = field opcode 23 3 then cr.getMsbD (4 * field opcode 18 3 + i % 4) else cr.getMsbD i
    | .mcrxr => if i / 4 = field opcode 23 3 then xer.getMsbD (i % 4) else cr.getMsbD i
    | _ => if (fxm opcode).getMsbD (i / 4) then rs.getMsbD i else cr.getMsbD i

/-- The word is accepted, and its code leaves in CR what the instruction does. -/
def Right (k : Kind) (s : Cpu) : Prop :=
  ∃ code, k.emit r opcode = some code ∧ ∀ i < 32, ((run code s).get r.cr).getMsbD i =
    k.newBit opcode (s.get r.cr) (s.get r.xer) (s.get r.rs) i

/-- What `EMIT_mtcrf` keeps of the old CR: the complement of the mask is wrong for an immediate that
repeats a part. -/
def kept (mask : BitVec 8) : BitVec 32 :=
  if numberToMask (mask32 mask) = 0 then ~~~mask32 mask
  else bitmask (32 - width (mask32 mask)) (rotation (mask32 mask) - width (mask32 mask))

/-- When the code is right. `EMIT_mtcrf` takes the fields from what the temporary register held. -/
def Kind.Works (k : Kind) (s : Cpu) : Prop :=
  let cr := s.get r.cr
  match k with
  | .crandc => cr.getMsbD (cra opcode) = false
  | .crnand => False
  | .crnor => cra opcode = crb opcode ∧ cr.getMsbD (crd opcode) = cr.getMsbD (cra opcode)
  | .crxor => cra opcode = crb opcode ∨ ¬ (cr.getMsbD (cra opcode) ∧ cr.getMsbD (crb opcode))
  | .mtcrf =>
    fxm opcode = 0xff ∨ fxm opcode = 0 ∧ cr = 0 ∨
      fxm opcode ≠ 0xff ∧ fxm opcode ≠ 0 ∧ ∀ i < 32,
        if (fxm opcode).getMsbD (i / 4) then
          (cr.getMsbD i && (kept (fxm opcode)).getMsbD i || (s.get r.tmp).getMsbD i) =
            (s.get r.rs).getMsbD i
        else cr.getMsbD i = true → (kept (fxm opcode)).getMsbD i = true
  | _ => True

/-! ### Bits -/

/-- The registers that are written or read with others are different. -/
structure Registers.Apart : Prop where
  cr : r.cr ≠ 31
  tmp : r.tmp ≠ 31
  imm : r.imm ≠ 31
  tmpCr : r.tmp ≠ r.cr
  immCr : r.imm ≠ r.cr
  immTmp : r.imm ≠ r.tmp
  xerCr : r.xer ≠ r.cr

variable {r} {opcode} {s : Cpu} {k : Kind}

theorem field_lt (lsb len : ℕ) : field opcode lsb len < 2 ^ len := Nat.mod_lt _ (Nat.two_pow_pos _)

theorem getMsbD_eq (x : BitVec 32) {i : ℕ} (hi : i < 32) : x.getMsbD i = x.getLsbD (31 - i) := by
  rw [BitVec.getMsbD, decide_eq_true hi, Bool.true_and]

theorem getLsbD_zero_shift (x : BitVec 32) {a : ℕ} (ha : a < 32) :
    (x >>> (31 - a)).getLsbD 0 = x.getMsbD a := by
  rw [BitVec.getLsbD_ushiftRight, Nat.add_zero, getMsbD_eq x ha]

/-- Negation keeps the lowest bit. -/
theorem getLsbD_zero_neg (x : BitVec 32) : (0 - x).getLsbD 0 = x.getLsbD 0 := by
  have hx := x.isLt
  rw [BitVec.getLsbD, BitVec.getLsbD, Nat.testBit_zero, Nat.testBit_zero, BitVec.toNat_sub]
  show decide ((2 ^ 32 - x.toNat + 0) % 2 ^ 32 % 2 = 1) = _
  congr 1
  refine propext ⟨fun h ↦ by omega, fun h ↦ by omega⟩

theorem getMsbD_insertBit (target source : BitVec 32) {d i : ℕ} (hd : d < 32) (hi : i < 32) :
    (insertBits target source (31 - d) 1).getMsbD i =
      if i = d then source.getLsbD 0 else target.getMsbD i := by
  rw [getMsbD_eq _ hi, getLsbD_insertBits _ _ (by omega), getMsbD_eq _ hi]
  by_cases heq : i = d
  · rw [if_pos (by omega), if_pos heq, heq, Nat.sub_self]
  · rw [if_neg (by omega), if_neg heq]

theorem oneBit_bits : ∀ d < 32, ∀ i < 32,
    (bitmask 1 (BitVec.ofNat 8 ((d + 1) % 32))).getMsbD i = decide (i = d) ∧
      (bitmask (32 - 1) (BitVec.ofNat 8 ((d + 1) % 32) - 1)).getMsbD i = !decide (i = d) := by
  decide +kernel

/-- The code ends with a bit put into CR. -/
theorem run_insertBit (hr : r.Apart) (opcode : BitVec 32) (code : List Insn) {t : BitVec 32}
    (hcr : (run code s).get r.cr = s.get r.cr) (ht : (run code s).get r.tmp = t) {i : ℕ} (hi : i < 32) :
    ((run (code ++ [bfi r.cr r.tmp (31 - crd opcode) 1]) s).get r.cr).getMsbD i =
      if i = crd opcode then t.getLsbD 0 else (s.get r.cr).getMsbD i := by
  have hd : crd opcode < 32 := field_lt 21 5
  rw [run_append, run_cons, step_bfi Nat.one_pos (by omega), hcr, ht]
  show (((run code s).put r.cr _).get r.cr).getMsbD i = _
  rw [Cpu.get_put _ hr.cr, getMsbD_insertBit _ _ hd hi]

/-- Two bits are combined, the second one from a shifted register. -/
theorem run_combined (hr : r.Apart) {insn : Insn} {v : BitVec 32 → BitVec 32 → BitVec 32}
    (hinsn : ∀ t : Cpu, step t insn =
      t.put r.tmp (v (t.get r.tmp) (t.get r.cr >>> (31 - crb opcode)))) :
    (run [lsr r.tmp r.cr (31 - cra opcode), insn] s).get r.cr = s.get r.cr ∧
      (run [lsr r.tmp r.cr (31 - cra opcode), insn] s).get r.tmp =
        v (s.get r.cr >>> (31 - cra opcode)) (s.get r.cr >>> (31 - crb opcode)) := by
  have ha : cra opcode < 32 := field_lt 16 5
  rw [run_cons, step_lsr (by omega), run_cons, hinsn, Cpu.get_put _ hr.tmp,
    Cpu.get_put_of_ne _ (Ne.symm hr.tmpCr)]
  show ((Cpu.put _ _ _).get _ = _ ∧ (Cpu.put _ _ _).get _ = _)
  rw [Cpu.get_put_of_ne _ (Ne.symm hr.tmpCr), Cpu.get_put_of_ne _ (Ne.symm hr.tmpCr),
    Cpu.get_put _ hr.tmp]
  exact ⟨rfl, rfl⟩

/-- The same, negated. -/
theorem run_negated (hr : r.Apart) {code : List Insn} {t : BitVec 32}
    (hcr : (run code s).get r.cr = s.get r.cr) (ht : (run code s).get r.tmp = t) :
    (run (code ++ [Insn.negReg r.tmp r.tmp .LSL 0]) s).get r.cr = s.get r.cr ∧
      (run (code ++ [Insn.negReg r.tmp r.tmp .LSL 0]) s).get r.tmp = 0 - t := by
  rw [run_append]
  show ((run code s).put r.tmp _).get r.cr = _ ∧ ((run code s).put r.tmp _).get r.tmp = _
  rw [Cpu.get_put_of_ne _ (Ne.symm hr.tmpCr), Cpu.get_put _ hr.tmp, hcr, ht]
  exact ⟨rfl, by rw [Shift.apply, BitVec.shiftLeft_zero]⟩

theorem run_bitMove (hr : r.Apart) {i : ℕ} (hi : i < 32) :
    ((run (bitMove r opcode) s).get r.cr).getMsbD i =
      if i = crd opcode then (s.get r.cr).getMsbD (cra opcode) else (s.get r.cr).getMsbD i := by
  have ha : cra opcode < 32 := field_lt 16 5
  have hstep : run [lsr r.tmp r.cr (31 - cra opcode)] s =
      s.put r.tmp (s.get r.cr >>> (31 - cra opcode)) := step_lsr (by omega)
  have hmove := run_insertBit hr opcode [lsr r.tmp r.cr (31 - cra opcode)] (s := s)
    (by rw [hstep, Cpu.get_put_of_ne _ (Ne.symm hr.tmpCr)])
    (by rw [hstep, Cpu.get_put _ hr.tmp]) hi
  rw [getLsbD_zero_shift _ ha] at hmove
  exact hmove

/-! ### The eight functions -/

theorem emit_eq (haccepted : opcode &&& k.reserved = 0) : k.emit r opcode = some (k.body r opcode) :=
  if_neg (not_not.mpr haccepted)

theorem right_iff_of_body (haccepted : opcode &&& k.reserved = 0) :
    Right r opcode k s ↔ ∀ i < 32, ((run (k.body r opcode) s).get r.cr).getMsbD i =
      k.newBit opcode (s.get r.cr) (s.get r.xer) (s.get r.rs) i := by
  constructor
  · rintro ⟨code, hcode, hbits⟩
    obtain rfl := Option.some.inj ((emit_eq haccepted).symm.trans hcode)
    exact hbits
  · exact fun hbits ↦ ⟨_, emit_eq haccepted, hbits⟩

/-- An instruction that puts one bit into CR is right if it is the right one. -/
theorem right_iff_of_bit {f : Bool → Bool → Bool} {g : Bool} (haccepted : opcode &&& k.reserved = 0)
    (hf : k.function = some f)
    (hg : ∀ i < 32, ((run (k.body r opcode) s).get r.cr).getMsbD i =
      if i = crd opcode then g else (s.get r.cr).getMsbD i) :
    Right r opcode k s ↔
      g = f ((s.get r.cr).getMsbD (cra opcode)) ((s.get r.cr).getMsbD (crb opcode)) := by
  have hd : crd opcode < 32 := field_lt 21 5
  rw [right_iff_of_body haccepted]
  unfold Kind.newBit
  rw [hf]
  constructor
  · intro hall
    have hbit := hall (crd opcode) hd
    rw [hg _ hd, if_pos rfl] at hbit
    dsimp only at hbit
    rwa [if_pos rfl] at hbit
  · intro heq i hi
    rw [hg i hi, heq]

/-- The bit that three instructions with a shifted operand put there. -/
theorem run_threeInsns (hr : r.Apart) {insn : Insn} {v : BitVec 32 → BitVec 32 → BitVec 32}
    {g : Bool → Bool → Bool} (hinsn : ∀ t : Cpu, step t insn =
      t.put r.tmp (v (t.get r.tmp) (t.get r.cr >>> (31 - crb opcode))))
    (hv : ∀ x y, (v x y).getLsbD 0 = g (x.getLsbD 0) (y.getLsbD 0)) {i : ℕ} (hi : i < 32) :
    ((run [lsr r.tmp r.cr (31 - cra opcode), insn, bfi r.cr r.tmp (31 - crd opcode) 1] s).get
        r.cr).getMsbD i =
      if i = crd opcode then
        g ((s.get r.cr).getMsbD (cra opcode)) ((s.get r.cr).getMsbD (crb opcode))
      else (s.get r.cr).getMsbD i := by
  have ha : cra opcode < 32 := field_lt 16 5
  have hb : crb opcode < 32 := field_lt 11 5
  obtain ⟨hcr, ht⟩ := run_combined (s := s) hr hinsn
  have hbits := run_insertBit hr opcode _ hcr ht hi
  rwa [hv, getLsbD_zero_shift _ ha, getLsbD_zero_shift _ hb] at hbits

theorem run_fourInsns (hr : r.Apart) {insn : Insn} {v : BitVec 32 → BitVec 32 → BitVec 32}
    {g : Bool → Bool → Bool} (hinsn : ∀ t : Cpu, step t insn =
      t.put r.tmp (v (t.get r.tmp) (t.get r.cr >>> (31 - crb opcode))))
    (hv : ∀ x y, (v x y).getLsbD 0 = g (x.getLsbD 0) (y.getLsbD 0)) {i : ℕ} (hi : i < 32) :
    ((run [lsr r.tmp r.cr (31 - cra opcode), insn, .negReg r.tmp r.tmp .LSL 0,
        bfi r.cr r.tmp (31 - crd opcode) 1] s).get r.cr).getMsbD i =
      if i = crd opcode then
        g ((s.get r.cr).getMsbD (cra opcode)) ((s.get r.cr).getMsbD (crb opcode))
      else (s.get r.cr).getMsbD i := by
  have ha : cra opcode < 32 := field_lt 16 5
  have hb : crb opcode < 32 := field_lt 11 5
  obtain ⟨hcr, ht⟩ := run_combined (s := s) hr hinsn
  obtain ⟨hcr', ht'⟩ := run_negated hr hcr ht
  have hbits := run_insertBit hr opcode _ hcr' ht' hi
  rwa [getLsbD_zero_neg, hv, getLsbD_zero_shift _ ha, getLsbD_zero_shift _ hb] at hbits

theorem getLsbD_and_zero (x y : BitVec 32) : (x &&& y).getLsbD 0 = (x.getLsbD 0 && y.getLsbD 0) :=
  BitVec.getLsbD_and

theorem getLsbD_or_zero (x y : BitVec 32) : (x ||| y).getLsbD 0 = (x.getLsbD 0 || y.getLsbD 0) :=
  BitVec.getLsbD_or

theorem getLsbD_orn_zero (x y : BitVec 32) :
    (x ||| ~~~y).getLsbD 0 = (x.getLsbD 0 || !y.getLsbD 0) := by
  rw [BitVec.getLsbD_or, BitVec.getLsbD_not]
  rfl

theorem getLsbD_eon_zero (x y : BitVec 32) :
    (x ^^^ ~~~y).getLsbD 0 = (x.getLsbD 0 == y.getLsbD 0) := by
  rw [BitVec.getLsbD_xor, BitVec.getLsbD_not]
  cases x.getLsbD 0 <;> cases y.getLsbD 0 <;> rfl

/-- One instruction that sets, clears or changes a bit. -/
theorem run_oneInsn (hr : r.Apart) {o : Op} {value : BitVec 32} {g : Bool}
    (ho : A64.step s o = s.put r.cr value)
    (hbits : ∀ i < 32, value.getMsbD i = if i = crd opcode then g else (s.get r.cr).getMsbD i) :
    ∀ i < 32, ((run [.op o] s).get r.cr).getMsbD i =
      if i = crd opcode then g else (s.get r.cr).getMsbD i := by
  intro i hi
  show ((A64.step s o).get r.cr).getMsbD i = _
  rw [ho, Cpu.get_put _ hr.cr, hbits i hi]

theorem bits_setBit (x : BitVec 32) {i : ℕ} (hi : i < 32) :
    (x ||| bitmask 1 (oneBit opcode)).getMsbD i = if i = crd opcode then true else x.getMsbD i := by
  have hd : crd opcode < 32 := field_lt 21 5
  rw [BitVec.getMsbD_or, oneBit, (oneBit_bits _ hd i hi).1]
  by_cases heq : i = crd opcode
  · simp [heq]
  · simp [heq]

theorem bits_changeBit (x : BitVec 32) {i : ℕ} (hi : i < 32) :
    (x ^^^ bitmask 1 (oneBit opcode)).getMsbD i =
      if i = crd opcode then !x.getMsbD (crd opcode) else x.getMsbD i := by
  have hd : crd opcode < 32 := field_lt 21 5
  rw [BitVec.getMsbD_xor, oneBit, (oneBit_bits _ hd i hi).1]
  by_cases heq : i = crd opcode
  · simp [heq]
  · simp [heq]

theorem bits_clearBit (x : BitVec 32) {i : ℕ} (hi : i < 32) :
    (x &&& bitmask (32 - 1) (oneBit opcode - 1)).getMsbD i =
      if i = crd opcode then false else x.getMsbD i := by
  have hd : crd opcode < 32 := field_lt 21 5
  rw [BitVec.getMsbD_and, oneBit, (oneBit_bits _ hd i hi).2]
  by_cases heq : i = crd opcode
  · simp [heq]
  · simp [heq]

/-- The eight instructions with three bits. -/
theorem function_right_iff (hr : r.Apart) {f : Bool → Bool → Bool} (hf : k.function = some f)
    (haccepted : opcode &&& k.reserved = 0) : Right r opcode k s ↔ k.Works r opcode s := by
  set a := (s.get r.cr).getMsbD (cra opcode) with ha
  set b := (s.get r.cr).getMsbD (crb opcode) with hb
  have hsame : cra opcode = crb opcode → b = a := fun heq ↦ by rw [hb, ← heq]
  cases k with
  | crand =>
    obtain rfl := Option.some.inj hf
    refine iff_of_true ?_ trivial
    by_cases heq : cra opcode = crb opcode
    · refine (right_iff_of_bit haccepted rfl (g := a) fun i hi ↦ ?_).mpr ?_
      · show ((run (emitCrand r opcode) s).get r.cr).getMsbD i = _
        rw [emitCrand, if_pos heq, run_bitMove hr hi]
      · rw [← hb, hsame heq, Bool.and_self]
    · refine (right_iff_of_bit haccepted rfl (g := a && b) fun i hi ↦ ?_).mpr rfl
      show ((run (emitCrand r opcode) s).get r.cr).getMsbD i = _
      rw [emitCrand, if_neg heq, run_threeInsns hr (fun _ ↦ rfl) getLsbD_and_zero hi]
  | crandc =>
    obtain rfl := Option.some.inj hf
    have hbits : ∀ i < 32, ((run (emitCrandc r opcode) s).get r.cr).getMsbD i =
        if i = crd opcode then b && a else (s.get r.cr).getMsbD i := fun i hi ↦ by
      have hneg : run [.negReg r.tmp r.cr .LSR (31 - crb opcode),
          .op (.andReg r.tmp r.tmp r.cr .LSR (31 - cra opcode))] s =
          (s.put r.tmp (0 - s.get r.cr >>> (31 - crb opcode))).put r.tmp
            ((0 - s.get r.cr >>> (31 - crb opcode)) &&& s.get r.cr >>> (31 - cra opcode)) := by
        rw [run_cons, run_cons]
        show Cpu.put _ _ ((Cpu.get _ _) &&& Shift.apply (Cpu.get _ _) _ _) = _
        rw [show step s (.negReg r.tmp r.cr .LSR (31 - crb opcode)) =
          s.put r.tmp (0 - s.get r.cr >>> (31 - crb opcode)) from rfl, Cpu.get_put _ hr.tmp,
          Cpu.get_put_of_ne _ (Ne.symm hr.tmpCr)]
        rfl
      have ha : cra opcode < 32 := field_lt 16 5
      have hb : crb opcode < 32 := field_lt 11 5
      have hbits := run_insertBit hr opcode [.negReg r.tmp r.cr .LSR (31 - crb opcode),
        .op (.andReg r.tmp r.tmp r.cr .LSR (31 - cra opcode))] (s := s) (i := i)
        (by rw [hneg, Cpu.get_put_of_ne _ (Ne.symm hr.tmpCr), Cpu.get_put_of_ne _ (Ne.symm hr.tmpCr)])
        (by rw [hneg, Cpu.get_put _ hr.tmp]) hi
      rw [getLsbD_and_zero, getLsbD_zero_neg, getLsbD_zero_shift _ ha,
        getLsbD_zero_shift _ hb] at hbits
      exact hbits
    rw [right_iff_of_bit haccepted rfl hbits]
    rw [← ha, ← hb]
    show _ ↔ a = false
    cases a <;> cases b <;> decide
  | creqv =>
    obtain rfl := Option.some.inj hf
    refine iff_of_true ?_ trivial
    by_cases heq : cra opcode = crb opcode
    · refine (right_iff_of_bit haccepted rfl (g := true) ?_).mpr ?_
      · show ∀ i < 32, ((run (emitCreqv r opcode) s).get r.cr).getMsbD i = _
        rw [emitCreqv, if_pos heq]
        exact run_oneInsn hr rfl fun i hi ↦ bits_setBit _ hi
      · rw [← hb, hsame heq, beq_self_eq_true]
    · refine (right_iff_of_bit haccepted rfl (g := a == b) fun i hi ↦ ?_).mpr rfl
      show ((run (emitCreqv r opcode) s).get r.cr).getMsbD i = _
      rw [emitCreqv, if_neg heq, run_threeInsns hr (fun _ ↦ rfl) getLsbD_eon_zero hi]
  | crnand =>
    obtain rfl := Option.some.inj hf
    have hbits : ∀ i < 32, ((run (emitCrnand r opcode) s).get r.cr).getMsbD i =
        if i = crd opcode then a && b else (s.get r.cr).getMsbD i := fun i hi ↦ by
      rw [emitCrnand, run_fourInsns hr (fun _ ↦ rfl) getLsbD_and_zero hi]
    rw [right_iff_of_bit haccepted rfl hbits]
    rw [← ha, ← hb]
    show _ ↔ False
    cases a <;> cases b <;> decide
  | crnor =>
    obtain rfl := Option.some.inj hf
    show _ ↔ cra opcode = crb opcode ∧ (s.get r.cr).getMsbD (crd opcode) = a
    by_cases heq : cra opcode = crb opcode
    · have hbits : ∀ i < 32, ((run (emitCrnor r opcode) s).get r.cr).getMsbD i =
          if i = crd opcode then !(s.get r.cr).getMsbD (crd opcode)
          else (s.get r.cr).getMsbD i := by
        rw [emitCrnor, if_pos heq]
        exact run_oneInsn hr rfl fun i hi ↦ bits_changeBit _ hi
      rw [right_iff_of_bit haccepted rfl hbits, ← hb, hsame heq, Bool.or_self, and_iff_right heq]
      exact Bool.not_inj_iff
    · have hbits : ∀ i < 32, ((run (emitCrnor r opcode) s).get r.cr).getMsbD i =
          if i = crd opcode then a || b else (s.get r.cr).getMsbD i := fun i hi ↦ by
        rw [emitCrnor, if_neg heq, run_fourInsns hr (fun _ ↦ rfl) getLsbD_or_zero hi]
      rw [right_iff_of_bit haccepted rfl hbits]
      rw [← ha, ← hb]
      refine iff_of_false ?_ fun h ↦ heq h.1
      cases a <;> cases b <;> decide
  | cror =>
    obtain rfl := Option.some.inj hf
    refine iff_of_true ?_ trivial
    by_cases heq : cra opcode = crb opcode
    · refine (right_iff_of_bit haccepted rfl (g := a) fun i hi ↦ ?_).mpr ?_
      · show ((run (emitCror r opcode) s).get r.cr).getMsbD i = _
        rw [emitCror, if_pos heq, run_bitMove hr hi]
      · rw [← hb, hsame heq, Bool.or_self]
    · refine (right_iff_of_bit haccepted rfl (g := a || b) fun i hi ↦ ?_).mpr rfl
      show ((run (emitCror r opcode) s).get r.cr).getMsbD i = _
      rw [emitCror, if_neg heq, run_threeInsns hr (fun _ ↦ rfl) getLsbD_or_zero hi]
  | crorc =>
    obtain rfl := Option.some.inj hf
    refine iff_of_true ?_ trivial
    by_cases heq : cra opcode = crb opcode
    · refine (right_iff_of_bit haccepted rfl (g := true) ?_).mpr ?_
      · show ∀ i < 32, ((run (emitCrorc r opcode) s).get r.cr).getMsbD i = _
        rw [emitCrorc, if_pos heq]
        exact run_oneInsn hr rfl fun i hi ↦ bits_setBit _ hi
      · rw [← hb, hsame heq, Bool.or_not_self]
    · refine (right_iff_of_bit haccepted rfl (g := a || !b) fun i hi ↦ ?_).mpr rfl
      show ((run (emitCrorc r opcode) s).get r.cr).getMsbD i = _
      rw [emitCrorc, if_neg heq, run_threeInsns (v := fun x y ↦ x ||| ~~~y) (g := fun a b ↦ a || !b) hr
        (fun _ ↦ rfl) getLsbD_orn_zero hi]
  | crxor =>
    obtain rfl := Option.some.inj hf
    show _ ↔ cra opcode = crb opcode ∨ ¬ (a = true ∧ b = true)
    by_cases heq : cra opcode = crb opcode
    · refine iff_of_true ((right_iff_of_bit haccepted rfl (g := false) ?_).mpr ?_) (.inl heq)
      · show ∀ i < 32, ((run (emitCrxor r opcode) s).get r.cr).getMsbD i = _
        rw [emitCrxor, if_pos heq]
        exact run_oneInsn hr rfl fun i hi ↦ bits_clearBit _ hi
      · rw [← hb, hsame heq, bne_self_eq_false]
    · have hbits : ∀ i < 32, ((run (emitCrxor r opcode) s).get r.cr).getMsbD i =
          if i = crd opcode then a || b else (s.get r.cr).getMsbD i := fun i hi ↦ by
        rw [emitCrxor, if_neg heq, run_threeInsns hr (fun _ ↦ rfl) getLsbD_or_zero hi]
      rw [right_iff_of_bit haccepted rfl hbits]
      rw [← ha, ← hb, or_iff_right heq]
      cases a <;> cases b <;> decide
  | mcrf => cases hf
  | mcrxr => cases hf
  | mtcrf => cases hf

/-! ### Moves of fields -/

/-- A field of `x` is put into another one. -/
theorem bits_putField (target x : BitVec 32) {d q i : ℕ} (hd : d < 8) (hq : q < 8) (hi : i < 32) :
    (insertBits target (x >>> ((7 - q) * 4)) ((7 - d) * 4) 4).getMsbD i =
      if i / 4 = d then x.getMsbD (4 * q + i % 4) else target.getMsbD i := by
  rw [getMsbD_eq _ hi, getLsbD_insertBits _ _ (by omega), getMsbD_eq _ hi]
  by_cases heq : i / 4 = d
  · rw [if_pos (by omega), if_pos heq, BitVec.getLsbD_ushiftRight, getMsbD_eq _ (by omega)]
    congr 1
    omega
  · rw [if_neg (by omega), if_neg heq]

theorem mcrf_right (hr : r.Apart) (haccepted : opcode &&& Kind.mcrf.reserved = 0) :
    Right r opcode .mcrf s := by
  have hd : field opcode 23 3 < 8 := field_lt 23 3
  have hq : field opcode 18 3 < 8 := field_lt 18 3
  refine (right_iff_of_body haccepted).mpr fun i hi ↦ ?_
  show ((run (emitMcrf r opcode) s).get r.cr).getMsbD i = _
  rw [emitMcrf, run_cons, run_cons, step_lsr (by omega), step_bfi (by decide) (by omega)]
  show ((Cpu.put _ r.cr _).get r.cr).getMsbD i = _
  rw [Cpu.get_put _ hr.cr, Cpu.get_put _ hr.tmp, Cpu.get_put_of_ne _ (Ne.symm hr.tmpCr),
    bits_putField _ _ hd hq hi]
  rfl

theorem mcrxr_right (hr : r.Apart) (haccepted : opcode &&& Kind.mcrxr.reserved = 0) :
    Right r opcode .mcrxr s := by
  have hd : field opcode 23 3 < 8 := field_lt 23 3
  refine (right_iff_of_body haccepted).mpr fun i hi ↦ ?_
  show ((run (emitMcrxr r opcode) s).get r.cr).getMsbD i = _
  rw [emitMcrxr, run_cons, run_cons, step_lsr (by decide), Nat.mul_comm 4,
    step_bfi (by decide) (by omega)]
  show (((Cpu.put _ r.cr _).put r.xer _).get r.cr).getMsbD i = _
  rw [Cpu.get_put_of_ne _ (Ne.symm hr.xerCr), Cpu.get_put _ hr.cr, Cpu.get_put _ hr.tmp,
    Cpu.get_put_of_ne _ (Ne.symm hr.tmpCr)]
  have hbits := bits_putField (s.get r.cr) (s.get r.xer) hd (show 0 < 8 by decide) hi
  rw [Nat.mul_zero, Nat.zero_add] at hbits
  exact hbits

/-! ### Fields from a register -/

theorem mask32_bits : ∀ mask : BitVec 8, ∀ i < 32,
    (mask32 mask).getMsbD i = mask.getMsbD (i / 4) := by
  decide +kernel

theorem run_ops (code : List Op) (s : Cpu) : run (code.map Insn.op) s = exec code s :=
  List.foldl_map

/-- The fields that are not kept are cleared, and those of the temporary register put there. -/
theorem run_mtcrf (hr : r.Apart) (hfull : fxm opcode ≠ 0xff) (hempty : fxm opcode ≠ 0) :
    (run (emitMtcrf r opcode) s).get r.cr =
      s.get r.cr &&& kept (fxm opcode) ||| s.get r.tmp &&& mask32 (fxm opcode) := by
  unfold emitMtcrf kept
  dsimp only
  rw [if_neg hfull, if_neg hempty]
  split_ifs with hencoded
  · rw [run_append, run_ops, exec_emitLoadImmediate hr.imm]
    set s' := s.put r.imm (mask32 (fxm opcode)) with hs'
    have himm : s'.get r.imm = mask32 (fxm opcode) := Cpu.get_put _ hr.imm _
    have hcr : s'.get r.cr = s.get r.cr := Cpu.get_put_of_ne _ (Ne.symm hr.immCr) _
    have htmp : s'.get r.tmp = s.get r.tmp := Cpu.get_put_of_ne _ (Ne.symm hr.immTmp) _
    simp only [run, List.foldl_cons, List.foldl_nil, step, A64.step, Shift.apply,
      BitVec.shiftLeft_zero, Cpu.get_put _ hr.cr, Cpu.get_put _ hr.tmp,
      Cpu.get_put_of_ne _ hr.tmpCr, Cpu.get_put_of_ne _ (Ne.symm hr.tmpCr),
      Cpu.get_put_of_ne _ hr.immCr, himm, hcr, htmp]
  · have hmask : bitmask (width (mask32 (fxm opcode))) (rotation (mask32 (fxm opcode))) =
        mask32 (fxm opcode) := bitmask_numberToMask hencoded
    simp only [run, List.foldl_cons, List.foldl_nil, step, bicImmed, A64.step, Shift.apply,
      BitVec.shiftLeft_zero, Cpu.get_put _ hr.cr, Cpu.get_put _ hr.tmp,
      Cpu.get_put_of_ne _ hr.tmpCr, Cpu.get_put_of_ne _ (Ne.symm hr.tmpCr), hmask]

theorem mtcrf_right_iff (hr : r.Apart) (haccepted : opcode &&& Kind.mtcrf.reserved = 0) :
    Right r opcode .mtcrf s ↔ Kind.mtcrf.Works r opcode s := by
  rw [right_iff_of_body haccepted]
  show (∀ i < 32, ((run (emitMtcrf r opcode) s).get r.cr).getMsbD i =
    if (fxm opcode).getMsbD (i / 4) then (s.get r.rs).getMsbD i else (s.get r.cr).getMsbD i) ↔ _
  unfold Kind.Works
  dsimp only
  by_cases hfull : fxm opcode = 0xff
  · refine iff_of_true (fun i hi ↦ ?_) (.inl hfull)
    have hall : ∀ i < 32, (0xff : BitVec 8).getMsbD (i / 4) = true := by decide
    rw [hfull, if_pos (hall i hi), emitMtcrf, if_pos hfull]
    show ((s.put r.cr ((s.get 31) ||| (s.get r.rs) <<< 0)).get r.cr).getMsbD i = _
    rw [Cpu.get_put _ hr.cr, Cpu.get_zero, BitVec.shiftLeft_zero, BitVec.zero_or]
  · by_cases hempty : fxm opcode = 0
    · have hnone : ∀ i < 32, (0 : BitVec 8).getMsbD (i / 4) = false := by decide
      have hrun : (run (emitMtcrf r opcode) s).get r.cr = 0 := by
        rw [emitMtcrf, if_neg hfull, if_pos hempty]
        show (s.put r.cr ((s.get 31) ||| (s.get 31) <<< 0)).get r.cr = 0
        rw [Cpu.get_put _ hr.cr, Cpu.get_zero]
        rfl
      rw [hrun, hempty]
      constructor
      · intro hbits
        refine .inr (.inl ⟨rfl, BitVec.eq_of_getMsbD_eq fun i hi ↦ ?_⟩)
        have hbit := hbits i hi
        rwa [hnone i hi, if_neg Bool.false_ne_true, eq_comm] at hbit
      · rintro (h | ⟨-, hzero⟩ | ⟨-, h, -⟩) i hi
        · exact absurd h (by decide)
        · rw [hnone i hi, if_neg Bool.false_ne_true, hzero]
        · exact absurd rfl h
    · rw [run_mtcrf hr hfull hempty]
      have hiff : ∀ i < 32, ((s.get r.cr &&& kept (fxm opcode) |||
            s.get r.tmp &&& mask32 (fxm opcode)).getMsbD i =
            if (fxm opcode).getMsbD (i / 4) then (s.get r.rs).getMsbD i
            else (s.get r.cr).getMsbD i) ↔
          if (fxm opcode).getMsbD (i / 4) then
            ((s.get r.cr).getMsbD i && (kept (fxm opcode)).getMsbD i ||
              (s.get r.tmp).getMsbD i) = (s.get r.rs).getMsbD i
          else (s.get r.cr).getMsbD i = true → (kept (fxm opcode)).getMsbD i = true := by
        intro i hi
        rw [BitVec.getMsbD_or, BitVec.getMsbD_and, BitVec.getMsbD_and, mask32_bits _ i hi]
        split_ifs with hselected
        · rw [hselected, Bool.and_true]
        · rw [Bool.eq_false_iff.mpr hselected, Bool.and_false, Bool.or_false]
          cases (s.get r.cr).getMsbD i <;> cases (kept (fxm opcode)).getMsbD i <;> decide
      constructor
      · exact fun hbits ↦ .inr (.inr ⟨hfull, hempty, fun i hi ↦ (hiff i hi).mp (hbits i hi)⟩)
      · rintro (h | ⟨h, -⟩ | ⟨-, -, h⟩) i hi
        · exact absurd h hfull
        · exact absurd h hempty
        · exact (hiff i hi).mpr (h i hi)

def sampleRegisters : Registers := ⟨0, 1, 2, 3, 4⟩

theorem sampleRegisters_apart : sampleRegisters.Apart :=
  ⟨by decide, by decide, by decide, by decide, by decide, by decide, by decide⟩

def sampleCpu (cr : BitVec 32) : Cpu :=
  ⟨fun i ↦ if i = 0 then cr else 0, ⟨false, false, false, false⟩, fun _ ↦ 0, fun _ ↦ 0⟩

end Emu68.Ppc.ConditionRegister

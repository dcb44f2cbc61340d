import Emu68.Alu.Operands
import Emu68.Lib.CyclicOrder

/-!
CMP2 and CHK2 (`EMIT_CMP2` of `M68k_LINE0.c`). The bounds and a data register are extended to 32
bits with their signs, which keeps the cyclic order of the numbers.
-/

set_option autoImplicit false
set_option relaxedAutoImplicit false

namespace Emu68.Alu

open A64 Lib

/-! ### The instruction -/

/-- The bounds in memory. -/
def bounds (size : Size) (memory : Bytes) (address : BitVec 32) :
    BitVec size.bits × BitVec size.bits :=
  (BitVec.ofNat _ (Lib.load memory address size.bytes),
    BitVec.ofNat _ (Lib.load memory (address + BitVec.ofNat 32 size.bytes) size.bytes))

/-- The register that is compared. -/
inductive Compared where
  | data (i : Fin 8)
  | address (i : Fin 8)

/-- Whether the register equals one of the bounds. The bounds of an address register are extended. -/
def Compared.equal (size : Size) (s : WideCpu) (address : BitVec 32) : Compared → Bool
  | .data i =>
    let x := (s.get (dn i)).setWidth size.bits
    let (lower, upper) := bounds size s.memory address
    decide (x = lower ∨ x = upper)
  | .address i =>
    let x := s.get (an i)
    let (lower, upper) := bounds size s.memory address
    decide (x = lower.signExtend 32 ∨ x = upper.signExtend 32)

/-- Whether it lies outside of them. -/
def Compared.outside (size : Size) (s : WideCpu) (address : BitVec 32) : Compared → Bool
  | .data i =>
    let (lower, upper) := bounds size s.memory address
    Lib.outside ((s.get (dn i)).setWidth size.bits) lower upper
  | .address i =>
    let (lower, upper) := bounds size s.memory address
    Lib.outside (s.get (an i)) (lower.signExtend 32) (upper.signExtend 32)

/-- Z and C, and the flags that are undefined. -/
def boundsFlags (equal outside : Bool) : Flag → FlagValue
  | .z => .set equal
  | .c => .set outside
  | .x => .unaffected
  | _ => .undefined

def VECTOR_CHK : BitVec 16 := 0x018

/-! ### The emitter -/

inductive BoundsReg where
  | ea
  | lower
  | higher
  | cc
  | tmp
  | tmp1
  | tmp2
deriving DecidableEq

variable (b : Alloc BoundsReg)

def srZCalt : Mask := 0x06

def loadBounds (size : Size) (ea : Reg) : List WideOp :=
  let lower := b.reg .lower
  let higher := b.reg .higher
  match size with
  | .byte => [.ldr 1 true .offset ea lower 0, .ldr 1 true .offset ea higher 1]
  | .word => [.ldr 2 true .offset ea lower 0, .ldr 2 true .offset ea higher 2]
  | .long => [.ldp ea lower higher 0]

/-- A data register is extended, and the register that is compared then. -/
def Compared.extended (size : Size) : Compared → List WideOp × Reg
  | .data i =>
    match size with
    | .byte => ([sxtb (b.reg .tmp) (dn i)], b.reg .tmp)
    | .word => ([sxth (b.reg .tmp) (dn i)], b.reg .tmp)
    | .long => ([], dn i)
  | .address i => ([], an i)

def equalTest (reg : Reg) : List WideOp :=
  let cc := b.reg .cc
  [ cmpReg reg (b.reg .lower) .LSL 0,
    .ccmpReg reg (b.reg .higher) 4 ccNE,
    .bCc ccNE 3,
    .insn (.orrImmed cc cc 1 30),
    -- past the test of the range
    .b 16 ]

/-- The first half for bounds in their order, the second for a range that leads past the greatest
number. -/
def rangeTest (reg : Reg) : List WideOp :=
  let cc := b.reg .cc
  let lower := b.reg .lower
  let higher := b.reg .higher
  let tmp1 := b.reg .tmp1
  let tmp2 := b.reg .tmp2
  [ cmpReg reg higher .LSL 0,
    .insn (cset tmp1 ccHI),
    cmpReg reg lower .LSL 0,
    .insn (cset tmp2 ccCC),
    cmpReg lower higher .LSL 0,
    .bCc ccHI 6,
    cmpReg 31 tmp2 .LSL 0,
    .insn (.orrImmed lower cc 1 31),
    .ccmpReg tmp1 31 0 ccEQ,
    .insn (.csel cc lower cc ccNE),
    .b 5,
    cmpReg 31 tmp2 .LSL 0,
    .insn (.orrImmed lower cc 1 31),
    .ccmpReg 31 tmp1 4 ccNE,
    .insn (.csel cc lower cc ccNE) ]

/-- CMP2, or CHK2 if `chk`. -/
def emitCMP2 (ctx : Translation) (size : Size) (compared : Compared)
    (operand : Place (b.reg .ea) (b.reg .cc)) (chk : Bool) : List TrapOp :=
  let cc := b.reg .cc
  let (locate, ea) := operand.locate
  let (extension, reg) := compared.extended b size
  wides (locate ++ insns (modifyCC ctx.ccLoaded cc) ++ loadBounds b size ea ++ extension ++
    insns (emitClearFlags cc (b.reg .tmp1) srZCalt) ++ (equalTest b reg ++ rangeTest b reg) ++
    insns ctx.advance) ++
  if chk then
    wides (insns (Branch.flushPC (Branch.advancePC ctx.pcRel (2 * (ctx.extWords + 1))).2) ++
      [.tbz cc 1 2]) ++ [.exception VECTOR_CHK 2 ctx.address]
  else []

/-- What the emitted code leaves, if the flags of the mask are requested. -/
structure BoundsChecked (ctx : Translation) (cc : Reg) (equal outside chk : Bool) (pc : BitVec 32)
    (s : WideCpu) (s' : TrapState) : Prop where
  ccr : ∀ mask, CcrCorrect mask (boundsFlags equal outside) (oldCcr ctx.ccLoaded cc s)
    (s'.cpu.get cc)
  trap : s'.trap =
    if chk && outside then some ⟨VECTOR_CHK, 2, ctx.address, ctx.nextPC pc⟩ else none
  dn : ∀ i, s'.cpu.get64 (dn i) = s.get64 (dn i)
  an : ∀ i, s'.cpu.get64 (an i) = s.get64 (an i)
  memory : s'.cpu.memory = s.memory

/-! ### The bounds in their registers -/

section Check

variable {b}

theorem run_loadBounds (b : Alloc BoundsReg) (size : Size) {ea : Reg} (hea : ea ≠ b.reg .lower)
    (s : WideCpu) :
    ∃ s', runForward WideOp.effect 0 (loadBounds b size ea) s = (s', 0) ∧
      s'.get (b.reg .lower) = (bounds size s.memory (s.get ea)).1.signExtend 32 ∧
      s'.get (b.reg .higher) = (bounds size s.memory (s.get ea)).2.signExtend 32 ∧
      (∀ r, r ≠ b.reg .lower → r ≠ b.reg .higher → s'.get64 r = s.get64 r) ∧
      s'.memory = s.memory := by
  have hzero : (BitVec.ofInt 64 0).setWidth 32 = 0#32 := by decide
  have hpair : ∀ (n : ℕ) (offset : ℤ), (BitVec.ofInt 64 offset).setWidth 32 = BitVec.ofNat 32 n →
      ∃ s', runForward WideOp.effect 0 [.ldr n true .offset ea (b.reg .lower) 0,
          .ldr n true .offset ea (b.reg .higher) offset] s = (s', 0) ∧
        s'.get (b.reg .lower) =
          (BitVec.ofNat (8 * n) (Lib.load s.memory (s.get ea) n)).signExtend 32 ∧
        s'.get (b.reg .higher) =
          (BitVec.ofNat (8 * n) (Lib.load s.memory (s.get ea + BitVec.ofNat 32 n) n)).signExtend 32 ∧
        (∀ r, r ≠ b.reg .lower → r ≠ b.reg .higher → s'.get64 r = s.get64 r) ∧
        s'.memory = s.memory := by
    intro n offset hoffset
    have hload : ∀ (t : WideCpu) (address : BitVec 32), t.memory = s.memory →
        (t.loaded address n true).setWidth 32 =
          (BitVec.ofNat (8 * n) (Lib.load s.memory address n)).signExtend 32 := by
      intro t address ht
      rw [WideCpu.loaded, if_pos rfl, ht, BitVec.setWidth_setWidth_of_le _ (by decide),
        BitVec.setWidth_eq]
    rw [runForward_step (WideCpu.effect_ldr _ _ _ _ _ _),
      runForward_step (WideCpu.effect_ldr _ _ _ _ _ _)]
    refine ⟨_, rfl, ?_, ?_, fun r hlower hhigher ↦ ?_, ?_⟩
    · rw [WideCpu.get_put64_ite reg_ne_zero, if_neg (by simp), WideCpu.get_put64_ite reg_ne_zero,
        if_pos rfl, hload _ _ rfl, WideCpu.access_low, hzero, BitVec.add_zero]
    · rw [WideCpu.get_put64_ite reg_ne_zero, if_pos rfl, hload _ _ (WideCpu.memory_put64 _),
        WideCpu.access_low, hoffset, WideCpu.get_put64_ite reg_ne_zero, if_neg hea]
    · rw [WideCpu.get64_put64_of_ne hhigher, WideCpu.get64_put64_of_ne hlower]
    · rw [WideCpu.memory_put64, WideCpu.memory_put64]
  cases size with
  | byte => exact hpair 1 1 (by decide)
  | word => exact hpair 2 2 (by decide)
  | long =>
    have hload : ∀ address : BitVec 32, (s.loaded address 4 false).setWidth 32 =
        (BitVec.ofNat 32 (Lib.load s.memory address 4)).signExtend 32 := by
      intro address
      rw [BitVec.signExtend_eq]
      refine BitVec.eq_of_toNat_eq ?_
      rw [WideCpu.loaded, if_neg Bool.false_ne_true, BitVec.toNat_setWidth, BitVec.toNat_ofNat,
        BitVec.toNat_ofNat]
      omega
    refine ⟨_, rfl, ?_, ?_, fun r hlower hhigher ↦ ?_, ?_⟩
    · simp only [WideOp.effect, WideCpu.access]
      rw [WideCpu.get_put64_ite reg_ne_zero, if_neg (by simp), WideCpu.get_put64_ite reg_ne_zero,
        if_pos rfl, hload, WideCpu.access_low, hzero, BitVec.add_zero]
      rfl
    · simp only [WideOp.effect, WideCpu.access]
      rw [WideCpu.get_put64_ite reg_ne_zero, if_pos rfl, hload, WideCpu.access_low, hzero,
        BitVec.add_zero]
      rfl
    · exact (WideCpu.get64_put64_of_ne hhigher _).trans (WideCpu.get64_put64_of_ne hlower _)
    · exact (WideCpu.memory_put64 _).trans (WideCpu.memory_put64 _)

/-- The register that is compared, and its value. -/
def Compared.number (size : Size) (s : WideCpu) : Compared → BitVec 32
  | .data i => ((s.get (dn i)).setWidth size.bits).signExtend 32
  | .address i => s.get (an i)

theorem run_extended (b : Alloc BoundsReg) (size : Size) (compared : Compared) (s : WideCpu) :
    ∃ s', runForward WideOp.effect 0 (compared.extended b size).1 s = (s', 0) ∧
      s'.get (compared.extended b size).2 = compared.number size s ∧
      (∀ r ≠ b.reg .tmp, s'.get64 r = s.get64 r) ∧ s'.memory = s.memory := by
  cases compared with
  | address i => exact ⟨s, rfl, rfl, fun _ _ ↦ rfl, rfl⟩
  | data i =>
    cases size with
    | byte =>
      refine ⟨_, rfl, ?_, fun r hr ↦ WideCpu.get64_put64_of_ne hr _, WideCpu.memory_put _⟩
      exact (WideCpu.get_put reg_ne_zero _).trans
        (signedField_low (s.get (dn i)) (n := 8) (by decide) (by decide))
    | word =>
      refine ⟨_, rfl, ?_, fun r hr ↦ WideCpu.get64_put64_of_ne hr _, WideCpu.memory_put _⟩
      exact (WideCpu.get_put reg_ne_zero _).trans
        (signedField_low (s.get (dn i)) (n := 16) (by decide) (by decide))
    | long =>
      refine ⟨s, rfl, ?_, fun _ _ ↦ rfl, rfl⟩
      show s.get (dn i) = ((s.get (dn i)).setWidth 32).signExtend 32
      rw [BitVec.setWidth_eq, BitVec.signExtend_eq]

/-! ### The tests -/

theorem effect_cmpReg (rn rm : Reg) (s : WideCpu) :
    (cmpReg rn rm .LSL 0).effect s = (s.setFlags (subFlags (s.get rn) (s.get rm)), 0) := by
  rw [cmpReg, WideOp.effect]
  simp only [WideCpu.put_zero, Shift.apply, BitVec.shiftLeft_zero]

/-- The host flags of an equality. -/
theorem holds_NE (f : Nzcv) : ccNE.holds f = !f.z := rfl

/-- Higher, of unsigned numbers. -/
theorem holds_HI (x y : BitVec 32) : ccHI.holds (subFlags x y) = decide (y < x) := by
  show (y.ule x && !(x == y)) = decide (y < x)
  rw [Bool.eq_iff_iff, Bool.and_eq_true, BitVec.ule_iff_le, Bool.not_eq_true',
    beq_eq_false_iff_ne, decide_eq_true_eq, BitVec.le_def, BitVec.lt_def, Ne, ← BitVec.toNat_inj]
  omega

/-- Lower, of unsigned numbers. -/
theorem holds_CC (x y : BitVec 32) : ccCC.holds (subFlags x y) = decide (x < y) := by
  show (!(y.ule x)) = decide (x < y)
  rw [Bool.eq_iff_iff, Bool.not_eq_true', ← Bool.not_eq_true, BitVec.ule_iff_le, BitVec.not_le,
    decide_eq_true_eq]

theorem run_equalTest (b : Alloc BoundsReg) (reg : Reg) (s : WideCpu) :
    ∃ s', runForward WideOp.effect 0 (equalTest b reg) s =
        (s', if s.get reg = s.get (b.reg .lower) ∨ s.get reg = s.get (b.reg .higher) then 15 else 0) ∧
      s'.get (b.reg .cc) =
        (if s.get reg = s.get (b.reg .lower) ∨ s.get reg = s.get (b.reg .higher) then
          s.get (b.reg .cc) ||| word srZ else s.get (b.reg .cc)) ∧
      (∀ r ≠ b.reg .cc, s'.get64 r = s.get64 r) ∧ s'.memory = s.memory := by
  have hmask : bitmask 1 30 = word srZ := by decide
  have hccmp : ∀ t : WideCpu, t.get reg = s.get reg → t.get (b.reg .higher) = s.get (b.reg .higher) →
      t.flags = subFlags (s.get reg) (s.get (b.reg .lower)) →
      ∃ f, (WideOp.ccmpReg reg (b.reg .higher) 4 ccNE).effect t = (t.setFlags f, 0) ∧
        f.z = decide (s.get reg = s.get (b.reg .lower) ∨ s.get reg = s.get (b.reg .higher)) := by
    intro t hreg hhigher hflags
    refine ⟨_, rfl, ?_⟩
    rw [hreg, hhigher, hflags, holds_NE]
    show (if !(s.get reg == s.get (b.reg .lower)) then _ else _ : Nzcv).z = _
    by_cases hlower : s.get reg = s.get (b.reg .lower)
    · rw [beq_iff_eq.mpr hlower, Bool.not_true, if_neg Bool.false_ne_true,
        decide_eq_true (.inl hlower)]
      rfl
    · rw [beq_eq_false_iff_ne.mpr hlower, Bool.not_false, if_pos rfl]
      show (s.get reg == s.get (b.reg .higher)) = _
      rw [Bool.eq_iff_iff, beq_iff_eq, decide_eq_true_eq, or_iff_right hlower]
  obtain ⟨f, hstep, hz⟩ := hccmp
    (s.setFlags (subFlags (s.get reg) (s.get (b.reg .lower)))) rfl rfl rfl
  have hbranch : ∀ t : WideCpu, (WideOp.bCc ccNE 3).effect t = (t, skipIf (!t.flags.z) 3) :=
    fun _ ↦ rfl
  rw [equalTest, runForward_step (effect_cmpReg _ _ _), runForward_step hstep, runForward_cons,
    hbranch, WideCpu.flags_setFlags, hz]
  by_cases hequal : s.get reg = s.get (b.reg .lower) ∨ s.get reg = s.get (b.reg .higher)
  · rw [decide_eq_true hequal, if_pos hequal, if_pos hequal]
    refine ⟨_, rfl, ?_, fun r hr ↦ ?_, ?_⟩
    · simp only [WideOp.effect, WideCpu.insn_orrImmed, WideCpu.get_put reg_ne_zero,
        WideCpu.get_setFlags, hmask]
    · simp only [WideOp.effect, WideCpu.insn_orrImmed, WideCpu.get64_put_ite reg_ne_zero, if_neg hr,
        WideCpu.get64_setFlags]
    · simp only [WideOp.effect, WideCpu.insn_orrImmed, WideCpu.memory_put, WideCpu.memory_setFlags]
  · rw [decide_eq_false hequal, if_neg hequal, if_neg hequal]
    exact ⟨_, rfl, rfl, fun _ _ ↦ rfl, rfl⟩

/-- The tests leave the other registers alone. -/
structure Kept (b : Alloc BoundsReg) (s s' : WideCpu) : Prop where
  regs : ∀ r, r ≠ b.reg .lower → r ≠ b.reg .cc → r ≠ b.reg .tmp1 → r ≠ b.reg .tmp2 →
    s'.get64 r = s.get64 r
  memory : s'.memory = s.memory

theorem Kept.trans {s₁ s₂ s₃ : WideCpu} (h : Kept b s₁ s₂) (h' : Kept b s₂ s₃) : Kept b s₁ s₃ where
  regs := fun r h₁ h₂ h₃ h₄ ↦ (h'.regs r h₁ h₂ h₃ h₄).trans (h.regs r h₁ h₂ h₃ h₄)
  memory := h'.memory.trans h.memory

/-- The two comparisons are combined by a conditional comparison. -/
theorem run_combined (b : Alloc BoundsReg) {q r : Bool} {rn rm : Reg} {alt : BitVec 4} {cond : Cond}
    {s : WideCpu} (hq : s.get (b.reg .tmp2) = oneIf q)
    (hrn : rn ≠ b.reg .lower) (hrm : rm ≠ b.reg .lower)
    (hr : ∀ f : Nzcv, f.z = !q → ccNE.holds (if cond.holds f then subFlags (s.get rn) (s.get rm)
      else nzcvOf alt) = r) :
    ∃ s', runForward WideOp.effect 0
        [cmpReg 31 (b.reg .tmp2) .LSL 0, .insn (.orrImmed (b.reg .lower) (b.reg .cc) 1 31),
          .ccmpReg rn rm alt cond, .insn (.csel (b.reg .cc) (b.reg .lower) (b.reg .cc) ccNE)]
        s = (s', 0) ∧
      s'.get (b.reg .cc) =
        (if r then s.get (b.reg .cc) ||| word srCalt else s.get (b.reg .cc)) ∧
      Kept b s s' := by
  have hmask : bitmask 1 31 = word srCalt := by decide
  have hz : (subFlags 0#32 (s.get (b.reg .tmp2))).z = !q := by
    rw [hq]
    cases q <;> rfl
  have hne := hr _ hz
  rw [runForward_step (effect_cmpReg _ _ _)]
  refine ⟨_, rfl, ?_, fun x hlower hcc _ _ ↦ ?_, ?_⟩
  · simp only [WideOp.effect, WideCpu.insn_orrImmed, WideCpu.insn_csel, WideCpu.get_put_ite reg_ne_zero,
      WideCpu.get_setFlags, WideCpu.flags_put, WideCpu.flags_setFlags, WideCpu.get_zero, reg_inj,
      reduceCtorEq, if_false, if_true, if_neg hrn, if_neg hrm, hne, hmask]
  · simp only [WideOp.effect, WideCpu.insn_orrImmed, WideCpu.insn_csel,
      WideCpu.get64_put_ite reg_ne_zero, WideCpu.get64_setFlags, if_neg hlower, if_neg hcc]
  · simp only [WideOp.effect, WideCpu.insn_orrImmed, WideCpu.insn_csel, WideCpu.memory_put,
      WideCpu.memory_setFlags]

/-- C is set if one of the comparisons holds. -/
theorem run_either (b : Alloc BoundsReg) {p q : Bool} {s : WideCpu}
    (hp : s.get (b.reg .tmp1) = oneIf p) (hq : s.get (b.reg .tmp2) = oneIf q) :
    ∃ s', runForward WideOp.effect 0
        [cmpReg 31 (b.reg .tmp2) .LSL 0, .insn (.orrImmed (b.reg .lower) (b.reg .cc) 1 31),
          .ccmpReg (b.reg .tmp1) 31 0 ccEQ,
          .insn (.csel (b.reg .cc) (b.reg .lower) (b.reg .cc) ccNE)] s = (s', 0) ∧
      s'.get (b.reg .cc) =
        (if p || q then s.get (b.reg .cc) ||| word srCalt else s.get (b.reg .cc)) ∧
      Kept b s s' := by
  refine run_combined b hq (by simp) reg_ne_zero.symm fun f hf ↦ ?_
  rw [hp, WideCpu.get_zero, show ccEQ.holds f = f.z from rfl, hf]
  cases p <;> cases q <;> rfl

/-- C is set if both hold. -/
theorem run_both (b : Alloc BoundsReg) {p q : Bool} {s : WideCpu}
    (hp : s.get (b.reg .tmp1) = oneIf p) (hq : s.get (b.reg .tmp2) = oneIf q) :
    ∃ s', runForward WideOp.effect 0
        [cmpReg 31 (b.reg .tmp2) .LSL 0, .insn (.orrImmed (b.reg .lower) (b.reg .cc) 1 31),
          .ccmpReg 31 (b.reg .tmp1) 4 ccNE,
          .insn (.csel (b.reg .cc) (b.reg .lower) (b.reg .cc) ccNE)] s = (s', 0) ∧
      s'.get (b.reg .cc) =
        (if p && q then s.get (b.reg .cc) ||| word srCalt else s.get (b.reg .cc)) ∧
      Kept b s s' := by
  refine run_combined b hq reg_ne_zero.symm (by simp) fun f hf ↦ ?_
  rw [hp, WideCpu.get_zero, show ccNE.holds f = !f.z from rfl, hf]
  cases p <;> cases q <;> rfl

/-- The comparisons in front. -/
theorem run_comparisons (b : Alloc BoundsReg) {reg : Reg} (hreg : reg ≠ b.reg .tmp1)
    (s : WideCpu) :
    ∃ s', runForward WideOp.effect 0
        [ cmpReg reg (b.reg .higher) .LSL 0, .insn (cset (b.reg .tmp1) ccHI),
          cmpReg reg (b.reg .lower) .LSL 0, .insn (cset (b.reg .tmp2) ccCC),
          cmpReg (b.reg .lower) (b.reg .higher) .LSL 0 ] s = (s', 0) ∧
      s'.get (b.reg .tmp1) = oneIf (decide (s.get (b.reg .higher) < s.get reg)) ∧
      s'.get (b.reg .tmp2) = oneIf (decide (s.get reg < s.get (b.reg .lower))) ∧
      ccHI.holds s'.flags = decide (s.get (b.reg .higher) < s.get (b.reg .lower)) ∧
      s'.get (b.reg .cc) = s.get (b.reg .cc) ∧ Kept b s s' := by
  have hHI : ∀ t : WideCpu, t.insn (cset (b.reg .tmp1) ccHI) =
      t.put (b.reg .tmp1) (oneIf (ccHI.holds t.flags)) := fun t ↦ insn_cset (by decide) t
  have hCC : ∀ t : WideCpu, t.insn (cset (b.reg .tmp2) ccCC) =
      t.put (b.reg .tmp2) (oneIf (ccCC.holds t.flags)) := fun t ↦ insn_cset (by decide) t
  refine ⟨_, rfl, ?_, ?_, ?_, ?_, ⟨fun r _ _ h₁ h₂ ↦ ?_, ?_⟩⟩
  all_goals
    simp only [cmpReg, WideOp.effect, WideCpu.put_zero, Shift.apply, BitVec.shiftLeft_zero, hHI, hCC,
      WideCpu.get_put_ite reg_ne_zero, WideCpu.get64_put_ite reg_ne_zero, WideCpu.get_setFlags,
      WideCpu.get64_setFlags, WideCpu.flags_setFlags, WideCpu.memory_put, WideCpu.memory_setFlags,
      reg_inj, reduceCtorEq, if_false, if_true, if_neg hreg, holds_HI, holds_CC]
  rw [if_neg h₂, if_neg h₁]

theorem run_rangeTest (b : Alloc BoundsReg) {reg : Reg} (hreg : reg ≠ b.reg .tmp1)
    (s : WideCpu) :
    ∃ s', runForward WideOp.effect 0 (rangeTest b reg) s = (s', 0) ∧
      s'.get (b.reg .cc) =
        (if outside (s.get reg) (s.get (b.reg .lower)) (s.get (b.reg .higher)) then
          s.get (b.reg .cc) ||| word srCalt else s.get (b.reg .cc)) ∧
      Kept b s s' := by
  obtain ⟨s₁, hrun₁, htmp1, htmp2, horder, hcc₁, hkept₁⟩ := run_comparisons b hreg s
  obtain ⟨s₂, hrun₂, hcc₂, hkept₂⟩ := run_either b htmp1 htmp2
  obtain ⟨s₃, hrun₃, hcc₃, hkept₃⟩ := run_both b htmp1 htmp2
  have hcode : rangeTest b reg = [ cmpReg reg (b.reg .higher) .LSL 0,
      .insn (cset (b.reg .tmp1) ccHI), cmpReg reg (b.reg .lower) .LSL 0,
      .insn (cset (b.reg .tmp2) ccCC), cmpReg (b.reg .lower) (b.reg .higher) .LSL 0 ] ++
      (.bCc ccHI 6 :: ([cmpReg 31 (b.reg .tmp2) .LSL 0,
        .insn (.orrImmed (b.reg .lower) (b.reg .cc) 1 31), .ccmpReg (b.reg .tmp1) 31 0 ccEQ,
        .insn (.csel (b.reg .cc) (b.reg .lower) (b.reg .cc) ccNE)] ++
      (.b 5 :: [cmpReg 31 (b.reg .tmp2) .LSL 0, .insn (.orrImmed (b.reg .lower) (b.reg .cc) 1 31),
        .ccmpReg 31 (b.reg .tmp1) 4 ccNE,
        .insn (.csel (b.reg .cc) (b.reg .lower) (b.reg .cc) ccNE)]))) := rfl
  have hbranch : (WideOp.bCc ccHI 6).effect s₁ =
      (s₁, skipIf (decide (s.get (b.reg .higher) < s.get (b.reg .lower))) 6) := by
    rw [← horder]
    rfl
  rw [hcode, runForward_piece hrun₁, runForward_cons, hbranch, outside_eq]
  by_cases hwrap : s.get (b.reg .higher) < s.get (b.reg .lower)
  · rw [decide_eq_true hwrap, if_pos hwrap]
    refine ⟨s₃, hrun₃, ?_, hkept₁.trans hkept₃⟩
    rw [hcc₃, hcc₁, Bool.decide_and]
  · rw [decide_eq_false hwrap, if_neg hwrap]
    refine ⟨s₂, (runForward_piece hrun₂).trans rfl, ?_, hkept₁.trans hkept₂⟩
    rw [hcc₂, hcc₁, Bool.decide_or]

/-! ### The whole code -/

/-- The flags behind the tests. -/
def boundsUpdate (equal outside : Bool) : FlagUpdate :=
  (clearU srZCalt).andThen
    ⟨BitVec.allOnes 32, if equal then word srZ else if outside then word srCalt else 0#32⟩

theorem boundsUpdate_fits : ∀ mask : Mask, ∀ equal outside : Bool, (equal && outside) = false →
    FlagUpdate.Fits mask (boundsFlags equal outside) (boundsUpdate equal outside) := by
  decide +kernel

theorem run_tests (b : Alloc BoundsReg) (reg : Reg) (hcc : reg ≠ b.reg .cc)
    (htmp1 : reg ≠ b.reg .tmp1) (s : WideCpu) (equal out : Bool)
    (hequal : equal = decide (s.get reg = s.get (b.reg .lower) ∨ s.get reg = s.get (b.reg .higher)))
    (hout : out = outside (s.get reg) (s.get (b.reg .lower)) (s.get (b.reg .higher))) :
    ∃ s', runForward WideOp.effect 0 (insns (emitClearFlags (b.reg .cc) (b.reg .tmp1) srZCalt) ++
        (equalTest b reg ++ rangeTest b reg)) s = (s', 0) ∧
      s'.get (b.reg .cc) = (boundsUpdate equal out).apply (s.get (b.reg .cc)) ∧ Kept b s s' := by
  have hquiet : Quiet [b.reg .cc, b.reg .tmp1] (emitClearFlags (b.reg .cc) (b.reg .tmp1) srZCalt) :=
    quiet_emitClearFlags srZCalt
  obtain ⟨-, hclear⟩ := execInsns_computes
    (emitClearFlags_computes (allocated (a := b) (x := .cc) (y := .tmp1) (by decide)) srZCalt)
    reg_ne_zero s
  have hkeep : ∀ r, r ≠ b.reg .cc → r ≠ b.reg .tmp1 →
      (execInsns (emitClearFlags (b.reg .cc) (b.reg .tmp1) srZCalt) s).get r = s.get r :=
    fun r h₁ h₂ ↦ congrArg (BitVec.setWidth 32) (hquiet.get64 (by simp [h₁, h₂]) s)
  have hkept : Kept b s (execInsns (emitClearFlags (b.reg .cc) (b.reg .tmp1) srZCalt) s) :=
    ⟨fun r _ h₁ h₂ _ ↦ hquiet.get64 (by simp [h₁, h₂]) s, (hquiet.execInsns s).1⟩
  obtain ⟨s₁, hrun₁, hcc₁, hregs₁, hmemory₁⟩ := run_equalTest b reg
    (execInsns (emitClearFlags (b.reg .cc) (b.reg .tmp1) srZCalt) s)
  have hkept₁ : Kept b _ s₁ := hkept.trans ⟨fun r _ h₁ _ _ ↦ hregs₁ r h₁, hmemory₁⟩
  rw [hkeep _ hcc htmp1, hkeep _ (by simp) (by simp), hkeep _ (by simp) (by simp)] at hrun₁ hcc₁
  rw [runForward_piece (runForward_insns _ _), runForward_append, hrun₁, boundsUpdate,
    FlagUpdate.apply_andThen, ← hclear]
  by_cases heq : s.get reg = s.get (b.reg .lower) ∨ s.get reg = s.get (b.reg .higher)
  · rw [if_pos heq] at hcc₁ ⊢
    rw [hequal, decide_eq_true heq]
    refine ⟨s₁, runForward_skip_all rfl, ?_, hkept₁⟩
    rw [hcc₁, FlagUpdate.apply, BitVec.and_allOnes]
    rfl
  · rw [if_neg heq] at hcc₁ ⊢
    obtain ⟨s₂, hrun₂, hcc₂, hkept₂⟩ := run_rangeTest b htmp1 s₁
    have hget : ∀ r, r ≠ b.reg .cc → r ≠ b.reg .tmp1 → s₁.get r = s.get r := fun r h₁ h₂ ↦
      (congrArg (BitVec.setWidth 32) (hregs₁ r h₁)).trans (hkeep r h₁ h₂)
    rw [hget _ hcc htmp1, hget _ (by simp) (by simp), hget _ (by simp) (by simp), ← hout,
      hcc₁] at hcc₂
    refine ⟨s₂, hrun₂, ?_, hkept₁.trans hkept₂⟩
    rw [hcc₂, hequal, decide_eq_false heq, FlagUpdate.apply, BitVec.and_allOnes,
      if_neg Bool.false_ne_true]
    cases out
    · exact (BitVec.or_zero).symm
    · rfl

theorem run_locate {ea cc : Reg} (operand : Place ea cc) (s : WideCpu) :
    runForward WideOp.effect 0 operand.locate.1 s = (operand.after s, 0) ∧
      (operand.after s).get operand.locate.2 = operand.address s ∧
      (∀ i, (operand.after s).get64 (dn i) = s.get64 (dn i)) ∧
      (∀ i, (operand.after s).get64 (an i) = s.get64 (an i)) ∧
      (operand.after s).memory = s.memory ∧
      ∀ loaded, oldCcr loaded cc (operand.after s) = oldCcr loaded cc s := by
  cases operand with
  | indirect i => exact ⟨rfl, rfl, fun _ ↦ rfl, fun _ ↦ rfl, rfl, fun _ ↦ rfl⟩
  | computed run address locates =>
    exact ⟨rfl, locates.address s, locates.dn s, locates.an s, locates.memory s, locates.cc s⟩

theorem locate_ne (operand : Place (b.reg .ea) (b.reg .cc)) {x : BoundsReg} (hx : x ≠ .ea) :
    operand.locate.2 ≠ b.reg x := by
  cases operand with
  | indirect i => exact an_ne_reg
  | computed run address locates => exact fun h ↦ hx (reg_inj.mp h).symm

theorem extended_ne (size : Size) (compared : Compared) {x : BoundsReg} (hx : x ≠ .tmp) :
    (compared.extended b size).2 ≠ b.reg x := by
  cases compared with
  | address i => exact an_ne_reg
  | data i =>
    cases size with
    | byte => exact fun h ↦ hx (reg_inj.mp h).symm
    | word => exact fun h ↦ hx (reg_inj.mp h).symm
    | long => exact dn_ne_reg

/-- The address of the bounds, the condition codes and the bounds in their registers. -/
theorem run_front (b : Alloc BoundsReg) (ctx : Translation) (size : Size) (compared : Compared)
    (operand : Place (b.reg .ea) (b.reg .cc)) (s : WideCpu) :
    ∃ s', runForward WideOp.effect 0 (operand.locate.1 ++ insns (modifyCC ctx.ccLoaded (b.reg .cc)) ++
        loadBounds b size operand.locate.2 ++ (compared.extended b size).1) s = (s', 0) ∧
      s'.get (compared.extended b size).2 = compared.number size s ∧
      s'.get (b.reg .lower) = (bounds size s.memory (operand.address s)).1.signExtend 32 ∧
      s'.get (b.reg .higher) = (bounds size s.memory (operand.address s)).2.signExtend 32 ∧
      s'.get (b.reg .cc) = oldCcr ctx.ccLoaded (b.reg .cc) s ∧
      (∀ i, s'.get64 (dn i) = s.get64 (dn i)) ∧ (∀ i, s'.get64 (an i) = s.get64 (an i)) ∧
      s'.get Branch.regPC = (operand.after s).get Branch.regPC ∧ s'.memory = s.memory := by
  obtain ⟨hlocate, haddress, hdn₁, han₁, hmemory₁, hcc₁⟩ := run_locate operand s
  have hmodify : Quiet [b.reg .cc] (modifyCC ctx.ccLoaded (b.reg .cc)) := quiet_modifyCC ctx.ccLoaded
  obtain ⟨hcc₂, -⟩ := execInsns_modifyCC ctx.ccLoaded (reg_ne_zero (a := b) (x := .cc))
    (operand.after s)
  have hkeep₂ : ∀ r ≠ b.reg .cc, (execInsns (modifyCC ctx.ccLoaded (b.reg .cc))
      (operand.after s)).get64 r = (operand.after s).get64 r := fun r hr ↦
    hmodify.get64 (by simp [hr]) _
  have hmemory₂ := (hmodify.execInsns (operand.after s)).1
  obtain ⟨s₃, hrun₃, hlower, hhigher, hkeep₃, hmemory₃⟩ := run_loadBounds b size
    (locate_ne operand (by decide)) (execInsns (modifyCC ctx.ccLoaded (b.reg .cc)) (operand.after s))
  obtain ⟨s₄, hrun₄, hnumber, hkeep₄, hmemory₄⟩ := run_extended b size compared s₃
  have hea : (execInsns (modifyCC ctx.ccLoaded (b.reg .cc)) (operand.after s)).get
      operand.locate.2 = operand.address s :=
    (congrArg (BitVec.setWidth 32) (hkeep₂ _ (locate_ne operand (by decide)))).trans haddress
  rw [hea, hmemory₂, hmemory₁] at hlower hhigher
  have hall : ∀ r, r ≠ b.reg .cc → r ≠ b.reg .lower → r ≠ b.reg .higher → r ≠ b.reg .tmp →
      s₄.get64 r = (operand.after s).get64 r := fun r h₁ h₂ h₃ h₄ ↦
    (hkeep₄ r h₄).trans ((hkeep₃ r h₂ h₃).trans (hkeep₂ r h₁))
  refine ⟨s₄, ?_, ?_, ?_, ?_, ?_, fun i ↦ ?_, fun i ↦ ?_, ?_, ?_⟩
  · rw [List.append_assoc, List.append_assoc, runForward_piece hlocate,
      runForward_piece (runForward_insns _ _), runForward_piece hrun₃, hrun₄]
  · rw [hnumber]
    cases compared with
    | data i =>
      rw [Compared.number, Compared.number, WideCpu.get, hkeep₃ _ dn_ne_reg dn_ne_reg,
        hkeep₂ _ dn_ne_reg, hdn₁, ← WideCpu.get]
    | address i =>
      rw [Compared.number, Compared.number, WideCpu.get, hkeep₃ _ an_ne_reg an_ne_reg,
        hkeep₂ _ an_ne_reg, han₁, ← WideCpu.get]
  · rw [WideCpu.get, hkeep₄ _ (by simp), ← WideCpu.get, hlower]
  · rw [WideCpu.get, hkeep₄ _ (by simp), ← WideCpu.get, hhigher]
  · rw [WideCpu.get, hkeep₄ _ (by simp), hkeep₃ _ (by simp) (by simp), ← WideCpu.get, hcc₂, hcc₁]
  · rw [hall _ dn_ne_reg dn_ne_reg dn_ne_reg dn_ne_reg, hdn₁]
  · rw [hall _ an_ne_reg an_ne_reg an_ne_reg an_ne_reg, han₁]
  · exact congrArg (BitVec.setWidth 32) (hall _ pc_ne_reg pc_ne_reg pc_ne_reg pc_ne_reg)
  · rw [hmemory₄, hmemory₃, hmemory₂, hmemory₁]

theorem number_equal (size : Size) (compared : Compared) (s : WideCpu) (address : BitVec 32) :
    compared.equal size s address =
      decide (compared.number size s = (bounds size s.memory address).1.signExtend 32 ∨
        compared.number size s = (bounds size s.memory address).2.signExtend 32) := by
  have hbits : size.bits ≤ 32 := by cases size <;> decide
  cases compared with
  | data i => simp only [Compared.equal, Compared.number, signExtend_inj hbits]
  | address i => rfl

theorem number_outside (size : Size) (compared : Compared) (s : WideCpu) (address : BitVec 32) :
    compared.outside size s address =
      outside (compared.number size s) ((bounds size s.memory address).1.signExtend 32)
        ((bounds size s.memory address).2.signExtend 32) := by
  cases compared with
  | data i =>
    exact (outside_signExtend (by cases size <;> decide) (by cases size <;> decide) _ _ _).symm
  | address i => rfl

theorem equal_and_outside (size : Size) (compared : Compared) (s : WideCpu) (address : BitVec 32) :
    (compared.equal size s address && compared.outside size s address) = false := by
  rw [number_equal, number_outside, Bool.and_eq_false_imp, decide_eq_true_eq]
  exact equal_outside _ _ _

/-- The code up to the exception. -/
theorem run_bounds (b : Alloc BoundsReg) (ctx : Translation) (size : Size) (compared : Compared)
    (operand : Place (b.reg .ea) (b.reg .cc)) (s : WideCpu) :
    ∃ s', runForward WideOp.effect 0 (operand.locate.1 ++ insns (modifyCC ctx.ccLoaded (b.reg .cc)) ++
        loadBounds b size operand.locate.2 ++ (compared.extended b size).1 ++
        insns (emitClearFlags (b.reg .cc) (b.reg .tmp1) srZCalt) ++
        (equalTest b (compared.extended b size).2 ++ rangeTest b (compared.extended b size).2)) s =
          (s', 0) ∧
      s'.get (b.reg .cc) = (boundsUpdate (compared.equal size s (operand.address s))
        (compared.outside size s (operand.address s))).apply
          (oldCcr ctx.ccLoaded (b.reg .cc) s) ∧
      (∀ i, s'.get64 (dn i) = s.get64 (dn i)) ∧ (∀ i, s'.get64 (an i) = s.get64 (an i)) ∧
      s'.get Branch.regPC = (operand.after s).get Branch.regPC ∧ s'.memory = s.memory := by
  obtain ⟨s₁, hrun₁, hnumber, hlower, hhigher, hcc₁, hdn₁, han₁, hpc₁, hmemory₁⟩ :=
    run_front b ctx size compared operand s
  obtain ⟨s₂, hrun₂, hcc₂, hkept⟩ := run_tests b (compared.extended b size).2
    (extended_ne size compared (by decide)) (extended_ne size compared (by decide)) s₁
    (compared.equal size s (operand.address s)) (compared.outside size s (operand.address s))
    (by rw [number_equal, hnumber, hlower, hhigher])
    (by rw [number_outside, hnumber, hlower, hhigher])
  refine ⟨s₂, ?_, ?_, fun i ↦ ?_, fun i ↦ ?_, ?_, ?_⟩
  · rw [List.append_assoc _ (insns (emitClearFlags _ _ _)), runForward_piece hrun₁, hrun₂]
  · rw [hcc₂, hcc₁]
  · rw [hkept.regs _ dn_ne_reg dn_ne_reg dn_ne_reg dn_ne_reg, hdn₁]
  · rw [hkept.regs _ an_ne_reg an_ne_reg an_ne_reg an_ne_reg, han₁]
  · exact (congrArg (BitVec.setWidth 32)
      (hkept.regs _ pc_ne_reg pc_ne_reg pc_ne_reg pc_ne_reg)).trans hpc₁
  · rw [hkept.memory, hmemory₁]

end Check

/-- CMP2 and CHK2 do what the 68040 does. -/
theorem emitCMP2_checked (b : Alloc BoundsReg) (ctx : Translation) (size : Size)
    (compared : Compared) (operand : Place (b.reg .ea) (b.reg .cc)) (chk : Bool) (s : WideCpu) :
    BoundsChecked ctx (b.reg .cc) (compared.equal size s (operand.address s))
      (compared.outside size s (operand.address s)) chk ((operand.after s).get Branch.regPC) s
      (execTrap (emitCMP2 b ctx size compared operand chk) s) := by
  obtain ⟨s₁, hrun₁, hcc₁, hdn₁, han₁, hpc₁, hmemory₁⟩ := run_bounds b ctx size compared operand s
  have hadvance : Quiet [Branch.regPC] ctx.advance := quiet_advancePC _ _
  have hwides := runForward_wides (operand.locate.1 ++ insns (modifyCC ctx.ccLoaded (b.reg .cc)) ++
    loadBounds b size operand.locate.2 ++ (compared.extended b size).1 ++
    insns (emitClearFlags (b.reg .cc) (b.reg .tmp1) srZCalt) ++
    (equalTest b (compared.extended b size).2 ++ rangeTest b (compared.extended b size).2) ++
    insns ctx.advance) 0 s none
  rw [runForward_piece hrun₁, runForward_insns] at hwides
  have hccr : ∀ mask, CcrCorrect mask (boundsFlags (compared.equal size s (operand.address s))
      (compared.outside size s (operand.address s))) (oldCcr ctx.ccLoaded (b.reg .cc) s)
      (s₁.get (b.reg .cc)) := by
    intro mask
    rw [hcc₁]
    exact (boundsUpdate_fits mask _ _ (equal_and_outside size compared s _)).ccrCorrect _
  unfold emitCMP2
  dsimp only
  rw [execTrap, runForward_piece hwides]
  have hkeep : ∀ code, Quiet [Branch.regPC] code → ∀ r ≠ Branch.regPC, ∀ t : WideCpu,
      (execInsns code t).get64 r = t.get64 r := fun _ hcode r hr t ↦ hcode.get64 (by simp [hr]) t
  have hdone : ∀ (t : WideCpu) (trap : Option Trap), (∀ r ≠ Branch.regPC, t.get64 r = s₁.get64 r) →
      t.memory = s₁.memory →
      trap = (if chk && compared.outside size s (operand.address s) then
        some ⟨VECTOR_CHK, 2, ctx.address, ctx.nextPC ((operand.after s).get Branch.regPC)⟩
        else none) →
      BoundsChecked ctx (b.reg .cc) (compared.equal size s (operand.address s))
        (compared.outside size s (operand.address s)) chk ((operand.after s).get Branch.regPC) s
        ⟨t, trap, false⟩ := by
    intro t trap hregs hmemory htrap
    have hcc : t.get (b.reg .cc) = s₁.get (b.reg .cc) :=
      congrArg (BitVec.setWidth 32) (hregs _ reg_ne_pc)
    exact ⟨fun mask ↦ by rw [hcc]; exact hccr mask, htrap,
      fun i ↦ (hregs _ dn_ne_pc).trans (hdn₁ i), fun i ↦ (hregs _ an_ne_pc).trans (han₁ i),
      hmemory.trans hmemory₁⟩
  cases chk with
  | false =>
    exact hdone _ _ (fun r hr ↦ hkeep _ hadvance r hr s₁) (hadvance.execInsns s₁).1 rfl
  | true =>
    have hflush := quiet_flushPC (Branch.advancePC ctx.pcRel (2 * (ctx.extWords + 1))).2
    have hpc := run_advanceFlush ctx s₁
    rw [hpc₁] at hpc
    obtain ⟨t, ht⟩ : ∃ t, t = execInsns (Branch.flushPC (Branch.advancePC ctx.pcRel
      (2 * (ctx.extWords + 1))).2) (execInsns ctx.advance s₁) := ⟨_, rfl⟩
    rw [← ht] at hpc
    have hregs : ∀ r ≠ Branch.regPC, t.get64 r = s₁.get64 r := fun r hr ↦
      ht ▸ (hkeep _ hflush r hr _).trans (hkeep _ hadvance r hr s₁)
    have hmemory : t.memory = s₁.memory :=
      ht ▸ (hflush.execInsns _).1.trans (hadvance.execInsns s₁).1
    have hcarry : (t.get (b.reg .cc)).getLsbD 1 = compared.outside size s (operand.address s) := by
      rw [WideCpu.get, hregs _ reg_ne_pc]
      exact (hccr 0x1f).flags .c (by decide)
    have htest : (WideOp.tbz (b.reg .cc) 1 2).effect t =
        (t, skipIf (!compared.outside size s (operand.address s)) 2) := by
      rw [WideOp.effect, hcarry]
    rw [if_pos rfl, runForward_append, runForward_wides, runForward_piece (runForward_insns _ _),
      ← ht, runForward_cons, htest]
    -- the exception is the only instruction behind the test
    cases hout : compared.outside size s (operand.address s) with
    | true =>
      rw [hout] at hdone
      exact hdone t (some ⟨VECTOR_CHK, 2, ctx.address, t.get Branch.regPC⟩) hregs hmemory (by
        rw [hpc, Bool.and_self, if_pos rfl])
    | false =>
      rw [hout] at hdone
      exact hdone t none hregs hmemory rfl

end Emu68.Alu

import Mathlib
import Emu68.Branch.CountedBranch

/-!
FBcc goes where that of the 68040 goes, unless its predicate is never or always true and the
translation expects the other outcome. The host condition for "never" is another "always", so that
these predicates leave through the exit block whatever is expected.
-/

set_option autoImplicit false
set_option relaxedAutoImplicit false

namespace Emu68.Branch

open A64 M68k Lib

variable {memory : CodeMemory} {opcode : BitVec 16} {branch : M68k.Branch} {size : Size}
  {m : M68k.Cpu} {s : A64.Cpu} {ctx : Context}

/-! ### FNOP -/

theorem decode_fbcc {predicate : BitVec 4} (h : decode opcode = some (.fbcc predicate, size)) :
    opcode.setWidth 4 = predicate ∧ size = if opcode.getLsbD 6 then .long else .word := by
  unfold decode at h
  dsimp only at h
  split_ifs at h with hline h0 h1 hdbcc hfbcc
  · simp at h
  · simp at h
  · simp at h
  · simp at h
  all_goals
    simp only [Option.some.injEq, Prod.mk.injEq, Branch.fbcc.injEq] at h
    exact ⟨h.1, by simp_all⟩

theorem emitFNOP_correct (hat : At ctx m s) :
    BranchCorrect (emitFNOP ctx) memory opcode (.fbcc 0) .word m s := by
  obtain ⟨v, hmoved, hsum, hnonneg, hle⟩ := advancePC_spec hat s
  have hflush := flushPC_spec hnonneg hle (exec (advancePC ctx.pcRel 4).1 s)
  have hmoved' := hmoved.trans hflush
  rw [← BitVec.ofInt_add, hsum] at hmoved'
  have htaken : (Branch.fbcc 0).taken m = false := rfl
  refine ⟨⟨false, exec (flushPC (advancePC ctx.pcRel 4).2) (exec (advancePC ctx.pcRel 4).1 s),
    ?_, rfl, ?_, ?_, fun h ↦ Branch.noConfusion h, fun _ ↦ hmoved'.memory⟩, fun _ ↦ ?_⟩
  · simp only [Emission.final, emitFNOP, run_ops_nil, exec_append]
  · rw [hmoved'.pc, BitVec.ofInt_add, ← BitVec.add_assoc, hat.pc]
    exact add_zero _
  · intro r
    rw [hmoved'.mapped, hat.regs]
    rfl
  · exact nextPtr .word hat.codePtr

/-! ### FBcc -/

theorem Tests.exits {items : List Item} {cond : Cond} {test : Bool}
    (h : Tests items cond s test) : ExitsIf (items ++ [.exitIf cond]) s test := by
  obtain ⟨s', hmoved, hrun, htest⟩ := h
  refine ⟨s', hmoved, fun rest ↦ ?_⟩
  rw [List.append_assoc, hrun, List.singleton_append, run, htest]

/-- The two conditions of a pair are opposites, except for the last pair. -/
theorem Cond.holds_not : ∀ cond : Cond, cond.toNat < 14 →
    ∀ f : Nzcv, (cond ^^^ 1).holds f = !cond.holds f := by
  have hall : ∀ cond : Cond, cond.toNat < 14 → ∀ n z c v : Bool,
      (cond ^^^ 1).holds ⟨n, z, c, v⟩ = !cond.holds ⟨n, z, c, v⟩ := by
    decide +kernel
  exact fun cond hlt f ↦ hall cond hlt f.n f.z f.c f.v

theorem Tests.not {items : List Item} {cond : Cond} {test : Bool} (hcond : cond.toNat < 14)
    (h : Tests items cond s test) : Tests items (cond ^^^ 1) s !test := by
  obtain ⟨s', hmoved, hrun, htest⟩ := h
  exact ⟨s', hmoved, hrun, by rw [Cond.holds_not cond hcond, htest]⟩

theorem fpuTest_cond_lt (ctx : Context) {predicate : BitVec 4} (hpos : predicate ≠ 0)
    (hlt : predicate ≠ 15) : (fpuTest ctx predicate).2.toNat < 14 := by
  rcases predicate_cases predicate with rfl | rfl | rfl | rfl | rfl | rfl | rfl | rfl | rfl | rfl |
    rfl | rfl | rfl | rfl | rfl | rfl
  · exact absurd rfl hpos
  rotate_right
  · exact absurd rfl hlt
  all_goals
    by_cases hhost : ctx.hostFlags = fpFlags
    · simp only [fpuTest, hhost, if_true]
      exact of_decide_eq_true rfl
    · simp only [fpuTest, hhost, if_false]
      exact of_decide_eq_true rfl

/-- Either condition of the last pair. -/
theorem always {cond : Cond} (h : 14 ≤ cond.toNat) (f : Nzcv) : cond.holds f = true := by
  have hcases : ∀ cond : Cond, 14 ≤ cond.toNat → cond = ccAL ∨ cond = ccNV := by decide
  rcases hcases cond h with rfl | rfl
  all_goals rfl

/-- Never and always. -/
def Constant (predicate : BitVec 4) : Prop := predicate = 0 ∨ predicate = 15

instance (predicate : BitVec 4) : Decidable (Constant predicate) :=
  inferInstanceAs (Decidable (_ ∨ _))

/-- The branch of a constant predicate leaves through its exit block, and that of any other if its
outcome is not the expected one. -/
theorem exitsIf_fbcc (hat : At ctx m s) (predicate : BitVec 4) (takeBranch : Bool) :
    ExitsIf (ops (getFPSR ctx) ++ (fpuTest ctx predicate).1 ++
        [.exitIf (if takeBranch then (fpuTest ctx predicate).2 ^^^ 1
          else (fpuTest ctx predicate).2)]) s
      (decide (Constant predicate) || (m.fpcc.holds predicate != takeBranch)) := by
  obtain ⟨hmoved, hfpcc⟩ := getFPSR_spec hat
  rw [List.append_assoc]
  refine .ops hmoved (Tests.exits ?_)
  by_cases hconstant : Constant predicate
  · rw [decide_eq_true hconstant, Bool.true_or]
    rcases hconstant with rfl | rfl
    · rw [show fpuTest ctx 0 = ([], ccNV) from rfl]
      refine tests_nil (always ?_ _)
      cases takeBranch
      all_goals decide
    · rw [show fpuTest ctx 15 = ([], ccAL) from rfl]
      refine tests_nil (always ?_ _)
      cases takeBranch
      all_goals decide
  · rw [decide_eq_false hconstant, Bool.false_or]
    have hpos : predicate ≠ 0 := fun h ↦ hconstant (.inl h)
    have hlt : predicate ≠ 15 := fun h ↦ hconstant (.inr h)
    have htests := fpuTest_spec hat.allocated hat.hostFlags_ne hpos hlt (exec (getFPSR ctx) s)
    rw [hfpcc] at htests
    cases takeBranch with
    | true =>
      rw [if_pos rfl, Bool.bne_true]
      exact htests.not (fpuTest_cond_lt ctx hpos hlt)
    | false =>
      rw [if_neg Bool.false_ne_true, Bool.bne_false]
      exact htests

/-- Whether the translation expects an FBcc to be taken. -/
def expectsTaken (ctx : Context) (memory : CodeMemory) (opcode : BitVec 16) (pc : BitVec 32)
    (size : Size) : Bool :=
  ctx.defBranch.takes (decide ((displacement memory opcode pc size).toInt < 0))

theorem and_bit6 (opcode : BitVec 16) : opcode &&& 0x40 = 0 ↔ opcode.getLsbD 6 = false := by
  rw [show (0x40 : BitVec 16) = BitVec.twoPow 16 6 by decide, BitVec.and_twoPow]
  cases opcode.getLsbD 6 <;> decide

/-- The two words of a long displacement. -/
theorem readTwice_eq (memory : CodeMemory) (a : BitVec 32) :
    (memory.read16 (a + 2)).zeroExtend 32 ||| (memory.read16 a).zeroExtend 32 <<< 16 =
      memory.read32 a := by
  rw [memory.read32_eq]
  apply BitVec.eq_of_getLsbD_eq
  intro i hi
  simp only [BitVec.truncate_eq_setWidth, BitVec.getLsbD_or, BitVec.getLsbD_setWidth,
    BitVec.getLsbD_shiftLeft, BitVec.getLsbD_append]
  by_cases hlow : i < 16
  · simp [hlow, hi]
  · simp [hlow, hi, BitVec.getLsbD_of_ge _ _ (not_lt.mp hlow), show i - 16 < 32 by omega]

theorem readFloatOffset_eq (memory : CodeMemory) (hat : At ctx m s) {predicate : BitVec 4}
    (h : decode opcode = some (.fbcc predicate, size)) :
    (if opcode &&& 0x40 = 0 then
      ((2 : ℤ), (memory.read16 (ctx.m68kCodePtr.setWidth 32)).toInt, ctx.m68kCodePtr + 2)
    else (4, ((memory.read16 (ctx.m68kCodePtr.setWidth 32 + 2)).zeroExtend 32 |||
      (memory.read16 (ctx.m68kCodePtr.setWidth 32)).zeroExtend 32 <<< 16).toInt,
        ctx.m68kCodePtr + 4)) =
      (addend size, (displacement memory opcode m.pc size).toInt,
        ctx.m68kCodePtr + BitVec.ofInt 64 (addend size)) := by
  obtain ⟨-, hsize⟩ := decode_fbcc h
  rw [readTwice_eq, hat.codePtr]
  cases hbit : opcode.getLsbD 6 with
  | true =>
    rw [hbit, if_pos rfl] at hsize
    rw [hsize, if_neg (by rw [and_bit6, hbit]; decide)]
    rfl
  | false =>
    rw [hbit, if_neg Bool.false_ne_true] at hsize
    rw [hsize, if_pos ((and_bit6 opcode).mpr hbit)]
    simp only [addend, displacement, BitVec.toInt_signExtend_of_le (show 16 ≤ 32 by decide)]
    rfl

theorem emitFBcc_spec (hat : At ctx m s) {predicate : BitVec 4}
    (h : decode opcode = some (.fbcc predicate, size)) {e : Emission}
    (he : e = emitFBcc ctx memory opcode) :
    e.takeBranch = expectsTaken ctx memory opcode m.pc size ∧ e.pcRel = 0 ∧
      (e.code, e.exitBlock) = emitExits ctx
        (ops (getFPSR ctx) ++ (fpuTest ctx predicate).1 ++
          [.exitIf (if e.takeBranch then (fpuTest ctx predicate).2 ^^^ 1
            else (fpuTest ctx predicate).2)])
        e.takeBranch (ctx.pcRel + 2 - 2 + (addend size + 2))
        ((displacement memory opcode m.pc size).toInt + (ctx.pcRel + 2)) ∧
      e.m68kCodePtr.setWidth 32 =
        if e.takeBranch then target memory opcode m.pc size else next m.pc size := by
  obtain ⟨hpredicate, -⟩ := decode_fbcc h
  have hread := readFloatOffset_eq memory hat h
  have hnil : ops [] = [] := rfl
  subst he
  simp only [emitFBcc, hread, hpredicate, pcRel_two hat, hnil, List.append_nil]
  refine ⟨rfl, trivial, trivial, ?_⟩
  split
  · exact targetPtr hat.codePtr
  · exact nextPtr _ hat.codePtr

/-- The predicates that go the wrong way. -/
def Unexpected (predicate : BitVec 4) (expected : Bool) : Prop :=
  predicate = 0 ∧ expected = false ∨ predicate = 15 ∧ expected = true

instance (predicate : BitVec 4) (expected : Bool) : Decidable (Unexpected predicate expected) :=
  inferInstanceAs (Decidable (_ ∨ _))

/-- The outcome of a constant predicate is known, and its branch always leaves. -/
theorem path_iff (predicate : BitVec 4) (expected : Bool) (f : Fpcc) :
    (decide (Constant predicate) || (f.holds predicate != expected)) =
      (f.holds predicate != expected) ↔ ¬ Unexpected predicate expected := by
  by_cases hconstant : Constant predicate
  · rcases hconstant with rfl | rfl
    · rw [show f.holds 0 = false from rfl]
      cases expected
      all_goals decide
    · rw [show f.holds 15 = true from rfl]
      cases expected
      all_goals decide
  · have hexpected : ¬ Unexpected predicate expected := by
      rintro (⟨h, -⟩ | ⟨h, -⟩)
      · exact hconstant (.inl h)
      · exact hconstant (.inr h)
    rw [decide_eq_false hconstant, Bool.false_or]
    exact iff_of_true rfl hexpected

theorem emitFBcc_iff (hat : At ctx m s) {predicate : BitVec 4}
    (h : decode opcode = some (.fbcc predicate, size)) :
    BranchCorrect (emitFBcc ctx memory opcode) memory opcode (.fbcc predicate) size m s ↔
      ¬ Unexpected predicate (expectsTaken ctx memory opcode m.pc size) := by
  generalize he : emitFBcc ctx memory opcode = e
  obtain ⟨hexpected, hpcRel, hcode, hptr⟩ := emitFBcc_spec hat h he.symm
  have hexits := exitsIf_fbcc hat predicate e.takeBranch
  rw [← path_iff predicate _ m.fpcc, ← hexpected]
  constructor
  · rintro ⟨⟨exits, s', hends⟩, -⟩
    obtain ⟨s'', hfinal, -⟩ := emitExits_final hexits hcode
    rw [hends.final] at hfinal
    have hpath := hends.path
    simp only [Option.some.injEq, Prod.mk.injEq] at hfinal
    rw [← hfinal.1, hpath]
    rfl
  · intro hpath
    exact ⟨ends_of_emitExits hat _ _ hexits hpath hcode hpcRel rfl (by simp), fun _ ↦ hptr⟩

/-! ### All branches -/

/-- FNOP is decoded as FBF. -/
theorem decode_fnop (h : decode 0xf280 = some (branch, size)) : branch = .fbcc 0 ∧ size = .word := by
  have hdecode : decode 0xf280 = some (.fbcc 0, .word) := by decide
  rw [hdecode] at h
  simp only [Option.some.injEq, Prod.mk.injEq] at h
  exact ⟨h.1.symm, h.2.symm⟩

/-- The instructions that go the wrong way. -/
def GoesWrong (ctx : Context) (memory : CodeMemory) (opcode : BitVec 16) (pc : BitVec 32)
    (size : Size) : M68k.Branch → Prop
  | .fbcc predicate =>
    opcode ≠ 0xf280 ∧ Unexpected predicate (expectsTaken ctx memory opcode pc size)
  | _ => False

/-- A translated branch goes where that of the 68040 goes, unless it is an FBcc with a constant
predicate of which the other outcome is expected. -/
theorem emitBranch_iff (ctx : Context) (memory : CodeMemory) (opcode : BitVec 16)
    (branch : M68k.Branch) (size : Size) (m : M68k.Cpu) (s : A64.Cpu) (hat : At ctx m s)
    (h : decode opcode = some (branch, size)) :
    BranchCorrect (emitBranch ctx memory opcode branch) memory opcode branch size m s ↔
      ¬ GoesWrong ctx memory opcode m.pc size branch := by
  cases branch with
  | bra => exact iff_of_true (emitBRA_correct hat h) not_false
  | bsr => exact iff_of_true (emitBSR_correct hat h) not_false
  | bcc condition => exact iff_of_true (emitBcc_correct hat h) not_false
  | dbcc condition counter =>
    refine iff_of_true ?_ not_false
    by_cases hcondition : condition = 0
    · subst hcondition
      exact emitDBT_correct hat h
    · exact emitDBcc_correct hat hcondition h
  | fbcc predicate =>
    by_cases hfnop : opcode = 0xf280
    · subst hfnop
      obtain ⟨hbranch, rfl⟩ := decode_fnop h
      rw [hbranch]
      exact iff_of_true (emitFNOP_correct hat) fun hwrong ↦ hwrong.1 rfl
    · have hemit : emitBranch ctx memory opcode (.fbcc predicate) =
          emitFBcc ctx memory opcode := if_neg hfnop
      rw [hemit, emitFBcc_iff hat h]
      exact not_congr (iff_and_self.mpr fun _ ↦ hfnop)

/-- At the start of a unit, with nothing loaded. -/
def atStart : Context where
  m68kCodePtr := 0x1002
  m68kCodeStart := 0x1000
  pcRel := 0
  hostFlags := 0
  cc := 0
  ccLoaded := false
  ccModified := false
  fpsr := 1
  fpsrLoaded := false
  fpsrModified := false
  fpcrModified := none
  tmp := 2
  tmp2 := 3
  valFPIAR := none
  insnCount := 0
  inlineDistance := 0
  dbfSlowdown := false
  defBranch := .auto

/-- Words with the value -4. -/
def backward : CodeMemory where
  read16 _ := 0xfffc
  read32 _ := 0xfffcfffc
  read32_eq _ := by decide

def m68kStart : M68k.Cpu where
  regs _ := 0
  pc := 0x1000
  ccr := ⟨false, false, false, false⟩
  fpcc := ⟨false, false, false⟩

def armStart : A64.Cpu where
  regs r := if r = regPC then 0x1000 else 0
  flags := ⟨false, false, false, false⟩
  memory _ := 0
  simd _ := 0

theorem at_start : At atStart m68kStart armStart where
  pc := by decide
  regs := by decide
  ccr := rfl
  fpcc := rfl
  pcRel_nonneg := by decide
  pcRel_le := by decide
  codePtr := by decide
  hostAgree := ⟨fun h ↦ absurd rfl h, fun h ↦ absurd rfl h, fun h ↦ absurd rfl h,
    fun h ↦ absurd rfl h⟩
  hostFlags_ne := by decide
  allocated := ⟨by decide, by decide, by decide, by decide, by decide, by decide⟩

/-- FBF backward is correct, but FBT backward is not. -/
theorem emitBranch_iff_fbf :
    BranchCorrect (emitBranch atStart backward 0xf2c0 (.fbcc 0)) backward 0xf2c0 (.fbcc 0) .long
      m68kStart armStart :=
  (emitBranch_iff atStart backward 0xf2c0 (.fbcc 0) .long m68kStart armStart at_start
    (by decide)).mpr (by rintro ⟨-, ⟨-, h⟩ | ⟨h, -⟩⟩ <;> revert h <;> decide)

/-- FBT backward, which is expected to be taken, goes on behind itself. -/
theorem emitBranch_fbt_wrong : ¬ ∀ (ctx : Context) (memory : CodeMemory) (opcode : BitVec 16)
    (branch : M68k.Branch) (size : Size) (m : M68k.Cpu) (s : A64.Cpu), At ctx m s →
      decode opcode = some (branch, size) →
        BranchCorrect (emitBranch ctx memory opcode branch) memory opcode branch size m s := by
  intro h
  have hcorrect := h atStart backward 0xf28f (.fbcc 15) .word m68kStart armStart at_start (by decide)
  have hdecode : decode 0xf28f = some (.fbcc 15, .word) := by decide
  refine (emitFBcc_iff at_start hdecode).mp hcorrect (.inr ⟨rfl, ?_⟩)
  decide

end Emu68.Branch

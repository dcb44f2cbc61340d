import Mathlib
import Emu68.Branch.Paths

/-!
The tests of conditions. `EMIT_JumpOnCondition` leaves through the exit block exactly where the
condition of the 68040 holds, and the test of a floating-point predicate sets a host condition that
says whether the predicate holds, except for the predicates that are never or always true.
-/

set_option autoImplicit false
set_option relaxedAutoImplicit false

namespace Emu68.Branch

open A64 M68k

/-! ### Bits -/

/-- Whether a word has one of the bits of a mask. -/
theorem and_beq_zero (x m : BitVec 32) (bits : List ℕ)
    (hm : ∀ i < 32, m.getLsbD i = bits.contains i) (hbits : ∀ i ∈ bits, i < 32) :
    (x &&& m == 0) = !bits.any x.getLsbD := by
  rw [Bool.eq_iff_iff, beq_iff_eq, Bool.not_eq_true', List.any_eq_false]
  constructor
  · intro hzero i hi hbit
    have hand := congrArg (BitVec.getLsbD · i) hzero
    simp only [BitVec.getLsbD_and, hbit, hm i (hbits i hi), List.contains_iff_mem.mpr hi] at hand
    simp at hand
  · intro hnone
    apply BitVec.eq_of_getLsbD_eq
    intro i hi
    rw [BitVec.getLsbD_and, hm i hi]
    by_cases hmem : i ∈ bits
    · simp [Bool.eq_false_iff.mpr (hnone i hmem)]
    · simp [hmem]

/-- The condition codes in their register, where C and V have changed places. -/
def ccrOf (x : BitVec 32) : Ccr := ⟨x.getLsbD 3, x.getLsbD 2, x.getLsbD 0, x.getLsbD 1⟩

def fpccOf (x : BitVec 32) : Fpcc := ⟨x.getLsbD 27, x.getLsbD 26, x.getLsbD 24⟩

/-- The host flags that are valid are those of the m68k. -/
structure HostAgree (hostFlags : Mask) (f : Nzcv) (c : Ccr) : Prop where
  n : hostFlags &&& srN ≠ 0 → f.n = c.n
  z : hostFlags &&& srZ ≠ 0 → f.z = c.z
  v : hostFlags &&& srV ≠ 0 → f.v = c.v
  c : hostFlags &&& srC ≠ 0 → f.c = c.c

variable {s : A64.Cpu} {ctx : Context}

/-! ### The conditions of the condition codes -/

/-- The code leaves through the exit block if the test is true, and else goes on. -/
def ExitsIf (items : List Item) (s : A64.Cpu) (test : Bool) : Prop :=
  ∃ s', Moved s s' 0 ∧
    ∀ rest, run 0 (items ++ rest) s = if test then .exits s' else run 0 rest s'

theorem exitsIf_cond {cond : Cond} {test : Bool} (h : cond.holds s.flags = test) :
    ExitsIf [.exitIf cond] s test := by
  refine ⟨s, .refl s, fun rest ↦ ?_⟩
  rw [← h]
  rfl

theorem ExitsIf.before {items : List Item} {test : Bool} {op : Op}
    (hop : Moved s (step s op) 0) (h : ExitsIf items (step s op) test) :
    ExitsIf (.op op :: items) s test := by
  obtain ⟨s', hmoved, hrun⟩ := h
  exact ⟨s', hop.after hmoved, hrun⟩

theorem exitOnFlag_spec {flag : Mask} {cond : Cond} {bit : ℕ} {value test : Bool} (hcc : ctx.cc ≠ 31)
    (hhost : ctx.hostFlags &&& flag ≠ 0 → cond.holds s.flags = test)
    (hbit : decide ((s.regs ctx.cc).getLsbD bit = value) = test) :
    ExitsIf (exitOnFlag ctx flag cond bit value) s test := by
  unfold exitOnFlag
  split
  case isTrue hvalid => exact exitsIf_cond (hhost hvalid)
  case isFalse =>
    refine ⟨s, .refl s, fun rest ↦ ?_⟩
    rw [← hbit, ← Cpu.get_of_ne hcc]
    simp only [List.singleton_append, run, decide_eq_true_eq]

/-- The flags after the condition codes have been copied to the host. -/
theorem copy_flags (hcc : ctx.cc ≠ 31) (htmp : ctx.tmp ≠ 31) :
    (step (step s (ror ctx.tmp ctx.cc 4)) (.setNzcv ctx.tmp)).flags =
      ⟨(s.regs ctx.cc).getLsbD 3, (s.regs ctx.cc).getLsbD 2, (s.regs ctx.cc).getLsbD 1,
        (s.regs ctx.cc).getLsbD 0⟩ := by
  simp only [step, ror, Cpu.get_put s htmp, Cpu.get_of_ne hcc]
  simp

theorem exitOnCopy_spec {flags : Mask} {cond : Cond} {test : Bool} (h : ctx.Allocated)
    (hhost : ctx.hostFlags &&& flags = flags → cond.holds s.flags = test)
    (hcopy : cond.holds ⟨(s.regs ctx.cc).getLsbD 3, (s.regs ctx.cc).getLsbD 2,
      (s.regs ctx.cc).getLsbD 1, (s.regs ctx.cc).getLsbD 0⟩ = test) :
    ExitsIf (exitOnCopy ctx flags cond) s test := by
  have hcc := ne_of_scratch h.cc_lt (show 12 ≤ 31 by decide)
  have htmp := ne_of_scratch h.tmp_lt (show 12 ≤ 31 by decide)
  unfold exitOnCopy
  split
  case isTrue hvalid => exact exitsIf_cond (hhost hvalid)
  case isFalse =>
    refine .before (moved_put s h.tmp_lt _) (.before (moved_flags _ _) (exitsIf_cond ?_))
    rw [copy_flags hcc htmp]
    exact hcopy

theorem tstCC_z (hcc : ctx.cc ≠ 31) :
    (step s (tstImmed ctx.cc 2 31)).flags.z =
      !((s.regs ctx.cc).getLsbD 1 || (s.regs ctx.cc).getLsbD 2) := by
  have hz := and_beq_zero (s.regs ctx.cc) (bitmask 2 31) [1, 2] (by decide +kernel) (by decide)
  simp only [step, tstImmed, logicFlags, Cpu.get_of_ne hcc, hz]
  simp

/-- A mask that contains another one meets the parts of it. -/
theorem meets_of_contains : ∀ hostFlags : Mask,
    (hostFlags &&& srNV = srNV → hostFlags &&& srN ≠ 0 ∧ hostFlags &&& srV ≠ 0) ∧
      (hostFlags &&& srNZV = srNZV →
        hostFlags &&& srN ≠ 0 ∧ hostFlags &&& srZ ≠ 0 ∧ hostFlags &&& srV ≠ 0) := by
  decide +kernel

theorem le_eq (n z v : Bool) : (!(!z && n == v)) = (z || n != v) := by
  cases n <;> cases z <;> cases v <;> rfl

theorem jumpOnCondition_spec (h : ctx.Allocated)
    (hagree : HostAgree ctx.hostFlags s.flags (ccrOf (s.regs ctx.cc))) {condition : Condition}
    (hcondition : 2 ≤ condition.toNat) :
    ExitsIf (jumpOnCondition ctx condition) s ((ccrOf (s.regs ctx.cc)).holds condition) := by
  have hcc := ne_of_scratch h.cc_lt (show 12 ≤ 31 by decide)
  obtain ⟨hnv, hnzv⟩ := meets_of_contains ctx.hostFlags
  have htst := tstCC_z (s := s) hcc
  have hmoved : Moved s (step s (tstImmed ctx.cc 2 31)) 0 := moved_flags s _
  unfold jumpOnCondition Ccr.holds
  split
  all_goals rename_i hk
  · rw [hk]
    exact exitOnFlag_spec hcc hagree.z (by simp [ccrOf])
  · rw [hk]
    exact exitOnFlag_spec hcc (fun hz ↦ congrArg not (hagree.z hz)) (by simp [ccrOf])
  · rw [hk]
    exact exitOnFlag_spec hcc hagree.c (by simp [ccrOf])
  · rw [hk]
    exact exitOnFlag_spec hcc (fun hc ↦ congrArg not (hagree.c hc)) (by simp [ccrOf])
  · rw [hk]
    exact exitOnFlag_spec hcc (fun hn ↦ congrArg not (hagree.n hn)) (by simp [ccrOf])
  · rw [hk]
    exact exitOnFlag_spec hcc hagree.n (by simp [ccrOf])
  · rw [hk]
    exact exitOnFlag_spec hcc hagree.v (by simp [ccrOf])
  · rw [hk]
    exact exitOnFlag_spec hcc (fun hv ↦ congrArg not (hagree.v hv)) (by simp [ccrOf])
  · rw [hk]
    refine .before hmoved (exitsIf_cond ?_)
    show (!(step s (tstImmed ctx.cc 2 31)).flags.z) = _
    rw [htst, Bool.not_not]
    rfl
  · rw [hk]
    refine .before hmoved (exitsIf_cond ?_)
    show (step s (tstImmed ctx.cc 2 31)).flags.z = _
    rw [htst, Bool.not_or]
    rfl
  · rw [hk]
    exact exitOnCopy_spec h (fun hv ↦ congrArg₂ (· == ·) (hagree.n (hnv hv).1)
      (hagree.v (hnv hv).2)) rfl
  · rw [hk]
    exact exitOnCopy_spec h (fun hv ↦ congrArg₂ (· != ·) (hagree.n (hnv hv).1)
      (hagree.v (hnv hv).2)) rfl
  · rw [hk]
    exact exitOnCopy_spec h (fun hv ↦ congrArg₂ (· && ·) (congrArg not (hagree.z (hnzv hv).2.1))
      (congrArg₂ (· == ·) (hagree.n (hnzv hv).1) (hagree.v (hnzv hv).2.2))) rfl
  · rw [hk]
    refine exitOnCopy_spec h (fun hv ↦ ?_) (le_eq _ _ _)
    refine (le_eq s.flags.n s.flags.z s.flags.v).trans ?_
    exact congrArg₂ (· || ·) (hagree.z (hnzv hv).2.1)
      (congrArg₂ (· != ·) (hagree.n (hnzv hv).1) (hagree.v (hnzv hv).2.2))
  · have hlt := condition.isLt
    simp only [imp_false] at *
    omega

/-! ### The floating-point predicates -/

/-- After the code a host condition tells the test. -/
def Tests (items : List Item) (cond : Cond) (s : A64.Cpu) (test : Bool) : Prop :=
  ∃ s', Moved s s' 0 ∧ (∀ rest, run 0 (items ++ rest) s = run 0 rest s') ∧
    cond.holds s'.flags = test

theorem tests_nil {cond : Cond} {test : Bool} (h : cond.holds s.flags = test) :
    Tests [] cond s test :=
  ⟨s, .refl s, fun _ ↦ rfl, h⟩

theorem Tests.before {items : List Item} {cond : Cond} {test : Bool} {op : Op}
    (hop : Moved s (step s op) 0) (h : Tests items cond (step s op) test) :
    Tests (.op op :: items) cond s test := by
  obtain ⟨s', hmoved, hrun, htest⟩ := h
  exact ⟨s', hop.after hmoved, hrun, htest⟩

theorem Tests.congr {items : List Item} {cond : Cond} {test test' : Bool}
    (h : Tests items cond s test) (heq : test = test') : Tests items cond s test' :=
  heq ▸ h

/-- A test that is skipped if an earlier one was successful. -/
theorem tests_or {first a b c : Op} {test test' : Bool} (hfirst : Moved s (step s first) 0)
    (htest : ccNE.holds (step s first).flags = test)
    (hrest : Tests [.op a, .op b, .op c] ccNE (step s first) test') :
    Tests [.op first, .bCc ccNE 4, .op a, .op b, .op c] ccNE s (test || test') := by
  cases test with
  | true =>
    refine ⟨step s first, hfirst, fun rest ↦ ?_, htest⟩
    simp only [List.cons_append, run, htest, if_true]
    rfl
  | false =>
    obtain ⟨s', hmoved, hrun, htest'⟩ := hrest
    refine ⟨s', hfirst.after hmoved, fun rest ↦ ?_, htest'⟩
    rw [← hrun rest]
    simp only [List.cons_append, List.nil_append, run, htest, Bool.false_eq_true, if_false]

theorem tst_z {r : Reg} (s : A64.Cpu) {width ror : BitVec 8} (bits : List ℕ)
    (hm : ∀ i < 32, (bitmask width ror).getLsbD i = bits.contains i) (hbits : ∀ i ∈ bits, i < 32) :
    (step s (tstImmed r width ror)).flags.z = !bits.any (s.get r).getLsbD := by
  show (s.get r &&& bitmask width ror == 0) = _
  exact and_beq_zero _ _ bits hm hbits

theorem tst_ne {r : Reg} (s : A64.Cpu) {width ror : BitVec 8} (bits : List ℕ)
    (hm : ∀ i < 32, (bitmask width ror).getLsbD i = bits.contains i) (hbits : ∀ i ∈ bits, i < 32) :
    ccNE.holds (step s (tstImmed r width ror)).flags = bits.any (s.get r).getLsbD := by
  show (!(step s (tstImmed r width ror)).flags.z) = _
  rw [tst_z s bits hm hbits, Bool.not_not]

/-- A test of bits, and the two conditions that tell its result. -/
theorem tests_tst {r : Reg} (s : A64.Cpu) {width ror : BitVec 8} (bits : List ℕ)
    (hm : ∀ i < 32, (bitmask width ror).getLsbD i = bits.contains i) (hbits : ∀ i ∈ bits, i < 32) :
    Tests [.op (tstImmed r width ror)] ccNE s (bits.any (s.get r).getLsbD) ∧
      Tests [.op (tstImmed r width ror)] ccEQ s (!bits.any (s.get r).getLsbD) := by
  have hmoved : Moved s (step s (tstImmed r width ror)) 0 := moved_flags s _
  exact ⟨.before hmoved (tests_nil (tst_ne s bits hm hbits)),
    .before hmoved (tests_nil (tst_z s bits hm hbits))⟩

/-- A test of bits that do not lie next to each other. -/
theorem tests_tstReg (h : ctx.Allocated) (s : A64.Cpu) (val : BitVec 16) (bits : List ℕ)
    (hm : ∀ i < 32, (val.zeroExtend 32 <<< 16).getLsbD i = bits.contains i)
    (hbits : ∀ i ∈ bits, i < 32) :
    Tests [.op (.movImmedU16 ctx.tmp val 1), .op (tstReg ctx.fpsr ctx.tmp .LSL 0)] ccNE s
        (bits.any (s.get ctx.fpsr).getLsbD) ∧
      Tests [.op (.movImmedU16 ctx.tmp val 1), .op (tstReg ctx.fpsr ctx.tmp .LSL 0)] ccEQ s
        (!bits.any (s.get ctx.fpsr).getLsbD) := by
  have htmp := ne_of_scratch h.tmp_lt (show 12 ≤ 31 by decide)
  have hmov : Moved s (step s (.movImmedU16 ctx.tmp val 1)) 0 := moved_put s h.tmp_lt _
  have hz : (step (step s (.movImmedU16 ctx.tmp val 1))
      (tstReg ctx.fpsr ctx.tmp .LSL 0)).flags.z = !bits.any (s.get ctx.fpsr).getLsbD := by
    have hand := and_beq_zero (s.get ctx.fpsr) (val.zeroExtend 32 <<< 16) bits hm hbits
    simp only [step, tstReg, logicFlags, Cpu.get_put s htmp, Cpu.get_put_of_ne s h.fpsr_ne.symm,
      Shift.apply, BitVec.shiftLeft_zero, Nat.mul_one]
    exact hand
  refine ⟨.before hmov (.before (moved_flags _ _) (tests_nil ?_)),
    .before hmov (.before (moved_flags _ _) (tests_nil hz))⟩
  show (!(step (step s (.movImmedU16 ctx.tmp val 1)) (tstReg ctx.fpsr ctx.tmp .LSL 0)).flags.z) = _
  rw [hz, Bool.not_not]

/-- A test of bits of a value that two instructions have computed. -/
theorem tests_computed (h : ctx.Allocated) {op₁ op₂ : Op} {x y : BitVec 32}
    (h₁ : step s op₁ = s.put ctx.tmp x)
    (h₂ : step (s.put ctx.tmp x) op₂ = (s.put ctx.tmp x).put ctx.tmp y) {width ror : BitVec 8}
    (bits : List ℕ) (hm : ∀ i < 32, (bitmask width ror).getLsbD i = bits.contains i)
    (hbits : ∀ i ∈ bits, i < 32) :
    Tests [.op op₁, .op op₂, .op (tstImmed ctx.tmp width ror)] ccNE s (bits.any y.getLsbD) ∧
      Tests [.op op₁, .op op₂, .op (tstImmed ctx.tmp width ror)] ccEQ s
        (!bits.any y.getLsbD) := by
  have htmp := ne_of_scratch h.tmp_lt (show 12 ≤ 31 by decide)
  have hmoved₁ : Moved s (step s op₁) 0 := h₁ ▸ moved_put s h.tmp_lt x
  have hmoved₂ : Moved (step s op₁) (step (step s op₁) op₂) 0 := by
    rw [h₁, h₂]
    exact moved_put _ h.tmp_lt y
  have hget : (step (step s op₁) op₂).get ctx.tmp = y := by
    rw [h₁, h₂, Cpu.get_put _ htmp]
  obtain ⟨hne, heq⟩ := tests_tst (r := ctx.tmp) (step (step s op₁) op₂) bits hm hbits
  rw [hget] at hne heq
  exact ⟨.before hmoved₁ (.before hmoved₂ hne), .before hmoved₁ (.before hmoved₂ heq)⟩

theorem bitmask_fpsr :
    bitmask 1 (rorTo fpsrbN) = 0x08000000#32 ∧ bitmask 1 (rorTo fpsrbZ) = 0x04000000#32 ∧
      bitmask 1 (rorTo fpsrbNAN) = 0x01000000#32 ∧
      bitmask (32 - 1) (rorTo fpsrbI - 1) = 0xfdffffff#32 := by
  decide +kernel

theorem predicate_cases : ∀ p : BitVec 4, p = 0 ∨ p = 1 ∨ p = 2 ∨ p = 3 ∨ p = 4 ∨ p = 5 ∨ p = 6 ∨
    p = 7 ∨ p = 8 ∨ p = 9 ∨ p = 10 ∨ p = 11 ∨ p = 12 ∨ p = 13 ∨ p = 14 ∨ p = 15 := by
  decide

theorem fpuTest_spec (h : ctx.Allocated) (hhost : ctx.hostFlags ≠ fpFlags) {predicate : BitVec 4}
    (hpos : predicate ≠ 0) (hlt : predicate ≠ 15) (s : A64.Cpu) :
    Tests (fpuTest ctx predicate).1 (fpuTest ctx predicate).2 s
      ((fpccOf (s.get ctx.fpsr)).holds predicate) := by
  have htmp := ne_of_scratch h.tmp_lt (show 12 ≤ 31 by decide)
  obtain ⟨hN, hZ, hNAN, hI⟩ := bitmask_fpsr
  have hmoved : ∀ bit, Moved s (step s (tstImmed ctx.fpsr 1 (rorTo bit))) 0 :=
    fun bit ↦ moved_flags s _
  have hget : ∀ (s : A64.Cpu) (x : BitVec 32), (s.put ctx.tmp x).get ctx.tmp = x :=
    fun s x ↦ Cpu.get_put s htmp x
  generalize hx : s.get ctx.fpsr = x
  rcases predicate_cases predicate with rfl | rfl | rfl | rfl | rfl | rfl | rfl | rfl | rfl | rfl | rfl | rfl |
    rfl | rfl | rfl | rfl
  · exact absurd rfl hpos
  -- EQ
  · rw [show fpuTest ctx 1 = _ from if_neg hhost]
    refine (tests_tst s [26] (by decide +kernel) (by decide)).1.congr ?_
    simp [fpccOf, Fpcc.holds, hx]
  -- OGT
  · rw [show fpuTest ctx 2 = _ from if_neg hhost]
    refine (tests_tstReg h s 0x0d00 [24, 26, 27] (by decide +kernel) (by decide)).2.congr ?_
    simp [fpccOf, Fpcc.holds, hx, Bool.and_assoc]
  -- OGE
  · rw [show fpuTest ctx 3 = _ from if_neg hhost]
    refine (tests_or (hmoved _) (tst_ne s [26] (by decide +kernel) (by decide))
      (tests_computed h (x := x ||| x <<< 3) (y := (x ||| x <<< 3) ^^^ 0x08000000#32)
        (by rw [← hx]; rfl) (by simp only [step, hget, hN])
        [27] (by decide +kernel) (by decide)).1).congr ?_
    simp [fpccOf, Fpcc.holds, hx, Bool.or_comm]
  -- OLT
  · rw [show fpuTest ctx 4 = _ from if_neg hhost]
    have hclear : step s (bicImmed ctx.tmp ctx.fpsr 1 (rorTo fpsrbI)) =
        s.put ctx.tmp (x &&& 0xfdffffff#32) := by
      simp only [step, bicImmed, hx, hI]
    refine (Tests.before (hclear ▸ moved_put s h.tmp_lt _)
      (tests_computed h (x := (x &&& 0xfdffffff#32) ||| (x &&& 0xfdffffff#32) <<< 2)
        (y := ((x &&& 0xfdffffff#32) ||| (x &&& 0xfdffffff#32) <<< 2) ^^^ 0x08000000#32)
        (by rw [hclear]; simp only [step, hget]; rfl) (by simp only [step, hget, hN])
        [26, 27] (by decide +kernel) (by decide)).2).congr ?_
    simp [fpccOf, Fpcc.holds, Bool.or_comm, Bool.and_comm]
  -- OLE
  · rw [show fpuTest ctx 5 = _ from if_neg hhost]
    refine (tests_or (hmoved _) (tst_ne s [26] (by decide +kernel) (by decide))
      (tests_computed h (x := x ^^^ 0x01000000#32)
        (y := (x ^^^ 0x01000000#32) &&& (x ^^^ 0x01000000#32) <<< 3)
        (by rw [← hx, ← hNAN]; rfl) (by simp only [step, hget]; rfl)
        [27] (by decide +kernel) (by decide)).1).congr ?_
    simp [fpccOf, Fpcc.holds, hx]
  -- OGL
  · refine (tests_tstReg h s 0x0500 [24, 26] (by decide +kernel) (by decide)).2.congr ?_
    simp [fpccOf, Fpcc.holds, hx]
  -- OR
  · rw [show fpuTest ctx 7 = _ from if_neg hhost]
    refine (tests_tst s [24] (by decide +kernel) (by decide)).2.congr ?_
    simp [fpccOf, Fpcc.holds, hx]
  -- UN
  · rw [show fpuTest ctx 8 = _ from if_neg hhost]
    refine (tests_tst s [24] (by decide +kernel) (by decide)).1.congr ?_
    simp [fpccOf, Fpcc.holds, hx]
  -- UEQ
  · refine (tests_tstReg h s 0x0500 [24, 26] (by decide +kernel) (by decide)).1.congr ?_
    simp [fpccOf, Fpcc.holds, hx]
  -- UGT
  · refine (tests_or (hmoved _) (tst_ne s [24] (by decide +kernel) (by decide))
      (tests_computed h (x := x ||| x >>> 1) (y := 0#32 ||| ~~~((x ||| x >>> 1) <<< 0))
        (by rw [← hx]; rfl) (by simp only [step, mvnReg, hget, Cpu.get_zero]; rfl)
        [26] (by decide +kernel) (by decide)).1).congr ?_
    simp [fpccOf, Fpcc.holds, hx, Bool.and_comm]
  -- UGE
  · refine (tests_computed h (x := x ^^^ 0x08000000#32)
      (y := (x ^^^ 0x08000000#32) &&& 0xfdffffff#32)
      (by simp only [step, hx, hN]) (by simp only [step, bicImmed, hget, hI])
      [24, 25, 26, 27] (by decide +kernel) (by decide)).1.congr ?_
    simp [fpccOf, Fpcc.holds, Bool.or_assoc]
  -- ULT
  · refine (tests_or (hmoved _) (tst_ne s [24] (by decide +kernel) (by decide))
      (tests_computed h (x := x ^^^ 0x04000000#32)
        (y := (x ^^^ 0x04000000#32) &&& (x ^^^ 0x04000000#32) <<< 1)
        (by rw [← hx, ← hZ]; rfl) (by simp only [step, hget]; rfl)
        [27] (by decide +kernel) (by decide)).1).congr ?_
    simp [fpccOf, Fpcc.holds, hx]
  -- ULE
  · refine (tests_tstReg h s 0x0d00 [24, 26, 27] (by decide +kernel) (by decide)).1.congr ?_
    simp [fpccOf, Fpcc.holds, hx, Bool.or_assoc]
  -- NE
  · rw [show fpuTest ctx 14 = _ from if_neg hhost]
    refine (tests_tst s [26] (by decide +kernel) (by decide)).2.congr ?_
    simp [fpccOf, Fpcc.holds, hx]
  · exact absurd rfl hlt

end Emu68.Branch
